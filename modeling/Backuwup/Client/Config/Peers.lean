/-
# The table of peers (`client/src/config/peers.rs`)

A client keeps one row for each peer, with three counters: the bytes it has sent to the peer,
the bytes it has received from it, and the bytes the server has matched between the two.  The
counters are 64-bit integers in the database; here they are integers, since no sum of sizes
comes near 2^63.  The times of the first and the last contact are left out.
-/
import Backuwup.Shared.Types
import Mathlib.Algebra.Order.Group.Abs
import Mathlib.Algebra.Order.Group.Int
import Mathlib.Data.List.Nodup
import Mathlib.Data.List.Sort

namespace Backuwup.Client

/-- `PEER_STORAGE_USAGE_SPREAD`, the maximum storage used over the negotiated storage space, per
peer: 16 MiB. -/
def peerStorageUsageSpread : ℤ := 16777216

structure PeerInfo where
  bytesTransmitted : ℤ
  bytesReceived : ℤ
  bytesNegotiated : ℤ
deriving DecidableEq

/-- The rows, whose primary key is the public key of the peer. -/
structure Peers where
  rows : List (ClientId × PeerInfo)
  primaryKey : (rows.map Prod.fst).Nodup
deriving DecidableEq

namespace Peers

/-! ## 1. The statements -/

def empty : Peers := ⟨[], List.nodup_nil⟩

def getPeerInfo (peers : Peers) (id : ClientId) : Option PeerInfo :=
  (peers.rows.find? fun row => row.1 = id).map Prod.snd

/-- `update peers set … where pubkey = id`. -/
def update (peers : Peers) (id : ClientId) (f : PeerInfo → PeerInfo) : Peers where
  rows := peers.rows.map fun row => (row.1, if row.1 = id then f row.2 else row.2)
  primaryKey := by
    rw [List.map_map]
    exact peers.primaryKey

/-- `insert into peers`, which fails for a peer that has a row. -/
def insert (peers : Peers) (id : ClientId) (peer : PeerInfo)
    (hnew : peers.getPeerInfo id = none) : Peers where
  rows := peers.rows ++ [(id, peer)]
  primaryKey := by
    rw [List.map_append, List.nodup_append]
    refine ⟨peers.primaryKey, List.nodup_singleton _, ?_⟩
    intro a ha b hb hab
    obtain rfl := List.mem_singleton.mp hb
    obtain ⟨row, hrow, rfl⟩ := List.mem_map.mp ha
    rw [getPeerInfo, Option.map_eq_none_iff, List.find?_eq_none] at hnew
    exact hnew row hrow (by simpa using hab)

def addOrIncrementPeer (peers : Peers) (id : ClientId) (negotiated : ℕ) : Peers :=
  if hnew : peers.getPeerInfo id = none then peers.insert id ⟨0, 0, negotiated⟩ hnew
  else peers.update id fun peer =>
    { peer with bytesNegotiated := peer.bytesNegotiated + negotiated }

def peerIncrementTransmitted (peers : Peers) (id : ClientId) (amount : ℕ) : Peers :=
  peers.update id fun peer => { peer with bytesTransmitted := peer.bytesTransmitted + amount }

def peerIncrementReceived (peers : Peers) (id : ClientId) (amount : ℕ) : Peers :=
  peers.update id fun peer => { peer with bytesReceived := peer.bytesReceived + amount }

def freeStorage (peer : PeerInfo) : ℤ := peer.bytesNegotiated - peer.bytesTransmitted

def findPeersWithStorage (peers : Peers) : List ClientId :=
  ((peers.rows.filter fun row =>
      0 < freeStorage row.2 ∨ |freeStorage row.2| < peerStorageUsageSpread).mergeSort
    fun row row' => decide (freeStorage row'.2 ≤ freeStorage row.2)).map Prod.fst

/-- A counter of a peer, zero before it has a row. -/
def counter (peers : Peers) (id : ClientId) (f : PeerInfo → ℤ) : ℤ :=
  (peers.getPeerInfo id).elim 0 f

/-! ## 2. What they do to a row -/

variable {peers : Peers} {id id' : ClientId}

@[simp] theorem getPeerInfo_empty : empty.getPeerInfo id = none := rfl

theorem getPeerInfo_update (f : PeerInfo → PeerInfo) : (peers.update id f).getPeerInfo id'
    = (peers.getPeerInfo id').map fun peer => if id' = id then f peer else peer := by
  unfold getPeerInfo update
  rw [List.find?_map, Option.map_map, Option.map_map]
  refine Option.map_congr fun row hrow => ?_
  have hkey : row.1 = id' := by simpa using List.find?_some hrow
  simp [hkey]

theorem getPeerInfo_insert (peer : PeerInfo) (hnew : peers.getPeerInfo id = none) :
    (peers.insert id peer hnew).getPeerInfo id'
      = (peers.getPeerInfo id').or (if id = id' then some peer else none) := by
  unfold getPeerInfo insert
  rw [List.find?_append, Option.map_or]
  by_cases h : id = id' <;> simp [h]

/-- The row after a match. -/
theorem getPeerInfo_addOrIncrementPeer (negotiated : ℕ) :
    (peers.addOrIncrementPeer id negotiated).getPeerInfo id =
      some (match peers.getPeerInfo id with
        | none => ⟨0, 0, negotiated⟩
        | some peer => { peer with bytesNegotiated := peer.bytesNegotiated + negotiated }) := by
  unfold addOrIncrementPeer
  split
  · rename_i hnew
    simp [getPeerInfo_insert, hnew]
  · rename_i hold
    obtain ⟨peer, hpeer⟩ := Option.ne_none_iff_exists'.mp hold
    simp [getPeerInfo_update, hpeer]

/-- The rows of other peers. -/
theorem getPeerInfo_update_of_ne (h : id ≠ id') (f : PeerInfo → PeerInfo) :
    (peers.update id f).getPeerInfo id' = peers.getPeerInfo id' := by
  simp only [getPeerInfo_update, if_neg (Ne.symm h)]
  exact Option.map_id'

theorem getPeerInfo_addOrIncrementPeer_of_ne (h : id ≠ id') (negotiated : ℕ) :
    (peers.addOrIncrementPeer id negotiated).getPeerInfo id' = peers.getPeerInfo id' := by
  unfold addOrIncrementPeer
  split
  · rw [getPeerInfo_insert, if_neg h, Option.or_none]
  · exact getPeerInfo_update_of_ne h _

/-- No row is added or removed. -/
theorem getPeerInfo_update_eq_none {f : PeerInfo → PeerInfo} :
    (peers.update id f).getPeerInfo id' = none ↔ peers.getPeerInfo id' = none := by
  rw [getPeerInfo_update, Option.map_eq_none_iff]

theorem counter_update_of_eq {f : PeerInfo → PeerInfo} {g : PeerInfo → ℤ}
    (h : ∀ peer, g (f peer) = g peer) :
    (peers.update id f).counter id' g = peers.counter id' g := by
  unfold counter
  rw [getPeerInfo_update]
  cases peers.getPeerInfo id' with
  | none => rfl
  | some peer =>
    simp only [Option.map_some, Option.elim_some]
    split
    · exact h peer
    · rfl

theorem counter_peerIncrementTransmitted (amount : ℕ) (h : peers.getPeerInfo id ≠ none) :
    (peers.peerIncrementTransmitted id amount).counter id PeerInfo.bytesTransmitted
      = peers.counter id PeerInfo.bytesTransmitted + amount := by
  obtain ⟨peer, hpeer⟩ := Option.ne_none_iff_exists'.mp h
  simp [counter, peerIncrementTransmitted, getPeerInfo_update, hpeer]

/-- Without a row nothing is counted. -/
theorem counter_peerIncrementReceived_le (amount : ℕ) :
    (peers.peerIncrementReceived id amount).counter id PeerInfo.bytesReceived
      ≤ peers.counter id PeerInfo.bytesReceived + amount := by
  cases hpeer : peers.getPeerInfo id <;>
    simp [counter, peerIncrementReceived, getPeerInfo_update, hpeer]

theorem counter_addOrIncrementPeer (negotiated : ℕ) :
    (peers.addOrIncrementPeer id negotiated).counter id PeerInfo.bytesNegotiated
      = peers.counter id PeerInfo.bytesNegotiated + negotiated := by
  cases hpeer : peers.getPeerInfo id <;> simp [counter, getPeerInfo_addOrIncrementPeer, hpeer]

/-- A match leaves the other counters. -/
theorem counter_addOrIncrementPeer_of_eq {g : PeerInfo → ℤ}
    (h : ∀ peer n, g { peer with bytesNegotiated := n } = g peer) (h0 : ∀ n, g ⟨0, 0, n⟩ = 0)
    (negotiated : ℕ) :
    (peers.addOrIncrementPeer id negotiated).counter id g = peers.counter id g := by
  cases hpeer : peers.getPeerInfo id with
  | none => simp [counter, getPeerInfo_addOrIncrementPeer, hpeer, h0]
  | some peer =>
    simp only [counter, getPeerInfo_addOrIncrementPeer, hpeer, Option.elim_some]
    exact h peer _

/-- A peer is listed if its row says that there is storage left. -/
theorem mem_findPeersWithStorage : id ∈ peers.findPeersWithStorage ↔
    ∃ peer, peers.getPeerInfo id = some peer ∧
      (0 < freeStorage peer ∨ |freeStorage peer| < peerStorageUsageSpread) := by
  have hget : ∀ peer, peers.getPeerInfo id = some peer ↔ (id, peer) ∈ peers.rows := by
    intro peer
    unfold getPeerInfo
    rw [Option.map_eq_some_iff]
    constructor
    · rintro ⟨row, hrow, rfl⟩
      have hkey : row.1 = id := by simpa using List.find?_some hrow
      exact hkey ▸ List.mem_of_find?_eq_some hrow
    · intro hmem
      obtain ⟨row, hrow⟩ := Option.isSome_iff_exists.mp
        (List.find?_isSome.mpr ⟨(id, peer), hmem, by simp⟩ :
          (peers.rows.find? fun row => row.1 = id).isSome = true)
      have hkey : row.1 = id := by simpa using List.find?_some hrow
      have heq : row = (id, peer) := List.inj_on_of_nodup_map peers.primaryKey
        (List.mem_of_find?_eq_some hrow) hmem hkey
      exact ⟨row, hrow, by rw [heq]⟩
  simp [findPeersWithStorage, hget]

end Peers

end Backuwup.Client
