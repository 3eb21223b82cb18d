/-
# The free space of a peer, as its two sides see it

A sender keeps in its table what it has negotiated with a peer and transmitted to it, and
`find_peers_with_storage` lists the peer while that leaves storage.  The receiver keeps what it
has negotiated and received, and `handle_receiving` admits the sender while that leaves storage.
Nothing keeps the two tables together: each side handles the match on its own, and the receiver
counts a file before the sender has learned of it.

`State` has both sides, the messages that carry files, and what the server has matched.  The
sender asks for peers only while it has no connection (`get_peer_connection` in `send.rs`).
The size that the sender counts is that of `fs::metadata`, which is taken before a packfile is read
and after an index file has been acknowledged; the receiver counts what it was sent.
`listed_peer_admits` says when a peer that is listed admits the sender: if the receiver is first
to record what is matched, the sender learns of every file that was counted, and it does not count
less.
-/
import Backuwup.Client.NetP2p.ReceivedFiles

namespace Backuwup.Client.FreeSpace

open Receiving (Event Phase)

/-! ## 1. The two sides -/

/-- The two clients, and the obfuscation key of the receiver. -/
structure Parties where
  sender : ClientId
  receiver : ClientId
  key : FixedBytes 4

inductive Sending
  /-- it has no connection -/
  | idle
  | connected (t : ℕ)
  /-- in `send_data`, over the session `t`, with the size that the file had before it was read -/
  | awaiting (t : ℕ) (size : ℕ) (info : FileInfo) (data : Bytes)
  /-- `send_data` has returned `Ok` -/
  | confirmed (t : ℕ) (size : ℕ) (info : FileInfo) (data : Bytes)
deriving DecidableEq

structure State where
  /-- what the server has matched between the two, and how many of these each side has handled -/
  matched : List ℕ
  handledSender : ℕ
  handledReceiver : ℕ
  /-- the table of the sender -/
  peers : Peers
  sending : Sending
  /-- the files on their way, with their sessions -/
  flight : List (ℕ × FileInfo × Bytes)
  receiver : Receiving.State
  /-- whether the receiver has counted the file that the sender waits for -/
  counted : Bool
deriving DecidableEq

def start : State := ⟨[], 0, 0, .empty, .idle, [], Receiving.start, false⟩

inductive Action
  /-- the server matches the two, and tells both -/
  | fulfill (storage : ℕ)
  /-- `handle_storage_request_matched`, which may fail -/
  | senderHandles (ok : Bool)
  | receiverHandles (ok : Bool)
  /-- the sender receives a file of the peer -/
  | senderReceived (amount : ℕ)
  | connect
  /-- `get_peer_connection` picks a session of a listed peer -/
  | pick (t : ℕ)
  /-- the file has this size, and then is read -/
  | send (size : ℕ) (info : FileInfo) (data : Bytes)
  | lose (message : ℕ × FileInfo × Bytes)
  /-- an event of a session at the receiver -/
  | session (t : ℕ) (event : Event)
  /-- the acknowledgement of the file arrives -/
  | confirm
  /-- `peer_increment_transmitted`, which may fail; an index file has this size by then -/
  | countSent (size : ℕ) (ok : Bool)
  /-- `send_data` fails, or times out -/
  | giveUp
  | disconnect
deriving DecidableEq

namespace State

/-- The session is at the end of `save_file` with this file. -/
def counting (s : State) (t : ℕ) : Option (FileInfo × Bytes) :=
  match s.receiver.tasks[t]? with
  | some ⟨.written info data, _⟩ => some (info, data)
  | _ => none

/-- The sender waits for this file. -/
def awaits (s : State) (t : ℕ) (file : FileInfo × Bytes) : Bool :=
  match s.sending with
  | .awaiting t' _ info data => decide (t' = t ∧ info = file.1 ∧ data = file.2)
  | _ => false

/-- The message of a delivery is on its way. -/
def carries (s : State) (t : ℕ) : Event → Bool
  | .deliver info data => decide ((t, info, data) ∈ s.flight)
  | _ => true

/-- The messages after an event. -/
def landed (s : State) (t : ℕ) : Event → List (ℕ × FileInfo × Bytes)
  | .deliver info data => s.flight.erase (t, info, data)
  | _ => s.flight

/-- Whether the file under way is counted after an event. -/
def countedBy (s : State) (t : ℕ) : Event → Bool
  | .count true => s.counted || (s.counting t).any (s.awaits t)
  | _ => s.counted

/-- The session has acknowledged the file. -/
def acknowledged (s : State) (t : ℕ) (info : FileInfo) : Bool :=
  s.receiver.tasks[t]?.any fun session => decide (info ∈ session.acknowledged)

end State

/-- The size that is counted of a file: that before it was read, or that after it was sent. -/
def countedSize (info : FileInfo) (before after : ℕ) : ℕ :=
  match info with
  | .packfile _ => before
  | .index _ => after

def step (p : Parties) (s : State) : Action → Option State
  | .fulfill storage => some { s with matched := s.matched ++ [storage] }
  | .senderHandles ok =>
    s.matched[s.handledSender]?.map fun storage =>
      { s with
        handledSender := s.handledSender + 1
        peers := if ok then s.peers.addOrIncrementPeer p.receiver storage else s.peers }
  | .receiverHandles true =>
    s.matched[s.handledReceiver]?.bind fun storage =>
      (Receiving.step p.sender p.key s.receiver (.matched storage)).map fun r =>
        { s with handledReceiver := s.handledReceiver + 1, receiver := r }
  | .receiverHandles false =>
    s.matched[s.handledReceiver]?.map fun _ =>
      { s with handledReceiver := s.handledReceiver + 1 }
  | .senderReceived amount =>
    some { s with peers := s.peers.peerIncrementReceived p.receiver amount }
  | .connect =>
    -- `accept_and_listen` ignores unknown peers
    if (s.receiver.shared.peers.getPeerInfo p.sender).isSome then
      (Receiving.step p.sender p.key s.receiver .connect).map fun r => { s with receiver := r }
    else none
  | .pick t =>
    if s.sending = .idle ∧ p.receiver ∈ s.peers.findPeersWithStorage ∧
        t < s.receiver.tasks.length then
      some { s with sending := .connected t }
    else none
  | .send size info data =>
    match s.sending with
    | .connected t => some { s with
        sending := .awaiting t size info data
        flight := s.flight ++ [(t, info, data)]
        counted := false }
    | _ => none
  | .lose message => some { s with flight := s.flight.erase message }
  | .session t event =>
    if s.carries t event then
      (Receiving.step p.sender p.key s.receiver (.session t event)).map fun r =>
        { s with receiver := r, flight := s.landed t event, counted := s.countedBy t event }
    else none
  | .confirm =>
    match s.sending with
    | .awaiting t size info data =>
      if s.acknowledged t info then some { s with sending := .confirmed t size info data }
      else none
    | _ => none
  | .countSent size ok =>
    match s.sending with
    | .confirmed t before info _ => some (if ok then
        { s with
          sending := .connected t
          peers := s.peers.peerIncrementTransmitted p.receiver (countedSize info before size) }
        else { s with sending := .idle })
    | _ => none
  | .giveUp =>
    match s.sending with
    | .awaiting _ _ _ _ => some { s with sending := .idle }
    | _ => none
  | .disconnect =>
    match s.sending with
    | .connected _ => some { s with sending := .idle }
    | _ => none

/-! ## 2. The property and its condition -/

/-- When the sender asks for peers and the receiver is listed, the receiver admits it. -/
def Agrees (p : Parties) (s : State) : Prop :=
  s.sending = .idle → p.receiver ∈ s.peers.findPeersWithStorage →
    s.receiver.shared.allows p.sender = true

/-- What the sender records as matched, the receiver has recorded before it.  The receiver counts a
file only while the sender waits for it, and the sender counts each file that the receiver has
counted, by a size no less than what it has sent. -/
def InStep (p : Parties) (s : State) : Action → Prop
  | .senderHandles true => s.receiver.shared.peers.getPeerInfo p.sender ≠ none ∧
    ∀ storage, s.matched[s.handledSender]? = some storage →
      s.peers.counter p.receiver PeerInfo.bytesNegotiated + storage
        ≤ s.receiver.shared.peers.counter p.sender PeerInfo.bytesNegotiated
  | .session t (.count true) =>
    ∀ file, s.counting t = some file → s.counted = false ∧ s.awaits t file = true
  | .send size (.packfile _) data => data.length ≤ size
  | .countSent size ok => ok = true ∧ ∀ t before n data,
    s.sending = .confirmed t before (.index n) data → data.length ≤ size
  | .giveUp => s.counted = false
  | _ => True

/-! ## 3. The invariant -/

namespace State

/-- What the receiver has counted. -/
def received (s : State) (p : Parties) : ℤ :=
  s.receiver.shared.peers.counter p.sender PeerInfo.bytesReceived

/-- What the sender has counted. -/
def transmitted (s : State) (p : Parties) : ℤ :=
  s.peers.counter p.receiver PeerInfo.bytesTransmitted

/-- What the receiver may have counted before the sender. -/
def owed (s : State) : ℕ :=
  match s.sending with
  | .awaiting _ _ _ data => if s.counted then data.length else 0
  | .confirmed _ _ _ data => data.length
  | _ => 0

/-- The size of a packfile under way is no less than what has been read of it. -/
def SizedRight (s : State) : Prop :=
  ∀ t before id data, s.sending = .awaiting t before (.packfile id) data ∨
    s.sending = .confirmed t before (.packfile id) data → data.length ≤ before

end State

/-- The receiver is never behind with what is matched, and is ahead with the files only by the one
that the sender is about to count. -/
structure Tallied (p : Parties) (s : State) : Prop where
  known : s.peers.getPeerInfo p.receiver ≠ none →
    s.receiver.shared.peers.getPeerInfo p.sender ≠ none
  matched : s.peers.counter p.receiver PeerInfo.bytesNegotiated
    ≤ s.receiver.shared.peers.counter p.sender PeerInfo.bytesNegotiated
  busy : s.sending ≠ .idle → s.peers.getPeerInfo p.receiver ≠ none
  files : s.received p ≤ s.transmitted p + s.owed
  sized : s.SizedRight

section

variable {p : Parties} {s s' : State}

theorem tallied_start : Tallied p start where
  known h := absurd rfl h
  matched := le_refl _
  busy h := absurd rfl h
  files := le_refl _
  sized := by simp [State.SizedRight, start]

theorem Tallied.senderHandles (h : Tallied p s) {storage : ℕ}
    (hnext : s.matched[s.handledSender]? = some storage) (ha : InStep p s (.senderHandles true)) :
    Tallied p { s with
      handledSender := s.handledSender + 1
      peers := s.peers.addOrIncrementPeer p.receiver storage } := by
  obtain ⟨hknown, hmatched⟩ := ha
  refine { h with known := fun _ => hknown, matched := ?_, busy := fun _ => ?_, files := ?_ }
  · rw [Peers.counter_addOrIncrementPeer]
    exact hmatched storage hnext
  · simp [Peers.getPeerInfo_addOrIncrementPeer]
  · have htrans : (s.peers.addOrIncrementPeer p.receiver storage).counter p.receiver
        PeerInfo.bytesTransmitted = s.peers.counter p.receiver PeerInfo.bytesTransmitted :=
      Peers.counter_addOrIncrementPeer_of_eq (fun _ _ => rfl) (fun _ => rfl) storage
    have hfiles := h.files
    simp only [State.transmitted, htrans] at hfiles ⊢
    exact hfiles

theorem Tallied.receiverHandles (h : Tallied p s) {storage : ℕ} {r : Receiving.State}
    (hr : Receiving.step p.sender p.key s.receiver (.matched storage) = some r) :
    Tallied p { s with handledReceiver := s.handledReceiver + 1, receiver := r } := by
  obtain rfl := Option.some.inj hr
  have hneg := h.matched
  refine { h with known := fun _ => ?_, matched := ?_, files := ?_ }
  · simp [Peers.getPeerInfo_addOrIncrementPeer]
  · rw [Peers.counter_addOrIncrementPeer]
    exact hneg.trans (by omega)
  · have hrec : (s.receiver.shared.peers.addOrIncrementPeer p.sender storage).counter p.sender
        PeerInfo.bytesReceived
        = s.receiver.shared.peers.counter p.sender PeerInfo.bytesReceived :=
      Peers.counter_addOrIncrementPeer_of_eq (fun _ _ => rfl) (fun _ => rfl) storage
    have hfiles := h.files
    simp only [State.received, hrec] at hfiles ⊢
    exact hfiles

/-- What an event of a session does to the table of the receiver. -/
theorem session_peers {t : ℕ} {event : Event} {r : Receiving.State}
    (hr : Receiving.step p.sender p.key s.receiver (.session t event) = some r) :
    r.shared.peers = s.receiver.shared.peers ∨
      ∃ info data, event = .count true ∧ s.counting t = some (info, data) ∧
        r.shared.peers = s.receiver.shared.peers.peerIncrementReceived p.sender data.length := by
  obtain ⟨session, store', session', ht, hst, rfl⟩ := Pool.advance_eq_some.mp hr
  have hstepped := Receiving.stepped_of_sessionStep hst
  obtain ⟨phase, acked⟩ := session
  simp only at hstepped
  cases hstepped with
  | counts info data => exact Or.inr ⟨info, data, rfl, by rw [State.counting, ht], rfl⟩
  | _ => exact Or.inl rfl

theorem Tallied.session (h : Tallied p s) {t : ℕ} {event : Event} {r : Receiving.State}
    (ha : InStep p s (.session t event))
    (hr : Receiving.step p.sender p.key s.receiver (.session t event) = some r) :
    Tallied p { s with
      receiver := r
      flight := s.landed t event
      counted := s.countedBy t event } := by
  have hfiles := h.files
  rcases session_peers hr with hpeers | ⟨info, data, rfl, hcounting, hpeers⟩
  · have howed : s.owed ≤ State.owed { s with
        receiver := r, flight := s.landed t event, counted := s.countedBy t event } := by
      have hmono : s.counted = true → s.countedBy t event = true := by
        intro hc
        unfold State.countedBy
        split <;> simp [hc]
      simp only [State.owed]
      cases s.sending with
      | awaiting t' size info data =>
        by_cases hc : s.counted = true
        · simp [hc, hmono hc]
        · simp [hc]
      | _ => exact le_refl _
    refine { h with known := fun hne => ?_, matched := ?_, files := ?_ }
    · rw [hpeers]
      exact h.known hne
    · rw [hpeers]
      exact h.matched
    · simp only [State.received, State.transmitted, hpeers] at hfiles ⊢
      omega
  · -- the file that the sender waits for is counted
    obtain ⟨hnot, hawaits⟩ := ha _ hcounting
    obtain ⟨size, hsending⟩ : ∃ size, s.sending = .awaiting t size info data := by
      unfold State.awaits at hawaits
      split at hawaits
      · rename_i t' size info' data' hsending
        obtain ⟨rfl, rfl, rfl⟩ := of_decide_eq_true hawaits
        exact ⟨size, hsending⟩
      · cases hawaits
    have hcounted : s.countedBy t (.count true) = true := by
      simp [State.countedBy, hcounting, hawaits]
    have hle : (s.receiver.shared.peers.peerIncrementReceived p.sender data.length).counter
        p.sender PeerInfo.bytesReceived
        ≤ s.receiver.shared.peers.counter p.sender PeerInfo.bytesReceived + data.length :=
      Peers.counter_peerIncrementReceived_le data.length
    refine { h with known := fun hne => ?_, matched := ?_, files := ?_ }
    · rw [hpeers, Peers.peerIncrementReceived, ne_eq, Peers.getPeerInfo_update_eq_none]
      exact h.known hne
    · have hneg : (s.receiver.shared.peers.peerIncrementReceived p.sender data.length).counter
          p.sender PeerInfo.bytesNegotiated
          = s.receiver.shared.peers.counter p.sender PeerInfo.bytesNegotiated :=
        Peers.counter_update_of_eq fun _ => rfl
      rw [hpeers, hneg]
      exact h.matched
    · simp only [State.received, State.transmitted, State.owed, hsending, hnot, hcounted, hpeers,
        if_true, if_false, Bool.false_eq_true] at hfiles ⊢
      omega

theorem Tallied.senderReceived (h : Tallied p s) (amount : ℕ) :
    Tallied p { s with peers := s.peers.peerIncrementReceived p.receiver amount } := by
  have hneg : (s.peers.peerIncrementReceived p.receiver amount).counter p.receiver
      PeerInfo.bytesNegotiated = s.peers.counter p.receiver PeerInfo.bytesNegotiated :=
    Peers.counter_update_of_eq fun _ => rfl
  have htrans : (s.peers.peerIncrementReceived p.receiver amount).counter p.receiver
      PeerInfo.bytesTransmitted = s.peers.counter p.receiver PeerInfo.bytesTransmitted :=
    Peers.counter_update_of_eq fun _ => rfl
  have hrow : (s.peers.peerIncrementReceived p.receiver amount).getPeerInfo p.receiver = none ↔
      s.peers.getPeerInfo p.receiver = none := Peers.getPeerInfo_update_eq_none
  have hfiles := h.files
  refine { h with
    known := fun hne => h.known (mt hrow.mpr hne)
    matched := ?_
    busy := fun hne => mt hrow.mp (h.busy hne)
    files := ?_ }
  · rw [hneg]
    exact h.matched
  · simp only [State.transmitted, htrans] at hfiles ⊢
    exact hfiles

/-- The sender counts a file of which it has the acknowledgement. -/
theorem Tallied.countSent (h : Tallied p s) {t before size : ℕ} {info : FileInfo} {data : Bytes}
    (ha : InStep p s (.countSent size true))
    (hsending : s.sending = .confirmed t before info data) :
    Tallied p { s with
      sending := .connected t
      peers := s.peers.peerIncrementTransmitted p.receiver (countedSize info before size) } := by
  have hne := h.busy (by simp [hsending])
  have hsize : data.length ≤ countedSize info before size := by
    cases info with
    | packfile id => exact h.sized t before id data (Or.inr hsending)
    | index n => exact ha.2 t before n data hsending
  generalize countedSize info before size = counted at hsize ⊢
  have hneg : (s.peers.peerIncrementTransmitted p.receiver counted).counter p.receiver
      PeerInfo.bytesNegotiated = s.peers.counter p.receiver PeerInfo.bytesNegotiated :=
    Peers.counter_update_of_eq fun _ => rfl
  have htrans := Peers.counter_peerIncrementTransmitted counted hne
  have hrow : (s.peers.peerIncrementTransmitted p.receiver counted).getPeerInfo p.receiver
      = none ↔ s.peers.getPeerInfo p.receiver = none := Peers.getPeerInfo_update_eq_none
  have hfiles := h.files
  refine { h with
    known := fun hne => h.known (mt hrow.mpr hne)
    matched := ?_
    busy := fun _ => mt hrow.mp hne
    files := ?_
    sized := by simp [State.SizedRight] }
  · rw [hneg]
    exact h.matched
  · simp only [State.received, State.transmitted, State.owed, hsending, htrans] at hfiles ⊢
    omega

/-- The sending task moves on without counting anything. -/
theorem Tallied.setSending (h : Tallied p s) {sending : Sending} {flight : List _} {counted : Bool}
    (hbusy : sending ≠ .idle → s.peers.getPeerInfo p.receiver ≠ none)
    (howed : s.owed ≤ State.owed { s with
      sending := sending, flight := flight, counted := counted })
    (hsized : State.SizedRight { s with sending := sending }) :
    Tallied p { s with sending := sending, flight := flight, counted := counted } := by
  have hfiles := h.files
  refine { h with busy := hbusy, files := ?_, sized := hsized }
  simp only [State.received, State.transmitted] at hfiles ⊢
  omega

/-- Every step keeps the tally. -/
theorem Tallied.step (h : Tallied p s) {a : Action} (ha : InStep p s a)
    (hst : FreeSpace.step p s a = some s') : Tallied p s' := by
  cases a with
  | fulfill storage =>
    obtain rfl := Option.some.inj hst
    exact { h with }
  | senderHandles ok =>
    obtain ⟨storage, hnext, rfl⟩ := Option.map_eq_some_iff.mp hst
    cases ok with
    | true => exact h.senderHandles hnext ha
    | false => exact { h with }
  | receiverHandles ok =>
    cases ok with
    | true =>
      obtain ⟨storage, -, hst⟩ := Option.bind_eq_some_iff.mp hst
      obtain ⟨r, hr, rfl⟩ := Option.map_eq_some_iff.mp hst
      exact h.receiverHandles hr
    | false =>
      obtain ⟨storage, -, rfl⟩ := Option.map_eq_some_iff.mp hst
      exact { h with }
  | senderReceived amount =>
    obtain rfl := Option.some.inj hst
    exact h.senderReceived amount
  | connect =>
    obtain ⟨-, hst⟩ := Option.ite_none_right_eq_some.mp hst
    obtain ⟨r, hr, rfl⟩ := Option.map_eq_some_iff.mp hst
    obtain rfl := Option.some.inj hr
    exact { h with }
  | pick t =>
    obtain ⟨⟨hidle, hlisted, -⟩, hst⟩ := Option.ite_none_right_eq_some.mp hst
    obtain rfl := Option.some.inj hst
    obtain ⟨peer, hpeer, -⟩ := Peers.mem_findPeersWithStorage.mp hlisted
    exact h.setSending (fun _ => by simp [hpeer]) (by simp [State.owed, hidle])
      (by simp [State.SizedRight])
  | send size info data =>
    simp only [FreeSpace.step] at hst
    split at hst
    · rename_i t hsending
      obtain rfl := Option.some.inj hst
      refine h.setSending (fun _ => h.busy (by simp [hsending])) (by simp [State.owed, hsending]) ?_
      rintro t' before id data' (heq | heq)
      · obtain ⟨-, rfl, rfl, rfl⟩ := Sending.awaiting.inj heq
        exact ha
      · cases heq
    · cases hst
  | lose message =>
    obtain rfl := Option.some.inj hst
    exact { h with }
  | session t event =>
    obtain ⟨-, hst⟩ := Option.ite_none_right_eq_some.mp hst
    obtain ⟨r, hr, rfl⟩ := Option.map_eq_some_iff.mp hst
    exact h.session ha hr
  | confirm =>
    simp only [FreeSpace.step] at hst
    split at hst
    · rename_i t size info data hsending
      obtain ⟨-, hst⟩ := Option.ite_none_right_eq_some.mp hst
      obtain rfl := Option.some.inj hst
      refine h.setSending (fun _ => h.busy (by simp [hsending])) ?_ ?_
      · simp only [State.owed, hsending]
        split <;> simp
      · rintro t' before id data' (heq | heq)
        · cases heq
        · obtain ⟨-, rfl, rfl, rfl⟩ := Sending.confirmed.inj heq
          exact h.sized t _ _ _ (Or.inl hsending)
    · cases hst
  | countSent size ok =>
    obtain rfl : ok = true := ha.1
    simp only [FreeSpace.step] at hst
    split at hst
    · rename_i t before info data hsending
      obtain rfl := Option.some.inj hst
      exact h.countSent ha hsending
    · cases hst
  | giveUp =>
    have hnot : s.counted = false := ha
    simp only [FreeSpace.step] at hst
    split at hst
    · rename_i hsending
      obtain rfl := Option.some.inj hst
      exact h.setSending (fun hne => absurd rfl hne) (by simp [State.owed, hsending, hnot])
        (by simp [State.SizedRight])
    · cases hst
  | disconnect =>
    simp only [FreeSpace.step] at hst
    split at hst
    · rename_i hsending
      obtain rfl := Option.some.inj hst
      exact h.setSending (fun hne => absurd rfl hne) (by simp [State.owed, hsending])
        (by simp [State.SizedRight])
    · cases hst

/-- The two checks on the rows that the tally relates. -/
theorem Tallied.agrees (h : Tallied p s) : Agrees p s := by
  intro hidle hlisted
  obtain ⟨mine, hmine, hfree⟩ := Peers.mem_findPeersWithStorage.mp hlisted
  obtain ⟨theirs, htheirs⟩ := Option.ne_none_iff_exists'.mp (h.known (by simp [hmine]))
  have hmatched := h.matched
  have hfiles := h.files
  simp only [State.received, State.transmitted, State.owed, hidle, Peers.counter, hmine, htheirs,
    Option.elim_some] at hmatched hfiles
  simp only [Receiving.Store.allows, htheirs, Option.any_some, isPeerAllowedToSendData,
    decide_eq_true_eq]
  rw [abs_lt] at hfree ⊢
  simp only [Peers.freeStorage, peerStorageUsageSpread] at hfree ⊢
  omega

/-- In every run in which the receiver is first to record what is matched and the sender learns of
every file that was counted and counts no less, a peer that is listed admits the sender. -/
theorem listed_peer_admits (h : Transition.Reach (FreeSpace.step p) (InStep p) start s) :
    Agrees p s :=
  (h.invariant (I := Tallied p) tallied_start fun _ _ _ hI ha hst => hI.step ha hst).agrees

/-! ## 4. Runs -/

/-- A file is sent, saved and counted by the receiver. -/
def deliverFile (t : ℕ) (info : FileInfo) (data : Bytes) : List Action :=
  [.send data.length info data, .session t (.deliver info data), .session t (.tryExists true),
    .session t (.checkPeer true), .session t (.write .ok), .session t (.count true)]

/-- The sender learns of it. -/
def acknowledgeFile (t : ℕ) (data : Bytes) : List Action :=
  [.session t (.acknowledge true), .confirm, .countSent data.length true]

section

variable {matched : List ℕ} {n m : ℕ} {peers : Peers} {store : Receiving.Store}
  {acked : List FileInfo} {info : FileInfo} {data : Bytes} {counted : Bool}

/-- What the first part comes to in the only session. -/
theorem run_deliverFile (hlen : data.length ≤ maxEncapsulatedBackupChunkSize)
    (hnew : store.files.has info = false) (hallows : store.allows p.sender = true) :
    Transition.run (FreeSpace.step p)
      ⟨matched, n, m, peers, .connected 0, [], ⟨store, [⟨.reading, acked⟩]⟩, counted⟩
      (deliverFile 0 info data)
      = some ⟨matched, n, m, peers, .awaiting 0 data.length info data, [],
          ⟨⟨store.peers.peerIncrementReceived p.sender data.length,
            store.files.write info (obfuscateData p.key data)⟩, [⟨.saved info, acked⟩]⟩, true⟩ := by
  have hsend : FreeSpace.step p
      ⟨matched, n, m, peers, .connected 0, [], ⟨store, [⟨.reading, acked⟩]⟩, counted⟩
      (.send data.length info data)
        = some ⟨matched, n, m, peers, .awaiting 0 data.length info data, [(0, info, data)],
          ⟨store, [⟨.reading, acked⟩]⟩, false⟩ := rfl
  have hdeliver : FreeSpace.step p
      ⟨matched, n, m, peers, .awaiting 0 data.length info data, [(0, info, data)],
        ⟨store, [⟨.reading, acked⟩]⟩, false⟩ (.session 0 (.deliver info data))
        = some ⟨matched, n, m, peers, .awaiting 0 data.length info data, [],
          ⟨store, [⟨.received info data, acked⟩]⟩, false⟩ := by
    simp [FreeSpace.step, State.carries, State.landed, State.countedBy,
      Receiving.step_single (Receiving.sessionStep_deliver hlen)]
  have hexists : FreeSpace.step p
      ⟨matched, n, m, peers, .awaiting 0 data.length info data, [],
        ⟨store, [⟨.received info data, acked⟩]⟩, false⟩ (.session 0 (.tryExists true))
        = some ⟨matched, n, m, peers, .awaiting 0 data.length info data, [],
          ⟨store, [⟨.absent info data, acked⟩]⟩, false⟩ := by
    simp [FreeSpace.step, State.carries, State.landed, State.countedBy,
      Receiving.step_single (Receiving.sessionStep_tryExists hnew)]
  have hcheck : FreeSpace.step p
      ⟨matched, n, m, peers, .awaiting 0 data.length info data, [],
        ⟨store, [⟨.absent info data, acked⟩]⟩, false⟩ (.session 0 (.checkPeer true))
        = some ⟨matched, n, m, peers, .awaiting 0 data.length info data, [],
          ⟨store, [⟨.allowed info data, acked⟩]⟩, false⟩ := by
    simp [FreeSpace.step, State.carries, State.landed, State.countedBy,
      Receiving.step_single (Receiving.sessionStep_checkPeer hallows)]
  rw [deliverFile, Transition.run_cons_of_step _ hsend, Transition.run_cons_of_step _ hdeliver,
    Transition.run_cons_of_step _ hexists, Transition.run_cons_of_step _ hcheck]
  simp [Transition.run_cons, FreeSpace.step, Receiving.step, Pool.advance,
    Receiving.sessionStep, State.carries, State.landed, State.countedBy, State.counting,
    State.awaits]

/-- What the second part comes to. -/
theorem run_acknowledgeFile :
    Transition.run (FreeSpace.step p)
      ⟨matched, n, m, peers, .awaiting 0 data.length info data, [],
        ⟨store, [⟨.saved info, acked⟩]⟩, true⟩ (acknowledgeFile 0 data)
      = some ⟨matched, n, m, peers.peerIncrementTransmitted p.receiver data.length,
          .connected 0, [], ⟨store, [⟨.reading, acked ++ [info]⟩]⟩, true⟩ := by
  have hsize : countedSize info data.length data.length = data.length := by
    cases info <;> rfl
  simp [acknowledgeFile, Transition.run_cons, FreeSpace.step, Receiving.step, Pool.advance,
    Receiving.sessionStep, State.carries, State.landed, State.countedBy, State.acknowledged, hsize]

end

end

/-- Two clients, and the first session between them. -/
def couple : Parties := ⟨.fill 1, .fill 2, .fill 0⟩

def opening : List Action :=
  [.fulfill 1, .receiverHandles true, .senderHandles true, .connect, .session 0 (.accept true),
    .pick 0]

/-- `InStep`, evaluated. -/
def inStep (p : Parties) (s : State) : Action → Bool
  | .senderHandles true => (s.receiver.shared.peers.getPeerInfo p.sender).isSome &&
    s.matched[s.handledSender]?.all fun storage =>
      decide (s.peers.counter p.receiver PeerInfo.bytesNegotiated + storage
        ≤ s.receiver.shared.peers.counter p.sender PeerInfo.bytesNegotiated)
  | .session t (.count true) => (s.counting t).all fun file => !s.counted && s.awaits t file
  | .send size (.packfile _) data => decide (data.length ≤ size)
  | .countSent size ok => ok && match s.sending with
    | .confirmed _ _ (.index _) data => decide (data.length ≤ size)
    | _ => true
  | .giveUp => !s.counted
  | _ => true

theorem inStep_ok (p : Parties) (s : State) (a : Action) (h : inStep p s a = true) :
    InStep p s a := by
  cases a with
  | senderHandles ok =>
    cases ok with
    | true =>
      obtain ⟨hknown, hall⟩ := Bool.and_eq_true_iff.mp h
      refine ⟨Option.isSome_iff_ne_none.mp hknown, fun storage hnext => ?_⟩
      simpa [hnext] using hall
    | false => trivial
  | session t event =>
    cases event with
    | count ok =>
      cases ok with
      | true =>
        intro file hfile
        simpa [inStep, hfile] using h
      | false => trivial
    | _ => trivial
  | send size info data =>
    cases info with
    | packfile id =>
      have hsize : data.length ≤ size := of_decide_eq_true h
      exact hsize
    | index n => trivial
  | countSent size ok =>
    obtain ⟨hok, hsize⟩ := Bool.and_eq_true_iff.mp h
    refine ⟨hok, fun t before n data hsending => ?_⟩
    rw [hsending] at hsize
    exact of_decide_eq_true hsize
  | giveUp =>
    have hnot : s.counted = false := by simpa [inStep] using h
    exact hnot
  | _ => trivial

/-- A packfile and an index file, over what was negotiated. -/
def twoFiles : List Action :=
  opening ++ (deliverFile 0 (.packfile (.fill 4)) [1, 2, 3] ++ acknowledgeFile 0 [1, 2, 3]) ++
    (deliverFile 0 (.index 5) [6, 7] ++ acknowledgeFile 0 [6, 7]) ++ [.disconnect]

/-- After them the receiver is still listed, and admits the sender. -/
theorem listed_peer_admits_overdrawn : ∃ s,
    Transition.runWhen (step couple) (inStep couple) start twoFiles = some s ∧
    couple.receiver ∈ s.peers.findPeersWithStorage ∧ s.received couple = 5 ∧
    s.receiver.shared.allows couple.sender = true := by
  obtain ⟨s, hs, hidle, hlisted, hreceived⟩ : ∃ s,
      Transition.runWhen (step couple) (inStep couple) start twoFiles = some s ∧
      s.sending = .idle ∧ couple.receiver ∈ s.peers.findPeersWithStorage ∧
      s.received couple = 5 := by decide +kernel
  exact ⟨s, hs, hlisted, hreceived,
    listed_peer_admits (Transition.reach_of_runWhen (inStep_ok couple) hs) hidle hlisted⟩

open Receiving (bulk bulkName bulkStore)

/-- Two files of 7 MiB are transferred; the acknowledgement of a third one is lost. -/
def lostAck : List Action :=
  opening ++ ((deliverFile 0 (bulkName 0) bulk ++ acknowledgeFile 0 bulk) ++
    ((deliverFile 0 (bulkName 1) bulk ++ acknowledgeFile 0 bulk) ++
      (deliverFile 0 (bulkName 2) bulk ++ [.giveUp])))

/-- The table of the sender after `n` such files. -/
def bulkPeers : ℕ → Peers
  | 0 => Peers.empty.addOrIncrementPeer (.fill 2) 1
  | n + 1 => (bulkPeers n).peerIncrementTransmitted (.fill 2) 7340032

theorem run_bulkDelivered {n : ℕ} (hn : n < 3) (peers : Peers) (acked : List FileInfo) (c : Bool) :
    Transition.run (step couple)
      ⟨[1], 1, 1, peers, .connected 0, [], ⟨bulkStore n, [⟨.reading, acked⟩]⟩, c⟩
      (deliverFile 0 (bulkName n) bulk)
      = some ⟨[1], 1, 1, peers, .awaiting 0 bulk.length (bulkName n) bulk, [],
          ⟨bulkStore (n + 1), [⟨.saved (bulkName n), acked⟩]⟩, true⟩ := by
  have hlen : bulk.length ≤ maxEncapsulatedBackupChunkSize := by
    rw [Receiving.bulk_length]
    decide
  rw [run_deliverFile hlen (Receiving.bulkStore_new n hn) (Receiving.bulkStore_allows n hn),
    Receiving.bulk_length]
  rfl

theorem run_bulkTransferred {n : ℕ} (hn : n < 3) (acked : List FileInfo) (c : Bool) :
    Transition.run (step couple)
      ⟨[1], 1, 1, bulkPeers n, .connected 0, [], ⟨bulkStore n, [⟨.reading, acked⟩]⟩, c⟩
      (deliverFile 0 (bulkName n) bulk ++ acknowledgeFile 0 bulk)
      = some ⟨[1], 1, 1, bulkPeers (n + 1), .connected 0, [],
          ⟨bulkStore (n + 1), [⟨.reading, acked ++ [bulkName n]⟩]⟩, true⟩ := by
  rw [Transition.run_append, run_bulkDelivered hn, Option.bind_some, run_acknowledgeFile,
    Receiving.bulk_length]
  rfl

/-- The sender has counted 14 MiB and lists the receiver, which has counted 21 MiB and refuses every
session. -/
theorem listed_peer_refuses : ∃ s, Transition.run (step couple) start lostAck = some s ∧
    couple.receiver ∈ s.peers.findPeersWithStorage ∧
    s.receiver.shared.allows couple.sender = false ∧ ¬ Agrees couple s := by
  have hopen : Transition.run (step couple) start opening = some
      ⟨[1], 1, 1, bulkPeers 0, .connected 0, [], ⟨bulkStore 0, [⟨.reading, []⟩]⟩, false⟩ := by
    decide +kernel
  have hlisted : couple.receiver ∈ (bulkPeers 2).findPeersWithStorage := by decide +kernel
  have hrefused : (bulkStore 3).allows couple.sender = false := by decide +kernel
  refine ⟨⟨[1], 1, 1, bulkPeers 2, .idle, [],
    ⟨bulkStore 3, [⟨.saved (bulkName 2), [bulkName 0, bulkName 1]⟩]⟩, true⟩, ?_, hlisted, hrefused,
    ?_⟩
  · rw [lostAck, Transition.run_append, hopen, Option.bind_some, Transition.run_append,
      run_bulkTransferred (by decide), Option.bind_some, Transition.run_append,
      run_bulkTransferred (by decide), Option.bind_some, Transition.run_append,
      run_bulkDelivered (by decide)]
    rfl
  · intro h
    have hadmits := h rfl hlisted
    rw [hrefused] at hadmits
    cases hadmits

end Backuwup.Client.FreeSpace
