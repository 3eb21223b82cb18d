/-
# Receiving the backup of a peer (`net_p2p/received_files_writer.rs`, `receive.rs`)

A client stores the files of a peer in a folder of its own and counts their bytes in the row of
the peer.  Each connection of the peer is a session: `handle_receiving` looks at the row and
hands over to `handle_stream`, which saves one file after the other and acknowledges it.
`save_file` is cut at its awaits and at its calls of the file system: it looks whether the file
exists, asks for the row and decides, writes, and counts.  Any number of sessions of the same
peer run at once, while further storage is matched.

The checks of the messages are in `Signed.lean`; here a message is the file it carries.  Two
results are about this: what the count and the check of the row are good for, `quota_kept`, and
what becomes of a file that is sent again, `resent_file_refused`.
-/
import Backuwup.Client.Config.Peers
import Backuwup.Client.Packfile.BlobIndex
import Backuwup.Lib.Pool
import Backuwup.Lib.Transition
import Backuwup.Shared.P2pMessage
import Mathlib.Algebra.Order.BigOperators.Group.List

namespace Backuwup.Client

/-! ## 1. Files of a peer -/

def obfuscateData (key : FixedBytes 4) (data : Bytes) : Bytes :=
  data.mapIdx fun i byte => byte ^^^ key.bytes.getD (i % 4) 0

@[simp] theorem obfuscateData_length (key : FixedBytes 4) (data : Bytes) :
    (obfuscateData key data).length = data.length := List.length_mapIdx

/-- The files in the folder of a peer; the name of a file tells what it is. -/
abbrev PeerFiles := List (FileInfo × Bytes)

namespace PeerFiles

/-- `try_exists`. -/
def has (files : PeerFiles) (info : FileInfo) : Bool := files.any fun f => f.1 = info

/-- `fs::write`, which replaces what is there. -/
def write (files : PeerFiles) (info : FileInfo) (content : Bytes) : PeerFiles :=
  files.filter (fun f => f.1 ≠ info) ++ [(info, content)]

/-- The bytes on disk. -/
def size (files : PeerFiles) : ℕ := (files.map fun f => f.2.length).sum

variable {files : PeerFiles} {info info' : FileInfo} {content : Bytes}

theorem has_write : (files.write info content).has info' = true ↔
    info' = info ∨ files.has info' = true := by
  simp only [has, write, List.any_append, List.any_filter, Bool.or_eq_true, List.any_eq_true,
    List.mem_singleton, Bool.and_eq_true, decide_eq_true_eq]
  constructor
  · rintro (⟨f, hf, -, rfl⟩ | ⟨f, rfl, rfl⟩)
    · exact Or.inr ⟨f, hf, rfl⟩
    · exact Or.inl rfl
  · rintro (rfl | ⟨f, hf, rfl⟩)
    · exact Or.inr ⟨_, rfl, rfl⟩
    · by_cases h : f.1 = info
      · exact Or.inr ⟨_, rfl, h.symm⟩
      · exact Or.inl ⟨f, hf, h, rfl⟩

theorem size_write_le : (files.write info content).size ≤ files.size + content.length := by
  have hle : ((files.filter fun f => decide (f.1 ≠ info)).map fun f => f.2.length).sum
      ≤ (files.map fun f => f.2.length).sum :=
    (List.filter_sublist.map _).sum_le_sum fun _ _ => Nat.zero_le _
  simp only [size, write, List.map_append, List.map_cons, List.map_nil, List.sum_append,
    List.sum_cons, List.sum_nil]
  omega

/-- A new file. -/
theorem size_write_of_not_has (h : files.has info = false) :
    (files.write info content).size = files.size + content.length := by
  have hall : files.filter (fun f => f.1 ≠ info) = files := by
    refine List.filter_eq_self.mpr fun f hf => ?_
    simp only [has, List.any_eq_false, decide_eq_true_eq] at h
    simpa using h f hf
  rw [size, write, hall]
  simp [size]

end PeerFiles

def isPeerAllowedToSendData (peer : PeerInfo) : Bool :=
  decide (1 ≤ peer.bytesNegotiated - peer.bytesReceived ∨
    |peer.bytesNegotiated - peer.bytesReceived| < peerStorageUsageSpread)

namespace Receiving

/-! ## 2. Sessions -/

/-- Where a session is. -/
inductive Phase
  /-- `handle_receiving` has not looked at the row of the peer -/
  | opened
  /-- waiting for a message -/
  | reading
  /-- a message has been accepted -/
  | received (info : FileInfo) (data : Bytes)
  /-- the file does not exist -/
  | absent (info : FileInfo) (data : Bytes)
  /-- the peer is allowed to send it -/
  | allowed (info : FileInfo) (data : Bytes)
  | written (info : FileInfo) (data : Bytes)
  /-- `save_file` has returned `Ok` -/
  | saved (info : FileInfo)
  | ended (failed : Bool)
deriving DecidableEq

/-- A session and the files it has acknowledged. -/
structure Session where
  phase : Phase
  acknowledged : List FileInfo
deriving DecidableEq

/-- What the sessions share. -/
structure Store where
  peers : Peers
  files : PeerFiles
deriving DecidableEq

inductive Event
  /-- the check in `handle_receiving`, and `PeerDataReceiver::new`; both may fail -/
  | accept (ok : Bool)
  /-- a message that passes `validate_incoming_message` -/
  | deliver (info : FileInfo) (data : Bytes)
  /-- the stream fails, or a message does not pass -/
  | invalid
  | close
  /-- `try_exists`, which may fail -/
  | tryExists (ok : Bool)
  /-- `get_peer_info`, which may fail, and the check of the row -/
  | checkPeer (ok : Bool)
  | write (io : FileWrite)
  /-- `peer_increment_received`, which may fail -/
  | count (ok : Bool)
  /-- the acknowledgement is sent, which may fail -/
  | acknowledge (ok : Bool)
deriving DecidableEq

/-- The row of the peer says that it may send. -/
def Store.allows (store : Store) (peer : ClientId) : Bool :=
  (store.peers.getPeerInfo peer).any isPeerAllowedToSendData

def sessionStep (peer : ClientId) (key : FixedBytes 4) (event : Event) (store : Store)
    (s : Session) : Option (Store × Session) :=
  match event, s.phase with
  | .accept ok, .opened =>
    some (store, { s with phase :=
      if ok = true ∧ store.allows peer = true then .reading else .ended true })
  | .deliver info data, .reading =>
    -- the message that carries the file is within the limit of the stream
    if data.length ≤ maxEncapsulatedBackupChunkSize then
      some (store, { s with phase := .received info data })
    else none
  | .invalid, .reading => some (store, { s with phase := .ended true })
  | .close, .reading => some (store, { s with phase := .ended false })
  | .tryExists ok, .received info data =>
    some (store, { s with phase :=
      if ok = true ∧ store.files.has info = false then .absent info data else .ended true })
  | .checkPeer ok, .absent info data =>
    some (store, { s with phase :=
      if ok = true ∧ store.allows peer = true then .allowed info data else .ended true })
  | .write .ok, .allowed info data =>
    some ({ store with files := store.files.write info (obfuscateData key data) },
      { s with phase := .written info data })
  | .write .createFails, .allowed _ _ => some (store, { s with phase := .ended true })
  | .write (.writeFails n), .allowed info data =>
    some ({ store with files := store.files.write info ((obfuscateData key data).take n) },
      { s with phase := .ended true })
  | .count true, .written info data =>
    some ({ store with peers := store.peers.peerIncrementReceived peer data.length },
      { s with phase := .saved info })
  | .count false, .written _ _ => some (store, { s with phase := .ended true })
  | .acknowledge ok, .saved info =>
    some (store, ⟨if ok then .reading else .ended true, s.acknowledged ++ [info]⟩)
  | _, _ => none

/-! ## 3. The receiving client -/

/-- The files and the table, and the sessions of the peer. -/
abbrev State := Pool Store Session

def start : State := ⟨⟨.empty, []⟩, []⟩

inductive Action
  /-- `add_or_increment_peer_storage` for a match -/
  | matched (negotiated : ℕ)
  /-- the client sends to the peer itself: `peer_increment_transmitted` -/
  | transmitted (amount : ℕ)
  | connect
  | session (t : ℕ) (event : Event)
deriving DecidableEq

def step (peer : ClientId) (key : FixedBytes 4) (s : State) : Action → Option State
  | .matched negotiated =>
    some { s with shared := { s.shared with
      peers := s.shared.peers.addOrIncrementPeer peer negotiated } }
  | .transmitted amount =>
    some { s with shared := { s.shared with
      peers := s.shared.peers.peerIncrementTransmitted peer amount } }
  | .connect => some (s.spawn ⟨.opened, []⟩)
  | .session t event => s.advance (sessionStep peer key event) t

/-! ## 4. What a session does -/

/-- What each event does to the store and the session, by the phase it finds. -/
inductive Stepped (peer : ClientId) (key : FixedBytes 4) (store : Store) (acked : List FileInfo) :
    Event → Phase → Store → Session → Prop
  | ends (event : Event) (phase : Phase) (failed : Bool) :
      Stepped peer key store acked event phase store ⟨.ended failed, acked⟩
  | admits : store.allows peer = true →
      Stepped peer key store acked (.accept true) .opened store ⟨.reading, acked⟩
  | delivers (info : FileInfo) (data : Bytes) : data.length ≤ maxEncapsulatedBackupChunkSize →
      Stepped peer key store acked (.deliver info data) .reading store ⟨.received info data, acked⟩
  | finds (info : FileInfo) (data : Bytes) : store.files.has info = false →
      Stepped peer key store acked (.tryExists true) (.received info data) store
        ⟨.absent info data, acked⟩
  | allows (info : FileInfo) (data : Bytes) : store.allows peer = true →
      Stepped peer key store acked (.checkPeer true) (.absent info data) store
        ⟨.allowed info data, acked⟩
  | writes (info : FileInfo) (data : Bytes) :
      Stepped peer key store acked (.write .ok) (.allowed info data)
        { store with files := store.files.write info (obfuscateData key data) }
        ⟨.written info data, acked⟩
  | tears (info : FileInfo) (data : Bytes) (n : ℕ) :
      Stepped peer key store acked (.write (.writeFails n)) (.allowed info data)
        { store with files := store.files.write info ((obfuscateData key data).take n) }
        ⟨.ended true, acked⟩
  | counts (info : FileInfo) (data : Bytes) :
      Stepped peer key store acked (.count true) (.written info data)
        { store with peers := store.peers.peerIncrementReceived peer data.length }
        ⟨.saved info, acked⟩
  | acknowledges (info : FileInfo) (ok : Bool) :
      Stepped peer key store acked (.acknowledge ok) (.saved info) store
        ⟨if ok then .reading else .ended true, acked ++ [info]⟩

section

variable {peer : ClientId} {key : FixedBytes 4} {event : Event} {store store' : Store}
  {session session' : Session}

theorem stepped_of_sessionStep
    (h : sessionStep peer key event store session = some (store', session')) :
    Stepped peer key store session.acknowledged event session.phase store' session' := by
  obtain ⟨phase, acked⟩ := session
  cases event with
  | accept ok =>
    cases phase <;> simp only [sessionStep, reduceCtorEq, Option.some.injEq, Prod.mk.injEq] at h
    obtain ⟨rfl, rfl⟩ := h
    split
    · rename_i hok
      obtain ⟨rfl, hallows⟩ := hok
      exact .admits hallows
    · exact .ends _ _ _
  | deliver info data =>
    cases phase <;> simp only [sessionStep, reduceCtorEq] at h
    obtain ⟨hlen, h⟩ := Option.ite_none_right_eq_some.mp h
    obtain ⟨rfl, rfl⟩ := Prod.mk.inj (Option.some.inj h)
    exact .delivers info data hlen
  | invalid =>
    cases phase <;> simp only [sessionStep, reduceCtorEq, Option.some.injEq, Prod.mk.injEq] at h
    obtain ⟨rfl, rfl⟩ := h
    exact .ends _ _ _
  | close =>
    cases phase <;> simp only [sessionStep, reduceCtorEq, Option.some.injEq, Prod.mk.injEq] at h
    obtain ⟨rfl, rfl⟩ := h
    exact .ends _ _ _
  | tryExists ok =>
    cases phase <;> simp only [sessionStep, reduceCtorEq, Option.some.injEq, Prod.mk.injEq] at h
    obtain ⟨rfl, rfl⟩ := h
    split
    · rename_i hok
      obtain ⟨rfl, hnew⟩ := hok
      exact .finds _ _ hnew
    · exact .ends _ _ _
  | checkPeer ok =>
    cases phase <;> simp only [sessionStep, reduceCtorEq, Option.some.injEq, Prod.mk.injEq] at h
    obtain ⟨rfl, rfl⟩ := h
    split
    · rename_i hok
      obtain ⟨rfl, hallows⟩ := hok
      exact .allows _ _ hallows
    · exact .ends _ _ _
  | write io =>
    cases io with
    | ok =>
      cases phase <;> simp only [sessionStep, reduceCtorEq, Option.some.injEq, Prod.mk.injEq] at h
      obtain ⟨rfl, rfl⟩ := h
      exact .writes _ _
    | createFails =>
      cases phase <;> simp only [sessionStep, reduceCtorEq, Option.some.injEq, Prod.mk.injEq] at h
      obtain ⟨rfl, rfl⟩ := h
      exact .ends _ _ _
    | writeFails n =>
      cases phase <;> simp only [sessionStep, reduceCtorEq, Option.some.injEq, Prod.mk.injEq] at h
      obtain ⟨rfl, rfl⟩ := h
      exact .tears _ _ n
  | count ok =>
    cases ok with
    | true =>
      cases phase <;> simp only [sessionStep, reduceCtorEq, Option.some.injEq, Prod.mk.injEq] at h
      obtain ⟨rfl, rfl⟩ := h
      exact .counts _ _
    | false =>
      cases phase <;> simp only [sessionStep, reduceCtorEq, Option.some.injEq, Prod.mk.injEq] at h
      obtain ⟨rfl, rfl⟩ := h
      exact .ends _ _ _
  | acknowledge ok =>
    cases phase <;> simp only [sessionStep, reduceCtorEq, Option.some.injEq, Prod.mk.injEq] at h
    obtain ⟨rfl, rfl⟩ := h
    exact .acknowledges _ ok

end

/-! ## 5. The quota -/

/-- The bytes matched with the peer, none before the first match. -/
def Store.negotiated (store : Store) (peer : ClientId) : ℤ :=
  store.peers.counter peer PeerInfo.bytesNegotiated

/-- The size of a file that has been let in and is not yet written. -/
def Session.underWay (s : Session) : ℕ :=
  match s.phase with
  | .allowed _ data => data.length
  | _ => 0

/-- The files of the peer stay within what was matched and the spread. -/
def QuotaKept (peer : ClientId) (s : State) : Prop :=
  (s.shared.files.size : ℤ) ≤ s.shared.negotiated peer + peerStorageUsageSpread

/-- A file that the check of the row lets in fits, together with what is on disk and what other
sessions are about to write. -/
def Fits (peer : ClientId) (s : State) : Action → Prop
  | .session t (.checkPeer _) => ∀ session info data, s.tasks[t]? = some session →
      session.phase = .absent info data → s.shared.allows peer = true →
      ((s.shared.files.size + (s.tasks.map Session.underWay).sum + data.length : ℕ) : ℤ)
        ≤ s.shared.negotiated peer + peerStorageUsageSpread
  | _ => True

/-- What is on disk and what is about to be written. -/
def Accounted (peer : ClientId) (s : State) : Prop :=
  ((s.shared.files.size + (s.tasks.map Session.underWay).sum : ℕ) : ℤ)
    ≤ s.shared.negotiated peer + peerStorageUsageSpread

section

variable {peer : ClientId} {key : FixedBytes 4} {event : Event} {store store' : Store}
  {session session' : Session} {s s' : State} {a : Action}

/-- What an event does to the account: nothing is let in but by the check of the row. -/
theorem sessionStep_account
    (h : sessionStep peer key event store session = some (store', session')) :
    store'.negotiated peer = store.negotiated peer ∧
      (store'.files.size + session'.underWay ≤ store.files.size + session.underWay ∨
        ∃ info data, event = .checkPeer true ∧ session.phase = .absent info data ∧
          store.allows peer = true ∧ store' = store ∧ session'.underWay = data.length) := by
  have hwrite : ∀ info data content, session.phase = .allowed info data →
      content.length ≤ data.length →
      (store.files.write info content).size ≤ store.files.size + session.underWay := by
    intro info data content hphase hlen
    refine PeerFiles.size_write_le.trans ?_
    simp only [Session.underWay, hphase]
    omega
  have hstepped := stepped_of_sessionStep h
  generalize hphase : session.phase = phase at hstepped
  cases hstepped with
  | allows info data hallows => exact ⟨rfl, Or.inr ⟨info, data, rfl, rfl, hallows, rfl, rfl⟩⟩
  | writes info data => exact ⟨rfl, Or.inl (hwrite info data _ hphase (by simp))⟩
  | tears info data n => exact ⟨rfl, Or.inl (hwrite info data _ hphase (by simp))⟩
  | counts info data =>
    exact ⟨Peers.counter_update_of_eq fun _ => rfl, Or.inl (by simp [Session.underWay])⟩
  | acknowledges info ok =>
    refine ⟨rfl, Or.inl ?_⟩
    cases ok <;> simp [Session.underWay]
  | ends | admits | delivers | finds => exact ⟨rfl, Or.inl (by simp [Session.underWay])⟩

theorem accounted_start : Accounted peer start := by
  simp [Accounted, start, PeerFiles.size, Store.negotiated, Peers.counter, peerStorageUsageSpread]

theorem accounted_step (hI : Accounted peer s) (ha : Fits peer s a)
    (h : step peer key s a = some s') : Accounted peer s' := by
  unfold Accounted at hI ⊢
  cases a with
  | matched negotiated =>
    obtain rfl := Option.some.inj h
    simp only [Store.negotiated, Peers.counter_addOrIncrementPeer] at hI ⊢
    omega
  | transmitted amount =>
    obtain rfl := Option.some.inj h
    have hneg : (s.shared.peers.peerIncrementTransmitted peer amount).counter peer
        PeerInfo.bytesNegotiated = s.shared.negotiated peer :=
      Peers.counter_update_of_eq fun _ => rfl
    simp only [Store.negotiated] at hneg hI ⊢
    rw [hneg]
    exact hI
  | connect =>
    obtain rfl := Option.some.inj h
    simpa [Session.underWay] using hI
  | session t event =>
    obtain ⟨session, store', session', ht, hst, rfl⟩ := Pool.advance_eq_some.mp h
    obtain ⟨hneg, hle⟩ := sessionStep_account hst
    have hsum := Pool.sum_map_set Session.underWay ht session'
    simp only [hneg]
    rcases hle with hle | ⟨info, data, rfl, hphase, hallows, rfl, hway⟩
    · omega
    · have hfits := ha session info data ht hphase hallows
      have hzero : session.underWay = 0 := by simp [Session.underWay, hphase]
      omega

/-- A file that is let in, written, counted and acknowledged. -/
def saveActions (t : ℕ) (info : FileInfo) (data : Bytes) : List Action :=
  [.session t (.deliver info data), .session t (.tryExists true), .session t (.checkPeer true),
    .session t (.write .ok), .session t (.count true), .session t (.acknowledge true)]

/-- A step of the only session. -/
theorem step_single {event : Event} {store store' : Store} {s s' : Session}
    (h : sessionStep peer key event store s = some (store', s')) :
    step peer key ⟨store, [s]⟩ (.session 0 event) = some ⟨store', [s']⟩ :=
  Pool.advance_eq_some.mpr ⟨s, store', s', rfl, h, rfl⟩

section

variable {store : Store} {acked : List FileInfo} {info : FileInfo} {data : Bytes}

theorem sessionStep_deliver (hlen : data.length ≤ maxEncapsulatedBackupChunkSize) :
    sessionStep peer key (.deliver info data) store ⟨.reading, acked⟩
      = some (store, ⟨.received info data, acked⟩) :=
  if_pos hlen

theorem sessionStep_tryExists (hnew : store.files.has info = false) :
    sessionStep peer key (.tryExists true) store ⟨.received info data, acked⟩
      = some (store, ⟨.absent info data, acked⟩) := by
  simp only [sessionStep, hnew, and_self, if_true]

theorem sessionStep_checkPeer (hallows : store.allows peer = true) :
    sessionStep peer key (.checkPeer true) store ⟨.absent info data, acked⟩
      = some (store, ⟨.allowed info data, acked⟩) := by
  simp only [sessionStep, hallows, and_self, if_true]

end

/-- The file is within the bound. -/
theorem reach_saveActions {store : Store} {acked : List FileInfo} {info : FileInfo} {data : Bytes}
    (hlen : data.length ≤ maxEncapsulatedBackupChunkSize) (hnew : store.files.has info = false)
    (hallows : store.allows peer = true) (hfits : ((store.files.size + data.length : ℕ) : ℤ)
      ≤ store.negotiated peer + peerStorageUsageSpread) :
    Transition.Reach (step peer key) (Fits peer) ⟨store, [⟨.reading, acked⟩]⟩
      ⟨⟨store.peers.peerIncrementReceived peer data.length,
          store.files.write info (obfuscateData key data)⟩,
        [⟨.reading, acked ++ [info]⟩]⟩ := by
  have hcheck : Fits peer ⟨store, [⟨.absent info data, acked⟩]⟩ (.session 0 (.checkPeer true)) := by
    intro session info' data' ht hphase _
    obtain rfl := Option.some.inj ht
    obtain ⟨-, rfl⟩ := Phase.absent.inj hphase
    exact hfits
  exact .head (.session 0 (.deliver info data)) trivial (step_single (sessionStep_deliver hlen)) <|
    .head (.session 0 (.tryExists true)) trivial (step_single (sessionStep_tryExists hnew)) <|
    .head (.session 0 (.checkPeer true)) hcheck (step_single (sessionStep_checkPeer hallows)) <|
    .head (.session 0 (.write .ok)) trivial rfl <|
    .head (.session 0 (.count true)) trivial rfl <|
    .head (.session 0 (.acknowledge true)) trivial rfl .refl

/-- What these steps of the only session come to. -/
theorem run_saveActions {store : Store} {acked : List FileInfo} {info : FileInfo} {data : Bytes}
    (hlen : data.length ≤ maxEncapsulatedBackupChunkSize) (hnew : store.files.has info = false)
    (hallows : store.allows peer = true) :
    Transition.run (step peer key) ⟨store, [⟨.reading, acked⟩]⟩ (saveActions 0 info data)
      = some ⟨⟨store.peers.peerIncrementReceived peer data.length,
          store.files.write info (obfuscateData key data)⟩,
        [⟨.reading, acked ++ [info]⟩]⟩ := by
  rw [saveActions, Transition.run_cons_of_step _ (step_single (sessionStep_deliver hlen)),
    Transition.run_cons_of_step _ (step_single (sessionStep_tryExists hnew)),
    Transition.run_cons_of_step _ (step_single (sessionStep_checkPeer hallows))]
  rfl

end

/-- 7 MiB. -/
def bulk : Bytes := List.replicate 7340032 0

theorem bulk_length : bulk.length = 7340032 := List.length_replicate

def bulkName (n : ℕ) : FileInfo := .index (Fin.ofNat 4294967296 n)

/-- One byte is matched, and one session sends three files of 7 MiB. -/
def overQuota : List Action :=
  [.matched 1, .connect, .session 0 (.accept true)] ++ (saveActions 0 (bulkName 0) bulk ++
    (saveActions 0 (bulkName 1) bulk ++ saveActions 0 (bulkName 2) bulk))

/-- What is stored after `n` such files. -/
def bulkStore : ℕ → Store
  | 0 => ⟨Peers.empty.addOrIncrementPeer (.fill 1) 1, []⟩
  | n + 1 => ⟨(bulkStore n).peers.peerIncrementReceived (.fill 1) 7340032,
      (bulkStore n).files.write (bulkName n) (obfuscateData (.fill 0) bulk)⟩

theorem bulkStore_new : ∀ n < 3, (bulkStore n).files.has (bulkName n) = false := by decide +kernel

/-- The check looks at what was counted before the file. -/
theorem bulkStore_allows : ∀ n < 3, (bulkStore n).allows (.fill 1) = true := by decide +kernel

theorem bulkStore_size_succ {n : ℕ} (hn : n < 3) :
    (bulkStore (n + 1)).files.size = (bulkStore n).files.size + 7340032 := by
  have hwrite : (bulkStore (n + 1)).files.size
      = (bulkStore n).files.size + (obfuscateData (.fill 0) bulk).length :=
    PeerFiles.size_write_of_not_has (bulkStore_new n hn)
  rwa [obfuscateData_length, bulk_length] at hwrite

theorem bulkStore_size : (bulkStore 3).files.size = 22020096 := by
  have h0 : (bulkStore 0).files.size = 0 := rfl
  have h1 : (bulkStore 1).files.size = _ := bulkStore_size_succ (n := 0) (by decide)
  have h2 : (bulkStore 2).files.size = _ := bulkStore_size_succ (n := 1) (by decide)
  have h3 : (bulkStore 3).files.size = _ := bulkStore_size_succ (n := 2) (by decide)
  omega

theorem bulk_deliverable : bulk.length ≤ maxEncapsulatedBackupChunkSize := by
  rw [bulk_length]
  decide

/-- A file of 7 MiB is saved within the bound. -/
theorem reach_bulk {n : ℕ} (hn : n < 3) (hsize : (bulkStore n).files.size ≤ 7340032)
    (acked : List FileInfo) : Transition.Reach (step (.fill 1) (.fill 0)) (Fits (.fill 1))
      ⟨bulkStore n, [⟨.reading, acked⟩]⟩
      ⟨bulkStore (n + 1), [⟨.reading, acked ++ [bulkName n]⟩]⟩ := by
  have hneg : ∀ m < 3, (bulkStore m).negotiated (.fill 1) = 1 := by decide +kernel
  have hfits : (((bulkStore n).files.size + bulk.length : ℕ) : ℤ)
      ≤ (bulkStore n).negotiated (.fill 1) + peerStorageUsageSpread := by
    rw [hneg n hn, bulk_length, peerStorageUsageSpread]
    omega
  have hsaved : Transition.Reach (step (.fill 1) (.fill 0)) (Fits (.fill 1))
      ⟨bulkStore n, [⟨.reading, acked⟩]⟩
      ⟨⟨(bulkStore n).peers.peerIncrementReceived (.fill 1) bulk.length,
          (bulkStore n).files.write (bulkName n) (obfuscateData (.fill 0) bulk)⟩,
        [⟨.reading, acked ++ [bulkName n]⟩]⟩ :=
    reach_saveActions bulk_deliverable (bulkStore_new n hn) (bulkStore_allows n hn) hfits
  rwa [bulk_length] at hsaved

theorem run_bulk {n : ℕ} (hn : n < 3) (acked : List FileInfo) :
    Transition.run (step (.fill 1) (.fill 0)) ⟨bulkStore n, [⟨.reading, acked⟩]⟩
      (saveActions 0 (bulkName n) bulk)
      = some ⟨bulkStore (n + 1), [⟨.reading, acked ++ [bulkName n]⟩]⟩ := by
  rw [run_saveActions bulk_deliverable (bulkStore_new n hn) (bulkStore_allows n hn), bulk_length]
  rfl

/-- The session has not got as far as writing the file, and has not acknowledged it. -/
def Session.Keeps (info : FileInfo) (s : Session) : Prop :=
  info ∉ s.acknowledged ∧
    match s.phase with
    | .absent i _ | .allowed i _ | .written i _ | .saved i => i ≠ info
    | _ => True

/-- The file exists, and no session from the `n`-th on has got past it. -/
structure Blocked (info : FileInfo) (n : ℕ) (s : State) : Prop where
  exists_file : s.shared.files.has info = true
  refused : ∀ t session, n ≤ t → s.tasks[t]? = some session → session.Keeps info

/-- Some run lets a session that is started after `s` acknowledge the file, with the files and the
counter of the peer as they are. -/
def Redelivered (peer : ClientId) (key : FixedBytes 4) (s : State) (info : FileInfo) : Prop :=
  ∃ s' t session, Transition.Reach (step peer key) (fun _ _ => True) s s' ∧
    s.tasks.length ≤ t ∧ s'.tasks[t]? = some session ∧ info ∈ session.acknowledged ∧
    s'.shared.files = s.shared.files ∧
    (s'.shared.peers.getPeerInfo peer).map PeerInfo.bytesReceived
      = (s.shared.peers.getPeerInfo peer).map PeerInfo.bytesReceived

section

variable {peer : ClientId} {key : FixedBytes 4} {event : Event} {store store' : Store}
  {session session' : Session} {s s' : State} {a : Action} {info : FileInfo} {n : ℕ}

/-- No event removes a file. -/
theorem sessionStep_has (h : sessionStep peer key event store session = some (store', session'))
    (hfile : store.files.has info = true) : store'.files.has info = true := by
  have hstepped := stepped_of_sessionStep h
  generalize session.phase = phase at hstepped
  cases hstepped with
  | writes | tears => exact PeerFiles.has_write.mpr (Or.inr hfile)
  | _ => exact hfile

/-- While the file exists, a session does not get past it. -/
theorem sessionStep_keeps (h : sessionStep peer key event store session = some (store', session'))
    (hfile : store.files.has info = true) (hkeeps : session.Keeps info) : session'.Keeps info := by
  obtain ⟨hacked, hphase⟩ := hkeeps
  have hstepped := stepped_of_sessionStep h
  generalize session.phase = phase at hstepped hphase
  cases hstepped with
  | finds info' data hnew =>
    refine ⟨hacked, ?_⟩
    rintro rfl
    rw [hfile] at hnew
    cases hnew
  | allows | writes | counts => exact ⟨hacked, hphase⟩
  | acknowledges info' ok =>
    refine ⟨by simpa using ⟨hacked, Ne.symm hphase⟩, ?_⟩
    cases ok <;> trivial
  | ends | admits | delivers | tears => exact ⟨hacked, trivial⟩

theorem blocked_step (hI : Blocked info n s) (h : step peer key s a = some s') :
    Blocked info n s' := by
  cases a with
  | matched | transmitted =>
    obtain rfl := Option.some.inj h
    exact ⟨hI.exists_file, hI.refused⟩
  | connect =>
    obtain rfl := Option.some.inj h
    refine ⟨hI.exists_file, ?_⟩
    intro t session hn ht
    rcases List.mem_append.mp (List.mem_of_getElem? ht) with hmem | hmem
    · by_cases hlt : t < s.tasks.length
      · rw [Pool.spawn_tasks, List.getElem?_append_left hlt] at ht
        exact hI.refused t session hn ht
      · rw [Pool.spawn_tasks, List.getElem?_append_right (not_lt.mp hlt)] at ht
        rw [List.mem_singleton.mp (List.mem_of_getElem? ht)]
        exact ⟨by simp, trivial⟩
    · rw [List.mem_singleton.mp hmem]
      exact ⟨by simp, trivial⟩
  | session t event =>
    obtain ⟨session, store', session', ht, hst, rfl⟩ := Pool.advance_eq_some.mp h
    refine ⟨sessionStep_has hst hI.exists_file, ?_⟩
    intro t' session'' hn ht'
    by_cases heq : t' = t
    · subst heq
      rw [List.getElem?_set_self (List.getElem?_eq_some_iff.mp ht).1, Option.some.injEq] at ht'
      exact ht' ▸ sessionStep_keeps hst hI.exists_file (hI.refused t' session hn ht)
    · rw [List.getElem?_set_ne (Ne.symm heq)] at ht'
      exact hI.refused t' session'' hn ht'

/-- A file that has been stored is never acknowledged again: whatever else happens, a session that
is started later ends when the file is sent in it, and leaves everything as it is. -/
theorem resent_file_refused (hfile : s.shared.files.has info = true) :
    ¬ Redelivered peer key s info ∧
    ∀ s', Transition.Reach (step peer key) (fun _ _ => True) s s' →
      ∀ ok data acked, sessionStep peer key (.tryExists ok) s'.shared ⟨.received info data, acked⟩
        = some (s'.shared, ⟨.ended true, acked⟩) := by
  have hblocked : ∀ s', Transition.Reach (step peer key) (fun _ _ => True) s s' →
      Blocked info s.tasks.length s' := by
    intro s' hreach
    refine hreach.invariant ⟨hfile, ?_⟩ fun _ _ _ hI _ hst => blocked_step hI hst
    intro t session hn ht
    exact absurd (List.getElem?_eq_some_iff.mp ht).1 (not_lt.mpr hn)
  constructor
  · rintro ⟨s', t, session, hreach, hn, ht, hmem, -, -⟩
    exact ((hblocked s' hreach).refused t session hn ht).1 hmem
  · intro s' hreach ok data acked
    simp [sessionStep, (hblocked s' hreach).exists_file]

end

/-- A file is stored, its acknowledgement is lost, and it is sent again in a second session. -/
def lostAck : List Action :=
  [.matched 10, .connect, .session 0 (.accept true), .session 0 (.deliver (.index 5) [1, 2, 3]),
    .session 0 (.tryExists true), .session 0 (.checkPeer true), .session 0 (.write .ok),
    .session 0 (.count true), .session 0 (.acknowledge false)]

def sendAgain : List Action :=
  [.connect, .session 1 (.accept true), .session 1 (.deliver (.index 5) [1, 2, 3]),
    .session 1 (.tryExists true)]

/-- The second session has ended, without an acknowledgement. -/
theorem resent_file_not_acknowledged : ∃ s,
    Transition.run (step (.fill 1) (.fill 9)) start lostAck = some s ∧
    s.shared.files = [(.index 5, [8, 11, 10])] ∧
    ∃ s', Transition.run (step (.fill 1) (.fill 9)) s sendAgain = some s' ∧
      s'.tasks[1]? = some ⟨.ended true, []⟩ := by
  decide +kernel

/-- And so does every later one. -/
theorem resent_file_refused_one : ∃ s,
    Transition.run (step (.fill 1) (.fill 9)) start lostAck = some s ∧
    ¬ Redelivered (.fill 1) (.fill 9) s (.index 5) := by
  obtain ⟨s, hs, hfile⟩ : ∃ s, Transition.run (step (.fill 1) (.fill 9)) start lostAck = some s ∧
    s.shared.files.has (.index 5) = true := by decide +kernel
  exact ⟨s, hs, (resent_file_refused hfile).1⟩

end Receiving

end Backuwup.Client
