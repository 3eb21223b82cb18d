/-
# Restoring from several peers (`backup/mod.rs`, `net_p2p/restore_files_writer.rs`)

`run_restore` asks every peer for all it has stored, waits until all of them are done, and starts
`dir_unpacker::unpack` on the folder in which the files have been put.  The sessions of all peers
write into that one folder, under the names that the peers send, and a file that is there is
replaced.

A session that fails never lets the restore go on, so a torn file does no harm
(`completed_of_unpack`).  Nothing of the kind holds for a session that succeeds: the result
`restored_files_kept` needs that no file replaces one that an honest peer has delivered, and that
each index file decrypts and agrees with the others.
-/
import Backuwup.Client.Packfile.Entries
import Backuwup.Lib.Pool
import Backuwup.Lib.Transition
import Backuwup.Shared.P2pMessage
import Mathlib.Data.List.Nodup

namespace Backuwup.Client

/-! ## 1. The folder by file names -/

namespace Disk

/-- The bytes of a file. -/
def read (disk : Disk) : FileInfo → Option Bytes
  | .packfile id => disk.packfiles id
  | .index n => (disk.index.find? fun f => f.1 = indexFileName n).map Prod.snd

/-- `fs::write`, which replaces what is there. -/
def save (disk : Disk) (data : Bytes) : FileInfo → Disk
  | .packfile id => disk.put id data
  | .index n => { disk with index := disk.index.write (indexFileName n) data }

variable {disk : Disk} {info info' : FileInfo} {data : Bytes}

theorem indexFileName_ne {n m : Fin 4294967296} (h : m ≠ n) :
    indexFileName m ≠ indexFileName n := by
  intro heq
  have hn := n.isLt
  have hm := m.isLt
  exact h (Fin.ext (indexFileName_inj (by simp only [u32Max]; omega)
    (by simp only [u32Max]; omega) heq))

@[simp] theorem read_save_self : (disk.save data info).read info = some data := by
  cases info with
  | packfile id => simp [read, save, put]
  | index n =>
    have hnone : (disk.index.filter fun f => f.1 ≠ indexFileName n).find?
        (fun f => f.1 = indexFileName n) = none := by
      simp
    simp only [read, save, Folder.write, List.find?_append, hnone]
    simp

/-- The files of other names stay when one is taken away. -/
theorem find?_filter_ne {folder : Folder} {name name' : FileName} (h : name ≠ name') :
    (folder.filter fun f => f.1 ≠ name').find? (fun f => f.1 = name)
      = folder.find? fun f => f.1 = name := by
  rw [List.find?_filter]
  congr 1
  funext f
  by_cases hf : f.1 = name
  · simp [hf, h]
  · simp [hf]

theorem read_save_ne (h : info' ≠ info) : (disk.save data info).read info' = disk.read info' := by
  cases info with
  | packfile id =>
    cases info' with
    | packfile id' =>
      have hid : id' ≠ id := fun heq => h (heq ▸ rfl)
      simp [read, save, put, Function.update_of_ne hid]
    | index m => rfl
  | index n =>
    cases info' with
    | packfile id' => rfl
    | index m =>
      have hne := indexFileName_ne fun heq : m = n => h (heq ▸ rfl)
      have hlast : [(indexFileName n, data)].find? (fun f => f.1 = indexFileName m) = none := by
        simp [hne.symm]
      simp only [read, save, Folder.write, List.find?_append, hlast, find?_filter_ne hne,
        Option.or_none]

theorem mem_index_of_read {n : Fin 4294967296} (h : disk.read (.index n) = some data) :
    (indexFileName n, data) ∈ disk.index := by
  obtain ⟨f, hf, rfl⟩ := Option.map_eq_some_iff.mp h
  have hname : f.1 = indexFileName n := by simpa using List.find?_some hf
  exact hname ▸ List.mem_of_find?_eq_some hf

end Disk

namespace Restoring

/-! ## 2. Sessions -/

/-- Where a session is. -/
inductive Phase
  /-- the request has been sent, `RestoreReceiver::new` comes next -/
  | opened
  /-- waiting for a message -/
  | reading
  /-- a message has been accepted -/
  | received (info : FileInfo) (data : Bytes)
  /-- the file has been saved -/
  | saved
  /-- `handle_stream` has returned -/
  | streamed (failed : Bool)
  | ended (failed : Bool)
deriving DecidableEq

structure Session where
  peer : ClientId
  phase : Phase
deriving DecidableEq

inductive Event
  /-- `RestoreReceiver::new`, which may fail -/
  | create (ok : Bool)
  /-- a message that passes `validate_incoming_message` -/
  | deliver (info : FileInfo) (data : Bytes)
  /-- the stream fails, or a message does not pass -/
  | invalid
  | close
  | save (io : FileWrite)
  /-- the acknowledgement is sent, which may fail -/
  | acknowledge (ok : Bool)
  /-- the last lines of `handle_receiving` -/
  | finish
deriving DecidableEq

/-- Where `run_restore` is. -/
inductive Progress
  /-- it asks these peers next; once there are none, it waits -/
  | contacting (peers : List ClientId)
  /-- it waits, and has seen that nothing has failed -/
  | checked
  /-- `unpack` has been called -/
  | unpacking
  | failed
deriving DecidableEq

/-- What the sessions share with `run_restore`. -/
structure Shared where
  /-- the folder of the restored packfiles -/
  disk : Disk
  running : Bool
  peerRestoreStatus : List (ClientId × Bool)
  /-- the connection requests that are open -/
  requests : List ClientId
  progress : Progress
  /-- the files that have been saved, with the peers that have sent them -/
  delivered : List (ClientId × FileInfo × Bytes)

namespace Shared

/-- `insert` of `peer_restore_status`. -/
def setStatus (sh : Shared) (peer : ClientId) (completed : Bool) : Shared :=
  { sh with
    peerRestoreStatus :=
      sh.peerRestoreStatus.filter (fun x => x.1 ≠ peer) ++ [(peer, completed)] }

def allPeersCompleted (sh : Shared) : Bool := sh.peerRestoreStatus.all Prod.snd

theorem mem_setStatus {sh : Shared} {peer : ClientId} {completed : Bool} {x : ClientId × Bool} :
    x ∈ (sh.setStatus peer completed).peerRestoreStatus ↔
      x = (peer, completed) ∨ (x ∈ sh.peerRestoreStatus ∧ x.1 ≠ peer) := by
  simp only [setStatus, List.mem_append, List.mem_filter, decide_eq_true_eq, List.mem_singleton]
  exact or_comm

end Shared

def sessionStep (event : Event) (sh : Shared) (s : Session) : Option (Shared × Session) :=
  match event, s.phase with
  -- without the receiver the restore waits for this peer forever
  | .create ok, .opened => some (sh, { s with phase := if ok then .reading else .ended true })
  | .deliver info data, .reading =>
    if data.length ≤ maxEncapsulatedBackupChunkSize then
      some (sh, { s with phase := .received info data })
    else none
  | .invalid, .reading => some (sh, { s with phase := .streamed true })
  | .close, .reading => some (sh, { s with phase := .streamed false })
  | .save .ok, .received info data =>
    some ({ sh with
        disk := sh.disk.save data info
        delivered := sh.delivered ++ [(s.peer, info, data)] }, { s with phase := .saved })
  | .save .createFails, .received _ _ => some (sh, { s with phase := .streamed true })
  | .save (.writeFails n), .received info data =>
    some ({ sh with disk := sh.disk.save (data.take n) info }, { s with phase := .streamed true })
  | .acknowledge ok, .saved =>
    some (sh, { s with phase := if ok then .reading else .streamed true })
  | .finish, .streamed false =>
    some (sh.setStatus s.peer true, { s with phase := .ended false })
  | .finish, .streamed true =>
    some ({ sh with running := false }, { s with phase := .ended true })
  | _, _ => none

/-! ## 3. A restore -/

abbrev State := Pool Shared Session

/-- A restore from these peers begins, in a folder in which earlier ones may have left files. -/
def start (left : Disk) (peers : List ClientId) : State :=
  ⟨⟨left, true, [], [], .contacting peers, []⟩, []⟩

inductive Action
  /-- `add_peer` and `request_restore_from_peer`; the request may not come about, or the server may
  not take it -/
  | contact (added ok : Bool)
  /-- a request expires, or the connection fails -/
  | drop (peer : ClientId)
  /-- `finalize_request`, and the connection is handed over -/
  | connect (peer : ClientId)
  | session (t : ℕ) (event : Event)
  /-- `is_running` -/
  | checkRunning
  /-- `all_peers_completed` -/
  | checkPeers
deriving DecidableEq

def step (s : State) : Action → Option State
  | .contact added ok =>
    match s.shared.progress with
    | .contacting (peer :: rest) =>
      let sh := s.shared.setStatus peer false
      let requests := if added then sh.requests.insert peer else sh.requests
      some { s with shared :=
        if added ∧ ok then { sh with requests := requests, progress := .contacting rest }
        else { sh with requests := requests, progress := .failed, running := false } }
    | _ => none
  | .drop peer =>
    some { s with shared := { s.shared with requests := s.shared.requests.erase peer } }
  | .connect peer =>
    if peer ∈ s.shared.requests then
      some ({ s with shared := { s.shared with
        requests := s.shared.requests.erase peer } }.spawn ⟨peer, .opened⟩)
    else none
  | .session t event => s.advance (sessionStep event) t
  | .checkRunning =>
    match s.shared.progress with
    | .contacting [] => some { s with shared := { s.shared with
        progress := if s.shared.running then .checked else .failed } }
    | _ => none
  | .checkPeers =>
    match s.shared.progress with
    | .checked => some { s with shared := { s.shared with
        progress := if s.shared.allPeersCompleted then .unpacking else .contacting [] } }
    | _ => none

/-! ## 4. The property and its condition -/

/-- A file that the keys of the client open: an index file under its number, and a packfile under
its id as far as one of its blobs. -/
def Authentic (P : Primitives) (keys : KeyManager) (data : Bytes) : FileInfo → Prop
  | .index n => ∃ items, loadFile P keys (indexFileName n) data = .ok items
  | .packfile id => ∃ hash blob, readBlob P keys id data hash = .ok blob

/-- An honest peer has delivered the file. -/
def Shared.Holds (sh : Shared) (honest : ClientId → Prop) (info : FileInfo) (data : Bytes) : Prop :=
  ∃ peer, honest peer ∧ (peer, info, data) ∈ sh.delivered

/-- What honest peers have delivered is there, and the blobs that it has can be read. -/
structure Isolated (P : Primitives) (keys : KeyManager) (honest : ClientId → Prop) (sh : Shared) :
    Prop where
  kept : ∀ info data, sh.Holds honest info data → Authentic P keys data info →
    sh.disk.read info = some data
  readable : ∀ n data items hash id packfile blob,
    sh.Holds honest (.index n) data → loadFile P keys (indexFileName n) data = .ok items →
    (hash, id) ∈ items → sh.Holds honest (.packfile id) packfile →
    readBlob P keys id packfile hash = .ok blob →
    ∀ names files, names.Perm (sh.disk.index.map Prod.fst) → files.Perm sh.disk.index →
      ∃ ix, BlobIndex.new P keys names files = .ok ix ∧
        Manager.getBlob P keys ix sh.disk hash = .ok (some blob)

/-- The index files can be loaded, and no blob is said to be in two packfiles. -/
structure Sound (P : Primitives) (keys : KeyManager) (folder : Folder) : Prop where
  loads : ∀ f ∈ folder, ∃ items, loadFile P keys f.1 f.2 = .ok items
  agree : ∀ hash id id', InFolder P keys folder (hash, id) → InFolder P keys folder (hash, id') →
    id = id'

/-- The entries agree with each other and with those of the folder. -/
def Joins (P : Primitives) (keys : KeyManager) (folder : Folder) (items : List IndexEntry) : Prop :=
  ∀ e ∈ items, ∀ e', e' ∈ items ∨ InFolder P keys folder e' → e'.1 = e.1 → e'.2 = e.2

/-- A file that is saved has the bytes of the one of that name that an honest peer has delivered,
and if it is an index file, it can be loaded and agrees with those that are there. -/
def Harmless (P : Primitives) (keys : KeyManager) (honest : ClientId → Prop) (s : State) :
    Action → Prop
  | .session t (.save .ok) => ∀ peer info data, s.tasks[t]? = some ⟨peer, .received info data⟩ →
    (∀ old, s.shared.Holds honest info old → Authentic P keys old info → old = data) ∧
    ∀ n, info = .index n → ∃ items, loadFile P keys (indexFileName n) data = .ok items ∧
      Joins P keys s.shared.disk.index items
  | _ => True

/-! ## 5. What a session does -/

/-- `handle_stream` is running, or comes next. -/
def Phase.active : Phase → Bool
  | .streamed _ => false
  | .ended _ => false
  | _ => true

def Phase.failed : Phase → Bool
  | .streamed failed => failed
  | .ended failed => failed
  | _ => false

/-- The peers that have not been asked. -/
def Progress.rest : Progress → List ClientId
  | .contacting rest => rest
  | _ => []

/-- What each event does, by the phase it finds. -/
inductive Stepped (peer : ClientId) (sh : Shared) : Event → Phase → Shared → Phase → Prop
  | moves (event : Event) (phase phase' : Phase) : phase.active = true →
      phase' ≠ .ended false → Stepped peer sh event phase sh phase'
  | saves (info : FileInfo) (data : Bytes) :
      Stepped peer sh (.save .ok) (.received info data)
        { sh with
          disk := sh.disk.save data info
          delivered := sh.delivered ++ [(peer, info, data)] } .saved
  | tears (info : FileInfo) (data : Bytes) (n : ℕ) :
      Stepped peer sh (.save (.writeFails n)) (.received info data)
        { sh with disk := sh.disk.save (data.take n) info } (.streamed true)
  | completes : Stepped peer sh .finish (.streamed false) (sh.setStatus peer true) (.ended false)
  | fails : Stepped peer sh .finish (.streamed true) { sh with running := false } (.ended true)

/-- What each action does. -/
inductive Restores (s : State) : Action → State → Prop
  | contacted (peer : ClientId) (rest requests : List ClientId) (progress : Progress)
      (added ok running : Bool) : s.shared.progress = .contacting (peer :: rest) →
      (requests = s.shared.requests ∨ requests = s.shared.requests.insert peer) →
      progress.rest.Sublist rest →
      Restores s (.contact added ok) { s with shared := { s.shared.setStatus peer false with
        requests := requests, progress := progress, running := running } }
  | dropped (peer : ClientId) : Restores s (.drop peer)
      { s with shared := { s.shared with requests := s.shared.requests.erase peer } }
  | connected (peer : ClientId) : peer ∈ s.shared.requests → Restores s (.connect peer)
      ({ s with shared := { s.shared with
        requests := s.shared.requests.erase peer } }.spawn ⟨peer, .opened⟩)
  | session (t : ℕ) (event : Event) (x : Session) (sh : Shared) (x' : Session) :
      s.tasks[t]? = some x → sessionStep event s.shared x = some (sh, x') →
      Restores s (.session t event) ⟨sh, s.tasks.set t x'⟩
  | checkedRunning : s.shared.progress = .contacting [] →
      Restores s .checkRunning { s with shared := { s.shared with
        progress := if s.shared.running then .checked else .failed } }
  | checkedPeers : s.shared.progress = .checked →
      Restores s .checkPeers { s with shared := { s.shared with
        progress := if s.shared.allPeersCompleted then .unpacking else .contacting [] } }

section

variable {P : Primitives} {keys : KeyManager} {honest : ClientId → Prop} {event : Event}
  {sh sh' : Shared} {session session' : Session} {s s' : State} {a : Action}

theorem restores_of_step (hst : step s a = some s') : Restores s a s' := by
  cases a with
  | contact added ok =>
    simp only [step] at hst
    split at hst
    · rename_i peer rest hp
      obtain rfl := Option.some.inj hst
      have hrequests : (if added then s.shared.requests.insert peer else s.shared.requests)
          = s.shared.requests ∨
          (if added then s.shared.requests.insert peer else s.shared.requests)
          = s.shared.requests.insert peer := by
        cases added
        · exact Or.inl rfl
        · exact Or.inr rfl
      split
      · exact .contacted peer rest _ (.contacting rest) added ok _ hp hrequests (.refl _)
      · exact .contacted peer rest _ .failed added ok false hp hrequests (List.nil_sublist _)
    · cases hst
  | drop peer => exact Option.some.inj hst ▸ .dropped peer
  | connect peer =>
    obtain ⟨hreq, hst⟩ := Option.ite_none_right_eq_some.mp hst
    exact Option.some.inj hst ▸ .connected peer hreq
  | session t event =>
    obtain ⟨session, sh', session', ht, hsession, rfl⟩ := Pool.advance_eq_some.mp hst
    exact .session t event session sh' session' ht hsession
  | checkRunning =>
    simp only [step] at hst
    split at hst
    · rename_i hp
      exact Option.some.inj hst ▸ .checkedRunning hp
    · cases hst
  | checkPeers =>
    simp only [step] at hst
    split at hst
    · rename_i hp
      exact Option.some.inj hst ▸ .checkedPeers hp
    · cases hst

theorem stepped_of_sessionStep (h : sessionStep event sh session = some (sh', session')) :
    session'.peer = session.peer ∧
      Stepped session.peer sh event session.phase sh' session'.phase := by
  obtain ⟨peer, phase⟩ := session
  cases event with
  | create ok =>
    cases phase <;> simp only [sessionStep, reduceCtorEq, Option.some.injEq, Prod.mk.injEq] at h
    obtain ⟨rfl, rfl⟩ := h
    exact ⟨rfl, .moves _ _ _ rfl (by cases ok <;> simp)⟩
  | deliver info data =>
    cases phase <;> simp only [sessionStep, reduceCtorEq] at h
    obtain ⟨-, h⟩ := Option.ite_none_right_eq_some.mp h
    obtain ⟨rfl, rfl⟩ := Prod.mk.inj (Option.some.inj h)
    exact ⟨rfl, .moves _ _ _ rfl (by simp)⟩
  | invalid =>
    cases phase <;> simp only [sessionStep, reduceCtorEq, Option.some.injEq, Prod.mk.injEq] at h
    obtain ⟨rfl, rfl⟩ := h
    exact ⟨rfl, .moves _ _ _ rfl (by simp)⟩
  | close =>
    cases phase <;> simp only [sessionStep, reduceCtorEq, Option.some.injEq, Prod.mk.injEq] at h
    obtain ⟨rfl, rfl⟩ := h
    exact ⟨rfl, .moves _ _ _ rfl (by simp)⟩
  | save io =>
    cases io with
    | ok =>
      cases phase <;> simp only [sessionStep, reduceCtorEq, Option.some.injEq, Prod.mk.injEq] at h
      obtain ⟨rfl, rfl⟩ := h
      exact ⟨rfl, .saves _ _⟩
    | createFails =>
      cases phase <;> simp only [sessionStep, reduceCtorEq, Option.some.injEq, Prod.mk.injEq] at h
      obtain ⟨rfl, rfl⟩ := h
      exact ⟨rfl, .moves _ _ _ rfl (by simp)⟩
    | writeFails n =>
      cases phase <;> simp only [sessionStep, reduceCtorEq, Option.some.injEq, Prod.mk.injEq] at h
      obtain ⟨rfl, rfl⟩ := h
      exact ⟨rfl, .tears _ _ n⟩
  | acknowledge ok =>
    cases phase <;> simp only [sessionStep, reduceCtorEq, Option.some.injEq, Prod.mk.injEq] at h
    obtain ⟨rfl, rfl⟩ := h
    exact ⟨rfl, .moves _ _ _ rfl (by cases ok <;> simp)⟩
  | finish =>
    cases phase with
    | streamed failed =>
      cases failed <;> simp only [sessionStep, Option.some.injEq, Prod.mk.injEq] at h
      · obtain ⟨rfl, rfl⟩ := h
        exact ⟨rfl, .completes⟩
      · obtain ⟨rfl, rfl⟩ := h
        exact ⟨rfl, .fails⟩
    | _ => simp [sessionStep] at h

/-- Only a session that ends well changes the status of its peer. -/
theorem Stepped.status {peer : ClientId} {phase phase' : Phase}
    (h : Stepped peer sh event phase sh' phase') :
    sh'.requests = sh.requests ∧ sh'.progress = sh.progress ∧
      ((sh'.peerRestoreStatus = sh.peerRestoreStatus ∧ phase ≠ .ended false) ∨
        (sh' = sh.setStatus peer true ∧ phase' = .ended false)) := by
  cases h with
  | moves _ _ _ hactive =>
    refine ⟨rfl, rfl, Or.inl ⟨rfl, ?_⟩⟩
    rintro rfl
    cases hactive
  | completes => exact ⟨rfl, rfl, Or.inr ⟨rfl, rfl⟩⟩
  | saves | tears | fails => exact ⟨rfl, rfl, Or.inl ⟨rfl, by simp⟩⟩

/-! ## 6. Failed sessions -/

def Failed (s : State) : Prop := ∃ x ∈ s.tasks, x.phase.failed = true

/-- The peers that will be asked, have been asked, and have connected. -/
def peersOf (s : State) : List ClientId :=
  s.shared.progress.rest ++ (s.shared.requests ++ s.tasks.map Session.peer)

/-- Each peer has one session, and its status tells whether that has ended well. -/
structure Orderly (s : State) : Prop where
  nodup : (peersOf s).Nodup
  requested : ∀ peer ∈ s.shared.requests, (peer, false) ∈ s.shared.peerRestoreStatus ∧
    (peer, true) ∉ s.shared.peerRestoreStatus
  known : ∀ x ∈ s.tasks, ∃ b, (x.peer, b) ∈ s.shared.peerRestoreStatus
  completed : ∀ x ∈ s.tasks, (x.peer, true) ∈ s.shared.peerRestoreStatus → x.phase = .ended false

theorem orderly_start {left : Disk} {peers : List ClientId} (h : peers.Nodup) :
    Orderly (start left peers) where
  nodup := by simpa [peersOf, start, Progress.rest] using h
  requested peer h := by simp [start] at h
  known x h := by simp [start] at h
  completed x h := by simp [start] at h

theorem Orderly.contact (h : Orderly s) {peer : ClientId} {rest requests : List ClientId}
    {progress : Progress} {running : Bool} (hp : s.shared.progress = .contacting (peer :: rest))
    (hreq : requests = s.shared.requests ∨ requests = s.shared.requests.insert peer)
    (hrest : progress.rest.Sublist rest) :
    Orderly { s with shared := { s.shared.setStatus peer false with
      requests := requests, progress := progress, running := running } } := by
  have hnodup : ((peer :: rest) ++ (s.shared.requests ++ s.tasks.map Session.peer)).Nodup := by
    have := h.nodup
    rwa [peersOf, hp] at this
  have hout : peer ∉ rest ++ (s.shared.requests ++ s.tasks.map Session.peer) :=
    (List.nodup_cons.mp hnodup).1
  simp only [List.mem_append, not_or] at hout
  obtain ⟨-, hnreq, hntask⟩ := hout
  have hne : ∀ x ∈ s.tasks, x.peer ≠ peer := fun x hx heq =>
    hntask (List.mem_map.mpr ⟨x, hx, heq⟩)
  refine {
    nodup := ?_
    requested := fun q hq => ?_
    known := fun x hx => ?_
    completed := fun x hx hstatus => ?_ }
  · simp only [peersOf]
    rcases hreq with rfl | rfl
    · exact hnodup.sublist ((hrest.trans (List.sublist_cons_self _ _)).append_right _)
    · rw [List.insert_of_not_mem hnreq]
      exact (List.perm_middle.symm.nodup hnodup).sublist (hrest.append_right _)
  · simp only [Shared.mem_setStatus]
    by_cases hqp : q = peer
    · subst hqp
      simp
    · have hold : q ∈ s.shared.requests := by
        rcases hreq with rfl | rfl
        · exact hq
        · exact (List.mem_insert_iff.mp hq).resolve_left hqp
      obtain ⟨hfalse, htrue⟩ := h.requested q hold
      exact ⟨Or.inr ⟨hfalse, hqp⟩, by simp [htrue, hqp]⟩
  · obtain ⟨b, hb⟩ := h.known x hx
    exact ⟨b, Shared.mem_setStatus.mpr (Or.inr ⟨hb, hne x hx⟩)⟩
  · rcases Shared.mem_setStatus.mp hstatus with heq | ⟨hold, -⟩
    · simp at heq
    · exact h.completed x hx hold

theorem Orderly.connect (h : Orderly s) {peer : ClientId} (hreq : peer ∈ s.shared.requests) :
    Orderly ({ s with shared := { s.shared with
      requests := s.shared.requests.erase peer } }.spawn ⟨peer, .opened⟩) := by
  obtain ⟨hfalse, htrue⟩ := h.requested peer hreq
  refine {
    nodup := ?_
    requested := fun q hq => h.requested q (List.mem_of_mem_erase hq)
    known := List.forall_mem_append.mpr ⟨h.known, ?_⟩
    completed := List.forall_mem_append.mpr ⟨h.completed, ?_⟩ }
  · have hperm : (s.shared.requests ++ s.tasks.map Session.peer).Perm
        (s.shared.requests.erase peer ++ (s.tasks.map Session.peer ++ [peer])) := by
      refine ((List.perm_cons_erase hreq).append_right _).trans ?_
      rw [List.cons_append, ← List.append_assoc]
      exact (List.perm_append_singleton _ _).symm
    simpa [peersOf] using (hperm.append_left _).nodup h.nodup
  · simpa using Or.inl hfalse
  · simpa using htrue

/-- The other sessions are with other peers. -/
theorem Orderly.mem_set (h : Orderly s) {t : ℕ} (ht : s.tasks[t]? = some session) {x : Session}
    (hx : x ∈ s.tasks.set t session') :
    x = session' ∨ (x ∈ s.tasks ∧ x.peer ≠ session.peer) := by
  rcases (Pool.mem_set_iff_of_getElem? ht).mp hx with rfl | ⟨j, hjt, hj⟩
  · exact Or.inl rfl
  · refine Or.inr ⟨List.mem_of_getElem? hj, fun heq => hjt ?_⟩
    have hnodup : (s.tasks.map Session.peer).Nodup :=
      (List.nodup_append.mp (List.nodup_append.mp h.nodup).2.1).2.1
    have hlen : j < (s.tasks.map Session.peer).length := by
      simpa using (List.getElem?_eq_some_iff.mp hj).1
    refine (List.getElem?_inj hlen hnodup).mp ?_
    simp only [List.getElem?_map, ht, hj, Option.map_some, heq]

theorem Orderly.advance (h : Orderly s) {t : ℕ} (ht : s.tasks[t]? = some session)
    (hst : sessionStep event s.shared session = some (sh', session')) :
    Orderly ⟨sh', s.tasks.set t session'⟩ := by
  obtain ⟨hpeer, hstepped⟩ := stepped_of_sessionStep hst
  have hmem : session ∈ s.tasks := List.mem_of_getElem? ht
  have hmap := Pool.map_set Session.peer ht hpeer
  obtain ⟨hreqs, hprogress, hstatus⟩ := hstepped.status
  have hnodup : (peersOf ⟨sh', s.tasks.set t session'⟩).Nodup := by
    simpa only [peersOf, hreqs, hprogress, hmap] using h.nodup
  rcases hstatus with ⟨hstatus, hnot⟩ | ⟨rfl, hended⟩
  · refine {
      nodup := hnodup
      requested := ?_
      known := fun x hx => ?_
      completed := fun x hx hcompleted => ?_ }
    · simpa only [hreqs, hstatus] using h.requested
    · rw [hstatus]
      rcases h.mem_set ht hx with rfl | ⟨hold, -⟩
      · exact hpeer ▸ h.known session hmem
      · exact h.known x hold
    · rw [hstatus] at hcompleted
      rcases h.mem_set ht hx with rfl | ⟨hold, -⟩
      · exact absurd (h.completed session hmem (hpeer ▸ hcompleted)) hnot
      · exact h.completed x hold hcompleted
  · refine {
      nodup := hnodup
      requested := fun q hq => ?_
      known := fun x hx => ?_
      completed := fun x hx hcompleted => ?_ }
    · have hne : q ≠ session.peer := by
        rintro rfl
        have hdisjoint := (List.nodup_append.mp (List.nodup_append.mp h.nodup).2.1).2.2
        exact hdisjoint _ hq _ (List.mem_map.mpr ⟨session, hmem, rfl⟩) rfl
      obtain ⟨hfalse, htrue⟩ := h.requested q hq
      simp only [Shared.mem_setStatus]
      exact ⟨Or.inr ⟨hfalse, hne⟩, by simp [htrue, hne]⟩
    · simp only [Shared.mem_setStatus]
      rcases h.mem_set ht hx with rfl | ⟨hold, hne⟩
      · exact ⟨true, Or.inl (by rw [hpeer])⟩
      · obtain ⟨b, hb⟩ := h.known x hold
        exact ⟨b, Or.inr ⟨hb, hne⟩⟩
    · rcases h.mem_set ht hx with rfl | ⟨hold, hne⟩
      · exact hended
      · rcases Shared.mem_setStatus.mp hcompleted with heq | ⟨hcompleted, -⟩
        · exact absurd (congrArg Prod.fst heq) hne
        · exact h.completed x hold hcompleted

/-- The loop of `run_restore` goes on. -/
theorem Orderly.setProgress (h : Orderly s) {progress : Progress}
    (hrest : progress.rest = s.shared.progress.rest) :
    Orderly { s with shared := { s.shared with progress := progress } } where
  nodup := by
    simpa only [peersOf, hrest] using h.nodup
  requested := h.requested
  known := h.known
  completed := h.completed

/-- One step keeps the sessions apart. -/
theorem orderly_step (h : Orderly s) (hst : step s a = some s') : Orderly s' := by
  cases restores_of_step hst with
  | contacted peer rest requests progress added ok running hp hreq hrest =>
    exact h.contact hp hreq hrest
  | dropped peer =>
    refine {
      nodup := ?_
      requested := fun q hq => h.requested q (List.mem_of_mem_erase hq)
      known := h.known
      completed := h.completed }
    exact h.nodup.sublist (List.Sublist.append_left (List.erase_sublist.append_right _) _)
  | connected peer hreq => exact h.connect hreq
  | session t event x sh x' ht hsession => exact h.advance ht hsession
  | checkedRunning hp =>
    refine h.setProgress ?_
    rw [hp]
    split <;> rfl
  | checkedPeers hp =>
    refine h.setProgress ?_
    rw [hp]
    split <;> rfl

/-- Once every peer is done, no session has failed. -/
theorem Orderly.not_failed (h : Orderly s) (hall : s.shared.allPeersCompleted = true) :
    ¬ Failed s := by
  rintro ⟨x, hx, hfailed⟩
  obtain ⟨b, hb⟩ := h.known x hx
  obtain rfl : b = true := List.all_eq_true.mp hall _ hb
  rw [h.completed x hx hb] at hfailed
  cases hfailed

theorem failed_step (hf : Failed s) (h : step s a = some s') : Failed s' := by
  obtain ⟨x, hx, hfailed⟩ := hf
  cases restores_of_step h with
  | contacted | dropped | checkedRunning | checkedPeers => exact ⟨x, hx, hfailed⟩
  | connected => exact ⟨x, List.mem_append_left _ hx, hfailed⟩
  | session t event session sh session' ht hst =>
    obtain ⟨-, hstepped⟩ := stepped_of_sessionStep hst
    obtain ⟨j, hj⟩ := List.mem_iff_getElem?.mp hx
    by_cases hjt : j = t
    · -- the failed session itself can only end
      subst hjt
      obtain rfl := Option.some.inj (ht.symm.trans hj)
      refine ⟨session', (Pool.mem_set_iff_of_getElem? ht).mpr (Or.inl rfl), ?_⟩
      generalize session.phase = phase at hstepped hfailed
      generalize session'.phase = phase' at hstepped ⊢
      cases hstepped with
      | moves _ _ _ hactive =>
        cases phase <;> simp [Phase.active, Phase.failed] at hactive hfailed
      | saves | tears | completes => simp [Phase.failed] at hfailed
      | fails => rfl
    · exact ⟨x, (Pool.mem_set_iff_of_getElem? ht).mpr (Or.inr ⟨j, hjt, hj⟩), hfailed⟩

end

/-! ## 7. Kept files -/

/-- The index files are in order, and what honest peers have delivered is there. -/
structure Kept (P : Primitives) (keys : KeyManager) (honest : ClientId → Prop) (sh : Shared) :
    Prop where
  sound : Sound P keys sh.disk.index
  present : ∀ info data, sh.Holds honest info data → Authentic P keys data info →
    sh.disk.read info = some data

section

variable {P : Primitives} {keys : KeyManager} {honest : ClientId → Prop} {sh : Shared}
  {s s' : State} {a : Action} {left : Disk} {peers : List ClientId}

/-- An index file that joins the others. -/
theorem Sound.write {folder : Folder} (h : Sound P keys folder) {name : FileName} {data : Bytes}
    {items : List IndexEntry} (hload : loadFile P keys name data = .ok items)
    (hjoins : Joins P keys folder items) : Sound P keys (folder.write name data) := by
  have hin : ∀ e, InFolder P keys (folder.write name data) e → e ∈ items ∨
      InFolder P keys folder e := by
    rintro e ⟨f, hf, its, hits, he⟩
    rcases Folder.mem_write hf with rfl | ⟨hf, -⟩
    · exact Or.inl (Except.ok.inj (hload.symm.trans hits) ▸ he)
    · exact Or.inr ⟨f, hf, its, hits, he⟩
  constructor
  · intro f hf
    rcases Folder.mem_write hf with rfl | ⟨hf, -⟩
    · exact ⟨items, hload⟩
    · exact h.loads f hf
  · intro hash id id' he he'
    rcases hin _ he with he | he
    · exact (hjoins _ he _ (hin _ he') rfl).symm
    · rcases hin _ he' with he' | he'
      · exact hjoins _ he' _ (Or.inr he) rfl
      · exact h.agree hash id id' he he'

/-- What is kept can be read. -/
theorem Kept.isolated (h : Kept P keys honest sh) : Isolated P keys honest sh := by
  refine ⟨h.present, ?_⟩
  intro n data items hash id packfile blob hindex hload hentry hpackfile hblob names files hnames
    hfiles
  have hin : InFolder P keys sh.disk.index (hash, id) :=
    ⟨_, Disk.mem_index_of_read (h.present _ _ hindex ⟨items, hload⟩), items, hload, hentry⟩
  have hread : sh.disk.packfiles id = some packfile :=
    h.present (.packfile id) packfile hpackfile ⟨hash, blob, hblob⟩
  obtain ⟨all, hall⟩ := loadFiles_ok fun f hf => h.sound.loads f (hfiles.mem_iff.mp hf)
  have hnew : BlobIndex.new P keys names files
      = .ok ⟨Search.sortByKey Prod.fst all, [], [], maxFileNum names, false⟩ := by
    rw [BlobIndex.new, hall]
  refine ⟨_, hnew, ?_⟩
  rcases findPackfile_new hfiles hnew hash with ⟨id', hfind, hin'⟩ | ⟨-, hnone⟩
  · -- the packfile that the index finds is the one that was delivered
    obtain rfl := h.sound.agree hash id id' hin hin'
    rw [Manager.getBlob, hfind]
    simp only [hread, hblob, Except.map]
  · exact absurd hin (hnone id)

theorem kept_start (hleft : Sound P keys left.index) :
    Kept P keys honest (start left peers).shared where
  sound := hleft
  present info data h := by
    obtain ⟨peer, -, hmem⟩ := h
    simp [start] at hmem

theorem Kept.save (h : Kept P keys honest sh) {peer : ClientId} {info : FileInfo} {data : Bytes}
    (hsame : ∀ old, sh.Holds honest info old → Authentic P keys old info → old = data)
    (hindex : ∀ n, info = .index n → ∃ items, loadFile P keys (indexFileName n) data = .ok items ∧
      Joins P keys sh.disk.index items) :
    Kept P keys honest { sh with
      disk := sh.disk.save data info
      delivered := sh.delivered ++ [(peer, info, data)] } := by
  constructor
  · cases info with
    | packfile id => exact h.sound
    | index n =>
      obtain ⟨items, hload, hjoins⟩ := hindex n rfl
      exact h.sound.write hload hjoins
  · rintro info' data' ⟨peer', hhonest, hdelivered⟩ hauth
    rcases List.mem_append.mp hdelivered with hmem | hmem
    · have hold : sh.Holds honest info' data' := ⟨peer', hhonest, hmem⟩
      by_cases heq : info' = info
      · subst heq
        obtain rfl := hsame data' hold hauth
        exact Disk.read_save_self
      · exact (Disk.read_save_ne heq).trans (h.present _ _ hold hauth)
    · simp only [List.mem_singleton, Prod.mk.injEq] at hmem
      obtain ⟨-, rfl, rfl⟩ := hmem
      exact Disk.read_save_self

theorem Kept.of_eq {sh' : Shared} (h : Kept P keys honest sh) (hdisk : sh'.disk = sh.disk)
    (hdelivered : sh'.delivered = sh.delivered) : Kept P keys honest sh' where
  sound := hdisk ▸ h.sound
  present info data hholds := by
    rw [hdisk]
    refine h.present info data ?_
    simpa only [Shared.Holds, hdelivered] using hholds

/-- One step keeps the files, unless a session fails in it. -/
theorem kept_step (h : Kept P keys honest s.shared) (ha : Harmless P keys honest s a)
    (hst : step s a = some s') : Failed s' ∨ Kept P keys honest s'.shared := by
  cases restores_of_step hst with
  | contacted | dropped | connected | checkedRunning | checkedPeers =>
    exact Or.inr (h.of_eq rfl rfl)
  | session t event session sh session' ht hsession =>
    obtain ⟨peer, phase⟩ := session
    obtain ⟨-, hstepped⟩ := stepped_of_sessionStep hsession
    have hmem : session' ∈ s.tasks.set t session' :=
      (Pool.mem_set_iff_of_getElem? ht).mpr (Or.inl rfl)
    generalize hphase' : session'.phase = phase' at hstepped
    simp only at hstepped
    cases hstepped with
    | moves => exact Or.inr h
    | saves info data =>
      obtain ⟨hsame, hindex⟩ := ha peer info data ht
      exact Or.inr (h.save hsame hindex)
    | tears => exact Or.inl ⟨session', hmem, by rw [hphase']; rfl⟩
    | completes => exact Or.inr (h.of_eq rfl rfl)
    | fails => exact Or.inr (h.of_eq rfl rfl)

/-- In every run whose saved files are harmless, what honest peers have delivered is there when
`unpack` starts, and the blobs that it has can be read. -/
theorem restored_files_kept (hleft : Sound P keys left.index) (hpeers : peers.Nodup)
    (h : Transition.Reach step (Harmless P keys honest) (start left peers) s)
    (hst : step s .checkPeers = some s') (hunpack : s'.shared.progress = .unpacking) :
    Isolated P keys honest s'.shared := by
  have hI : Orderly s ∧ (Failed s ∨ Kept P keys honest s.shared) := by
    have hstep : ∀ s a s', Orderly s ∧ (Failed s ∨ Kept P keys honest s.shared) →
        Harmless P keys honest s a → step s a = some s' →
        Orderly s' ∧ (Failed s' ∨ Kept P keys honest s'.shared) := by
      rintro s a s' ⟨horderly, hfailed | hkept⟩ ha hst
      · exact ⟨orderly_step horderly hst, Or.inl (failed_step hfailed hst)⟩
      · exact ⟨orderly_step horderly hst, kept_step hkept ha hst⟩
    exact Transition.Reach.invariant (I := fun s => Orderly s ∧
      (Failed s ∨ Kept P keys honest s.shared)) ⟨orderly_start hpeers, Or.inr (kept_start hleft)⟩
      hstep h
  obtain ⟨horderly, hkept⟩ := hI
  cases restores_of_step hst with
  | checkedPeers =>
    have hall : s.shared.allPeersCompleted = true := by
      by_contra hnot
      simp [hnot] at hunpack
    have hkept := hkept.resolve_left (horderly.not_failed hall)
    refine Kept.isolated ?_
    exact hkept.of_eq rfl rfl

end

/-- `Harmless`, evaluated. -/
def harmless (P : Primitives) (keys : KeyManager) (s : State) : Action → Bool
  | .session t (.save .ok) =>
    match s.tasks[t]? with
    | some ⟨_, .received info data⟩ =>
      (s.shared.delivered.all fun d => decide (d.2.1 = info → d.2.2 = data)) &&
        match info with
        | .packfile _ => true
        | .index n =>
          match loadFiles P keys s.shared.disk.index, loadFile P keys (indexFileName n) data with
          | .ok more, .ok items =>
            items.all fun e => (items ++ more).all fun e' => decide (e'.1 = e.1 → e'.2 = e.2)
          | _, _ => false
    | _ => true
  | _ => true

theorem harmless_ok (P : Primitives) (keys : KeyManager) (honest : ClientId → Prop) (s : State)
    (a : Action) (h : harmless P keys s a = true) : Harmless P keys honest s a := by
  cases a with
  | session t event =>
    cases event with
    | save io =>
      cases io with
      | ok =>
        intro peer info data ht
        simp only [harmless, ht, Bool.and_eq_true, List.all_eq_true, decide_eq_true_eq] at h
        obtain ⟨hsame, hindex⟩ := h
        refine ⟨fun old ⟨_, _, hmem⟩ _ => hsame _ hmem rfl, ?_⟩
        rintro n rfl
        simp only at hindex
        split at hindex
        · rename_i more items hmore hitems
          refine ⟨items, hitems, fun e he e' he' hkey => ?_⟩
          have hall := List.all_eq_true.mp (List.all_eq_true.mp hindex e he) e' <| by
            rw [List.mem_append, mem_loadFiles hmore]
            exact he'
          exact of_decide_eq_true hall hkey
        · cases hindex
      | _ => trivial
    | _ => trivial
  | _ => trivial

/-! ## 8. An honest peer and another one -/

def keys : KeyManager := .fromSecret .transparent (.fill 5)

def honestPeer : ClientId := .fill 1

def otherPeer : ClientId := .fill 2

/-- A packfile with one blob, and the index file that names it. -/
def packfile : Bytes :=
  let data :=
    Primitives.transparent.encrypt (blobKey .transparent keys (.fill 7)) (.fill 0) [1, 2, 3]
  let blob : BlobEncrypted := ⟨.fill 7, .fileChunk, data, .fill 0⟩
  (serializePackfile .transparent keys (.fill 3) (PackfileDraft.empty.add blob)).getD []

def indexFile : Bytes := sealedEntries .transparent keys 1 [(.fill 7, .fill 3)]

/-- A session delivers these files. -/
def deliverAll (t : ℕ) (files : List (FileInfo × Bytes)) : List Action :=
  .session t (.create true) ::
    (files.flatMap fun f =>
      [.session t (.deliver f.1 f.2), .session t (.save .ok), .session t (.acknowledge true)]) ++
    [.session t .close, .session t .finish]

/-- The honest peer delivers both files, and the other one what it likes. -/
def restoreFrom (files : List (FileInfo × Bytes)) : List Action :=
  [.contact true true, .contact true true, .connect honestPeer, .connect otherPeer] ++
    deliverAll 0 [(.index 1, indexFile), (.packfile (.fill 3), packfile)] ++
    deliverAll 1 files ++ [.checkRunning]

/-- Junk under a new id does no harm. -/
theorem restored_files_kept_one : ∃ s s',
    Transition.runWhen step (harmless .transparent keys) (start .empty [honestPeer, otherPeer])
      (restoreFrom [(.packfile (.fill 9), [0])]) = some s ∧ step s .checkPeers = some s' ∧
    s'.shared.progress = .unpacking ∧
    Isolated .transparent keys (fun peer => peer = honestPeer) s'.shared := by
  have hrun : ∃ s, Transition.runWhen step (harmless .transparent keys)
      (start .empty [honestPeer, otherPeer]) (restoreFrom [(.packfile (.fill 9), [0])]) = some s ∧
      ∃ s', step s .checkPeers = some s' ∧ s'.shared.progress = .unpacking := by
    decide +kernel
  obtain ⟨s, hs, s', hst, hunpack⟩ := hrun
  have hleft : Sound .transparent keys Disk.empty.index :=
    ⟨by simp [Disk.empty], by simp [Disk.empty, InFolder]⟩
  exact ⟨s, s', hs, hst, hunpack, restored_files_kept hleft (by decide +kernel)
    (Transition.reach_of_runWhen (harmless_ok _ _ _) hs) hst hunpack⟩

/-- Junk under the number of the index file replaces it, and then the index cannot be loaded. -/
theorem restored_file_replaced : ∃ s s',
    Transition.run step (start .empty [honestPeer, otherPeer]) (restoreFrom [(.index 1, [0])])
      = some s ∧ step s .checkPeers = some s' ∧ s'.shared.progress = .unpacking ∧
    s'.shared.disk.read (.index 1) = some [0] ∧
    BlobIndex.new .transparent keys [indexFileName 1] s'.shared.disk.index = .error .cryptoError ∧
    ¬ Isolated .transparent keys (fun peer => peer = honestPeer) s'.shared := by
  have hrun : ∃ s, Transition.run step (start .empty [honestPeer, otherPeer])
      (restoreFrom [(.index 1, [0])]) = some s ∧
      (honestPeer, .index 1, indexFile) ∈ s.shared.delivered ∧
      ∃ s', step s .checkPeers = some s' ∧ s'.shared.progress = .unpacking ∧
        s'.shared.disk.index = [(indexFileName 1, [0])] := by
    decide +kernel
  obtain ⟨s, hs, hmem, s', hst, hunpack, hfolder⟩ := hrun
  have hread : s'.shared.disk.read (.index 1) = some [0] := by
    simp only [Disk.read, hfolder]
    decide +kernel
  have hnew : BlobIndex.new .transparent keys [indexFileName 1] s'.shared.disk.index
      = .error .cryptoError := by
    rw [hfolder]
    decide +kernel
  refine ⟨s, s', hs, hst, hunpack, hread, hnew, fun h => ?_⟩
  have hauth : ∃ items, loadFile .transparent keys (indexFileName 1) indexFile = .ok items :=
    ⟨[(.fill 7, .fill 3)], by decide +kernel⟩
  have hdelivered : s'.shared.delivered = s.shared.delivered := by
    cases restores_of_step hst
    rfl
  have hkept := h.kept (.index 1) indexFile ⟨honestPeer, rfl, hdelivered ▸ hmem⟩ hauth
  rw [hread] at hkept
  exact absurd hkept (by decide +kernel)

end Restoring

end Backuwup.Client
