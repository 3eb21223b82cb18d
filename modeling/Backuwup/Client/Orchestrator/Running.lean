/-
# A running backup (`dir_packer.rs`, `pack.rs`, `send.rs`)

The tasks that add blobs, the manager that they call, and the task that sends what it has written,
with what they share: the folder, the counters of the orchestrator, and the flag on which the
packing pauses.  The manager is that of `Packfile/Pack.lean` and the flag with its listeners the
model of `Pause.lean`; here the callers of `add_blob`, the loop of `send` and the counters are
added, and the packfiles in the folder with their sizes.

`write_all` fills a packfile while the sending task may look at it: `send_single_packfile` takes
the size that the file has at that moment, and counts and deletes it when the acknowledgement
comes.  So the packfile that is being written is a part of the state (`Half`), next to those that
have been written.  And `write_all` returns before the last bytes are in the file, which nobody
waits for, so a file that has been written may still be found shorter than it will be.

The tasks do not get in each other's way (`Orderly`): each has a call of its own, and nobody waits
but in `block_if_paused!`.
-/
import Backuwup.Client.Orchestrator.Pause
import Backuwup.Client.Packfile.Runs

namespace Backuwup.Client.Buffering

/-- `PACKFILE_LOCAL_BUFFER_RESUME_THRESHOLD`: 50 MiB. -/
def packfileLocalBufferResumeThreshold : ℕ := 52428800

/-! ## 1. The state -/

/-- A task that adds blobs one after the other. -/
inductive Caller
  /-- it has no call of `add_blob` under way -/
  | idle
  /-- in this call, which has written a packfile or has not -/
  | adding (call : ℕ) (wrote : Bool)
  /-- in `block_if_paused!` -/
  | blocking
deriving DecidableEq

inductive SendPc
  | top
  /-- in `pause` -/
  | pausing
  | loading
  /-- in `get_peer_connection`, or past it, with what has been read of the orchestrator -/
  | connecting (written matched : ℕ)
  /-- in `send_packfiles_from_folder` -/
  | sending (written matched : ℕ)
  /-- in `send_single_packfile`, with the size that the file had -/
  | acking (written matched : ℕ) (id : PackfileId) (size : ℕ)
  | sent
  /-- in `resume` -/
  | resuming
  | finishing
  /-- in `send_index` -/
  | indexing
  | ended
deriving DecidableEq

/-- `send` and its variables. -/
structure Sender where
  pc : SendPc
  connected : Bool
  lastWritten : ℕ
  lastMatched : ℕ
  packfilesDone : Bool
deriving DecidableEq

/-- A packfile that `write_all` has begun to write, with what it has written so far.  It goes on
writing if the file is deleted meanwhile. -/
structure Half where
  id : PackfileId
  length : ℕ
  deleted : Bool
deriving DecidableEq

/-- The file of this id is deleted. -/
def Half.delete (id : PackfileId) (h : Half) : Half :=
  if h.id = id then { h with deleted := true } else h

/-- A backup: the folder with its manager, the orchestrator, and the tasks. -/
structure State where
  world : World
  pause : PauseState
  packfileBytesWritten : ℕ
  packfileBytesSent : ℕ
  storageRequestLastMatched : ℕ
  packingCompleted : Bool
  callers : List Caller
  sender : Sender
  /-- the bytes that an earlier backup has left in the folder -/
  left : ℕ
  /-- the packfiles in the folder that this backup has written, with their sizes -/
  files : List (PackfileId × ℕ)
  half : Option Half
  /-- who has written a packfile while the folder was over the limit, since it was last within -/
  writers : List ℕ
  /-- how far the packfile that took `packfiles_size` over the limit has taken it -/
  excess : ℕ

namespace State

/-- The packfiles that this backup has in the folder in whole. -/
def whole (s : State) : ℕ := (s.files.map Prod.snd).sum

/-- What lies in the folder of the packfile that is being written. -/
def part (s : State) : ℕ := s.half.elim 0 fun h => if h.deleted then 0 else h.length

/-- What this backup has in the folder. -/
def size (s : State) : ℕ := s.whole + s.part

/-- The limit, and what was there before. -/
def limit (s : State) : ℕ := maxPackfileLocalBufferSize + s.left

def availablePackfileBytes (s : State) : ℕ := s.packfileBytesWritten - s.packfileBytesSent

def setCaller (s : State) (t : ℕ) (caller : Caller) : State :=
  { s with callers := s.callers.set t caller }

def setFiles (s : State) (files : List (PackfileId × ℕ)) (writers : List ℕ) : State :=
  { s with files := files, writers := if (files.map Prod.snd).sum ≤ s.limit then [] else writers }

/-- The size of the packfile of this id, if a step has created it. -/
def created (s : State) (w : World) (id : PackfileId) : Option ℕ :=
  match s.world.disk.packfiles id, w.disk.packfiles id with
  | none, some content => some content.length
  | _, _ => none

/-- `excess` after a round: it does not change once `packfiles_size` is over the limit. -/
def excessAfter (s : State) (w : World) : ℕ :=
  match s.world.session, w.session with
  | some x, some y =>
    if x.manager.packfilesSize ≤ maxPackfileLocalBufferSize then
      max s.excess (y.manager.packfilesSize - maxPackfileLocalBufferSize)
    else s.excess
  | _, _ => s.excess

/-- `write_all` is over, or has not been called. -/
def settle (s : State) (w : World) : State :=
  { s with world := w, half := none, excess := s.excessAfter w }

/-- The packfile that is being written, if there is one, is that of the round. -/
def continues (s : State) (w : World) (id : PackfileId) : Bool :=
  s.half.all fun h => decide (h.id = id) && (s.created w id).any fun n => decide (h.length ≤ n)

/-- The first bytes of the packfile of the round are in the folder. -/
def grow (s : State) (w : World) (id : PackfileId) (length : ℕ) : Option State :=
  if s.continues w id ∧ (s.created w id).any (fun n => decide (length ≤ n)) then
    some { s with half := some ⟨id, length, s.half.any Half.deleted⟩ }
  else none

/-- The folder after a round of `write_packfiles`.  A packfile that has been deleted meanwhile is
not in it. -/
def record (s : State) (t : ℕ) (w : World) (id : PackfileId) : State :=
  match s.created w id with
  | none => s.settle w
  | some n =>
    if s.half.any Half.deleted then s.settle { w with disk := w.disk.remove id }
    else (s.settle w).setFiles (s.files ++ [(id, n)])
      (if s.limit < s.whole then s.writers.insert t else s.writers)

/-- What `fs::metadata(path)?.len()` will be once everything that has been written is in the
file. -/
def fileSize (s : State) (id : PackfileId) : Option ℕ :=
  match s.world.disk.packfiles id with
  | some content => some content.length
  | none => (s.half.filter fun h => h.id = id && !h.deleted).map Half.length

def removeFile (s : State) (id : PackfileId) : State :=
  { s with
    world := { s.world with disk := s.world.disk.remove id }
    half := s.half.map (Half.delete id) }.setFiles
    (s.files.filter fun f => f.1 ≠ id) s.writers

def setSender (s : State) (pc : SendPc) : State := { s with sender := { s.sender with pc := pc } }

/-- The connection is given up. -/
def disconnect (s : State) : State :=
  { s with sender := { s.sender with pc := .top, connected := false } }

end State

/-- A backup begins, with so many tasks that may call `add_blob`: `initialize_static` and
`Manager::new` have returned.  The size that the packer begins with is that of the folder, or zero
if it cannot be read. -/
def start (k : ℕ) (disk : Disk) (ix : BlobIndex) (left : ℕ) (sized : Bool) : State where
  world := ⟨disk, [], [], some ⟨⟨[], ix, if sized then left else 0⟩, false⟩, false⟩
  pause := .start
  packfileBytesWritten := 0
  packfileBytesSent := 0
  storageRequestLastMatched := 0
  packingCompleted := false
  callers := List.replicate k .idle
  sender := ⟨.top, false, 0, 0, false⟩
  left := left
  files := []
  half := none
  writers := []
  excess := 0

/-! ## 2. The steps -/

/-- A step of a call of `add_blob`. -/
inductive CallEvent
  | check (nonce : Option BlobNonce)
  | enqueue
  | trigger
  | lock
  | write (io : PackfileIo)
  | unlock

def CallEvent.toAction (t : ℕ) : CallEvent → ManagerAction
  | .check nonce => .check t nonce
  | .enqueue => .enqueue t
  | .trigger => .trigger t
  | .lock => .lock t
  | .write io => .write t io
  | .unlock => .unlock t

/-- A step of `block_if_paused!`. -/
inductive BlockEvent
  | shouldContinue
  | subscribe
  | wake

def BlockEvent.toAction (t : ℕ) : BlockEvent → PauseAction
  | .shouldContinue => .shouldContinue t
  | .subscribe => .subscribe t
  | .wake => .wake t

/-- A step of the `flush` at the end of `pack`. -/
inductive FlushEvent
  | begin
  | grow (id : PackfileId) (length : ℕ)
  | write (io : PackfileIo)
  | index (io : FileWrite)

inductive ResumeEvent
  | store
  | lock
  | send
  | unlock

def ResumeEvent.toAction : ResumeEvent → PauseAction
  | .store => .resumeStore
  | .lock => .resumeLock
  | .send => .resumeSend
  | .unlock => .resumeUnlock

inductive SendEvent
  /-- the first lines of the loop -/
  | check
  /-- `pause` has stored the flag, and subscribes -/
  | subscribe
  /-- the counters are read -/
  | load
  /-- `get_peer_connection`, unless there is a connection -/
  | connect (ok : Bool)
  /-- `send_single_packfile` takes the size of a packfile, as far as its last write has come, then
  reads and sends it -/
  | stat (id : PackfileId) (size : ℕ)
  /-- the acknowledgement has come, and the size is counted; deleting the file, or counting it in
  the table of peers, may fail -/
  | acked (removed : Bool)
  /-- `send_packfiles_from_folder` fails -/
  | fails
  | listed
  | resumeCheck
  | resume (e : ResumeEvent)
  /-- `get_size` finds the folder empty, or not -/
  | finish (empty : Bool)
  | index (ok : Bool)

inductive Action
  /-- a task calls `add_blob` -/
  | add (t : ℕ) (kind : BlobKind) (data : Bytes)
  | call (t : ℕ) (e : CallEvent)
  /-- its `write_all` has come so far with a packfile -/
  | grow (t : ℕ) (id : PackfileId) (length : ℕ)
  /-- the call has returned -/
  | returned (t : ℕ)
  | block (t : ℕ) (e : BlockEvent)
  | flush (e : FlushEvent)
  /-- `set_packing_completed` -/
  | complete
  /-- `update_storage_request_last_matched` -/
  | matched (time : ℕ)
  | send (e : SendEvent)

/-- The end of the loop of `send`. -/
def Sender.rest (x : Sender) : Sender :=
  { x with pc := if x.packfilesDone then .indexing else .top }

def sendStep (s : State) (e : SendEvent) : Option State :=
  match e, s.sender.pc with
  | .check, .top =>
    if maxPackfileLocalBufferSize < s.availablePackfileBytes then
      (pauseStep s.pause .pauseStore).map fun p => { s with pause := p }.setSender .pausing
    else some (s.setSender .loading)
  | .subscribe, .pausing =>
    (pauseStep s.pause .pauseSubscribe).map fun p => { s with pause := p }.setSender .loading
  | .load, .loading =>
    some (s.setSender (.connecting s.packfileBytesWritten s.storageRequestLastMatched))
  | .connect ok, .connecting written matched =>
    let connected := s.sender.connected || ok
    some { s with sender :=
      if connected = true ∧ (s.sender.lastWritten < written ∨ s.sender.lastMatched < matched ∨
          s.packingCompleted = true) ∧ s.sender.packfilesDone = false then
        { s.sender with connected := true, pc := .sending written matched }
      else if connected then { s.sender with connected := true }.rest
      else { s.sender with pc := .top } }
  | .stat id size, .sending written matched =>
    if (s.fileSize id).any fun n => decide (size ≤ n) then
      some (s.setSender (.acking written matched id size))
    else none
  | .acked removed, .acking written matched id size =>
    let s' := { s with packfileBytesSent := s.packfileBytesSent + size }
    some (if removed then (s'.setSender (.sending written matched)).removeFile id
      else s'.disconnect)
  | .fails, .sending _ _ => some s.disconnect
  | .fails, .acking _ _ _ _ => some s.disconnect
  | .listed, .sending written matched =>
    some { s with sender :=
      { s.sender with pc := .sent, lastWritten := written, lastMatched := matched } }
  | .resumeCheck, .sent =>
    -- the subtraction overflows, and with overflow checks the task panics
    if maxPackfileLocalBufferSize < s.availablePackfileBytes then some (s.setSender .ended)
    else if packfileLocalBufferResumeThreshold
        < maxPackfileLocalBufferSize - s.availablePackfileBytes ∧ s.pause.paused = true then
      (pauseStep s.pause .resumeCheck).map fun p => { s with pause := p }.setSender .resuming
    else some (s.setSender .finishing)
  | .resume e, .resuming =>
    (pauseStep s.pause e.toAction).map fun p =>
      { s with pause := p }.setSender (if p.sender = SenderPc.idle then .finishing else .resuming)
  | .finish empty, .finishing =>
    some { s with sender :=
      { s.sender with packfilesDone := s.packingCompleted && empty }.rest }
  | .index ok, .indexing => some (if ok then s.setSender .ended else s.disconnect)
  | _, _ => none

def step (P : Primitives) (keys : KeyManager) (s : State) : Action → Option State
  | .add t kind data =>
    match s.callers[t]? with
    | some .idle =>
      (managerStep P keys s.world (.addBlob ⟨P.hash data, kind, data⟩)).map fun w =>
        { s with world := w }.setCaller t (.adding s.world.calls.length false)
    | _ => none
  | .call t e =>
    match s.callers[t]? with
    | some (.adding i wrote) =>
      (managerStep P keys s.world (e.toAction i)).bind fun w =>
        match e with
        | .write io =>
          if s.continues w io.id then
            some ((s.record t w io.id).setCaller t
              (.adding i (wrote || (s.created w io.id).isSome)))
          else none
        | _ => some { s with world := w }
    | _ => none
  | .grow t id length =>
    match s.callers[t]? with
    | some (.adding i _) =>
      (managerStep P keys s.world (.write i ⟨id, .ok, fun _ => .ok⟩)).bind fun w =>
        s.grow w id length
    | _ => none
  | .returned t =>
    match s.callers[t]? with
    | some (.adding i _) =>
      match (s.world.calls[i]?).map AddCall.pc with
      | some (.returned (.ok written)) =>
        some ({ s with packfileBytesWritten := written.getD s.packfileBytesWritten }.setCaller t
          .idle)
      | some (.returned (.error e)) =>
        -- any other error ends the task, and another one takes its place
        some (s.setCaller t (if e = .exceededBufferLimit then .blocking else .idle))
      | _ => none
    | _ => none
  | .block t e =>
    match s.callers[t]? with
    | some .blocking =>
      (pauseStep s.pause (e.toAction t)).map fun p =>
        { s with pause := p }.setCaller t
          (if p.packer t = PackerPc.running then .idle else .blocking)
    | _ => none
  | .flush .begin =>
    if s.callers.all fun c => c = .idle then
      (managerStep P keys s.world .flush).map fun w => { s with world := w }
    else none
  | .flush (.grow id length) =>
    (managerStep P keys s.world (.flushWrite ⟨id, .ok, fun _ => .ok⟩)).bind fun w =>
      s.grow w id length
  | .flush (.write io) =>
    (managerStep P keys s.world (.flushWrite io)).bind fun w =>
      if s.continues w io.id then some (s.record 0 w io.id) else none
  | .flush (.index io) =>
    (managerStep P keys s.world (.flushIndex io)).map fun w => { s with world := w }
  | .complete =>
    match s.world.session with
    | some _ => none
    | none => if s.world.flushed then some { s with packingCompleted := true } else none
  | .matched time => some { s with storageRequestLastMatched := time }
  | .send e => sendStep s e

/-! ## 3. The flag and its listeners -/

/-- While the backup is paused no `resume` is under way, and the channels are those that have been
created. -/
structure PauseOk (p : PauseState) : Prop where
  flag : p.paused = true → ¬ p.Resuming
  sent_lt : ∀ ch ∈ p.sent, ch < p.channels
  listeners_lt : ∀ ch ∈ p.listeners, ch < p.channels

theorem pauseOk_start : PauseOk .start where
  flag h := by simp [PauseState.start] at h
  sent_lt ch h := by simp [PauseState.start] at h
  listeners_lt ch h := by simp [PauseState.start] at h

section

variable {p p' : PauseState}

theorem PauseOk.push (h : PauseOk p) {pc : SenderPc} (hpc : pc = .idle ∨ pc = p.sender) :
    PauseOk (p.push.setSender pc) where
  flag hp := by
    rcases hpc with rfl | rfl
    · simp [PauseState.Resuming, PauseState.setSender]
    · exact h.flag hp
  sent_lt ch hch := (h.sent_lt ch hch).trans (Nat.lt_succ_self _)
  listeners_lt ch hch := by
    rcases List.mem_append.mp hch with hch | hch
    · exact (h.listeners_lt ch hch).trans (Nat.lt_succ_self _)
    · rw [List.mem_singleton.mp hch]
      exact Nat.lt_succ_self _

/-- Every step of the flag, the tasks and `initialize_static` keeps this. -/
theorem pauseOk_step {a : PauseAction} (h : PauseOk p) (hst : pauseStep p a = some p') :
    PauseOk p' := by
  cases a with
  | shouldContinue t =>
    obtain ⟨-, hst⟩ := Option.ite_none_right_eq_some.mp hst
    obtain rfl := Option.some.inj hst
    split
    · exact { h with }
    · exact h
  | subscribe t =>
    obtain ⟨-, hst⟩ := Option.ite_none_right_eq_some.mp hst
    obtain rfl := Option.some.inj hst
    have hpush := h.push (Or.inr rfl)
    exact { hpush with }
  | wake t =>
    simp only [pauseStep] at hst
    split at hst
    · split at hst
      · obtain rfl := Option.some.inj hst
        exact { h with }
      · obtain ⟨-, hst⟩ := Option.ite_none_right_eq_some.mp hst
        obtain rfl := Option.some.inj hst
        exact { h with }
    · cases hst
  | pauseStore =>
    obtain ⟨-, hst⟩ := Option.ite_none_right_eq_some.mp hst
    obtain rfl := Option.some.inj hst
    exact { h with flag := fun _ => by simp [PauseState.Resuming] }
  | pauseSubscribe =>
    obtain ⟨-, hst⟩ := Option.ite_none_right_eq_some.mp hst
    obtain rfl := Option.some.inj hst
    exact h.push (Or.inl rfl)
  | resumeCheck =>
    obtain ⟨-, hst⟩ := Option.ite_none_right_eq_some.mp hst
    obtain rfl := Option.some.inj hst
    split
    · exact { h with flag := fun _ => by simp [PauseState.Resuming, PauseState.setSender] }
    · exact h
  | resumeStore =>
    obtain ⟨-, hst⟩ := Option.ite_none_right_eq_some.mp hst
    obtain rfl := Option.some.inj hst
    exact { h with flag := fun hp => (by cases hp) }
  | resumeLock =>
    obtain ⟨hsender, hst⟩ := Option.ite_none_right_eq_some.mp hst
    obtain rfl := Option.some.inj hst
    exact { h with flag := fun hp => absurd (Or.inl hsender) (h.flag hp) }
  | resumeSend =>
    obtain ⟨hsender, hst⟩ := Option.ite_none_right_eq_some.mp hst
    split at hst
    · cases hst
    · rename_i ch rest hlisteners
      obtain rfl := Option.some.inj hst
      have hlt := h.listeners_lt
      rw [hlisteners] at hlt
      exact {
        flag := fun hp => absurd (Or.inr hsender) (h.flag hp)
        sent_lt := List.forall_mem_cons.mpr ⟨hlt ch List.mem_cons_self, h.sent_lt⟩
        listeners_lt := fun ch' hch' => hlt ch' (List.mem_cons_of_mem _ hch') }
  | resumeUnlock =>
    obtain ⟨-, hst⟩ := Option.ite_none_right_eq_some.mp hst
    obtain rfl := Option.some.inj hst
    exact { h with flag := fun _ => by simp [PauseState.Resuming, PauseState.setSender] }
  | initCheck k running =>
    obtain ⟨-, hst⟩ := Option.ite_none_right_eq_some.mp hst
    obtain rfl := Option.some.inj hst
    split
    · exact h
    · exact { h with }
  | initClear k =>
    obtain ⟨-, hst⟩ := Option.ite_none_right_eq_some.mp hst
    obtain rfl := Option.some.inj hst
    exact { h with listeners_lt := fun ch hch => (by cases hch) }
  | initStore k =>
    obtain ⟨-, hst⟩ := Option.ite_none_right_eq_some.mp hst
    obtain rfl := Option.some.inj hst
    exact { h with flag := fun hp => (by cases hp) }

/-- A step of `block_if_paused!` in a task leaves the flag and the other tasks alone; while the
backup is paused the task goes on only if its channel has been sent on, and a channel it begins to
wait on is new. -/
theorem block_cases {t : ℕ} {e : BlockEvent} (hst : pauseStep p (e.toAction t) = some p') :
    p'.paused = p.paused ∧ p'.sent = p.sent ∧ (∀ u, u ≠ t → p'.packer u = p.packer u) ∧
      (p.paused = true → p'.packer t = .running → ∃ ch, p.packer t = .waiting ch ∧ ch ∈ p.sent) ∧
      ∀ ch, p'.packer t = .waiting ch → ch = p.channels := by
  cases e with
  | shouldContinue =>
    obtain ⟨hrunning, hst⟩ := Option.ite_none_right_eq_some.mp hst
    obtain rfl := Option.some.inj hst
    split
    · refine ⟨rfl, rfl, fun u hu => by simp [PauseState.setPacker, hu], ?_, ?_⟩ <;>
        simp [PauseState.setPacker]
    · rename_i hpaused
      exact ⟨rfl, rfl, fun _ _ => rfl, fun h => absurd h hpaused, fun ch h => by
        rw [hrunning] at h
        cases h⟩
  | subscribe =>
    obtain ⟨-, hst⟩ := Option.ite_none_right_eq_some.mp hst
    obtain rfl := Option.some.inj hst
    refine ⟨rfl, rfl, fun u hu => by simp [PauseState.setPacker, PauseState.push, hu], ?_, ?_⟩
    · simp [PauseState.setPacker]
    · intro ch hch
      simpa [PauseState.setPacker, eq_comm] using hch
  | wake =>
    simp only [BlockEvent.toAction, pauseStep] at hst
    split at hst
    · rename_i ch hwaiting
      split at hst
      · rename_i hsent
        obtain rfl := Option.some.inj hst
        refine ⟨rfl, rfl, fun u hu => by simp [PauseState.setPacker, hu], ?_, ?_⟩
        · exact fun _ _ => ⟨ch, hwaiting, hsent⟩
        · simp [PauseState.setPacker]
      · obtain ⟨-, hst⟩ := Option.ite_none_right_eq_some.mp hst
        obtain rfl := Option.some.inj hst
        refine ⟨rfl, rfl, fun u hu => by simp [PauseState.setPacker, hu], ?_, ?_⟩ <;>
          simp [PauseState.setPacker]
    · cases hst

/-- The steps of the sending task leave the others alone.  While the backup is paused, only the
first step of `resume` changes the flag, and nobody is notified. -/
theorem sender_cases {a : PauseAction} (hst : pauseStep p a = some p')
    (ha : a = .pauseStore ∨ a = .pauseSubscribe ∨ a = .resumeCheck ∨
      ∃ r : ResumeEvent, a = r.toAction) :
    p'.packer = p.packer ∧ (PauseOk p → p.paused = true → a ≠ .resumeStore →
      p'.paused = true ∧ p'.sent = p.sent) := by
  rcases ha with rfl | rfl | rfl | ⟨r, rfl⟩
  · obtain ⟨-, hst⟩ := Option.ite_none_right_eq_some.mp hst
    obtain rfl := Option.some.inj hst
    exact ⟨rfl, fun _ _ _ => ⟨rfl, rfl⟩⟩
  · obtain ⟨-, hst⟩ := Option.ite_none_right_eq_some.mp hst
    obtain rfl := Option.some.inj hst
    exact ⟨rfl, fun _ hp _ => ⟨hp, rfl⟩⟩
  · obtain ⟨-, hst⟩ := Option.ite_none_right_eq_some.mp hst
    obtain rfl := Option.some.inj hst
    split
    · exact ⟨rfl, fun _ hp _ => ⟨hp, rfl⟩⟩
    · exact ⟨rfl, fun _ hp _ => ⟨hp, rfl⟩⟩
  · cases r with
    | store =>
      obtain ⟨-, hst⟩ := Option.ite_none_right_eq_some.mp hst
      obtain rfl := Option.some.inj hst
      exact ⟨rfl, fun _ _ h => absurd rfl h⟩
    | lock =>
      obtain ⟨-, hst⟩ := Option.ite_none_right_eq_some.mp hst
      obtain rfl := Option.some.inj hst
      exact ⟨rfl, fun _ hp _ => ⟨hp, rfl⟩⟩
    | send =>
      obtain ⟨hsender, hst⟩ := Option.ite_none_right_eq_some.mp hst
      split at hst
      · cases hst
      · obtain rfl := Option.some.inj hst
        exact ⟨rfl, fun h hp _ => absurd (Or.inr hsender) (h.flag hp)⟩
    | unlock =>
      obtain ⟨-, hst⟩ := Option.ite_none_right_eq_some.mp hst
      obtain rfl := Option.some.inj hst
      exact ⟨rfl, fun _ hp _ => ⟨hp, rfl⟩⟩

end

/-! ## 4. The tasks -/

/-- Each task has a call of its own, and nobody waits but in `block_if_paused!`. -/
structure Orderly (s : State) : Prop where
  called : ∀ (t i : ℕ) (wrote : Bool), s.callers[t]? = some (Caller.adding i wrote) →
    i < s.world.calls.length
  distinct : ∀ (t u i : ℕ) (wrote wrote' : Bool), s.callers[t]? = some (Caller.adding i wrote) →
    s.callers[u]? = some (Caller.adding i wrote') → t = u
  running : ∀ t : ℕ, s.callers[t]? ≠ some Caller.blocking → s.pause.packer t = .running
  pause : PauseOk s.pause

section

variable {P : Primitives} {keys : KeyManager} {s s' : State} {a : Action} {t u : ℕ}
  {c c' : Caller}

theorem getElem?_setCaller (h : s.callers[t]? = some c) :
    (s.setCaller t c').callers[u]? = if u = t then some c' else s.callers[u]? := by
  have hlt : t < s.callers.length := (List.getElem?_eq_some_iff.mp h).1
  simp only [State.setCaller, List.getElem?_set, eq_comm (a := t)]
  by_cases hu : u = t
  · simp [hu, hlt]
  · simp [hu]

theorem orderly_start {k : ℕ} {disk : Disk} {ix : BlobIndex} {left : ℕ} {sized : Bool} :
    Orderly (start k disk ix left sized) where
  called t i wrote h := by
    have := List.eq_of_mem_replicate (List.mem_of_getElem? h)
    cases this
  distinct t u i wrote wrote' h _ := by
    have := List.eq_of_mem_replicate (List.mem_of_getElem? h)
    cases this
  running t _ := rfl
  pause := pauseOk_start

/-- The tasks and their calls are as before. -/
theorem Orderly.of_eq (h : Orderly s) (hcallers : s'.callers = s.callers)
    (hcalls : s'.world.calls.length = s.world.calls.length)
    (hpacker : s'.pause.packer = s.pause.packer) (hpause : PauseOk s'.pause) : Orderly s' where
  called := by simpa only [hcallers, hcalls] using h.called
  distinct := by simpa only [hcallers] using h.distinct
  running := by simpa only [hcallers, hpacker] using h.running
  pause := hpause

/-- A task stops or goes on, without a new call. -/
theorem Orderly.setCaller (h : Orderly s) (ht : s.callers[t]? = some c)
    (hcall : ∀ i wrote, c' = .adding i wrote → ∃ wrote', c = .adding i wrote')
    (hrunning : c' ≠ .blocking → s.pause.packer t = .running) : Orderly (s.setCaller t c') where
  called u i wrote hu := by
    rw [getElem?_setCaller ht] at hu
    split at hu
    · obtain ⟨wrote', rfl⟩ := hcall i wrote (Option.some.inj hu)
      exact h.called t i wrote' ht
    · exact h.called u i wrote hu
  distinct u v i wrote wrote' hu hv := by
    rw [getElem?_setCaller ht] at hu hv
    split at hu
    · rename_i hut
      obtain ⟨w, rfl⟩ := hcall i wrote (Option.some.inj hu)
      split at hv
      · rename_i hvt
        rw [hut, hvt]
      · exact hut.trans (h.distinct t v i w wrote' ht hv)
    · split at hv
      · rename_i hvt
        obtain ⟨w, rfl⟩ := hcall i wrote' (Option.some.inj hv)
        exact (h.distinct u t i wrote w hu ht).trans hvt.symm
      · exact h.distinct u v i wrote wrote' hu hv
  running u hu := by
    rw [getElem?_setCaller ht] at hu
    split at hu
    · rename_i hut
      subst hut
      exact hrunning fun heq => hu (heq ▸ rfl)
    · exact h.running u hu
  pause := h.pause

/-- A step of a call moves that call, and only a round of `write_packfiles` touches the folder. -/
inductive CallMove (P : Primitives) (keys : KeyManager) (i : ℕ) (w w' : World) : CallEvent → Prop
  | moves (e : CallEvent) (call : AddCall) (pc : AddPc) : w.calls[i]? = some call →
      w' = { w with session := w'.session, calls := w.calls.set i { call with pc := pc } } →
      (∀ io, e ≠ .write io) → (∀ r, call.pc ≠ .returned r) →
      (call.pc = .writing true → pc = .returned (.error .exceededBufferLimit)) →
      CallMove P keys i w w' e
  | writes (io : PackfileIo) (session : Session) (call : AddCall) (exceeded : Bool) (m : Manager)
      (disk : Disk) (r : Except PackfileError Bool) (pc : AddPc) : w.session = some session →
      w.calls[i]? = some call → call.pc = .writing exceeded →
      session.manager.writePackfile P keys w.disk io = some (m, disk, r) →
      (∀ x, r = .ok x → pc = .writing (exceeded || x)) → w'.disk = disk →
      w'.calls = w.calls.set i { call with pc := pc } → CallMove P keys i w w' (.write io)

theorem callMove_of_managerStep {w w' : World} {e : CallEvent} {i : ℕ}
    (h : managerStep P keys w (e.toAction i) = some w') : CallMove P keys i w w' e := by
  cases e with
  | check nonce =>
    obtain ⟨session, call, hs, hc, h⟩ := inCall_eq_some h
    split at h
    · rename_i hpc
      obtain ⟨-, h⟩ := Option.ite_none_right_eq_some.mp h
      have hset : ∃ pc, w' = w.setPc i call pc := by
        split at h
        · exact ⟨_, (Option.some.inj h).symm⟩
        · split at h
          · exact ⟨_, (Option.some.inj h).symm⟩
          · split at h
            · exact ⟨_, (Option.some.inj h).symm⟩
            · exact ⟨_, (Option.some.inj h).symm⟩
      obtain ⟨pc, rfl⟩ := hset
      exact .moves _ call pc hc rfl (by simp) (by simp [hpc]) (by simp [hpc])
    · cases h
  | enqueue =>
    obtain ⟨session, call, hs, hc, h⟩ := inCall_eq_some h
    split at h
    · rename_i blob hpc
      obtain ⟨-, h⟩ := Option.ite_none_right_eq_some.mp h
      obtain rfl := Option.some.inj h
      exact .moves _ call .queued hc rfl (by simp) (by simp [hpc]) (by simp [hpc])
    · cases h
  | trigger =>
    obtain ⟨session, call, hs, hc, h⟩ := inCall_eq_some h
    split at h
    · rename_i hpc
      obtain ⟨-, h⟩ := Option.ite_none_right_eq_some.mp h
      obtain rfl := Option.some.inj h
      exact .moves _ call _ hc rfl (by simp) (by simp [hpc]) (by simp [hpc])
    · cases h
  | lock =>
    obtain ⟨session, call, hs, hc, h⟩ := inCall_eq_some h
    split at h
    · rename_i hpc
      obtain ⟨-, h⟩ := Option.ite_none_right_eq_some.mp h
      obtain rfl := Option.some.inj h
      exact .moves _ call _ hc rfl (by simp) (by simp [hpc]) (by simp [hpc])
    · cases h
  | write io =>
    obtain ⟨session, call, hs, hc, h⟩ := inCall_eq_some h
    split at h
    · rename_i exceeded hpc
      split at h
      · cases h
      · obtain ⟨⟨m, disk, r⟩, hwrite, rfl⟩ := Option.map_eq_some_iff.mp h
        refine .writes io session call exceeded m disk r _ hs hc hpc hwrite ?_ rfl rfl
        rintro x rfl
        rfl
    · cases h
  | unlock =>
    obtain ⟨session, call, hs, hc, h⟩ := inCall_eq_some h
    split at h
    · rename_i exceeded hpc
      obtain ⟨-, h⟩ := Option.ite_none_right_eq_some.mp h
      obtain rfl := Option.some.inj h
      refine .moves _ call _ hc rfl (by simp) (by simp [hpc]) ?_
      intro hwriting
      obtain rfl : exceeded = true := by simpa [hpc] using hwriting
      rfl
    · cases h

theorem CallMove.length {w w' : World} {e : CallEvent} {i : ℕ} (h : CallMove P keys i w w' e) :
    w'.calls.length = w.calls.length := by
  cases h with
  | moves e call pc _ hw => rw [hw, List.length_set]
  | writes io session call exceeded m disk r pc _ _ _ _ _ _ hcalls =>
    rw [hcalls, List.length_set]

theorem flush_calls {w w' : World} {a : ManagerAction}
    (ha : a = .flush ∨ (∃ io, a = .flushWrite io) ∨ ∃ io, a = .flushIndex io)
    (h : managerStep P keys w a = some w') : w'.calls = w.calls := by
  have hst := stepped_of_managerStep h
  rcases ha with rfl | ⟨io, rfl⟩ | ⟨io, rfl⟩
  · cases hst with
    | flushes => rfl
    | moved s t call a pc hs hcall hmove => exact absurd hmove.of_call (by simp)
  · cases hst with
    | flushWrote | flushFailed => rfl
    | moved s t call a pc hs hcall hmove => exact absurd hmove.of_call (by simp)
  · cases hst with
    | flushedIndex => rfl
    | moved s t call a pc hs hcall hmove => exact absurd hmove.of_call (by simp)

theorem flushing_of_managerStep {w w' : World} {a : ManagerAction} {y : Session}
    (ha : a ≠ .flush ∧ ∀ names files size, a ≠ .openManager names files size)
    (h : managerStep P keys w a = some w') (hy : w'.session = some y) :
    ∃ x, w.session = some x ∧ x.flushing = y.flushing := by
  cases stepped_of_managerStep h with
  | opened | notOpened => exact absurd rfl (ha.2 _ _ _)
  | flushes => exact absurd rfl ha.1
  | added | moved => exact ⟨y, hy, rfl⟩
  | enqueued x t call blob hx => exact ⟨x, hx, Option.some.inj hy ▸ rfl⟩
  | wrote x t call exceeded io m disk r pc hx => exact ⟨x, hx, Option.some.inj hy ▸ rfl⟩
  | flushWrote x io m disk e hx => exact ⟨x, hx, Option.some.inj hy ▸ rfl⟩
  | flushFailed | flushedIndex | killed => cases hy

theorem State.created_eq_some {s : State} {w : World} {id : PackfileId} {n : ℕ} :
    s.created w id = some n ↔ s.world.disk.packfiles id = none ∧
      ∃ content, w.disk.packfiles id = some content ∧ content.length = n := by
  unfold State.created
  cases hbefore : s.world.disk.packfiles id <;> cases hafter : w.disk.packfiles id <;> simp

theorem record_of_none {w : World} {id : PackfileId} (h : s.created w id = none) :
    s.record t w id = s.settle w := by
  simp only [State.record, h]

theorem record_of_deleted {w : World} {id : PackfileId} {n : ℕ} (h : s.created w id = some n)
    (hdeleted : s.half.any Half.deleted = true) :
    s.record t w id = s.settle { w with disk := w.disk.remove id } := by
  simp only [State.record, h, hdeleted, if_true]

theorem record_of_some {w : World} {id : PackfileId} {n : ℕ} (h : s.created w id = some n)
    (hdeleted : s.half.any Half.deleted = false) :
    s.record t w id = (s.settle w).setFiles (s.files ++ [(id, n)])
      (if s.limit < s.whole then s.writers.insert t else s.writers) := by
  simp only [State.record, h, hdeleted, Bool.false_eq_true, if_false]

section

variable {w : World} {id : PackfileId}

@[simp] theorem record_callers : (s.record t w id).callers = s.callers := by
  simp only [State.record]
  split <;> [rfl; split <;> rfl]

@[simp] theorem record_session : (s.record t w id).world.session = w.session := by
  simp only [State.record]
  split <;> [rfl; split <;> rfl]

@[simp] theorem record_calls : (s.record t w id).world.calls = w.calls := by
  simp only [State.record]
  split <;> [rfl; split <;> rfl]

@[simp] theorem record_pause : (s.record t w id).pause = s.pause := by
  simp only [State.record]
  split <;> [rfl; split <;> rfl]

@[simp] theorem record_left : (s.record t w id).left = s.left := by
  simp only [State.record]
  split <;> [rfl; split <;> rfl]

@[simp] theorem record_sender : (s.record t w id).sender = s.sender := by
  simp only [State.record]
  split <;> [rfl; split <;> rfl]

@[simp] theorem record_sent : (s.record t w id).packfileBytesSent = s.packfileBytesSent := by
  simp only [State.record]
  split <;> [rfl; split <;> rfl]

@[simp] theorem record_written :
    (s.record t w id).packfileBytesWritten = s.packfileBytesWritten := by
  simp only [State.record]
  split <;> [rfl; split <;> rfl]

@[simp] theorem record_half : (s.record t w id).half = none := by
  simp only [State.record]
  split <;> [rfl; split <;> rfl]

@[simp] theorem record_excess : (s.record t w id).excess = s.excessAfter w := by
  simp only [State.record]
  split <;> [rfl; split <;> rfl]

end

theorem State.grow_eq_some {w : World} {id : PackfileId} {n : ℕ} (h : s.grow w id n = some s') :
    (∃ size, s.created w id = some size ∧ n ≤ size) ∧
      s' = { s with half := some ⟨id, n, s.half.any Half.deleted⟩ } := by
  obtain ⟨⟨-, hsize⟩, rfl⟩ := Option.ite_some_none_eq_some.mp h
  obtain ⟨size, hsize, hle⟩ := (Option.any_eq_true _ _).mp hsize
  exact ⟨⟨size, hsize, of_decide_eq_true hle⟩, rfl⟩

inductive Sends (s : State) : SendEvent → State → Prop
  | pauses (p : PauseState) : s.sender.pc = .top →
      maxPackfileLocalBufferSize < s.availablePackfileBytes →
      pauseStep s.pause .pauseStore = some p →
      Sends s .check ({ s with pause := p }.setSender .pausing)
  | checks : s.sender.pc = .top → s.availablePackfileBytes ≤ maxPackfileLocalBufferSize →
      Sends s .check (s.setSender .loading)
  | subscribes (p : PauseState) : s.sender.pc = .pausing →
      pauseStep s.pause .pauseSubscribe = some p →
      Sends s .subscribe ({ s with pause := p }.setSender .loading)
  | loads : s.sender.pc = .loading → Sends s .load
      (s.setSender (.connecting s.packfileBytesWritten s.storageRequestLastMatched))
  | begins (ok : Bool) (written matched : ℕ) : s.sender.pc = .connecting written matched →
      Sends s (.connect ok) { s with sender := { s.sender with
        connected := true
        pc := .sending written matched } }
  | rests (ok : Bool) (written matched : ℕ) : s.sender.pc = .connecting written matched →
      Sends s (.connect ok) { s with sender := { s.sender with connected := true }.rest }
  | unconnected (ok : Bool) (written matched : ℕ) : s.sender.pc = .connecting written matched →
      Sends s (.connect ok) { s with sender := { s.sender with pc := .top } }
  | stats (written matched : ℕ) (id : PackfileId) (size : ℕ) :
      s.sender.pc = .sending written matched →
      Sends s (.stat id size) (s.setSender (.acking written matched id size))
  | acked (written matched : ℕ) (id : PackfileId) (size : ℕ) :
      s.sender.pc = .acking written matched id size →
      Sends s (.acked true) (({ s with packfileBytesSent := s.packfileBytesSent + size }.setSender
        (.sending written matched)).removeFile id)
  | keeps (written matched : ℕ) (id : PackfileId) (size : ℕ) :
      s.sender.pc = .acking written matched id size →
      Sends s (.acked false)
        { s with packfileBytesSent := s.packfileBytesSent + size }.disconnect
  | fails : Sends s .fails s.disconnect
  | listed (written matched : ℕ) : s.sender.pc = .sending written matched →
      Sends s .listed { s with sender := { s.sender with
        pc := .sent
        lastWritten := written
        lastMatched := matched } }
  | underflows : s.sender.pc = .sent → maxPackfileLocalBufferSize < s.availablePackfileBytes →
      Sends s .resumeCheck (s.setSender .ended)
  | resumes (p : PauseState) : s.sender.pc = .sent →
      packfileLocalBufferResumeThreshold
        < maxPackfileLocalBufferSize - s.availablePackfileBytes →
      s.pause.paused = true → pauseStep s.pause .resumeCheck = some p →
      Sends s .resumeCheck ({ s with pause := p }.setSender .resuming)
  | goesOn : s.sender.pc = .sent → Sends s .resumeCheck (s.setSender .finishing)
  | resumed (e : ResumeEvent) (p : PauseState) : s.sender.pc = .resuming →
      pauseStep s.pause e.toAction = some p →
      Sends s (.resume e) ({ s with pause := p }.setSender
        (if p.sender = SenderPc.idle then .finishing else .resuming))
  | finishes (empty : Bool) : s.sender.pc = .finishing →
      Sends s (.finish empty) { s with sender :=
        { s.sender with packfilesDone := s.packingCompleted && empty }.rest }
  | indexed : s.sender.pc = .indexing → Sends s (.index true) (s.setSender .ended)
  | indexFails : s.sender.pc = .indexing → Sends s (.index false) s.disconnect

theorem sends_of_sendStep {e : SendEvent} (h : sendStep s e = some s') : Sends s e s' := by
  unfold sendStep at h
  split at h
  · rename_i hpc
    split at h
    · rename_i hlt
      obtain ⟨p, hp, rfl⟩ := Option.map_eq_some_iff.mp h
      exact .pauses p hpc hlt hp
    · rename_i hle
      obtain rfl := Option.some.inj h
      exact .checks hpc (not_lt.mp hle)
  · rename_i hpc
    obtain ⟨p, hp, rfl⟩ := Option.map_eq_some_iff.mp h
    exact .subscribes p hpc hp
  · rename_i hpc
    obtain rfl := Option.some.inj h
    exact .loads hpc
  · rename_i ok written matched hpc
    obtain rfl := Option.some.inj h
    dsimp only
    split
    · exact .begins ok written matched hpc
    · split
      · exact .rests ok written matched hpc
      · exact .unconnected ok written matched hpc
  · rename_i id size written matched hpc
    obtain ⟨-, rfl⟩ := Option.ite_some_none_eq_some.mp h
    exact .stats written matched id size hpc
  · rename_i removed written matched id size hpc
    obtain rfl := Option.some.inj h
    cases removed with
    | true => exact .acked written matched id size hpc
    | false => exact .keeps written matched id size hpc
  · obtain rfl := Option.some.inj h
    exact .fails
  · obtain rfl := Option.some.inj h
    exact .fails
  · rename_i written matched hpc
    obtain rfl := Option.some.inj h
    exact .listed written matched hpc
  · rename_i hpc
    split at h
    · rename_i hlt
      obtain rfl := Option.some.inj h
      exact .underflows hpc hlt
    · split at h
      · rename_i hthreshold
        obtain ⟨p, hp, rfl⟩ := Option.map_eq_some_iff.mp h
        exact .resumes p hpc hthreshold.1 hthreshold.2 hp
      · obtain rfl := Option.some.inj h
        exact .goesOn hpc
  · rename_i e hpc
    obtain ⟨p, hp, rfl⟩ := Option.map_eq_some_iff.mp h
    exact .resumed e p hpc hp
  · rename_i empty hpc
    obtain rfl := Option.some.inj h
    exact .finishes empty hpc
  · rename_i ok hpc
    obtain rfl := Option.some.inj h
    cases ok with
    | true => exact .indexed hpc
    | false => exact .indexFails hpc
  · cases h

/-- What no step of `send` touches. -/
structure SendKeeps (s s' : State) : Prop where
  callers : s'.callers = s.callers
  session : s'.world.session = s.world.session
  calls : s'.world.calls = s.world.calls
  left : s'.left = s.left
  excess : s'.excess = s.excess
  written : s'.packfileBytesWritten = s.packfileBytesWritten
  sent : s.packfileBytesSent ≤ s'.packfileBytesSent

theorem sendKeeps_of_sendStep {e : SendEvent} (h : sendStep s e = some s') : SendKeeps s s' := by
  cases sends_of_sendStep h with
  | acked | keeps => exact ⟨rfl, rfl, rfl, rfl, rfl, rfl, Nat.le_add_right _ _⟩
  | pauses | checks | subscribes | loads | begins | rests | unconnected | stats | fails | listed
    | underflows | resumes | goesOn | resumed | finishes | indexed | indexFails =>
    exact ⟨rfl, rfl, rfl, rfl, rfl, rfl, le_refl _⟩

/-- The packfiles in the folder are as before. -/
structure SameFiles (s s' : State) : Prop where
  disk : s'.world.disk = s.world.disk
  files : s'.files = s.files
  half : s'.half = s.half
  writers : s'.writers = s.writers

/-- A step of `send` deletes a file, or moves the flag, or does neither. -/
inductive SendMove (s s' : State) (e : SendEvent) : Prop
  | removes (id : PackfileId) (disk : s'.world.disk = s.world.disk.remove id)
      (files : s'.files = s.files.filter fun f => f.1 ≠ id)
      (half : s'.half = s.half.map (Half.delete id))
      (writers : s'.writers = if s'.whole ≤ s.limit then [] else s.writers)
      (pause : s'.pause = s.pause)
  | pauses (a : PauseAction) (same : SameFiles s s') (pause : pauseStep s.pause a = some s'.pause)
      (ha : a = .pauseStore ∨ a = .pauseSubscribe ∨ a = .resumeCheck ∨
        ∃ r : ResumeEvent, e = .resume r ∧ a = r.toAction)
  | stays (same : SameFiles s s') (pause : s'.pause = s.pause)

theorem sendMove_of_sendStep {e : SendEvent} (h : sendStep s e = some s') : SendMove s s' e := by
  cases sends_of_sendStep h with
  | acked written matched id => exact .removes id rfl rfl rfl rfl rfl
  | pauses p _ _ hp => exact .pauses _ ⟨rfl, rfl, rfl, rfl⟩ hp (Or.inl rfl)
  | subscribes p _ hp => exact .pauses _ ⟨rfl, rfl, rfl, rfl⟩ hp (Or.inr (Or.inl rfl))
  | resumes p _ _ _ hp => exact .pauses _ ⟨rfl, rfl, rfl, rfl⟩ hp (Or.inr (Or.inr (Or.inl rfl)))
  | resumed r p _ hp =>
    exact .pauses _ ⟨rfl, rfl, rfl, rfl⟩ hp (Or.inr (Or.inr (Or.inr ⟨r, rfl, rfl⟩)))
  | checks | loads | begins | rests | unconnected | stats | keeps | fails | listed | underflows
    | goesOn | finishes | indexed | indexFails => exact .stays ⟨rfl, rfl, rfl, rfl⟩ rfl

/-- A new call comes after the others. -/
theorem addBlob_calls {w w' : World} {blob : Blob}
    (h : managerStep P keys w (.addBlob blob) = some w') :
    ∃ call, w'.calls = w.calls ++ [call] := by
  cases stepped_of_managerStep h with
  | added session blob pc => exact ⟨_, rfl⟩
  | moved session t call a pc hs hcall hmove => exact absurd hmove.of_call (by simp)

theorem Orderly.other_call (h : Orderly s) {i : ℕ} {wrote : Bool}
    (ht : s.callers[t]? = some (Caller.adding i wrote)) (hut : u ≠ t) {w : World} {call : AddCall}
    (hw : w.calls = s.world.calls.set i call) : ∀ j wrote',
    s.callers[u]? = some (Caller.adding j wrote') → w.calls[j]? = s.world.calls[j]? := by
  intro j wrote' hu
  have hji : i ≠ j := by
    rintro rfl
    exact hut (h.distinct u t i wrote' wrote hu ht)
  rw [hw, List.getElem?_set_ne hji]

theorem Orderly.add (h : Orderly s) (ht : s.callers[t]? = some .idle) {w : World} {call : AddCall}
    (hw : w.calls = s.world.calls ++ [call]) :
    Orderly ({ s with world := w }.setCaller t (.adding s.world.calls.length false)) := by
  have hget : ∀ u, ({ s with world := w }.setCaller t
      (.adding s.world.calls.length false)).callers[u]?
        = if u = t then some (.adding s.world.calls.length false) else s.callers[u]? :=
    fun u => getElem?_setCaller (s := { s with world := w }) ht
  have hlen : ({ s with world := w }.setCaller t
      (.adding s.world.calls.length false)).world.calls.length = s.world.calls.length + 1 := by
    simp [State.setCaller, hw]
  refine ⟨fun u i wrote hu => ?_, fun u v i wrote wrote' hu hv => ?_, fun u hu => ?_, h.pause⟩
  · rw [hget] at hu
    rw [hlen]
    split at hu
    · obtain ⟨rfl, -⟩ := Caller.adding.inj (Option.some.inj hu)
      exact Nat.lt_succ_self _
    · exact (h.called u i wrote hu).trans (Nat.lt_succ_self _)
  · rw [hget] at hu hv
    split at hu
    · rename_i hut
      split at hv
      · rename_i hvt
        rw [hut, hvt]
      · obtain ⟨rfl, -⟩ := Caller.adding.inj (Option.some.inj hu)
        exact absurd (h.called v _ wrote' hv) (lt_irrefl _)
    · split at hv
      · obtain ⟨rfl, -⟩ := Caller.adding.inj (Option.some.inj hv)
        exact absurd (h.called u _ wrote hu) (lt_irrefl _)
      · exact h.distinct u v i wrote wrote' hu hv
  · rw [hget] at hu
    split at hu
    · rename_i hut
      subst hut
      exact h.running u (by simp [ht])
    · exact h.running u hu

/-- What each step does. -/
inductive Moved (P : Primitives) (keys : KeyManager) (s : State) : Action → State → Prop
  | adds (t : ℕ) (kind : BlobKind) (data : Bytes) (w : World) (call : AddCall) :
      s.callers[t]? = some .idle →
      managerStep P keys s.world (.addBlob ⟨P.hash data, kind, data⟩) = some w →
      w.calls = s.world.calls ++ [call] →
      Moved P keys s (.add t kind data)
        ({ s with world := w }.setCaller t (.adding s.world.calls.length false))
  | calls (t : ℕ) (e : CallEvent) (i : ℕ) (wrote : Bool) (w : World) :
      s.callers[t]? = some (.adding i wrote) →
      managerStep P keys s.world (e.toAction i) = some w → (∀ io, e ≠ .write io) →
      Moved P keys s (.call t e) { s with world := w }
  | writes (t : ℕ) (io : PackfileIo) (i : ℕ) (wrote : Bool) (w : World) :
      s.callers[t]? = some (.adding i wrote) →
      managerStep P keys s.world (.write i io) = some w → s.continues w io.id = true →
      Moved P keys s (.call t (.write io)) ((s.record t w io.id).setCaller t
        (.adding i (wrote || (s.created w io.id).isSome)))
  | grows (t : ℕ) (id : PackfileId) (length i : ℕ) (wrote : Bool) (w : World) (s' : State) :
      s.callers[t]? = some (.adding i wrote) →
      managerStep P keys s.world (.write i ⟨id, .ok, fun _ => .ok⟩) = some w →
      s.grow w id length = some s' → Moved P keys s (.grow t id length) s'
  | returnsOk (t i : ℕ) (wrote : Bool) (call : AddCall) (written : Option ℕ) :
      s.callers[t]? = some (.adding i wrote) → s.world.calls[i]? = some call →
      call.pc = .returned (.ok written) →
      Moved P keys s (.returned t) ({ s with
        packfileBytesWritten := written.getD s.packfileBytesWritten }.setCaller t .idle)
  | returnsError (t i : ℕ) (wrote : Bool) (call : AddCall) (x : PackfileError) :
      s.callers[t]? = some (.adding i wrote) → s.world.calls[i]? = some call →
      call.pc = .returned (.error x) →
      Moved P keys s (.returned t)
        (s.setCaller t (if x = .exceededBufferLimit then .blocking else .idle))
  | blocks (t : ℕ) (e : BlockEvent) (p : PauseState) : s.callers[t]? = some .blocking →
      pauseStep s.pause (e.toAction t) = some p →
      Moved P keys s (.block t e) ({ s with pause := p }.setCaller t
        (if p.packer t = PackerPc.running then .idle else .blocking))
  | flushes (w : World) : (∀ c ∈ s.callers, c = .idle) →
      managerStep P keys s.world .flush = some w →
      Moved P keys s (.flush .begin) { s with world := w }
  | flushGrows (id : PackfileId) (length : ℕ) (w : World) (s' : State) :
      managerStep P keys s.world (.flushWrite ⟨id, .ok, fun _ => .ok⟩) = some w →
      s.grow w id length = some s' → Moved P keys s (.flush (.grow id length)) s'
  | flushWrites (io : PackfileIo) (w : World) :
      managerStep P keys s.world (.flushWrite io) = some w → s.continues w io.id = true →
      Moved P keys s (.flush (.write io)) (s.record 0 w io.id)
  | flushIndexes (io : FileWrite) (w : World) :
      managerStep P keys s.world (.flushIndex io) = some w →
      Moved P keys s (.flush (.index io)) { s with world := w }
  | completes : Moved P keys s .complete { s with packingCompleted := true }
  | learns (time : ℕ) :
      Moved P keys s (.matched time) { s with storageRequestLastMatched := time }
  | sends (e : SendEvent) (s' : State) : sendStep s e = some s' → Moved P keys s (.send e) s'

theorem moved_of_step (hst : step P keys s a = some s') : Moved P keys s a s' := by
  cases a with
  | add t kind data =>
    simp only [step] at hst
    split at hst
    · rename_i ht
      obtain ⟨w, hw, rfl⟩ := Option.map_eq_some_iff.mp hst
      obtain ⟨call, hcalls⟩ := addBlob_calls hw
      exact .adds t kind data w call ht hw hcalls
    · cases hst
  | call t e =>
    simp only [step] at hst
    split at hst
    · rename_i i wrote ht
      obtain ⟨w, hw, hst⟩ := Option.bind_eq_some_iff.mp hst
      split at hst
      · obtain ⟨hcontinues, rfl⟩ := Option.ite_some_none_eq_some.mp hst
        exact .writes t _ i wrote w ht hw hcontinues
      · rename_i hne
        exact Option.some.inj hst ▸ .calls t e i wrote w ht hw fun io hio => hne io hio
    · cases hst
  | grow t id length =>
    simp only [step] at hst
    split at hst
    · rename_i i wrote ht
      obtain ⟨w, hw, hst⟩ := Option.bind_eq_some_iff.mp hst
      exact .grows t id length i wrote w s' ht hw hst
    · cases hst
  | returned t =>
    simp only [step] at hst
    split at hst
    · rename_i i wrote ht
      split at hst
      · rename_i written hpc
        obtain ⟨call, hcall, hpc⟩ := Option.map_eq_some_iff.mp hpc
        exact Option.some.inj hst ▸ .returnsOk t i wrote call written ht hcall hpc
      · rename_i x hpc
        obtain ⟨call, hcall, hpc⟩ := Option.map_eq_some_iff.mp hpc
        exact Option.some.inj hst ▸ .returnsError t i wrote call x ht hcall hpc
      · cases hst
    · cases hst
  | block t e =>
    simp only [step] at hst
    split at hst
    · rename_i ht
      obtain ⟨p, hp, rfl⟩ := Option.map_eq_some_iff.mp hst
      exact .blocks t e p ht hp
    · cases hst
  | flush e =>
    cases e with
    | begin =>
      obtain ⟨hall, hst⟩ := Option.ite_none_right_eq_some.mp hst
      obtain ⟨w, hw, rfl⟩ := Option.map_eq_some_iff.mp hst
      exact .flushes w (fun c hc => of_decide_eq_true (List.all_eq_true.mp hall c hc)) hw
    | grow id length =>
      obtain ⟨w, hw, hst⟩ := Option.bind_eq_some_iff.mp hst
      exact .flushGrows id length w s' hw hst
    | write io =>
      obtain ⟨w, hw, hst⟩ := Option.bind_eq_some_iff.mp hst
      obtain ⟨hcontinues, rfl⟩ := Option.ite_some_none_eq_some.mp hst
      exact .flushWrites io w hw hcontinues
    | index io =>
      obtain ⟨w, hw, rfl⟩ := Option.map_eq_some_iff.mp hst
      exact .flushIndexes io w hw
  | complete =>
    simp only [step] at hst
    split at hst
    · cases hst
    · obtain ⟨-, hst⟩ := Option.ite_none_right_eq_some.mp hst
      exact Option.some.inj hst ▸ .completes
  | matched time => exact Option.some.inj hst ▸ .learns time
  | send e => exact .sends e s' hst

/-- A round of a call creates a packfile, and moves no other call. -/
theorem Orderly.record (h : Orderly s) {w : World} {id : PackfileId}
    (hlen : w.calls.length = s.world.calls.length) : Orderly (s.record t w id) :=
  h.of_eq record_callers (by rw [record_calls, hlen]) (by rw [record_pause])
    (by rw [record_pause]; exact h.pause)

theorem Orderly.grow (h : Orderly s) {w : World} {id : PackfileId} {n : ℕ}
    (hst : s.grow w id n = some s') : Orderly s' := by
  obtain ⟨-, rfl⟩ := State.grow_eq_some hst
  exact h.of_eq rfl rfl rfl h.pause

/-- A task in `block_if_paused!` goes on, or waits. -/
theorem Orderly.block (h : Orderly s) {e : BlockEvent} {p : PauseState}
    (ht : s.callers[t]? = some .blocking) (hp : pauseStep s.pause (e.toAction t) = some p) :
    Orderly ({ s with pause := p }.setCaller t
      (if p.packer t = PackerPc.running then .idle else .blocking)) := by
  obtain ⟨-, -, hothers, -, -⟩ := block_cases hp
  have hget : ∀ u, ({ s with pause := p }.setCaller t
      (if p.packer t = PackerPc.running then .idle else .blocking)).callers[u]?
        = if u = t then some (if p.packer t = PackerPc.running then .idle else .blocking)
          else s.callers[u]? := fun u => getElem?_setCaller (s := { s with pause := p }) ht
  refine ⟨fun u i wrote hu => ?_, fun u v i wrote wrote' hu hv => ?_, fun u hu => ?_,
    pauseOk_step h.pause hp⟩
  · rw [hget] at hu
    split at hu
    · split at hu <;> cases hu
    · exact h.called u i wrote hu
  · rw [hget] at hu hv
    split at hu
    · split at hu <;> cases hu
    · split at hv
      · split at hv <;> cases hv
      · exact h.distinct u v i wrote wrote' hu hv
  · rw [hget] at hu
    split at hu
    · rename_i hut
      subst hut
      by_contra hnot
      exact hu (congrArg some (if_neg hnot))
    · rename_i hut
      exact (hothers u hut).trans (h.running u hu)

theorem Orderly.send (h : Orderly s) {e : SendEvent} (hst : sendStep s e = some s') :
    Orderly s' := by
  have hkeeps := sendKeeps_of_sendStep hst
  have hsame : s'.pause = s.pause → Orderly s' := by
    intro hpause
    exact h.of_eq hkeeps.callers (by rw [hkeeps.calls]) (by rw [hpause])
      (by rw [hpause]; exact h.pause)
  cases sendMove_of_sendStep hst with
  | removes id _ _ _ _ hpause => exact hsame hpause
  | stays _ hpause => exact hsame hpause
  | pauses a _ hpause ha =>
    obtain ⟨hpacker, -⟩ := sender_cases hpause <| by
      rcases ha with ha | ha | ha | ⟨r, -, ha⟩
      · exact Or.inl ha
      · exact Or.inr (Or.inl ha)
      · exact Or.inr (Or.inr (Or.inl ha))
      · exact Or.inr (Or.inr (Or.inr ⟨r, ha⟩))
    exact h.of_eq hkeeps.callers (by rw [hkeeps.calls]) hpacker (pauseOk_step h.pause hpause)

/-- One step keeps the calls apart. -/
theorem orderly_step (h : Orderly s) (hst : step P keys s a = some s') : Orderly s' := by
  cases moved_of_step hst with
  | adds t kind data w call ht hw hcalls => exact h.add ht hcalls
  | calls t e i wrote w ht hw hne =>
    exact h.of_eq rfl (callMove_of_managerStep hw).length rfl h.pause
  | writes t io i wrote w ht hw =>
    have hlen := (callMove_of_managerStep (e := .write io) hw).length
    refine (h.record hlen).setCaller (c := .adding i wrote) ?_ ?_ ?_
    · rw [record_callers]
      exact ht
    · intro j x hx
      obtain ⟨rfl, -⟩ := Caller.adding.inj hx
      exact ⟨wrote, rfl⟩
    · intro _
      rw [record_pause]
      exact h.running t (by simp [ht])
  | grows t id length i wrote w s' ht hw hgrow => exact h.grow hgrow
  | returnsOk t i wrote call written ht =>
    have hcounted : Orderly { s with
        packfileBytesWritten := written.getD s.packfileBytesWritten } :=
      h.of_eq rfl rfl rfl h.pause
    exact hcounted.setCaller ht (by simp) fun _ => h.running t (by simp [ht])
  | returnsError t i wrote call x ht =>
    refine h.setCaller ht ?_ fun _ => h.running t (by simp [ht])
    intro j y hy
    split at hy <;> cases hy
  | blocks t e p ht hp => exact h.block ht hp
  | flushes w hall hw => exact h.of_eq rfl (by rw [flush_calls (Or.inl rfl) hw]) rfl h.pause
  | flushGrows id length w s' hw hgrow => exact h.grow hgrow
  | flushWrites io w hw =>
    exact h.record (by rw [flush_calls (Or.inr (Or.inl ⟨io, rfl⟩)) hw])
  | flushIndexes io w hw =>
    exact h.of_eq rfl (by rw [flush_calls (Or.inr (Or.inr ⟨io, rfl⟩)) hw]) rfl h.pause
  | completes => exact h.of_eq rfl rfl rfl h.pause
  | learns time => exact h.of_eq rfl rfl rfl h.pause
  | sends e s' hst => exact h.send hst

/-- No step adds a task, or changes what was there before. -/
theorem fixed_step (hst : step P keys s a = some s') :
    s'.callers.length = s.callers.length ∧ s'.left = s.left := by
  cases moved_of_step hst with
  | adds | returnsOk | returnsError | blocks => exact ⟨List.length_set, rfl⟩
  | calls | flushes | flushIndexes | completes | learns => exact ⟨rfl, rfl⟩
  | writes t io i wrote w =>
    refine ⟨?_, record_left⟩
    rw [State.setCaller, List.length_set, record_callers]
  | grows t id length i wrote w s' ht hw hgrow =>
    obtain ⟨-, rfl⟩ := State.grow_eq_some hgrow
    exact ⟨rfl, rfl⟩
  | flushGrows id length w s' hw hgrow =>
    obtain ⟨-, rfl⟩ := State.grow_eq_some hgrow
    exact ⟨rfl, rfl⟩
  | flushWrites io w => exact ⟨by rw [record_callers], record_left⟩
  | sends e s' hst =>
    have hkeeps := sendKeeps_of_sendStep hst
    exact ⟨by rw [hkeeps.callers], hkeeps.left⟩

end

end Backuwup.Client.Buffering
