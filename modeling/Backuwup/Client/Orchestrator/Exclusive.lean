/-
# One backup or restore at a time (`client/src/backup/mod.rs`)

Any number of UI connections call `run` and `request_restore`.  The calls are kept apart by two
flags, `backup_running` and `restore_running`, which a call reads first and sets later, in
other functions and after further awaits.  Here every call is a small state machine whose steps
are the stretches between two awaits, and the calls, the tasks they spawn and the peer sessions
interleave freely.

The guards do not keep the calls apart in every run (`two_backups_alive`).
`backup_exclusive` says under which conditions on the steps they do: a flag that a guard found
clear is still clear when the call acts on it, no directory walk fails in `estimate_size`, and
`try_join!` returns an error only when both tasks have ended.  The invariant is `Apart`.
-/
import Backuwup.Lib.Transition
import Backuwup.Shared.Types
import Mathlib.Logic.Function.Basic

namespace Backuwup.Client

/-! ## 1. The state -/

/-- What the tasks of a backup keep in the orchestrator and `initialize_static` clears. -/
structure BackupProgress where
  listeners : ℕ
  paused : Bool
  packfileBytesWritten : ℕ
  packfileBytesSent : ℕ
  packingCompleted : Bool
  sizeEstimate : ℕ
  storageRequestsFulfilledSize : ℕ
deriving DecidableEq

def BackupProgress.cleared : BackupProgress := ⟨0, false, 0, 0, false, 0, 0⟩

structure BackupOrchestrator where
  backupRunning : Bool
  progress : BackupProgress
deriving DecidableEq

structure RestoreOrchestrator where
  restoreRunning : Bool
  peerRestoreStatus : List (ClientId × Bool)
deriving DecidableEq

/-- `HashMap::insert`. -/
def RestoreOrchestrator.insertPeer (r : RestoreOrchestrator) (peer : ClientId) (done : Bool) :
    RestoreOrchestrator :=
  { r with
    peerRestoreStatus := r.peerRestoreStatus.filter (fun p => p.1 ≠ peer) ++ [(peer, done)] }

def RestoreOrchestrator.allPeersCompleted (r : RestoreOrchestrator) : Bool :=
  r.peerRestoreStatus.all Prod.snd

/-- Where a call of `run` awaits. -/
inductive RunPc
  | idle
  /-- in `initialize_static`, for the mutex of `listeners` -/
  | locking
  /-- `get_backup_path` -/
  | readingPath
  /-- in `estimate_size`, `get_backup_size_difference` -/
  | estimating
  /-- `try_join!` -/
  | joining
  | returned
  /-- the `unwrap` of a panicked task -/
  | panicked
deriving DecidableEq

/-- Where a call of `request_restore` awaits. -/
inductive RequestPc
  | idle
  /-- in `initialize_static`, for the mutex of `peer_restore_status` -/
  | locking
  /-- the requests to the server and `add_peer` -/
  | requesting
  /-- `sleep` in the waiting loop -/
  | sleeping
  /-- `all_peers_completed` -/
  | checkingPeers
  | unpacking
  | returned
deriving DecidableEq

/-- One of the two tasks a run spawns. -/
inductive TaskPc
  | notSpawned
  | alive
  | ok
  | err
  | panicked
deriving DecidableEq

/-- The two global cells, and the calls and tasks, numbered by the call. -/
structure Orchestration where
  backup : Option BackupOrchestrator
  restore : Option RestoreOrchestrator
  run : ℕ → RunPc
  pack : ℕ → TaskPc
  send : ℕ → TaskPc
  request : ℕ → RequestPc

namespace Orchestration

def start : Orchestration :=
  ⟨none, none, fun _ => .idle, fun _ => .notSpawned, fun _ => .notSpawned, fun _ => .idle⟩

def setRun (c : Orchestration) (k : ℕ) (pc : RunPc) : Orchestration :=
  { c with run := Function.update c.run k pc }

def setPack (c : Orchestration) (k : ℕ) (pc : TaskPc) : Orchestration :=
  { c with pack := Function.update c.pack k pc }

def setSend (c : Orchestration) (k : ℕ) (pc : TaskPc) : Orchestration :=
  { c with send := Function.update c.send k pc }

def setRequest (c : Orchestration) (k : ℕ) (pc : RequestPc) : Orchestration :=
  { c with request := Function.update c.request k pc }

def setBackup (c : Orchestration) (o : BackupOrchestrator) : Orchestration :=
  { c with backup := some o }

def setRestore (c : Orchestration) (r : RestoreOrchestrator) : Orchestration :=
  { c with restore := some r }

/-- `is_backup_running`, false before the cell is set. -/
def backupRunning (c : Orchestration) : Bool := c.backup.any BackupOrchestrator.backupRunning

/-- `is_running`, false before the cell is set. -/
def restoreRunning (c : Orchestration) : Bool := c.restore.any RestoreOrchestrator.restoreRunning

def setBackupFinished (c : Orchestration) : Orchestration :=
  { c with backup := c.backup.map fun o => { o with backupRunning := false } }

def setFinished (c : Orchestration) : Orchestration :=
  { c with restore := c.restore.map fun r => { r with restoreRunning := false } }

end Orchestration

/-! ## 2. The steps -/

/-- How `try_join!` returns. -/
inductive JoinResult
  | ok
  | err
  | panicked
deriving DecidableEq

/-- The stretches between two awaits, with the outcome of what was awaited. -/
inductive OrchestrationAction
  /-- from the start of `run`; whether `get_packfile_path` succeeds -/
  | runStart (k : ℕ) (destination : Bool)
  | runLocked (k : ℕ)
  /-- `get_backup_path` returned; whether it has a path, and whether `get_size` succeeds on it -/
  | runPath (k : ℕ) (path size : Bool)
  | runEstimated (k : ℕ) (estimate : ℕ)
  | runJoined (k : ℕ) (result : JoinResult)
  /-- a task of run `k` changes the progress -/
  | work (k : ℕ) (progress : BackupProgress)
  | packEnds (k : ℕ) (result : JoinResult)
  | sendEnds (k : ℕ) (result : JoinResult)
  | requestStart (k : ℕ)
  | requestLocked (k : ℕ)
  | requestPeer (k : ℕ) (peer : ClientId)
  | requestFails (k : ℕ)
  | requestsSent (k : ℕ)
  | requestWakes (k : ℕ)
  | requestChecked (k : ℕ)
  /-- `unpack` and the clean-up after it end, with whether they succeeded -/
  | requestUnpacked (k : ℕ) (success : Bool)
  /-- a peer session of some restore ends with an error -/
  | sessionFails
  | sessionCompletes (peer : ClientId)
deriving DecidableEq

def JoinResult.task : JoinResult → TaskPc
  | .ok => .ok
  | .err => .err
  | .panicked => .panicked

namespace Orchestration

/-- The guard of `run` on the other flag. -/
def checkRestore (c : Orchestration) (k : ℕ) : Orchestration :=
  c.setRun k (if c.restoreRunning then .returned else .readingPath)

/-- The two `tokio::spawn` of `run`. -/
def spawnTasks (c : Orchestration) (k : ℕ) : Orchestration :=
  ((c.setPack k .alive).setSend k .alive).setRun k .joining

/-- `set_started`, called twice in a row without an await between. -/
def setStarted (c : Orchestration) (k : ℕ) (r : RestoreOrchestrator) : Orchestration :=
  if c.backupRunning then (c.setRestore r).setRequest k .returned
  else (c.setRestore { r with restoreRunning := true }).setRequest k .requesting

/-- The head of the waiting loop of `run_restore`. -/
def waitingLoop (c : Orchestration) (k : ℕ) : Orchestration :=
  if c.restoreRunning then c.setRequest k .checkingPeers
  else c.setFinished.setRequest k .returned

/-- What `try_join!` can return with. -/
def Joins (c : Orchestration) (k : ℕ) : JoinResult → Prop
  | .ok => c.pack k = .ok ∧ c.send k = .ok
  | .err => c.pack k = .err ∨ c.send k = .err
  | .panicked => c.pack k = .panicked ∨ c.send k = .panicked

instance (c : Orchestration) (k : ℕ) : (r : JoinResult) → Decidable (c.Joins k r)
  | .ok => inferInstanceAs (Decidable (_ ∧ _))
  | .err => inferInstanceAs (Decidable (_ ∨ _))
  | .panicked => inferInstanceAs (Decidable (_ ∨ _))

end Orchestration

def orchestrationStep (c : Orchestration) : OrchestrationAction → Option Orchestration
  | .runStart k destination =>
    if c.run k = .idle then
      if !destination then some (c.setRun k .returned)
      else match c.backup with
        | none => some ((c.setBackup ⟨false, .cleared⟩).checkRestore k)
        | some o => some (c.setRun k (if o.backupRunning then .returned else .locking))
    else none
  | .runLocked k =>
    match c.run k, c.backup with
    | .locking, some o => some ((c.setBackup { o with progress := .cleared }).checkRestore k)
    | _, _ => none
  | .runPath k path size =>
    match c.run k, c.backup with
    | .readingPath, some o =>
      if !path then some (c.setRun k .returned)
      else if size then some ((c.setBackup { o with backupRunning := true }).setRun k .estimating)
      -- the error of `get_size` clears the flag, and `run` goes on to spawn the tasks
      else some ((c.setBackup { o with backupRunning := false }).spawnTasks k)
    | _, _ => none
  | .runEstimated k estimate =>
    match c.run k, c.backup with
    | .estimating, some o =>
      some ((c.setBackup { o with
        progress := { o.progress with sizeEstimate := estimate } }).spawnTasks k)
    | _, _ => none
  | .runJoined k result =>
    if c.run k = .joining ∧ c.Joins k result then
      match result with
      | .panicked => some (c.setRun k .panicked)
      | _ => some (c.setBackupFinished.setRun k .returned)
    else none
  | .work k progress =>
    if c.pack k = .alive ∨ c.send k = .alive then
      c.backup.map fun o => c.setBackup { o with progress := progress }
    else none
  | .packEnds k result => if c.pack k = .alive then some (c.setPack k result.task) else none
  | .sendEnds k result => if c.send k = .alive then some (c.setSend k result.task) else none
  | .requestStart k =>
    if c.request k = .idle then
      match c.restore with
      | none => some (c.setStarted k ⟨false, []⟩)
      | some r => some (c.setRequest k (if r.restoreRunning then .returned else .locking))
    else none
  | .requestLocked k =>
    match c.request k, c.restore with
    | .locking, some r => some (c.setStarted k { r with peerRestoreStatus := [] })
    | _, _ => none
  | .requestPeer k peer =>
    if c.request k = .requesting then
      c.restore.map fun r => c.setRestore (r.insertPeer peer false)
    else none
  | .requestFails k =>
    if c.request k = .requesting then some (c.setFinished.setRequest k .returned) else none
  | .requestsSent k => if c.request k = .requesting then some (c.waitingLoop k) else none
  | .requestWakes k => if c.request k = .sleeping then some (c.waitingLoop k) else none
  | .requestChecked k =>
    match c.request k, c.restore with
    | .checkingPeers, some r =>
      some (c.setRequest k (if r.allPeersCompleted then .unpacking else .sleeping))
    | _, _ => none
  | .requestUnpacked k _ =>
    -- `set_finished` is called on both outcomes
    if c.request k = .unpacking then some (c.setFinished.setRequest k .returned) else none
  | .sessionFails => if c.restore.isSome then some c.setFinished else none
  | .sessionCompletes peer => c.restore.map fun r => c.setRestore (r.insertPeer peer true)

/-! ## 3. The property and its condition -/

/-- The call has set `backup_running` and has not returned. -/
def RunPc.Engaged (pc : RunPc) : Prop := pc = .estimating ∨ pc = .joining ∨ pc = .panicked

/-- The call has set `restore_running` and has not returned. -/
def RequestPc.Restoring (pc : RequestPc) : Prop :=
  pc = .requesting ∨ pc = .sleeping ∨ pc = .checkingPeers ∨ pc = .unpacking

namespace Orchestration

variable (c : Orchestration)

/-- One of the tasks of run `k` is alive. -/
def BackupAlive (k : ℕ) : Prop := c.pack k = .alive ∨ c.send k = .alive

/-- Restore `k` is going on. -/
def RestoreAlive (k : ℕ) : Prop := (c.request k).Restoring

/-- Run `k` is between `set_backup_started` and the end of both its tasks. -/
def Started (k : ℕ) : Prop := c.run k = .estimating ∨ c.BackupAlive k

/-- A restore goes on although its flag has been cleared, by a peer session that failed. -/
def Orphaned : Prop := c.restoreRunning = false ∧ ∃ k, c.RestoreAlive k

/-- At most one backup or restore is active, and the flag says so while it is a backup. -/
structure Exclusive : Prop where
  one_backup : ∀ j k, c.BackupAlive j → c.BackupAlive k → j = k
  one_restore : ∀ j k, c.RestoreAlive j → c.RestoreAlive k → j = k
  not_both : ∀ j k, c.BackupAlive j → ¬ c.RestoreAlive k
  running : ∀ k, c.Started k → c.backupRunning = true

end Orchestration

/-- The call of `run` that takes the step, itself or by a task it spawned. -/
def OrchestrationAction.run? : OrchestrationAction → Option ℕ
  | .runStart k _ | .runLocked k | .runPath k _ _ | .runEstimated k _ | .runJoined k _
  | .work k _ | .packEnds k _ | .sendEnds k _ => some k
  | _ => none

/-- The call of `request_restore` that takes the step. -/
def OrchestrationAction.request? : OrchestrationAction → Option ℕ
  | .requestStart k | .requestLocked k | .requestPeer k _ | .requestFails k | .requestsSent k
  | .requestWakes k | .requestChecked k | .requestUnpacked k _ => some k
  | _ => none

/-- A step of another call leaves the orchestrator of the active one as it is; only its own
peer sessions act on a restore besides. -/
structure Untouched (c : Orchestration) (a : OrchestrationAction) (c' : Orchestration) : Prop where
  backup : ∀ k, c.Started k → a.run? ≠ some k → c'.backup = c.backup
  restore : ∀ k j, c.RestoreAlive k → a.request? = some j → j ≠ k → c'.restore = c.restore
  restore_run : ∀ k j, c.RestoreAlive k → a.run? = some j → c'.restore = c.restore

/-- The condition on a step: the flags are still clear when a call that found them clear acts
on it, `get_size` succeeds, and `try_join!` reports an error after both tasks have ended. -/
def GuardsHold (c : Orchestration) : OrchestrationAction → Prop
  | .runLocked _ => c.backupRunning = false
  | .runPath _ path size => path = true →
      size = true ∧ c.backupRunning = false ∧ c.restoreRunning = false ∧ ¬ c.Orphaned
  | .runJoined k .err => ¬ c.BackupAlive k
  | .requestLocked _ => c.restoreRunning = false ∧ ¬ c.Orphaned
  | _ => True

/-! ## 4. The invariant -/

/-- A run whose tasks live has not returned, an engaged run has the flag, and an engaged run and
a restore that goes on keep everyone else out. -/
structure Apart (c : Orchestration) : Prop where
  task_engaged : ∀ k, c.BackupAlive k → (c.run k).Engaged
  flagged : ∀ k, (c.run k).Engaged → c.backupRunning = true
  one_run : ∀ j k, (c.run j).Engaged → (c.run k).Engaged → j = k
  restore_isSome : ∀ k, c.RestoreAlive k → c.restore.isSome = true
  one_restore : ∀ j k, c.RestoreAlive j → c.RestoreAlive k → j = k
  not_both : ∀ j k, (c.run j).Engaged → ¬ c.RestoreAlive k

namespace Orchestration

/-- The calls of `run` after one of them has moved. -/
theorem setRun_run (c : Orchestration) (j k : ℕ) (pc : RunPc) :
    (c.setRun k pc).run j = if j = k then pc else c.run j := by
  simp only [setRun, Function.update_apply]

theorem setRequest_request (c : Orchestration) (j k : ℕ) (pc : RequestPc) :
    (c.setRequest k pc).request j = if j = k then pc else c.request j := by
  simp only [setRequest, Function.update_apply]

theorem BackupAlive.of_setPack {c : Orchestration} {j k : ℕ} {pc : TaskPc} (hpc : pc ≠ .alive)
    (h : (c.setPack k pc).BackupAlive j) : c.BackupAlive j := by
  refine h.imp_left fun hp => ?_
  simp only [setPack, Function.update_apply] at hp
  split at hp
  · exact absurd hp hpc
  · exact hp

theorem BackupAlive.of_setSend {c : Orchestration} {j k : ℕ} {pc : TaskPc} (hpc : pc ≠ .alive)
    (h : (c.setSend k pc).BackupAlive j) : c.BackupAlive j := by
  refine h.imp_right fun hp => ?_
  simp only [setSend, Function.update_apply] at hp
  split at hp
  · exact absurd hp hpc
  · exact hp

theorem BackupAlive.of_spawnTasks {c : Orchestration} {j k : ℕ}
    (h : (c.spawnTasks k).BackupAlive j) : j = k ∨ c.BackupAlive j := by
  by_cases hjk : j = k
  · exact Or.inl hjk
  · right
    simpa [BackupAlive, spawnTasks, setRun, setPack, setSend, hjk] using h

theorem setStarted_backup (c : Orchestration) (k : ℕ) (r : RestoreOrchestrator) :
    (c.setStarted k r).backup = c.backup := by
  unfold setStarted
  split <;> rfl

theorem waitingLoop_backup (c : Orchestration) (k : ℕ) : (c.waitingLoop k).backup = c.backup := by
  unfold waitingLoop
  split <;> rfl

/-- A restore flag that is clear, with no restore orphaned, means that no restore goes on. -/
theorem no_restore {c : Orchestration} (hflag : c.restoreRunning = false) (h : ¬ c.Orphaned)
    (k : ℕ) : ¬ c.RestoreAlive k :=
  fun hk => h ⟨hflag, k, hk⟩

end Orchestration

theorem JoinResult.task_ne_alive (r : JoinResult) : r.task ≠ .alive := by
  cases r <;> simp [JoinResult.task]

namespace Apart

variable {c c' : Orchestration} {k : ℕ}

theorem start : Apart .start where
  task_engaged _ h := by simp [Orchestration.BackupAlive, Orchestration.start] at h
  flagged _ h := by simp [RunPc.Engaged, Orchestration.start] at h
  one_run _ _ h := by simp [RunPc.Engaged, Orchestration.start] at h
  restore_isSome _ h := by
    simp [Orchestration.RestoreAlive, RequestPc.Restoring, Orchestration.start] at h
  one_restore _ _ h := by
    simp [Orchestration.RestoreAlive, RequestPc.Restoring, Orchestration.start] at h
  not_both _ _ h := by simp [RunPc.Engaged, Orchestration.start] at h

/-- A step that starts nothing keeps everyone apart, if it clears no engaged run's flag and
leaves no task without its run. -/
theorem shrink (h : Apart c) (hrun : ∀ j, (c'.run j).Engaged → (c.run j).Engaged)
    (htask : ∀ j, c'.BackupAlive j → (c'.run j).Engaged)
    (hflag : ∀ j, (c'.run j).Engaged → c.backupRunning = true → c'.backupRunning = true)
    (hrequest : ∀ j, c'.RestoreAlive j → c.RestoreAlive j)
    (hsome : c.restore.isSome = true → c'.restore.isSome = true) : Apart c' where
  task_engaged := htask
  flagged j hj := hflag j hj (h.flagged j (hrun j hj))
  one_run i j hi hj := h.one_run i j (hrun i hi) (hrun j hj)
  restore_isSome j hj := hsome (h.restore_isSome j (hrequest j hj))
  one_restore i j hi hj := h.one_restore i j (hrequest i hi) (hrequest j hj)
  not_both i j hi hj := h.not_both i j (hrun i hi) (hrequest j hj)

/-- With the flag clear no run is engaged. -/
theorem no_run (h : Apart c) (hflag : c.backupRunning = false) (j : ℕ) : ¬ (c.run j).Engaged :=
  fun hj => absurd (h.flagged j hj) (by simp [hflag])

/-- A run moves on without becoming engaged; it only stops being engaged without a task. -/
theorem setRun (h : Apart c) {pc : RunPc} (hpc : pc.Engaged → (c.run k).Engaged)
    (hk : c.BackupAlive k → pc.Engaged) : Apart (c.setRun k pc) := by
  refine h.shrink ?_ ?_ (fun _ _ hf => hf) (fun _ hj => hj) id
  · intro j hj
    rw [Orchestration.setRun_run] at hj
    split at hj
    · rename_i hjk
      exact hjk ▸ hpc hj
    · exact hj
  · intro j hj
    rw [Orchestration.setRun_run]
    split
    · rename_i hjk
      exact hk (hjk ▸ hj)
    · exact h.task_engaged j hj

theorem setRequest (h : Apart c) {pc : RequestPc}
    (hpc : pc.Restoring → (c.request k).Restoring) : Apart (c.setRequest k pc) := by
  refine h.shrink (fun _ hj => hj) h.task_engaged (fun _ _ hf => hf) ?_ id
  intro j hj
  simp only [Orchestration.RestoreAlive] at hj ⊢
  rw [Orchestration.setRequest_request] at hj
  split at hj
  · rename_i hjk
    exact hjk ▸ hpc hj
  · exact hj

theorem setBackup (h : Apart c) {o : BackupOrchestrator}
    (ho : c.backupRunning = true → o.backupRunning = true) : Apart (c.setBackup o) :=
  h.shrink (fun _ hj => hj) h.task_engaged (fun _ _ hf => ho hf) (fun _ hj => hj) id

theorem setRestore (h : Apart c) (r : RestoreOrchestrator) : Apart (c.setRestore r) :=
  h.shrink (fun _ hj => hj) h.task_engaged (fun _ _ hf => hf) (fun _ hj => hj) fun _ => rfl

theorem setFinished (h : Apart c) : Apart c.setFinished :=
  h.shrink (fun _ hj => hj) h.task_engaged (fun _ _ hf => hf) (fun _ hj => hj) fun hs => by
    simpa [Orchestration.setFinished] using hs

theorem setBackupFinished (h : Apart c) (hnone : ∀ j, ¬ (c.run j).Engaged) :
    Apart c.setBackupFinished :=
  h.shrink (fun _ hj => hj) h.task_engaged (fun j hj _ => absurd hj (hnone j))
    (fun _ hj => hj) id

theorem setPack (h : Apart c) {pc : TaskPc} (hpc : pc ≠ .alive) : Apart (c.setPack k pc) :=
  h.shrink (fun _ hj => hj) (fun j hj => h.task_engaged j (hj.of_setPack hpc))
    (fun _ _ hf => hf) (fun _ hj => hj) id

theorem setSend (h : Apart c) {pc : TaskPc} (hpc : pc ≠ .alive) : Apart (c.setSend k pc) :=
  h.shrink (fun _ hj => hj) (fun j hj => h.task_engaged j (hj.of_setSend hpc))
    (fun _ _ hf => hf) (fun _ hj => hj) id

theorem spawnTasks (h : Apart c) (hk : (c.run k).Engaged) : Apart (c.spawnTasks k) := by
  have hrun : ∀ j, ((c.spawnTasks k).run j).Engaged ↔ (c.run j).Engaged := by
    intro j
    rw [Orchestration.spawnTasks, Orchestration.setRun_run]
    split
    · rename_i hjk
      subst hjk
      exact iff_of_true (Or.inr (Or.inl rfl)) hk
    · exact Iff.rfl
  refine h.shrink (fun j => (hrun j).mp) ?_ (fun _ _ hf => hf) (fun _ hj => hj) id
  intro j hj
  rw [hrun j]
  rcases hj.of_spawnTasks with rfl | hj
  · exact hk
  · exact h.task_engaged j hj

theorem checkRestore (h : Apart c) (hk : ¬ (c.run k).Engaged) : Apart (c.checkRestore k) := by
  refine h.setRun ?_ fun hal => absurd (h.task_engaged k hal) hk
  split <;> simp [RunPc.Engaged]

/-- A run becomes engaged when nothing else goes on. -/
theorem startRun (h : Apart c) {o : BackupOrchestrator} (ho : o.backupRunning = true)
    (hrun : ∀ j, ¬ (c.run j).Engaged) (hrequest : ∀ j, ¬ c.RestoreAlive j) :
    Apart ((c.setBackup o).setRun k .estimating) := by
  have hk : ∀ j, (((c.setBackup o).setRun k .estimating).run j).Engaged → j = k := by
    intro j hj
    rw [Orchestration.setRun_run] at hj
    split at hj
    · assumption
    · exact absurd hj (hrun j)
  exact {
    task_engaged := fun j hj => absurd (h.task_engaged j hj) (hrun j)
    flagged := fun _ _ => ho
    one_run := fun i j hi hj => (hk i hi).trans (hk j hj).symm
    restore_isSome := fun j hj => absurd hj (hrequest j)
    one_restore := fun i _ hi _ => absurd hi (hrequest i)
    not_both := fun _ j _ => hrequest j }

/-- A restore starts, or is refused, when no other restore goes on. -/
theorem setStarted (h : Apart c) (r : RestoreOrchestrator) (hrequest : ∀ j, ¬ c.RestoreAlive j) :
    Apart (c.setStarted k r) := by
  unfold Orchestration.setStarted
  split
  · exact (h.setRestore r).setRequest (by simp [RequestPc.Restoring])
  · rename_i hflag
    have hrun := h.no_run (by simpa using hflag)
    have hk : ∀ j, ((c.setRestore { r with restoreRunning := true }).setRequest k
        .requesting).RestoreAlive j → j = k := by
      intro j hj
      simp only [Orchestration.RestoreAlive] at hj
      rw [Orchestration.setRequest_request] at hj
      split at hj
      · assumption
      · exact absurd hj (hrequest j)
    exact {
      task_engaged := h.task_engaged
      flagged := h.flagged
      one_run := h.one_run
      restore_isSome := fun _ _ => rfl
      one_restore := fun i j hi hj => (hk i hi).trans (hk j hj).symm
      not_both := fun i _ hi => absurd hi (hrun i) }

theorem waitingLoop (h : Apart c) (hk : c.RestoreAlive k) : Apart (c.waitingLoop k) := by
  unfold Orchestration.waitingLoop
  split
  · exact h.setRequest fun _ => hk
  · exact h.setFinished.setRequest (by simp [RequestPc.Restoring])

/-- A run returns after both its tasks have ended. -/
theorem returnRun (h : Apart c) (hk : (c.run k).Engaged) (hdead : ¬ c.BackupAlive k) :
    Apart (c.setBackupFinished.setRun k .returned) := by
  have hret : Apart (c.setRun k .returned) :=
    h.setRun (by simp [RunPc.Engaged]) fun hal => absurd hal hdead
  refine hret.setBackupFinished fun j hj => ?_
  rw [Orchestration.setRun_run] at hj
  split at hj
  · simp [RunPc.Engaged] at hj
  · rename_i hne
    exact hne (h.one_run j k hj hk)

end Apart

/-- What each step does. -/
inductive Orchestrated (c : Orchestration) : OrchestrationAction → Orchestration → Prop
  | noDestination (k : ℕ) : c.run k = .idle →
      Orchestrated c (.runStart k false) (c.setRun k .returned)
  | firstRun (k : ℕ) : c.run k = .idle → c.backup = none →
      Orchestrated c (.runStart k true) ((c.setBackup ⟨false, .cleared⟩).checkRestore k)
  | nextRun (k : ℕ) (o : BackupOrchestrator) : c.run k = .idle → c.backup = some o →
      Orchestrated c (.runStart k true)
        (c.setRun k (if o.backupRunning then .returned else .locking))
  | runLocked (k : ℕ) (o : BackupOrchestrator) : c.run k = .locking → c.backup = some o →
      Orchestrated c (.runLocked k) ((c.setBackup { o with progress := .cleared }).checkRestore k)
  | noPath (k : ℕ) (size : Bool) : c.run k = .readingPath →
      Orchestrated c (.runPath k false size) (c.setRun k .returned)
  | backupStarted (k : ℕ) (o : BackupOrchestrator) : c.run k = .readingPath →
      c.backup = some o → Orchestrated c (.runPath k true true)
        ((c.setBackup { o with backupRunning := true }).setRun k .estimating)
  | sizeFails (k : ℕ) (o : BackupOrchestrator) : c.run k = .readingPath → c.backup = some o →
      Orchestrated c (.runPath k true false)
        ((c.setBackup { o with backupRunning := false }).spawnTasks k)
  | estimated (k estimate : ℕ) (o : BackupOrchestrator) : c.run k = .estimating →
      c.backup = some o → Orchestrated c (.runEstimated k estimate)
        ((c.setBackup { o with
          progress := { o.progress with sizeEstimate := estimate } }).spawnTasks k)
  | joinPanics (k : ℕ) : c.run k = .joining → c.Joins k .panicked →
      Orchestrated c (.runJoined k .panicked) (c.setRun k .panicked)
  | joined (k : ℕ) (result : JoinResult) : c.run k = .joining → c.Joins k result →
      result ≠ .panicked →
      Orchestrated c (.runJoined k result) (c.setBackupFinished.setRun k .returned)
  | works (k : ℕ) (progress : BackupProgress) (o : BackupOrchestrator) : c.BackupAlive k →
      c.backup = some o → Orchestrated c (.work k progress) (c.setBackup { o with progress })
  | packEnded (k : ℕ) (result : JoinResult) : c.pack k = .alive →
      Orchestrated c (.packEnds k result) (c.setPack k result.task)
  | sendEnded (k : ℕ) (result : JoinResult) : c.send k = .alive →
      Orchestrated c (.sendEnds k result) (c.setSend k result.task)
  | firstRequest (k : ℕ) : c.request k = .idle → c.restore = none →
      Orchestrated c (.requestStart k) (c.setStarted k ⟨false, []⟩)
  | nextRequest (k : ℕ) (r : RestoreOrchestrator) : c.request k = .idle → c.restore = some r →
      Orchestrated c (.requestStart k)
        (c.setRequest k (if r.restoreRunning then .returned else .locking))
  | requestLocked (k : ℕ) (r : RestoreOrchestrator) : c.request k = .locking →
      c.restore = some r →
      Orchestrated c (.requestLocked k) (c.setStarted k { r with peerRestoreStatus := [] })
  | requested (k : ℕ) (peer : ClientId) (r : RestoreOrchestrator) : c.request k = .requesting →
      c.restore = some r →
      Orchestrated c (.requestPeer k peer) (c.setRestore (r.insertPeer peer false))
  | requestFailed (k : ℕ) : c.request k = .requesting →
      Orchestrated c (.requestFails k) (c.setFinished.setRequest k .returned)
  | requestsSent (k : ℕ) : c.request k = .requesting →
      Orchestrated c (.requestsSent k) (c.waitingLoop k)
  | woken (k : ℕ) : c.request k = .sleeping → Orchestrated c (.requestWakes k) (c.waitingLoop k)
  | checked (k : ℕ) (r : RestoreOrchestrator) : c.request k = .checkingPeers →
      c.restore = some r →
      Orchestrated c (.requestChecked k)
        (c.setRequest k (if r.allPeersCompleted then .unpacking else .sleeping))
  | unpacked (k : ℕ) (success : Bool) : c.request k = .unpacking →
      Orchestrated c (.requestUnpacked k success) (c.setFinished.setRequest k .returned)
  | sessionFailed : c.restore.isSome = true → Orchestrated c .sessionFails c.setFinished
  | sessionCompleted (peer : ClientId) (r : RestoreOrchestrator) : c.restore = some r →
      Orchestrated c (.sessionCompletes peer) (c.setRestore (r.insertPeer peer true))

theorem orchestrated_of_step {c c' : Orchestration} {a : OrchestrationAction}
    (hstep : orchestrationStep c a = some c') : Orchestrated c a c' := by
  cases a <;> simp only [orchestrationStep, Option.ite_none_right_eq_some] at hstep
  case runStart k destination =>
    obtain ⟨hpc, hstep⟩ := hstep
    cases destination with
    | false =>
      obtain rfl := Option.some.inj hstep
      exact .noDestination k hpc
    | true =>
      rw [if_neg (by simp)] at hstep
      split at hstep
      · rename_i hnone
        obtain rfl := Option.some.inj hstep
        exact .firstRun k hpc hnone
      · rename_i o ho
        obtain rfl := Option.some.inj hstep
        exact .nextRun k o hpc ho
  case runLocked k =>
    split at hstep
    · rename_i o hpc ho
      obtain rfl := Option.some.inj hstep
      exact .runLocked k o hpc ho
    · cases hstep
  case runPath k path size =>
    split at hstep
    · rename_i o hpc ho
      cases path <;> cases size <;> obtain rfl := Option.some.inj hstep
      · exact .noPath k false hpc
      · exact .noPath k true hpc
      · exact .sizeFails k o hpc ho
      · exact .backupStarted k o hpc ho
    · cases hstep
  case runEstimated k estimate =>
    split at hstep
    · rename_i o hpc ho
      obtain rfl := Option.some.inj hstep
      exact .estimated k estimate o hpc ho
    · cases hstep
  case runJoined k result =>
    obtain ⟨⟨hpc, hjoins⟩, hstep⟩ := hstep
    cases result <;> obtain rfl := Option.some.inj hstep
    · exact .joined k .ok hpc hjoins (by simp)
    · exact .joined k .err hpc hjoins (by simp)
    · exact .joinPanics k hpc hjoins
  case work k progress =>
    obtain ⟨halive, hstep⟩ := hstep
    obtain ⟨o, ho, rfl⟩ := Option.map_eq_some_iff.mp hstep
    exact .works k progress o halive ho
  case packEnds k result =>
    obtain rfl := Option.some.inj hstep.2
    exact .packEnded k result hstep.1
  case sendEnds k result =>
    obtain rfl := Option.some.inj hstep.2
    exact .sendEnded k result hstep.1
  case requestStart k =>
    obtain ⟨hpc, hstep⟩ := hstep
    split at hstep
    · rename_i hnone
      obtain rfl := Option.some.inj hstep
      exact .firstRequest k hpc hnone
    · rename_i r hr
      obtain rfl := Option.some.inj hstep
      exact .nextRequest k r hpc hr
  case requestLocked k =>
    split at hstep
    · rename_i r hpc hr
      obtain rfl := Option.some.inj hstep
      exact .requestLocked k r hpc hr
    · cases hstep
  case requestPeer k peer =>
    obtain ⟨hpc, hstep⟩ := hstep
    obtain ⟨r, hr, rfl⟩ := Option.map_eq_some_iff.mp hstep
    exact .requested k peer r hpc hr
  case requestFails k =>
    obtain rfl := Option.some.inj hstep.2
    exact .requestFailed k hstep.1
  case requestsSent k =>
    obtain rfl := Option.some.inj hstep.2
    exact .requestsSent k hstep.1
  case requestWakes k =>
    obtain rfl := Option.some.inj hstep.2
    exact .woken k hstep.1
  case requestChecked k =>
    split at hstep
    · rename_i r hpc hr
      obtain rfl := Option.some.inj hstep
      exact .checked k r hpc hr
    · cases hstep
  case requestUnpacked k success =>
    obtain rfl := Option.some.inj hstep.2
    exact .unpacked k success hstep.1
  case sessionFails =>
    obtain rfl := Option.some.inj hstep.2
    exact .sessionFailed hstep.1
  case sessionCompletes peer =>
    obtain ⟨r, hr, rfl⟩ := Option.map_eq_some_iff.mp hstep
    exact .sessionCompleted peer r hr

/-- The flag of the orchestrator a step has found. -/
theorem Orchestration.backupRunning_eq {c : Orchestration} {o : BackupOrchestrator}
    (ho : c.backup = some o) : c.backupRunning = o.backupRunning := by
  simp [Orchestration.backupRunning, ho]

/-- One step whose guards hold keeps everyone apart. -/
theorem apart_step {c c' : Orchestration} {a : OrchestrationAction} (h : Apart c)
    (hok : GuardsHold c a) (hstep : orchestrationStep c a = some c') : Apart c' := by
  have hidle : ∀ {k}, ¬ (c.run k).Engaged → ¬ c.BackupAlive k := fun hk hal =>
    hk (h.task_engaged _ hal)
  cases orchestrated_of_step hstep with
  | noDestination k hpc =>
    exact h.setRun (by simp [RunPc.Engaged])
      fun hal => absurd hal (hidle (by simp [hpc, RunPc.Engaged]))
  | firstRun k hpc hnone =>
    exact (h.setBackup (by simp [Orchestration.backupRunning, hnone])).checkRestore
      (by simp [Orchestration.setBackup, hpc, RunPc.Engaged])
  | nextRun k o hpc ho =>
    refine h.setRun ?_ fun hal => absurd hal (hidle (by simp [hpc, RunPc.Engaged]))
    split <;> simp [RunPc.Engaged]
  | runLocked k o hpc ho =>
    exact (h.setBackup fun hf => Orchestration.backupRunning_eq ho ▸ hf).checkRestore
      (by simp [Orchestration.setBackup, hpc, RunPc.Engaged])
  | noPath k size hpc =>
    exact h.setRun (by simp [RunPc.Engaged])
      fun hal => absurd hal (hidle (by simp [hpc, RunPc.Engaged]))
  | backupStarted k o hpc ho =>
    obtain ⟨-, hb, hr, horph⟩ := hok rfl
    exact h.startRun rfl (h.no_run hb) (Orchestration.no_restore hr horph)
  | sizeFails k o hpc ho => exact absurd (hok rfl).1 (by simp)
  | estimated k estimate o hpc ho =>
    exact (h.setBackup fun hf => Orchestration.backupRunning_eq ho ▸ hf).spawnTasks (Or.inl hpc)
  | joinPanics k hpc hjoins =>
    exact h.setRun (fun _ => Or.inr (Or.inl hpc)) fun _ => Or.inr (Or.inr rfl)
  | joined k result hpc hjoins hresult =>
    refine h.returnRun (Or.inr (Or.inl hpc)) ?_
    cases result with
    | panicked => exact absurd rfl hresult
    | ok =>
      rintro (hal | hal)
      · exact absurd (hjoins.1.symm.trans hal) (by simp)
      · exact absurd (hjoins.2.symm.trans hal) (by simp)
    | err => exact hok
  | works k progress o halive ho =>
    exact h.setBackup fun hf => Orchestration.backupRunning_eq ho ▸ hf
  | packEnded k result halive => exact h.setPack result.task_ne_alive
  | sendEnded k result halive => exact h.setSend result.task_ne_alive
  | firstRequest k hpc hnone =>
    exact h.setStarted _ fun j hj => absurd (h.restore_isSome j hj) (by simp [hnone])
  | nextRequest k r hpc hr =>
    refine h.setRequest ?_
    split <;> simp [RequestPc.Restoring]
  | requestLocked k r hpc hr => exact h.setStarted _ (Orchestration.no_restore hok.1 hok.2)
  | requested k peer r hpc hr => exact h.setRestore _
  | requestFailed k hpc => exact h.setFinished.setRequest (by simp [RequestPc.Restoring])
  | requestsSent k hpc => exact h.waitingLoop (Or.inl hpc)
  | woken k hpc => exact h.waitingLoop (Or.inr (Or.inl hpc))
  | checked k r hpc hr => exact h.setRequest fun _ => Or.inr (Or.inr (Or.inl hpc))
  | unpacked k success hpc => exact h.setFinished.setRequest (by simp [RequestPc.Restoring])
  | sessionFailed hr => exact h.setFinished
  | sessionCompleted peer r hr => exact h.setRestore _

/-! ## 5. Who changes what -/

/-- The backup orchestrator is changed by a call whose run is engaged, or while no backup is
running. -/
theorem step_backup {c c' : Orchestration} {a : OrchestrationAction} (h : Apart c)
    (hok : GuardsHold c a) (hstep : orchestrationStep c a = some c') :
    c'.backup = c.backup ∨
      ∃ k, a.run? = some k ∧ ((c.run k).Engaged ∨ c.backupRunning = false) := by
  cases orchestrated_of_step hstep with
  | firstRun k hpc hnone =>
    exact Or.inr ⟨k, rfl, Or.inr (by simp [Orchestration.backupRunning, hnone])⟩
  | runLocked k => exact Or.inr ⟨k, rfl, Or.inr hok⟩
  | backupStarted k | sizeFails k => exact Or.inr ⟨k, rfl, Or.inr (hok rfl).2.1⟩
  | estimated k estimate o hpc => exact Or.inr ⟨k, rfl, Or.inl (Or.inl hpc)⟩
  | joined k result hpc => exact Or.inr ⟨k, rfl, Or.inl (Or.inr (Or.inl hpc))⟩
  | works k progress o halive => exact Or.inr ⟨k, rfl, Or.inl (h.task_engaged k halive)⟩
  | firstRequest k | requestLocked k => exact Or.inl (c.setStarted_backup k _)
  | requestsSent k | woken k => exact Or.inl (c.waitingLoop_backup k)
  | _ => exact Or.inl rfl

/-- The restore orchestrator is changed by a call whose restore goes on, while no restore goes
on, or by a peer session. -/
theorem step_restore {c c' : Orchestration} {a : OrchestrationAction} (h : Apart c)
    (hok : GuardsHold c a) (hstep : orchestrationStep c a = some c') :
    c'.restore = c.restore ∨ (a.run? = none ∧ a.request? = none) ∨
      (a.run? = none ∧ ∃ k, a.request? = some k ∧
        (c.RestoreAlive k ∨ ∀ j, ¬ c.RestoreAlive j)) := by
  cases orchestrated_of_step hstep with
  | firstRequest k hpc hnone =>
    refine Or.inr (Or.inr ⟨rfl, k, rfl, Or.inr fun j hj => ?_⟩)
    exact absurd (h.restore_isSome j hj) (by simp [hnone])
  | requestLocked k =>
    exact Or.inr (Or.inr ⟨rfl, k, rfl, Or.inr (Orchestration.no_restore hok.1 hok.2)⟩)
  | requested k _ _ hpc | requestFailed k hpc | requestsSent k hpc =>
    exact Or.inr (Or.inr ⟨rfl, k, rfl, Or.inl (Or.inl hpc)⟩)
  | woken k hpc => exact Or.inr (Or.inr ⟨rfl, k, rfl, Or.inl (Or.inr (Or.inl hpc))⟩)
  | unpacked k success hpc =>
    exact Or.inr (Or.inr ⟨rfl, k, rfl, Or.inl (Or.inr (Or.inr (Or.inr hpc)))⟩)
  | sessionFailed | sessionCompleted => exact Or.inr (Or.inl ⟨rfl, rfl⟩)
  | _ => exact Or.inl rfl

theorem Apart.started_engaged {c : Orchestration} {k : ℕ} (h : Apart c) (hk : c.Started k) :
    (c.run k).Engaged :=
  hk.elim Or.inl (h.task_engaged k)

/-- The invariant gives exclusion in a state. -/
theorem Apart.exclusive {c : Orchestration} (h : Apart c) : c.Exclusive where
  one_backup j k hj hk := h.one_run j k (h.task_engaged j hj) (h.task_engaged k hk)
  one_restore := h.one_restore
  not_both j k hj := h.not_both j k (h.task_engaged j hj)
  running k hk := h.flagged k (h.started_engaged hk)

/-- And it keeps the hands of the other calls off the active one. -/
theorem untouched_step {c c' : Orchestration} {a : OrchestrationAction} (h : Apart c)
    (hok : GuardsHold c a) (hstep : orchestrationStep c a = some c') : Untouched c a c' where
  backup k hk ha := by
    rcases step_backup h hok hstep with hsame | ⟨j, hj, heng | hflag⟩
    · exact hsame
    · exact absurd (hj.trans (congrArg some (h.one_run j k heng (h.started_engaged hk)))) ha
    · exact absurd (h.started_engaged hk) (h.no_run hflag k)
  restore k j hk ha hjk := by
    rcases step_restore h hok hstep with hsame | ⟨-, hno⟩ | ⟨-, i, hi, hal | hnone⟩
    · exact hsame
    · exact absurd (ha.symm.trans hno) (by simp)
    · have hij : i = j := Option.some.inj (hi.symm.trans ha)
      exact absurd (hij.symm.trans (h.one_restore i k hal hk)) hjk
    · exact absurd hk (hnone k)
  restore_run k j _ ha := by
    rcases step_restore h hok hstep with hsame | ⟨hno, -⟩ | ⟨hno, -⟩
    · exact hsame
    · exact absurd (ha.symm.trans hno) (by simp)
    · exact absurd (ha.symm.trans hno) (by simp)

/-! ## 6. Runs -/

/-- In every run whose guards hold, every reachable state has at most one backup or restore,
with its flag set, and no step of another call touches it. -/
theorem backup_exclusive {c : Orchestration}
    (h : Transition.Reach orchestrationStep GuardsHold .start c) :
    c.Exclusive ∧ ∀ a c', GuardsHold c a → orchestrationStep c a = some c' → Untouched c a c' := by
  have hapart : Apart c :=
    h.invariant Apart.start fun _ _ _ hi hok hst => apart_step hi hok hst
  exact ⟨hapart.exclusive, fun _ _ hok hst => untouched_step hapart hok hst⟩

/-- A backup runs while a second one and a restore are refused. -/
theorem backup_exclusive_refused :
    ∃ c : Orchestration, c.Exclusive ∧ c.BackupAlive 0 ∧ c.run 1 = .returned ∧
      c.request 0 = .returned ∧ c.backupRunning = true :=
  ⟨_, (backup_exclusive <|
    .head (.runStart 0 true) trivial rfl <|
    .head (.runPath 0 true true) (fun _ => ⟨rfl, rfl, rfl, fun h => by
      obtain ⟨-, k, hk⟩ := h
      simp [Orchestration.RestoreAlive, RequestPc.Restoring, Orchestration.start,
        Orchestration.checkRestore, Orchestration.setBackup, Orchestration.setRun] at hk⟩) rfl <|
    .head (.runEstimated 0 9) trivial rfl <| .head (.runStart 1 true) trivial rfl <|
    .head (.requestStart 0) trivial rfl .refl).1,
    Or.inl rfl, rfl, rfl, rfl⟩

/-- Two calls of `run`: the second reads the flag while the first awaits `get_backup_path`. -/
def twoBackups : List OrchestrationAction :=
  [.runStart 0 true, .runStart 1 true, .runLocked 1, .runPath 0 true true, .runPath 1 true true,
    .runEstimated 0 9, .runEstimated 1 9]

/-- Both runs pack and send at the same time. -/
theorem two_backups_alive :
    ∃ c, Transition.run orchestrationStep .start twoBackups = some c ∧
      c.pack 0 = .alive ∧ c.pack 1 = .alive ∧ c.send 0 = .alive ∧ c.send 1 = .alive :=
  ⟨_, rfl, rfl, rfl, rfl, rfl⟩

end Backuwup.Client
