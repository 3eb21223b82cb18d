/-
# Pausing and resuming the packer (`client/src/backup/backup_orchestrator.rs`)

A packer task that runs `block_if_paused!` reads the `paused` flag, subscribes a fresh
`oneshot` channel in the `listeners` vector, and waits on it.  The sending task's `resume`
stores the flag and then drains the vector under its mutex, sending on each channel.  In between the
flag is clear and tasks still wait (`resume_clears_flag_first`).  And as the flag and the vector are
not read together, a task can subscribe after the drain and wait for a notification that no one
will send (`block_if_paused_lost_wake_up`).

The result over all interleavings is `pause_no_lost_wake_up`: a run whose subscriptions all
come while the flag is still set, or before a `resume` under way has begun to drain, and in
which `initialize_static` throws no waiting task's channel away, never leaves a task waiting
for nothing.  The invariant is `Served`.
-/
import Backuwup.Lib.Transition
import Mathlib.Logic.Function.Basic

namespace Backuwup.Client

/-! ## 1. The state -/

/-- Where a packer task is in `block_if_paused!`. -/
inductive PackerPc
  | running
  /-- `should_continue` has returned false -/
  | sawPaused
  | waiting (channel : ℕ)
  /-- the `unwrap` of a dropped channel -/
  | panicked
deriving DecidableEq

/-- Where the sending task is with its calls of `pause` and `resume`. -/
inductive SenderPc
  | idle
  /-- in `pause`, the flag is stored -/
  | pausing
  /-- `should_continue` has returned false, `resume` will be called -/
  | willResume
  /-- in `resume`, the flag is stored -/
  | resuming
  /-- in `resume`, draining the listeners under their mutex -/
  | draining
deriving DecidableEq

/-- Where a call of `initialize_static` is. -/
inductive InitPc
  | idle
  | passed
  | cleared
deriving DecidableEq

/-- The orchestrator's part in pausing, with the tasks that use it.  A channel is a number; it
has been sent on, or its sender has been dropped, or the sender is still in `listeners`. -/
structure PauseState where
  paused : Bool
  listeners : List ℕ
  sent : List ℕ
  dropped : List ℕ
  /-- how many channels have been created -/
  channels : ℕ
  packer : ℕ → PackerPc
  sender : SenderPc
  init : ℕ → InitPc

namespace PauseState

/-- `BackupOrchestrator::default`, with no task in a call. -/
def start : PauseState :=
  ⟨false, [], [], [], 0, fun _ => .running, .idle, fun _ => .idle⟩

/-- The mutex of `listeners` is held over more than one step by the drain only. -/
def Unlocked (s : PauseState) : Prop := s.sender ≠ .draining

instance (s : PauseState) : Decidable s.Unlocked := inferInstanceAs (Decidable (_ ≠ _))

def setPacker (s : PauseState) (t : ℕ) (pc : PackerPc) : PauseState :=
  { s with packer := Function.update s.packer t pc }

def setSender (s : PauseState) (pc : SenderPc) : PauseState := { s with sender := pc }

def setInit (s : PauseState) (k : ℕ) (pc : InitPc) : PauseState :=
  { s with init := Function.update s.init k pc }

/-- The push of a new channel's sender. -/
def push (s : PauseState) : PauseState :=
  { s with listeners := s.listeners ++ [s.channels], channels := s.channels + 1 }

end PauseState

/-! ## 2. The steps -/

/-- The steps of the packer tasks, of the sending task and of the calls of
`initialize_static`. -/
inductive PauseAction
  | shouldContinue (t : ℕ)
  | subscribe (t : ℕ)
  | wake (t : ℕ)
  | pauseStore
  | pauseSubscribe
  | resumeCheck
  | resumeStore
  | resumeLock
  | resumeSend
  | resumeUnlock
  /-- the read of `backup_running`, with its outcome -/
  | initCheck (k : ℕ) (running : Bool)
  | initClear (k : ℕ)
  | initStore (k : ℕ)
deriving DecidableEq

def pauseStep (s : PauseState) : PauseAction → Option PauseState
  | .shouldContinue t =>
    if s.packer t = .running then
      some (if s.paused then s.setPacker t .sawPaused else s)
    else none
  | .subscribe t =>
    if s.packer t = .sawPaused ∧ s.Unlocked then
      some (s.push.setPacker t (.waiting s.channels))
    else none
  | .wake t =>
    match s.packer t with
    | .waiting ch =>
      if ch ∈ s.sent then some (s.setPacker t .running)
      else if ch ∈ s.dropped then some (s.setPacker t .panicked)
      else none
    | _ => none
  | .pauseStore =>
    if s.sender = .idle then some { s with paused := true, sender := .pausing } else none
  | .pauseSubscribe =>
    -- the receiver that `pause` returns is dropped by `send`
    if s.sender = .pausing then some (s.push.setSender .idle) else none
  | .resumeCheck =>
    if s.sender = .idle then some (if s.paused then s.setSender .willResume else s) else none
  | .resumeStore =>
    if s.sender = .willResume then some { s with paused := false, sender := .resuming } else none
  | .resumeLock => if s.sender = .resuming then some (s.setSender .draining) else none
  | .resumeSend =>
    if s.sender = .draining then
      match s.listeners with
      | [] => none
      | ch :: rest => some { s with listeners := rest, sent := ch :: s.sent }
    else none
  | .resumeUnlock =>
    if s.sender = .draining ∧ s.listeners = [] then some (s.setSender .idle) else none
  | .initCheck k running =>
    if s.init k = .idle then some (if running then s else s.setInit k .passed) else none
  | .initClear k =>
    if s.init k = .passed ∧ s.Unlocked then
      some ({ s with listeners := [], dropped := s.listeners ++ s.dropped }.setInit k .cleared)
    else none
  | .initStore k =>
    if s.init k = .cleared then some ({ s with paused := false }.setInit k .idle) else none

/-! ## 3. The property and its condition -/

namespace PauseState

/-- A call of `resume` has stored the flag and has not finished its drain. -/
def Resuming (s : PauseState) : Prop := s.sender = .resuming ∨ s.sender = .draining

/-- No task waits for a notification that is not sent or on its way, and none is left with a
dropped channel. -/
structure NoLostWakeUp (s : PauseState) : Prop where
  /-- outside a call of `resume`, a waiting task is notified or waits while paused -/
  waiting : ∀ t ch, s.packer t = .waiting ch → ¬ s.Resuming → ch ∈ s.sent ∨ s.paused = true
  /-- a sender left in the vector has the flag set, or the running `resume` still drains it -/
  listening : ∀ t ch, s.packer t = .waiting ch → ch ∈ s.listeners →
    s.paused = true ∨ s.Resuming
  /-- inside a call of `resume`, a waiting task is notified or still ahead in the drain -/
  draining : ∀ t ch, s.packer t = .waiting ch → s.Resuming → ch ∈ s.sent ∨ ch ∈ s.listeners
  not_dropped : ∀ t ch, s.packer t = .waiting ch → ch ∉ s.dropped
  not_panicked : ∀ t, s.packer t ≠ .panicked

/-- No waiting task's sender is in the vector. -/
def NoneListening (s : PauseState) : Prop :=
  ∀ t ch, s.packer t = .waiting ch → ch ∉ s.listeners

end PauseState

/-- The condition on a step: a subscription comes while the flag is set or before the running
`resume` drains, and `initialize_static` meets no task that still waits. -/
def SubscribesInTime (s : PauseState) : PauseAction → Prop
  | .subscribe _ => s.paused = true ∨ s.sender = .resuming
  | .initClear _ => s.NoneListening
  | .initStore _ => s.NoneListening ∨ s.Resuming
  | _ => True

/-! ## 4. The invariant -/

/-- Every waiting task has been notified or its sender is in the vector, and while it is in the
vector it will be reached: the flag is set or a `resume` is under way. -/
structure Served (s : PauseState) : Prop where
  kept : ∀ t ch, s.packer t = .waiting ch → ch ∈ s.sent ∨ ch ∈ s.listeners
  reached : ∀ t ch, s.packer t = .waiting ch → ch ∈ s.listeners → s.paused = true ∨ s.Resuming
  not_dropped : ∀ t ch, s.packer t = .waiting ch → ch ∉ s.dropped
  waiting_lt : ∀ t ch, s.packer t = .waiting ch → ch < s.channels
  dropped_lt : ∀ ch ∈ s.dropped, ch < s.channels
  listening_lt : ∀ ch ∈ s.listeners, ch < s.channels
  not_panicked : ∀ t, s.packer t ≠ .panicked

namespace PauseState

variable {s : PauseState} {t u ch : ℕ} {pc : PackerPc}

/-- The tasks after one of them has moved. -/
theorem setPacker_packer (s : PauseState) (t u : ℕ) (pc : PackerPc) :
    (s.setPacker t pc).packer u = if u = t then pc else s.packer u := by
  simp only [setPacker, Function.update_apply]

/-- A waiting task is another one, or the one that moved. -/
theorem waiting_setPacker (h : (s.setPacker t pc).packer u = .waiting ch) :
    (u = t ∧ pc = .waiting ch) ∨ s.packer u = .waiting ch := by
  rw [setPacker_packer] at h
  split at h
  · exact Or.inl ⟨‹_›, h⟩
  · exact Or.inr h

end PauseState

namespace Served

variable {s s' : PauseState}

theorem start : Served .start where
  kept _ _ h := by simp [PauseState.start] at h
  reached _ _ h := by simp [PauseState.start] at h
  not_dropped _ _ h := by simp [PauseState.start] at h
  waiting_lt _ _ h := by simp [PauseState.start] at h
  dropped_lt _ h := by simp [PauseState.start] at h
  listening_lt _ h := by simp [PauseState.start] at h
  not_panicked _ := by simp [PauseState.start]

/-- A task moves without waiting on anything, or to wait on a channel that is served. -/
theorem setPacker (h : Served s) (t : ℕ) {pc : PackerPc} (hp : pc ≠ .panicked)
    (hpc : ∀ ch, pc = .waiting ch → ch ∈ s.listeners ∧ (s.paused = true ∨ s.Resuming) ∧
      ch ∉ s.dropped) : Served (s.setPacker t pc) where
  kept u ch hu := by
    rcases PauseState.waiting_setPacker hu with ⟨-, rfl⟩ | hu
    · exact Or.inr (hpc ch rfl).1
    · exact h.kept u ch hu
  reached u ch hu hl := by
    rcases PauseState.waiting_setPacker hu with ⟨-, rfl⟩ | hu
    · exact (hpc ch rfl).2.1
    · exact h.reached u ch hu hl
  not_dropped u ch hu := by
    rcases PauseState.waiting_setPacker hu with ⟨-, rfl⟩ | hu
    · exact (hpc ch rfl).2.2
    · exact h.not_dropped u ch hu
  waiting_lt u ch hu := by
    rcases PauseState.waiting_setPacker hu with ⟨-, rfl⟩ | hu
    · exact h.listening_lt ch (hpc ch rfl).1
    · exact h.waiting_lt u ch hu
  dropped_lt := h.dropped_lt
  listening_lt := h.listening_lt
  not_panicked u := by
    rw [PauseState.setPacker_packer]
    split
    · exact hp
    · exact h.not_panicked u

/-- A new channel belongs to no waiting task yet. -/
theorem push (h : Served s) : Served s.push where
  kept t ch ht := (h.kept t ch ht).imp_right (List.mem_append_left _)
  reached t ch ht hl := by
    rcases List.mem_append.mp hl with hl | hl
    · exact h.reached t ch ht hl
    · rw [List.mem_singleton.mp hl] at ht
      exact absurd (h.waiting_lt t _ ht) (Nat.lt_irrefl _)
  not_dropped := h.not_dropped
  waiting_lt t ch ht := Nat.lt_succ_of_lt (h.waiting_lt t ch ht)
  dropped_lt ch hch := Nat.lt_succ_of_lt (h.dropped_lt ch hch)
  listening_lt ch hch := by
    rcases List.mem_append.mp hch with hch | hch
    · exact Nat.lt_succ_of_lt (h.listening_lt ch hch)
    · rw [List.mem_singleton.mp hch]
      exact Nat.lt_succ_self _
  not_panicked := h.not_panicked

/-- A subscription in time waits on a fresh channel that will be reached. -/
theorem subscribe (h : Served s) (t : ℕ) (hin : s.paused = true ∨ s.sender = .resuming) :
    Served (s.push.setPacker t (.waiting s.channels)) := by
  refine h.push.setPacker t (by simp) ?_
  rintro ch hch
  obtain rfl : s.channels = ch := by simpa using hch
  refine ⟨List.mem_append_right _ (List.mem_singleton.mpr rfl), hin.imp_right Or.inl, ?_⟩
  exact fun hd => absurd (h.dropped_lt _ hd) (Nat.lt_irrefl _)

/-- The flag and the sending task may change as long as the senders in the vector are still
reached. -/
theorem change (h : Served s) (hpk : s'.packer = s.packer) (hl : s'.listeners = s.listeners)
    (hs : s'.sent = s.sent) (hd : s'.dropped = s.dropped) (hc : s'.channels = s.channels)
    (hreach : ∀ t ch, s.packer t = .waiting ch → ch ∈ s.listeners →
      s.paused = true ∨ s.Resuming → s'.paused = true ∨ s'.Resuming) : Served s' where
  kept := by rw [hpk, hs, hl]; exact h.kept
  reached t ch ht hmem := by
    rw [hpk] at ht
    rw [hl] at hmem
    exact hreach t ch ht hmem (h.reached t ch ht hmem)
  not_dropped := by rw [hpk, hd]; exact h.not_dropped
  waiting_lt := by rw [hpk, hc]; exact h.waiting_lt
  dropped_lt := by rw [hd, hc]; exact h.dropped_lt
  listening_lt := by rw [hl, hc]; exact h.listening_lt
  not_panicked := by rw [hpk]; exact h.not_panicked

/-- The drain moves the channel at the front to the notified ones. -/
theorem resumeSend {ch : ℕ} {rest : List ℕ} (h : Served s) (hl : s.listeners = ch :: rest) :
    Served { s with listeners := rest, sent := ch :: s.sent } where
  kept t c ht := by
    rcases h.kept t c ht with hc | hc
    · exact Or.inl (List.mem_cons_of_mem _ hc)
    · rw [hl] at hc
      rcases List.mem_cons.mp hc with rfl | hc
      · exact Or.inl List.mem_cons_self
      · exact Or.inr hc
  reached t c ht hc := h.reached t c ht (by rw [hl]; exact List.mem_cons_of_mem _ hc)
  not_dropped := h.not_dropped
  waiting_lt := h.waiting_lt
  dropped_lt := h.dropped_lt
  listening_lt c hc := h.listening_lt c (by rw [hl]; exact List.mem_cons_of_mem _ hc)
  not_panicked := h.not_panicked

/-- Clearing the vector hurts no one when no waiting task's sender is in it. -/
theorem initClear (h : Served s) (hnone : s.NoneListening) :
    Served { s with listeners := [], dropped := s.listeners ++ s.dropped } where
  kept t ch ht := (h.kept t ch ht).imp_right fun hl => absurd hl (hnone t ch ht)
  reached t ch _ hl := by simp at hl
  not_dropped t ch ht hd := by
    rcases List.mem_append.mp hd with hd | hd
    · exact hnone t ch ht hd
    · exact h.not_dropped t ch ht hd
  waiting_lt := h.waiting_lt
  dropped_lt ch hch := (List.mem_append.mp hch).elim (h.listening_lt ch) (h.dropped_lt ch)
  listening_lt ch hch := by simp at hch
  not_panicked := h.not_panicked

/-- What the invariant says of one state. -/
theorem noLostWakeUp (h : Served s) : s.NoLostWakeUp where
  waiting t ch ht hres := by
    rcases h.kept t ch ht with hc | hc
    · exact Or.inl hc
    · exact Or.inr ((h.reached t ch ht hc).resolve_right hres)
  listening := h.reached
  draining t ch ht _ := h.kept t ch ht
  not_dropped := h.not_dropped
  not_panicked := h.not_panicked

end Served

/-- One step in time keeps the invariant. -/
theorem served_step {s s' : PauseState} {a : PauseAction} (h : Served s)
    (hok : SubscribesInTime s a) (hstep : pauseStep s a = some s') : Served s' := by
  cases a <;> simp only [pauseStep, Option.ite_none_right_eq_some, Option.some.injEq] at hstep
  case shouldContinue t =>
    obtain ⟨-, rfl⟩ := hstep
    split
    · exact h.setPacker t (by simp) (by simp)
    · exact h
  case subscribe t =>
    obtain ⟨-, rfl⟩ := hstep
    exact h.subscribe t hok
  case wake t =>
    split at hstep
    · rename_i ch hw
      split at hstep
      · obtain rfl := Option.some.inj hstep
        exact h.setPacker t (by simp) (by simp)
      · obtain ⟨hd, -⟩ := Option.ite_none_right_eq_some.mp hstep
        exact absurd hd (h.not_dropped t ch hw)
    · cases hstep
  case pauseStore =>
    obtain ⟨-, rfl⟩ := hstep
    exact h.change rfl rfl rfl rfl rfl fun _ _ _ _ _ => Or.inl rfl
  case pauseSubscribe =>
    obtain ⟨hpc, rfl⟩ := hstep
    refine h.push.change rfl rfl rfl rfl rfl fun _ _ _ _ hr => hr.imp_right ?_
    rintro (hr | hr) <;> exact absurd (hpc.symm.trans hr) (by simp)
  case resumeCheck =>
    obtain ⟨hpc, rfl⟩ := hstep
    split
    · rename_i hp
      exact h.change rfl rfl rfl rfl rfl fun _ _ _ _ _ => Or.inl hp
    · exact h
  case resumeStore =>
    obtain ⟨-, rfl⟩ := hstep
    exact h.change rfl rfl rfl rfl rfl fun _ _ _ _ _ => Or.inr (Or.inl rfl)
  case resumeLock =>
    obtain ⟨-, rfl⟩ := hstep
    exact h.change rfl rfl rfl rfl rfl fun _ _ _ _ _ => Or.inr (Or.inr rfl)
  case resumeSend =>
    obtain ⟨-, hstep⟩ := hstep
    split at hstep
    · cases hstep
    · rename_i ch rest hl
      obtain rfl := Option.some.inj hstep
      exact h.resumeSend hl
  case resumeUnlock =>
    -- the drain ends with the vector empty
    obtain ⟨⟨-, hl⟩, rfl⟩ := hstep
    exact h.change rfl rfl rfl rfl rfl fun _ _ _ hmem _ => by simp [hl] at hmem
  case initCheck k running =>
    obtain ⟨-, rfl⟩ := hstep
    split
    · exact h
    · exact h.change rfl rfl rfl rfl rfl fun _ _ _ _ hr => hr
  case initClear k =>
    obtain ⟨-, rfl⟩ := hstep
    exact (h.initClear hok).change rfl rfl rfl rfl rfl fun _ _ _ _ hr => hr
  case initStore k =>
    obtain ⟨-, rfl⟩ := hstep
    refine h.change rfl rfl rfl rfl rfl fun t ch ht hl _ => ?_
    exact hok.elim (fun hnone => absurd hl (hnone t ch ht)) Or.inr

/-! ## 5. A whole `resume` -/

/-- What is left of a `resume` that drains sends on every channel of the vector. -/
theorem drain_sends : ∀ (l : List ℕ) {s : PauseState}, s.listeners = l → s.sender = .draining →
    Transition.run pauseStep s (l.map (fun _ => .resumeSend) ++ [.resumeUnlock])
      = some { s with listeners := [], sent := l.reverse ++ s.sent, sender := .idle }
  | [], s, hl, hd => by
    obtain ⟨⟩ := s
    simp only at hl hd
    subst hl hd
    rfl
  | ch :: rest, s, hl, hd => by
    have hstep : pauseStep s .resumeSend
        = some { s with listeners := rest, sent := ch :: s.sent } := by
      simp only [pauseStep, hd, hl, if_true]
    rw [List.map_cons, List.cons_append, Transition.run_cons_of_step _ hstep,
      drain_sends rest (s := { s with listeners := rest, sent := ch :: s.sent }) rfl hd]
    simp

/-- When a `resume` gets to its end undisturbed, every waiting task has been notified. -/
theorem resume_notifies {s : PauseState} (h : Served s) (hr : s.sender = .resuming) :
    ∃ s', Transition.run pauseStep s
        (.resumeLock :: (s.listeners.map (fun _ => .resumeSend) ++ [.resumeUnlock])) = some s' ∧
      s'.packer = s.packer ∧ ∀ t ch, s'.packer t = .waiting ch → ch ∈ s'.sent := by
  have hlock : pauseStep s .resumeLock = some (s.setSender .draining) := by
    simp only [pauseStep, hr, if_true]
  refine ⟨_, (Transition.run_cons_of_step _ hlock).trans
    (drain_sends s.listeners (s := s.setSender .draining) rfl rfl), rfl, ?_⟩
  intro t ch ht
  refine List.mem_append.mpr ?_
  exact (h.kept t ch ht).symm.imp_left List.mem_reverse.mpr

/-! ## 6. Runs -/

/-- In every run whose subscriptions come in time, no reachable state has a lost wake-up. -/
theorem pause_no_lost_wake_up {s : PauseState}
    (h : Transition.Reach pauseStep SubscribesInTime .start s) : s.NoLostWakeUp :=
  (h.invariant Served.start fun _ _ _ hi hok hst => served_step hi hok hst).noLostWakeUp

/-- A task that subscribes while paused is notified by the `resume` that follows. -/
theorem pause_no_lost_wake_up_notified :
    ∃ s : PauseState, s.NoLostWakeUp ∧ s.packer 0 = .waiting 1 ∧ 1 ∈ s.sent ∧
      s.paused = false ∧ s.sender = .idle :=
  ⟨_, pause_no_lost_wake_up <|
    .head .pauseStore trivial rfl <| .head .pauseSubscribe trivial rfl <|
    .head (.shouldContinue 0) trivial rfl <| .head (.subscribe 0) (Or.inl rfl) rfl <|
    .head .resumeCheck trivial rfl <| .head .resumeStore trivial rfl <|
    .head .resumeLock trivial rfl <| .head .resumeSend trivial rfl <|
    .head .resumeSend trivial rfl <| .head .resumeUnlock trivial rfl .refl,
    rfl, by decide, rfl, rfl⟩

/-- Task 0 waits while the backup is paused, and `resume` is called. -/
def resumeOneTask : List PauseAction :=
  [.pauseStore, .pauseSubscribe, .shouldContinue 0, .subscribe 0, .resumeCheck, .resumeStore]

/-- `resume` clears the flag first: the task still waits, and its sender is in the vector. -/
theorem resume_clears_flag_first :
    ∃ s, Transition.run pauseStep .start resumeOneTask = some s ∧
      s.packer 0 = .waiting 1 ∧ 1 ∉ s.sent ∧ 1 ∈ s.listeners ∧ s.paused = false :=
  ⟨_, rfl, rfl, by decide, by decide, rfl⟩

/-- The run in which task 0 subscribes after the drain. -/
def lateSubscription : List PauseAction :=
  [.pauseStore, .pauseSubscribe, .shouldContinue 0, .resumeCheck, .resumeStore, .resumeLock,
    .resumeSend, .resumeUnlock, .subscribe 0]

/-- A task that has seen the flag subscribes after the drain: it waits, the flag is clear, and
its sender stays in the vector with no `resume` under way. -/
theorem block_if_paused_lost_wake_up :
    ∃ s, Transition.run pauseStep .start lateSubscription = some s ∧
      s.packer 0 = .waiting 1 ∧ 1 ∉ s.sent ∧ 1 ∈ s.listeners ∧ s.paused = false ∧
      s.sender = .idle :=
  ⟨_, rfl, rfl, by decide, by decide, rfl, rfl⟩

end Backuwup.Client
