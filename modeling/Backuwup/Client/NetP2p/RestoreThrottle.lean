/-
# The rate limit of restore requests (`restore_all_data_to_peer`)

Before a client sends a peer its data back it looks up the peer's last restore request in the log,
refuses the new one if that was too recent, and logs it otherwise.  The lookup and the record are
two transactions, and any number of sessions run at once, each of them cut at its awaits and where
it reads the clock, which counts seconds.

`restore_throttled`: requests of a peer get past the limit `restoreThrottleDelay` seconds apart, and
the requests of others have no part in it, as long as each is recorded while what its session has
looked up is still the peer's last request.  Two sessions that have both looked before either has
recorded get past it together (`both_get_past`).
-/
import Backuwup.Client.Config.Log
import Backuwup.Client.NetP2p.RestoreSend
import Backuwup.Lib.Pool

namespace Backuwup.Client.RestoreThrottle

open Log Transition

/-! ## 1. A session -/

/-- The check of a request against the last one. -/
def rateLimited (lastRequest : Option ℤ) (now : ℤ) : Bool :=
  lastRequest.any fun last => now - restoreThrottleDelay < last

theorem restoreAllDataToPeer_rateLimited {d : Dest} {listing : List FileName → List FileName}
    {key : FixedBytes 4} {peer : ClientId} {lastRequest : Option ℤ} {now : ℤ}
    (h : rateLimited lastRequest now = true) :
    restoreAllDataToPeer d listing key peer lastRequest now = .error .rateLimited := if_pos h

/-- Where a session is. -/
inductive Stage
  /-- `get_last_peer_restore_request` comes next -/
  | querying
  /-- it has answered, the check comes next -/
  | queried (lastRequest : Option ℤ)
  /-- the check has passed, `log_peer_restore_request` comes next -/
  | passed (lastRequest : Option ℤ)
  /-- the time of the row is bound, the insertion comes next -/
  | recording (lastRequest : Option ℤ) (timestamp : ℤ)
  /-- past the limit, with the time of its row -/
  | serving (timestamp : ℤ)
  /-- `bail!("rate limited restore request …")`, at a time -/
  | refused (time : ℤ)
  /-- the database has failed -/
  | failed
deriving DecidableEq

/-- A session with a peer, and when it came. -/
structure Session where
  peer : ClientId
  arrived : ℤ
  stage : Stage
deriving DecidableEq

/-- The clock and the log. -/
structure Shared where
  now : ℤ
  log : List LogRow
deriving DecidableEq

/-- A step of a session, with the outcome of the transaction. -/
inductive Event
  | query (ok : Bool)
  | check
  | bind
  | commit (ok : Bool)
deriving DecidableEq

def sessionStep (q : LatestFirst) (event : Event) (s : Shared) (t : Session) :
    Option (Shared × Session) :=
  match event, t.stage with
  | .query false, .querying => some (s, { t with stage := .failed })
  | .query true, .querying =>
    match getLastPeerRestoreRequest q s.log t.peer with
    | .ok lastRequest => some (s, { t with stage := .queried lastRequest })
    | .error _ => some (s, { t with stage := .failed })
  | .check, .queried lastRequest =>
    if rateLimited lastRequest s.now then some (s, { t with stage := .refused s.now })
    else some (s, { t with stage := .passed lastRequest })
  | .bind, .passed lastRequest => some (s, { t with stage := .recording lastRequest s.now })
  | .commit false, .recording _ _ => some (s, { t with stage := .failed })
  | .commit true, .recording _ timestamp =>
    some ({ s with log := logPeerRestoreRequest s.log timestamp t.peer },
      { t with stage := .serving timestamp })
  | _, _ => none

/-! ## 2. The client -/

abbrev State := Pool Shared Session

def start : State := ⟨⟨0, []⟩, []⟩

inductive Action
  /-- a peer has opened a session with `RequestType::RestoreAll` -/
  | arrive (peer : ClientId)
  | session (i : ℕ) (event : Event)
  | wait (seconds : ℕ)
  /-- a backup ends -/
  | logBackup (size : ℤ) (path : FileName)
  /-- the client is started anew -/
  | restart
deriving DecidableEq

def step (q : LatestFirst) (s : State) : Action → Option State
  | .arrive peer => some (s.spawn ⟨peer, s.shared.now, .querying⟩)
  | .session i event => s.advance (sessionStep q event) i
  | .wait seconds => some { s with shared := { s.shared with now := s.shared.now + seconds } }
  | .logBackup size path =>
    some { s with shared := { s.shared with
      log := Log.logBackup s.shared.log s.shared.now size path } }
  | .restart => some { s with tasks := [] }

/-- The rows of each peer are far enough apart, and so are the sessions that have got past the
limit. -/
structure Apart (s : State) : Prop where
  rows : ∀ p : ClientId, (requestsOf s.shared.log p).Pairwise fun r r' =>
    restoreThrottleDelay ≤ |r.timestamp - r'.timestamp|
  sessions : ∀ (i j : ℕ) (t t' : Session) (a b : ℤ), i ≠ j → s.tasks[i]? = some t →
    s.tasks[j]? = some t' → t.peer = t'.peer → t.stage = .serving a → t'.stage = .serving b →
    restoreThrottleDelay ≤ |a - b|

/-- A session that was refused came too early after a request of its own peer. -/
structure Throttled (s : State) : Prop extends Apart s where
  refused : ∀ t ∈ s.tasks, ∀ time, t.stage = .refused time →
    ∃ r ∈ requestsOf s.shared.log t.peer, t.arrived < r.timestamp + restoreThrottleDelay

/-- What the session has looked up, when it is about to record its request. -/
def Session.read (t : Session) : Option (Option ℤ) :=
  match t.stage with
  | .recording lastRequest _ => some lastRequest
  | _ => none

/-- A request is recorded while the last request of the peer is the one its session has found. -/
def InTurn (q : LatestFirst) (s : State) : Action → Prop
  | .session i (.commit true) => ∀ t ∈ s.tasks[i]?, ∀ lastRequest ∈ t.read,
      getLastPeerRestoreRequest q s.shared.log t.peer = .ok lastRequest
  | _ => True

instance (q : LatestFirst) (s : State) : (a : Action) → Decidable (InTurn q s a)
  | .session i (.commit true) => inferInstanceAs (Decidable (∀ t ∈ s.tasks[i]?,
      ∀ lastRequest ∈ t.read, getLastPeerRestoreRequest q s.shared.log t.peer = .ok lastRequest))
  | .session _ (.commit false) | .session _ (.query _) | .session _ .check | .session _ .bind
  | .arrive _ | .wait _ | .logBackup _ _ | .restart => inferInstanceAs (Decidable True)

/-! ## 3. What a step does -/

def Session.Fair (sh : Shared) (t : Session) : Prop :=
  match t.stage with
  | .querying => t.arrived ≤ sh.now
  | .queried lastRequest => t.arrived ≤ sh.now ∧
      ∀ last ∈ lastRequest, ∃ r ∈ requestsOf sh.log t.peer, r.timestamp = last
  | .passed lastRequest => ∀ last ∈ lastRequest, last ≤ sh.now - restoreThrottleDelay
  | .recording lastRequest timestamp =>
      ∀ last ∈ lastRequest, last ≤ timestamp - restoreThrottleDelay
  | .serving timestamp => ∃ r ∈ requestsOf sh.log t.peer, r.timestamp = timestamp
  | .refused _ =>
      ∃ r ∈ requestsOf sh.log t.peer, t.arrived < r.timestamp + restoreThrottleDelay
  | .failed => True

def Session.IsServing (t : Session) : Prop := ∃ timestamp, t.stage = .serving timestamp

variable {q : LatestFirst} {sh sh' : Shared} {t t' : Session} {event : Event} {s s' : State}

/-- Time passes and the log grows. -/
theorem Session.Fair.mono (h : t.Fair sh) (hnow : sh.now ≤ sh'.now)
    (hlog : ∀ p, requestsOf sh.log p ⊆ requestsOf sh'.log p) : t.Fair sh' := by
  obtain ⟨peer, arrived, stage⟩ := t
  cases stage with
  | querying => exact le_trans h hnow
  | queried lastRequest =>
    refine ⟨le_trans h.1 hnow, fun last hlast => ?_⟩
    obtain ⟨r, hr, heq⟩ := h.2 last hlast
    exact ⟨r, hlog _ hr, heq⟩
  | passed lastRequest =>
    intro last hlast
    have hle : last ≤ sh.now - restoreThrottleDelay := h last hlast
    omega
  | recording lastRequest timestamp => exact h
  | serving timestamp =>
    obtain ⟨r, hr, heq⟩ := h
    exact ⟨r, hlog _ hr, heq⟩
  | refused time =>
    obtain ⟨r, hr, hlt⟩ := h
    exact ⟨r, hlog _ hr, hlt⟩
  | failed => trivial

/-- A step of a session that does not record leaves the log alone and serves nobody. -/
theorem session_cases (h : sessionStep q event sh t = some (sh', t')) (hfair : t.Fair sh) :
    (sh' = sh ∧ ¬ t'.IsServing ∧ t'.Fair sh) ∨
      ∃ lastRequest timestamp, event = .commit true ∧ t.stage = .recording lastRequest timestamp ∧
        sh' = { sh with log := logPeerRestoreRequest sh.log timestamp t.peer } ∧
        t' = { t with stage := .serving timestamp } := by
  obtain ⟨peer, arrived, stage⟩ := t
  unfold sessionStep at h
  split at h
  · obtain ⟨rfl, rfl⟩ := Prod.mk.inj (Option.some.inj h)
    exact Or.inl ⟨rfl, by simp [Session.IsServing], trivial⟩
  · rename_i hstage
    obtain rfl : stage = .querying := hstage
    rcases getLastPeerRestoreRequest_spec q sh.log peer with
      ⟨-, hlast⟩ | ⟨r, hr, hlast, -⟩
    · simp only [hlast, Option.some.injEq, Prod.mk.injEq] at h
      obtain ⟨rfl, rfl⟩ := h
      exact Or.inl ⟨rfl, by simp [Session.IsServing], hfair, by simp⟩
    · simp only [hlast, Option.some.injEq, Prod.mk.injEq] at h
      obtain ⟨rfl, rfl⟩ := h
      exact Or.inl ⟨rfl, by simp [Session.IsServing], hfair, by simpa using ⟨r, hr, rfl⟩⟩
  · rename_i lastRequest hstage
    obtain rfl : stage = .queried lastRequest := hstage
    obtain ⟨harrived, hrows⟩ := hfair
    split at h
    · rename_i hlimited
      obtain ⟨rfl, rfl⟩ := Prod.mk.inj (Option.some.inj h)
      obtain ⟨last, hlast, hrecent⟩ := (Option.any_eq_true _ _).mp hlimited
      obtain ⟨r, hr, rfl⟩ := hrows last hlast
      have hlt : sh.now - restoreThrottleDelay < r.timestamp := of_decide_eq_true hrecent
      have harr : arrived ≤ sh.now := harrived
      exact Or.inl ⟨rfl, by simp [Session.IsServing], r, hr, by simp only; omega⟩
    · rename_i hpasses
      obtain ⟨rfl, rfl⟩ := Prod.mk.inj (Option.some.inj h)
      refine Or.inl ⟨rfl, by simp [Session.IsServing], fun last hlast => ?_⟩
      by_contra hrecent
      refine hpasses ((Option.any_eq_true _ _).mpr ⟨last, hlast, decide_eq_true ?_⟩)
      omega
  · rename_i lastRequest hstage
    obtain rfl : stage = .passed lastRequest := hstage
    obtain ⟨rfl, rfl⟩ := Prod.mk.inj (Option.some.inj h)
    exact Or.inl ⟨rfl, by simp [Session.IsServing], hfair⟩
  · obtain ⟨rfl, rfl⟩ := Prod.mk.inj (Option.some.inj h)
    exact Or.inl ⟨rfl, by simp [Session.IsServing], trivial⟩
  · rename_i lastRequest timestamp hstage
    obtain rfl : stage = .recording lastRequest timestamp := hstage
    obtain ⟨rfl, rfl⟩ := Prod.mk.inj (Option.some.inj h)
    exact Or.inr ⟨lastRequest, timestamp, rfl, rfl, rfl, rfl⟩
  · cases h

/-- A session that is in turn records its request late enough after all others of its peer. -/
theorem far_of_inTurn (hfair : t.Fair sh) {lastRequest : Option ℤ} {timestamp : ℤ}
    (hstage : t.stage = .recording lastRequest timestamp)
    (hturn : getLastPeerRestoreRequest q sh.log t.peer = .ok lastRequest) :
    ∀ r ∈ requestsOf sh.log t.peer, r.timestamp ≤ timestamp - restoreThrottleDelay := by
  intro r hr
  rcases getLastPeerRestoreRequest_spec q sh.log t.peer with
    ⟨hnil, -⟩ | ⟨latest, -, hlast, hle⟩
  · rw [hnil] at hr
    cases hr
  · obtain rfl := Except.ok.inj (hlast.symm.trans hturn)
    have hbound : latest.timestamp ≤ timestamp - restoreThrottleDelay := by
      unfold Session.Fair at hfair
      rw [hstage] at hfair
      exact hfair _ rfl
    exact (hle r hr).trans hbound

/-! ## 4. Runs -/

structure Inv (s : State) : Prop extends Apart s where
  fair : ∀ t ∈ s.tasks, t.Fair s.shared

theorem inv_start : Inv start := ⟨⟨fun _ => .nil, by simp [start]⟩, by simp [start]⟩

theorem Inv.throttled (h : Inv s) : Throttled s where
  toApart := h.toApart
  refused t ht time hstage := by
    have hfair := h.fair t ht
    unfold Session.Fair at hfair
    rwa [hstage] at hfair

/-- Nobody gets past the limit. -/
theorem Inv.quiet (h : Inv s) {tasks : List Session}
    (htasks : ∀ (i : ℕ) (t : Session), tasks[i]? = some t → t.IsServing → s.tasks[i]? = some t)
    (hrows : ∀ p, requestsOf sh.log p = requestsOf s.shared.log p)
    (hfair : ∀ t ∈ tasks, t.Fair sh) : Inv ⟨sh, tasks⟩ := by
  refine ⟨⟨fun p => ?_, ?_⟩, hfair⟩
  · rw [hrows]
    exact h.rows p
  · intro i j t t' a b hij hi hj hpeer ha hb
    exact h.sessions i j t t' a b hij (htasks i t hi ⟨a, ha⟩) (htasks j t' hj ⟨b, hb⟩) hpeer ha hb

theorem Inv.record (h : Inv s) {i : ℕ} {lastRequest : Option ℤ} {timestamp : ℤ}
    (hi : s.tasks[i]? = some t) (hstage : t.stage = .recording lastRequest timestamp)
    (hturn : getLastPeerRestoreRequest q s.shared.log t.peer = .ok lastRequest) :
    Inv ⟨{ s.shared with log := logPeerRestoreRequest s.shared.log timestamp t.peer },
      s.tasks.set i { t with stage := .serving timestamp }⟩ := by
  have hfar := far_of_inTurn (h.fair t (List.mem_of_getElem? hi)) hstage hturn
  -- whoever has got past the limit for this peer has a row
  have happ : ∀ (j : ℕ) (t' : Session) (b : ℤ), s.tasks[j]? = some t' → t'.peer = t.peer →
      t'.stage = .serving b → restoreThrottleDelay ≤ timestamp - b := by
    intro j t' b hj hpeer hb
    have hfair := h.fair t' (List.mem_of_getElem? hj)
    unfold Session.Fair at hfair
    rw [hb] at hfair
    obtain ⟨r, hr, rfl⟩ := hfair
    have hle := hfar r (hpeer ▸ hr)
    omega
  refine ⟨⟨fun p => ?_, ?_⟩, ?_⟩
  · rw [requestsOf_logPeerRestoreRequest]
    split
    · rename_i hp
      subst hp
      refine List.pairwise_append.mpr ⟨h.rows _, List.pairwise_singleton _ _, ?_⟩
      intro r hr r' hr'
      obtain rfl := List.mem_singleton.mp hr'
      have hle := hfar r hr
      rw [abs_sub_comm]
      exact le_trans (by simp only; omega) (le_abs_self _)
    · rw [List.append_nil]
      exact h.rows p
  · intro j k u u' a b hjk hj hk hpeer ha hb
    rcases Pool.getElem?_set_cases hj with ⟨rfl, rfl⟩ | ⟨-, hold⟩
    · rcases Pool.getElem?_set_cases hk with ⟨rfl, -⟩ | ⟨-, hold'⟩
      · exact absurd rfl hjk
      · obtain rfl := Stage.serving.inj ha
        exact (happ k u' b hold' hpeer.symm hb).trans (le_abs_self _)
    · rcases Pool.getElem?_set_cases hk with ⟨rfl, rfl⟩ | ⟨-, hold'⟩
      · obtain rfl := Stage.serving.inj hb
        rw [abs_sub_comm]
        exact (happ j u a hold hpeer ha).trans (le_abs_self _)
      · exact h.sessions j k u u' a b hjk hold hold' hpeer ha hb
  · have hgrow : ∀ p, requestsOf s.shared.log p ⊆
        requestsOf (logPeerRestoreRequest s.shared.log timestamp t.peer) p := by
      intro p
      rw [requestsOf_logPeerRestoreRequest]
      exact List.subset_append_left _ _
    refine Pool.forall_mem_set (fun u hu => (h.fair u hu).mono (le_refl _) hgrow) ?_
    refine ⟨⟨timestamp, EventType.restoreRequest.toId, restoreRequestEvent t.peer⟩, ?_, rfl⟩
    rw [requestsOf_logPeerRestoreRequest, if_pos rfl]
    exact List.mem_append_right _ (List.mem_singleton.mpr rfl)

theorem inv_step {a : Action} (h : Inv s) (hturn : InTurn q s a) (hst : step q s a = some s') :
    Inv s' := by
  cases a with
  | arrive peer =>
    obtain rfl := Option.some.inj hst
    refine h.quiet (fun i t hi hserving => ?_) (fun _ => rfl)
      (Pool.forall_mem_spawn h.fair (le_refl _))
    rcases Pool.getElem?_spawn_cases hi with hi | rfl
    · exact hi
    · obtain ⟨timestamp, hstage⟩ := hserving
      cases hstage
  | session i event =>
    obtain ⟨t, sh', t', hi, hf, rfl⟩ := Pool.advance_eq_some.mp hst
    rcases session_cases hf (h.fair t (List.mem_of_getElem? hi)) with
      ⟨rfl, hidle, hfair⟩ | ⟨lastRequest, timestamp, rfl, hstage, rfl, rfl⟩
    · refine h.quiet (fun j u hj hserving => ?_) (fun _ => rfl) (Pool.forall_mem_set h.fair hfair)
      rcases Pool.getElem?_set_cases hj with ⟨-, rfl⟩ | ⟨-, hj⟩
      · exact absurd hserving hidle
      · exact hj
    · refine h.record hi hstage (hturn t hi lastRequest ?_)
      rw [Session.read, hstage]
      rfl
  | wait seconds =>
    obtain rfl := Option.some.inj hst
    refine h.quiet (fun _ _ hi _ => hi) (fun _ => rfl) fun t ht => ?_
    exact (h.fair t ht).mono (by simp only; omega) fun _ => List.Subset.refl _
  | logBackup size path =>
    obtain rfl := Option.some.inj hst
    refine h.quiet (fun _ _ hi _ => hi) (fun _ => requestsOf_logBackup size path) fun t ht => ?_
    refine (h.fair t ht).mono (le_refl _) fun p => ?_
    rw [requestsOf_logBackup]
    exact List.Subset.refl _
  | restart =>
    obtain rfl := Option.some.inj hst
    exact h.quiet (fun i t hi _ => by simp at hi) (fun _ => rfl) (by simp)

/-- When every request is recorded in turn, the requests of a peer get past the limit far enough
apart, and a refused one came too early after another of its own peer. -/
theorem restore_throttled (h : Reach (step q) (InTurn q) start s) : Throttled s :=
  (h.invariant inv_start fun _ _ _ hinv hturn hst => inv_step hinv hturn hst).throttled

/-! ## 5. Two runs -/

/-- A session of the peer comes, and is through. -/
def oneSession (i : ℕ) (peer : ClientId) : List Action :=
  [.arrive peer, .session i (.query true), .session i .check, .session i .bind,
    .session i (.commit true)]

/-- Another request of the first peer half a minute later is refused, that of a second peer is
not, and a third of the first one after a minute is not. -/
theorem restore_throttled_peers : ∃ s, Reach (step firstLatest) (InTurn firstLatest) start s ∧
    s.tasks.map Session.stage = [.serving 0, .refused 30, .serving 30, .serving 60] ∧
    Throttled s := by
  have hrun : ∃ s, runWhen (step firstLatest) (fun s a => decide (InTurn firstLatest s a)) start
      (oneSession 0 (.fill 1) ++ [.wait 30, .arrive (.fill 1), .session 1 (.query true),
        .session 1 .check] ++ oneSession 2 (.fill 2) ++ [.wait 30] ++ oneSession 3 (.fill 1))
        = some s ∧
      s.tasks.map Session.stage = [.serving 0, .refused 30, .serving 30, .serving 60] := by
    decide +kernel
  obtain ⟨s, hs, hstages⟩ := hrun
  have hreach : Reach (step firstLatest) (InTurn firstLatest) start s :=
    reach_of_runWhen (fun _ _ hcheck => of_decide_eq_true hcheck) hs
  exact ⟨s, hreach, hstages, restore_throttled hreach⟩

/-- Two sessions of a peer look up its last request before either has recorded one, and both get
past the limit in the same second. -/
theorem both_get_past : ∃ s, run (step firstLatest) start
      [.arrive (.fill 1), .arrive (.fill 1), .session 0 (.query true), .session 1 (.query true),
        .session 0 .check, .session 1 .check, .session 0 .bind, .session 1 .bind,
        .session 0 (.commit true), .session 1 (.commit true)] = some s ∧
    s.tasks = [⟨.fill 1, 0, .serving 0⟩, ⟨.fill 1, 0, .serving 0⟩] ∧ ¬ Throttled s := by
  have hrun : ∃ s, run (step firstLatest) start
      [.arrive (.fill 1), .arrive (.fill 1), .session 0 (.query true), .session 1 (.query true),
        .session 0 .check, .session 1 .check, .session 0 .bind, .session 1 .bind,
        .session 0 (.commit true), .session 1 (.commit true)] = some s ∧
      s.tasks = [⟨.fill 1, 0, .serving 0⟩, ⟨.fill 1, 0, .serving 0⟩] := by
    decide +kernel
  obtain ⟨s, hs, htasks⟩ := hrun
  refine ⟨s, hs, htasks, fun h => ?_⟩
  have happart := h.sessions 0 1 ⟨.fill 1, 0, .serving 0⟩ ⟨.fill 1, 0, .serving 0⟩ 0 0 (by decide)
    (by rw [htasks]; rfl) (by rw [htasks]; rfl) rfl rfl rfl
  exact absurd happart (by decide)

end Backuwup.Client.RestoreThrottle
