/-
# Whatever the server does, it does on behalf of a client that has proved itself

A session token is shown by whoever has it.  The snapshots, the messages to clients and the matches
of storage are attributed to the client that `get_session` returns, so behind each of them there is
a session that was started with a nonce which that client has signed (`effects_on_behalf`); for a
match this is true of both sides, although only one of the two requests is being handled.

To the challenges and sessions the whole server is what it is in `Challenges.lean`
(`follows_auth`), so that their invariant holds here.
-/
import Backuwup.Server.Answers

namespace Backuwup.Server.Endpoints

open Transition
open Auth (SessionToken)
open Client (SignatureScheme)

variable {D : Type → Type → Type} [HashMapDelay D]

variable {V : SignatureScheme} {s s' : State D} {client : ClientId} {log : List Auth.Entry}

/-! ## 1. Sessions -/

/-- Each token that is accepted belongs to a session that was started before, with a nonce that was
issued to the client and signed by it. -/
def Vouched : List Auth.Entry → Prop
  | [] => True
  | entry :: before => Vouched before ∧
    match entry with
    | .authorized token client _ => ∃ nonce time, .started client token nonce time ∈ before ∧
        .signed client nonce ∈ before ∧ ∃ endpoint time, .issued endpoint client nonce time ∈ before
    | _ => True

/-- Nonces are distinct, and a response that verifies has been signed. -/
def Genuine (V : SignatureScheme) (s : State D) : Action → Prop
  | .auth a => Auth.Ideal V s.auth a
  | _ => True

theorem vouched_cons {entry : Auth.Entry} (h : Vouched log)
    (hentry : ∀ token client time, entry ≠ .authorized token client time) :
    Vouched (entry :: log) := by
  refine ⟨h, ?_⟩
  cases entry with
  | authorized token client time => exact absurd rfl (hentry token client time)
  | _ => trivial

theorem vouched_step [LawfulHashMapDelay D] {x x' : Auth.State D} {a : Auth.Action}
    (hsound : Auth.Sound x)
    (h : Vouched x.shared.log) (hst : Auth.step V x a = some x') : Vouched x'.shared.log := by
  cases Auth.moved_of_step hst with
  | arrives a r harrives hchecked hverified => exact h
  | handles i event r sh stage hr hh =>
    obtain ⟨client, stage₀⟩ := r
    cases hh with
    | answers | passes | registers => exact h
    | issues | verifies | starts => exact vouched_cons h (by simp)
  | refuses token hnone => exact h
  | authorizes token client hsome =>
    refine ⟨h, ?_⟩
    obtain ⟨nonce, time, hsession⟩ := hsound.accounted.sessionOf_of_get hsome
    have hstarted := Auth.mem_of_sessionOf hsession
    obtain ⟨time', hverified⟩ := hsound.usedOnce.of_started hstarted
    obtain ⟨⟨endpoint, hissued⟩, hsigned⟩ := hsound.usedOnce.of_verified hverified
    obtain ⟨time'', hissued⟩ := Auth.mem_issuesOf.mp hissued
    exact ⟨nonce, time, hstarted, hsigned, endpoint, time'', hissued⟩
  | signs client nonce => exact vouched_cons h (by simp)
  | waits time => exact h

/-- To the challenges and sessions, a step of the server is one of their own or none. -/
theorem follows_auth {a : Action} (hok : Genuine V s a) (hst : step V s a = some s') :
    Follows (Auth.step V) (Auth.Ideal V) s.auth s'.auth := by
  cases moved_of_step hst with
  | auths a auth ha => exact .of_step hok ha
  | enters token body client auth hsome ha => exact .of_step (b := .getSession token) trivial ha
  | fulfills | refuses | handles => exact .refl _

/-! ## 2. Storage requests -/

/-- The requests that a call has taken from the queue or will put there. -/
def Phase.requests : Phase → List Request
  | .notifyingDestination d _ | .notifyingRequester d _ | .savingRequester d _
  | .savingDestination d _ => [d]
  | .pushingDestination r | .pushingRequest r => [r]
  | .popping | .returned _ => []

/-- The ends of the messages and rows have asked for storage. -/
structure AskedLedger (asked : ClientId → Prop) (l : Ledger) : Prop where
  delivered : ∀ n ∈ l.delivered, asked n.1 ∧ asked n.2.destinationId
  peerBackups : ∀ row ∈ l.peerBackups, asked row.source ∧ asked row.destination

/-- Everybody that the call has to do with has asked for storage. -/
def AskedCall (asked : ClientId → Prop) (call : Call) : Prop :=
  asked call.request.clientId ∧ ∀ r ∈ Phase.requests call.phase, asked r.clientId

/-- The same for the queue and all calls. -/
structure Asked (asked : ClientId → Prop) (m : Matching) : Prop where
  queue : ∀ r ∈ m.shared.queue, asked r.clientId
  ledger : AskedLedger asked m.shared.ledger
  calls : ∀ call ∈ m.tasks, AskedCall asked call

section

variable {asked asked' : ClientId → Prop}

theorem AskedLedger.deliver {l : Ledger} (h : AskedLedger asked l) {message : BackupMatched}
    (hclient : asked client) (hmessage : asked message.destinationId) :
    AskedLedger asked (l.deliver client message) where
  delivered n hn := by
    rcases List.mem_append.mp hn with hn | hn
    · exact h.delivered n hn
    · obtain rfl := List.mem_singleton.mp hn
      exact ⟨hclient, hmessage⟩
  peerBackups := h.peerBackups

theorem AskedLedger.insert {l : Ledger} (h : AskedLedger asked l) {row : PeerBackup}
    (hsource : asked row.source) (hdestination : asked row.destination) :
    AskedLedger asked (l.insert row) where
  delivered := h.delivered
  peerBackups r hr := by
    rcases List.mem_append.mp hr with hr | hr
    · exact h.peerBackups r hr
    · obtain rfl := List.mem_singleton.mp hr
      exact ⟨hsource, hdestination⟩

/-- What comes after a match is about the same two clients. -/
theorem askedCall_compare {call : Call} {d : Request} (hcall : asked call.request.clientId)
    (hd : asked d.clientId) (m : ℕ) : AskedCall asked (call.compare d m) := by
  refine ⟨compare_request call d m ▸ hcall, ?_⟩
  simp only [Call.compare]
  repeat' split
  all_goals simp [Phase.requests, hd]

theorem asked_advance {sh sh' : Shared} {call call' : Call} {outcome : Except Server.Error Unit}
    (hqueue : ∀ r ∈ sh.queue, asked r.clientId) (hledger : AskedLedger asked sh.ledger)
    (hcall : AskedCall asked call) (hst : call.advance outcome sh = some (sh', call')) :
    (∀ r ∈ sh'.queue, asked r.clientId) ∧ AskedLedger asked sh'.ledger ∧
      AskedCall asked call' := by
  obtain ⟨hown, hphase⟩ := hcall
  unfold Call.advance at hst
  split at hst
  · split at hst
    · split at hst <;> cases hst
      · exact ⟨hqueue, hledger, hown, by simp [Phase.requests]⟩
      · exact ⟨hqueue, hledger, hown, by simpa [Phase.requests] using hown⟩
    · rename_i d queue hq
      have hrest : ∀ r ∈ queue, asked r.clientId := fun r hr =>
        hqueue r (hq ▸ List.mem_cons_of_mem _ hr)
      have hd : asked d.clientId := hqueue d (hq ▸ List.mem_cons_self)
      split at hst
      · cases hst
        exact ⟨hrest, hledger, hown, hphase⟩
      · split at hst <;> cases hst
        · exact ⟨hrest, hledger, hown, by simp [Phase.requests]⟩
        · exact ⟨hrest, hledger, hown, by simpa [Phase.requests] using hd⟩
  · rename_i d m hp
    have hd : asked d.clientId := hphase d (by simp [hp, Phase.requests])
    cases outcome with
    | ok _ =>
      cases hst
      exact ⟨hqueue, hledger.deliver hd hown, hown, by simpa [Phase.requests] using hd⟩
    | error e =>
      cases hst
      exact ⟨hqueue, hledger, hown, by simp [Phase.requests]⟩
  · rename_i d m hp
    have hd : asked d.clientId := hphase d (by simp [hp, Phase.requests])
    cases outcome with
    | ok _ =>
      cases hst
      exact ⟨hqueue, hledger.deliver hown hd, hown, by simpa [Phase.requests] using hd⟩
    | error e =>
      cases hst
      exact ⟨hqueue, hledger, hown, by simp [Phase.requests]⟩
  · rename_i d m hp
    have hd : asked d.clientId := hphase d (by simp [hp, Phase.requests])
    split at hst
    · cases hst
      exact ⟨hqueue, hledger, hown, by simp [Phase.requests]⟩
    · cases outcome with
      | ok _ =>
        cases hst
        exact ⟨hqueue, hledger.insert hown hd, hown, by simpa [Phase.requests] using hd⟩
      | error e =>
        cases hst
        exact ⟨hqueue, hledger, hown, by simp [Phase.requests]⟩
  · rename_i d m hp
    have hd : asked d.clientId := hphase d (by simp [hp, Phase.requests])
    split at hst
    · cases hst
      exact ⟨hqueue, hledger, hown, by simp [Phase.requests]⟩
    · cases outcome with
      | ok _ =>
        cases hst
        exact ⟨hqueue, hledger.insert hd hown, askedCall_compare hown hd m⟩
      | error e =>
        cases hst
        exact ⟨hqueue, hledger, hown, by simp [Phase.requests]⟩
  all_goals first
    | cases hst; done
    | rename_i r hp
      have hr : asked r.clientId := hphase r (by simp [hp, Phase.requests])
      cases hst
      refine ⟨?_, hledger, hown, by simp [Phase.requests]⟩
      intro r' hr'
      rcases List.mem_append.mp hr' with hr' | hr'
      · exact hqueue r' hr'
      · exact List.mem_singleton.mp hr' ▸ hr

/-- A request brings in its client; nobody else is ever matched. -/
theorem asked_step {m m' : Matching} {a : Server.Action} (h : Asked asked m)
    (ha : ∀ r, a = .request r → asked r.clientId) (hst : matchingStep m a = some m') :
    Asked asked m' := by
  cases a with
  | request r =>
    cases hst
    refine ⟨h.queue, h.ledger, Pool.forall_mem_spawn h.calls ⟨?_, ?_⟩⟩
    · rw [start_request]
      exact ha r rfl
    · simp only [Call.start]
      repeat' split
      all_goals simp [Phase.requests]
  | advance i outcome =>
    obtain ⟨call, sh, call', hi, hadvance, rfl⟩ := Pool.advance_eq_some.mp hst
    obtain ⟨hqueue, hledger, hcall⟩ :=
      asked_advance h.queue h.ledger (h.calls call (List.mem_of_getElem? hi)) hadvance
    exact ⟨hqueue, hledger, Pool.forall_mem_set h.calls hcall⟩
  | expire =>
    simp only [matchingStep] at hst
    split at hst
    · cases hst
    · rename_i r queue hq
      cases hst
      exact ⟨fun x hx => h.queue x (hq ▸ List.mem_cons_of_mem _ hx), h.ledger, h.calls⟩

theorem Asked.mono (hasked : ∀ client, asked client → asked' client) {m : Matching}
    (h : Asked asked m) : Asked asked' m where
  queue r hr := hasked _ (h.queue r hr)
  ledger := ⟨fun n hn => ⟨hasked _ (h.ledger.delivered n hn).1,
      hasked _ (h.ledger.delivered n hn).2⟩,
    fun row hrow => ⟨hasked _ (h.ledger.peerBackups row hrow).1,
      hasked _ (h.ledger.peerBackups row hrow).2⟩⟩
  calls call hcall := ⟨hasked _ (h.calls call hcall).1,
    fun r hr => hasked _ ((h.calls call hcall).2 r hr)⟩

end

/-! ## 3. Every run -/

/-- A token of the client has been accepted. -/
def Authorized (log : List Auth.Entry) (client : ClientId) : Prop :=
  ∃ token time, .authorized token client time ∈ log

/-- Behind all that is there of a client, there is a session of its own. -/
structure OnBehalf (s : State D) : Prop where
  log : Vouched s.auth.shared.log
  snapshots : ∀ row ∈ s.snapshots, Authorized s.auth.shared.log row.clientPubkey
  notified : ∀ n ∈ s.notified, Authorized s.auth.shared.log n.2.sender
  matching : Asked (Authorized s.auth.shared.log) s.matching
  tasks : ∀ t ∈ s.tasks, ∀ client ∈ t.client, Authorized s.auth.shared.log client

/-- The log only grows. -/
theorem log_step {x x' : Auth.State D} {a : Auth.Action} (h : Auth.step V x a = some x') :
    x.shared.log ⊆ x'.shared.log := by
  cases Auth.moved_of_step h with
  | handles i event r sh stage hr hh =>
    obtain ⟨client, stage₀⟩ := r
    cases hh with
    | answers | passes | registers => exact List.Subset.refl _
    | issues | verifies | starts => exact List.subset_cons_self _ _
  | authorizes | signs => exact List.subset_cons_self _ _
  | _ => exact List.Subset.refl _

theorem Authorized.mono {log' : List Auth.Entry} (hlog : log ⊆ log')
    (h : Authorized log client) : Authorized log' client := by
  obtain ⟨token, time, hmem⟩ := h
  exact ⟨token, time, hlog hmem⟩

theorem onBehalf_start (clients : List ClientId) : OnBehalf (start D clients) where
  log := trivial
  snapshots := by simp [start]
  notified := by simp [start]
  matching := ⟨by simp [start, emptyQueue], ⟨by simp [start, emptyQueue],
    by simp [start, emptyQueue]⟩, by simp [start, emptyQueue]⟩
  tasks := by simp [start]

omit [HashMapDelay D] in
/-- The message that a step of a handler sends is on behalf of its client. -/
theorem new_notified {stage stage' : Stage} {before : List Snapshot} {body : Body}
    {snapshots : List Snapshot} {notified : List (ClientId × ServerMessageWs)}
    (hleads : Leads s client before body stage)
    (h : Handled s client stage snapshots notified stage') :
    ∀ n ∈ notified, n ∈ s.notified ∨ n.2.sender = client := by
  intro n hn
  cases h with
  | notifies other message =>
    rcases List.mem_append.mp hn with hn | hn
    · exact Or.inl hn
    · obtain rfl := List.mem_singleton.mp hn
      rcases hleads with ⟨nonce, -, rfl⟩ | ⟨address, -, -, rfl⟩ <;> exact Or.inr rfl
  | _ => exact Or.inl hn

theorem onBehalf_step [LawfulHashMapDelay D] {a : Action} (hsound : Auth.Sound s.auth)
    (hin : InOrder s) (h : OnBehalf s) (hst : step V s a = some s') : OnBehalf s' := by
  cases moved_of_step hst with
  | auths a auth ha =>
    have hmono : ∀ client, Authorized s.auth.shared.log client →
        Authorized auth.shared.log client := fun _ => .mono (log_step ha)
    exact {
      log := vouched_step hsound h.log ha
      snapshots := fun row hrow => hmono _ (h.snapshots row hrow)
      notified := fun n hn => hmono _ (h.notified n hn)
      matching := h.matching.mono hmono
      tasks := fun t ht client hclient => hmono _ (h.tasks t ht client hclient) }
  | fulfills a matching hne hm =>
    exact { h with matching := asked_step h.matching (fun r hr => absurd hr (hne r)) hm }
  | refuses token body hnone =>
    exact { h with tasks := Pool.forall_mem_spawn h.tasks (by simp) }
  | enters token body client auth hsome ha =>
    have hmono : ∀ client, Authorized s.auth.shared.log client →
        Authorized auth.shared.log client := fun _ => .mono (log_step ha)
    have hclient : Authorized auth.shared.log client := by
      simp only [Auth.step, hsome, Option.some.injEq] at ha
      subst ha
      exact ⟨token, _, List.mem_cons_self⟩
    refine ⟨vouched_step hsound h.log ha, fun row hrow => hmono _ (h.snapshots row hrow),
      fun n hn => hmono _ (h.notified n hn), ?_, ?_⟩
    · cases body with
      | makeBackupRequest n =>
        refine asked_step (a := .request ⟨n, client⟩) (h.matching.mono hmono) ?_ rfl
        rintro r hr
        cases hr
        exact hclient
      | _ => exact h.matching.mono hmono
    · refine Pool.forall_mem_spawn (fun t ht c hc => hmono _ (h.tasks t ht c hc)) ?_
      rintro c hc
      cases hc
      exact hclient
  | handles i event t client snapshots notified stage ht hclient hh =>
    have hmem : t ∈ s.tasks := List.mem_of_getElem? ht
    have hauthorized : Authorized s.auth.shared.log client := h.tasks t hmem client hclient
    have hproper := hin.tasks t hmem
    simp only [Task.Proper, hclient] at hproper
    refine ⟨h.log, ?_, ?_, h.matching, Pool.forall_mem_set h.tasks (h.tasks t hmem)⟩
    · intro row hrow
      rcases new_snapshot hh row hrow with hold | ⟨hrow, -⟩
      · exact h.snapshots row hold
      · exact hrow ▸ hauthorized
    · intro n hn
      rcases new_notified hproper hh n hn with hold | hsender
      · exact h.notified n hold
      · exact hsender ▸ hauthorized

/-- In every run of the server, whoever shows which tokens, the snapshots, the messages and both
sides of every match are on behalf of clients whose session was started with a nonce that they have
signed. -/
theorem effects_on_behalf [LawfulHashMapDelay D] {clients : List ClientId}
    (h : Reach (step V) (Genuine V) (start D clients) s) : OnBehalf s := by
  obtain ⟨-, -, hbehalf⟩ := h.invariant
    (I := fun s => Auth.Sound s.auth ∧ InOrder s ∧ OnBehalf s)
    ⟨Auth.sound_start clients, inOrder_start clients, onBehalf_start clients⟩ <| by
      rintro s a s' ⟨hsound, hin, hbehalf⟩ hok hst
      exact ⟨(follows_auth hok hst).keeps hsound fun _ _ _ => Auth.sound_step,
        inOrder_step hin hst, onBehalf_step hsound hin hbehalf hst⟩
  exact hbehalf

/-- `Genuine` for the stand-in, evaluated. -/
def genuine (s : State D) : Action → Bool
  | .auth a => Auth.ideal s.auth a
  | _ => true

omit [HashMapDelay D] in
theorem genuine_ok (s : State D) (a : Action) (h : genuine s a = true) :
    Genuine Auth.stampScheme s a := by
  cases a with
  | auth a => exact Auth.ideal_ok s.auth a h
  | _ => trivial

theorem effects_on_behalf_alice : ∃ s : State DelayMap,
    s.snapshots.map Snapshot.clientPubkey = [alice] ∧ OnBehalf s := by
  obtain ⟨s, hrun, hs⟩ : ∃ s, runWhen (step Auth.stampScheme) genuine (start DelayMap [alice, bob])
      aliceRestores = some s ∧ s.snapshots.map Snapshot.clientPubkey = [alice] := by
    have hrun : (runWhen (step Auth.stampScheme) genuine (start DelayMap [alice, bob])
        aliceRestores).any
        (fun s => decide (s.snapshots.map Snapshot.clientPubkey = [alice])) = true := by
      decide +kernel
    obtain ⟨s, hs, hclients⟩ := (Option.any_eq_true _ _).mp hrun
    exact ⟨s, hs, of_decide_eq_true hclients⟩
  exact ⟨s, hs, effects_on_behalf (reach_of_runWhen genuine_ok hrun)⟩

end Backuwup.Server.Endpoints
