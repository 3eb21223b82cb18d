/-
# What an answer tells a client (`handlers/login.rs`, `handlers/register.rs`)

A client that has been answered knows more than the answer says.  A nonce to log in with is only
given to a client that has a row in `clients`, a registration that succeeds has written this row,
and a token has been started for the client that asked for it (`begun_step`, `completed_step`).
Rows and sessions are not taken back, so what was answered stays true whatever is requested since.
-/
import Backuwup.Server.ClientAuth

namespace Backuwup.Server.Auth

open Transition
open Client (SignatureScheme)

variable {D : Type → Type → Type} [HashMapDelay D]

/-! ## 1. What is known of a request -/

/-- The server has started a session of the client with this token. -/
def Started (s : Shared D) (client : ClientId) (token : SessionToken) : Prop :=
  ∃ nonce time, .started client token nonce time ∈ s.log

/-- Where a begin request may be. -/
def BeginStage (endpoint : Endpoint) (client : ClientId) (s : Shared D) : Stage → Prop
  | .beginning e => e = endpoint
  | .checked e => e = endpoint ∧ (endpoint = .login → client ∈ s.clients)
  | .answered (.ok (.challenge _)) => endpoint = .login → client ∈ s.clients
  | .answered (.error _) => True
  | _ => False

/-- What a complete request has done when it is answered. -/
def Completed (endpoint : Endpoint) (client : ClientId) (s : Shared D) : Reply → Prop
  | .challenge _ => False
  | .ok => endpoint = .register ∧ client ∈ s.clients
  | .token token => endpoint = .login ∧ Started s client token

/-- Where a complete request may be. -/
def CompleteStage (endpoint : Endpoint) (client : ClientId) (s : Shared D) : Stage → Prop
  | .completing e _ => e = endpoint
  | .verified e _ => e = endpoint
  | .started token => endpoint = .login ∧ Started s client token
  | .answered (.ok reply) => Completed endpoint client s reply
  | .answered (.error _) => True
  | _ => False

/-- The `i`-th request is of the client, and where it may be. -/
def Requested (p : Shared D → Stage → Prop) (s : State D) (client : ClientId) (i : ℕ) : Prop :=
  ∃ stage, s.tasks[i]? = some ⟨client, stage⟩ ∧ p s.shared stage

/-! ## 2. What the steps keep -/

/-- Rows and sessions stay. -/
structure Retains (s s' : Shared D) : Prop where
  clients : s.clients ⊆ s'.clients
  log : s.log ⊆ s'.log

section

variable {V : SignatureScheme} {s s' : State D} {sh sh' : Shared D} {endpoint : Endpoint}
  {client : ClientId} {stage stage' : Stage} {i : ℕ}

omit [HashMapDelay D] in
theorem Retains.refl (sh : Shared D) : Retains sh sh := ⟨List.Subset.refl _, List.Subset.refl _⟩

omit [HashMapDelay D] in
theorem Retains.started (h : Retains sh sh') {token : SessionToken}
    (hst : Started sh client token) : Started sh' client token := by
  obtain ⟨nonce, time, hmem⟩ := hst
  exact ⟨nonce, time, h.log hmem⟩

theorem Handled.retains {event : Event} (h : Handled V client sh event stage sh' stage') :
    Retains sh sh' := by
  cases h with
  | answers | passes => exact .refl _
  | issues | verifies | starts => exact ⟨List.Subset.refl _, List.subset_cons_self _ _⟩
  | registers => exact ⟨List.subset_cons_self _ _, List.Subset.refl _⟩

theorem retains_step {a : Action} (h : step V s a = some s') : Retains s.shared s'.shared := by
  cases moved_of_step h with
  | arrives | refuses => exact .refl _
  | waits => exact ⟨List.Subset.refl _, List.Subset.refl _⟩
  | handles i event r sh stage hr hh => exact hh.retains
  | authorizes | signs => exact ⟨List.Subset.refl _, List.subset_cons_self _ _⟩

omit [HashMapDelay D] in
theorem BeginStage.mono (hk : Retains sh sh') (h : BeginStage endpoint client sh stage) :
    BeginStage endpoint client sh' stage := by
  cases stage with
  | checked e => exact ⟨h.1, fun he => hk.clients (h.2 he)⟩
  | answered answer =>
    cases answer with
    | error e => trivial
    | ok reply =>
      cases reply with
      | challenge nonce => exact fun he => hk.clients (h he)
      | _ => exact h
  | _ => exact h

omit [HashMapDelay D] in
theorem CompleteStage.mono (hk : Retains sh sh') (h : CompleteStage endpoint client sh stage) :
    CompleteStage endpoint client sh' stage := by
  cases stage with
  | started token => exact ⟨h.1, hk.started h.2⟩
  | answered answer =>
    cases answer with
    | error e => trivial
    | ok reply =>
      cases reply with
      | challenge nonce => exact h
      | ok => exact ⟨h.1, hk.clients h.2⟩
      | token token => exact ⟨h.1, hk.started h.2⟩
  | _ => exact h

/-- What the steps of the handlers do to their own request, with the answers that they give. -/
inductive Advanced (client : ClientId) (s : Shared D) : Stage → Shared D → Stage → Prop
  | fails (stage : Stage) (e : Error) : Advanced client s stage s (.answered (.error e))
  | passes (endpoint : Endpoint) : (endpoint = .login → client ∈ s.clients) →
      Advanced client s (.beginning endpoint) s (.checked endpoint)
  | issues (endpoint : Endpoint) (nonce : ChallengeNonce) (s' : Shared D) :
      s'.clients = s.clients →
      Advanced client s (.checked endpoint) s' (.answered (.ok (.challenge nonce)))
  | verifies (endpoint : Endpoint) (response : Bytes) (nonce : ChallengeNonce) (s' : Shared D) :
      Advanced client s (.completing endpoint response) s' (.verified endpoint nonce)
  | registers (nonce : ChallengeNonce) (s' : Shared D) : client ∈ s'.clients →
      Advanced client s (.verified .register nonce) s' (.answered (.ok .ok))
  | starts (nonce : ChallengeNonce) (token : SessionToken) (s' : Shared D) :
      Started s' client token → Advanced client s (.verified .login nonce) s' (.started token)
  | answers (token : SessionToken) :
      Advanced client s (.started token) s (.answered (.ok (.token token)))

theorem advanced_of_handleStep {event : Event} {r r' : Request}
    (h : handleStep V event sh r = some (sh', r')) :
    Advanced r.client sh r.stage sh' r'.stage := by
  obtain ⟨client, stage⟩ := r
  cases stage with
  | beginning endpoint =>
    cases event with
    | clientExists ok =>
      cases ok <;> cases endpoint <;> simp only [handleStep] at h
      · cases h
        exact .fails _ _
      · cases h
        exact .fails _ _
      · split at h
        · cases h
          exact .fails _ _
        · cases h
          exact .passes .register (by simp)
      · split at h
        · cases h
          exact .fails _ _
        · rename_i hmem
          cases h
          exact .passes .login fun _ => not_not.mp hmem
    | challengeBegin nonce | sessionStart nonce => cases nonce <;> simp [handleStep] at h
    | _ => simp [handleStep] at h
  | checked endpoint =>
    cases event with
    | challengeBegin nonce =>
      cases nonce with
      | none =>
        cases h
        exact .fails _ _
      | some nonce =>
        cases h
        exact .issues endpoint nonce _ rfl
    | clientExists ok | sessionStart ok => cases ok <;> simp [handleStep] at h
    | _ => simp [handleStep] at h
  | completing endpoint response =>
    cases event with
    | challengeVerify =>
      simp only [handleStep] at h
      split at h
      · cases h
        exact .fails _ _
      · cases h
        exact .verifies endpoint response _ _
    | clientExists ok | challengeBegin ok | sessionStart ok => cases ok <;> simp [handleStep] at h
    | _ => simp [handleStep] at h
  | verified endpoint nonce =>
    cases event with
    | registerClient ok =>
      cases endpoint with
      | register =>
        simp only [handleStep] at h
        split at h
        · cases h
          exact .registers nonce _ List.mem_cons_self
        · cases h
          exact .fails _ _
      | login => simp [handleStep] at h
    | sessionStart token =>
      cases endpoint with
      | register => cases token <;> simp [handleStep] at h
      | login =>
        cases token with
        | none =>
          cases h
          exact .fails _ _
        | some token =>
          cases h
          exact .starts nonce token _ ⟨nonce, _, List.mem_cons_self⟩
    | clientExists ok | challengeBegin ok => cases ok <;> simp [handleStep] at h
    | _ => simp [handleStep] at h
  | started token =>
    cases event with
    | clientUpdateLoggedIn ok =>
      simp only [handleStep] at h
      split at h
      · cases h
        exact .answers token
      · cases h
        exact .fails _ _
    | clientExists ok | challengeBegin ok | sessionStart ok => cases ok <;> simp [handleStep] at h
    | _ => simp [handleStep] at h
  | answered answer =>
    cases event with
    | clientExists ok | challengeBegin ok | sessionStart ok => cases ok <;> simp [handleStep] at h
    | _ => simp [handleStep] at h

omit [HashMapDelay D] in
theorem BeginStage.advanced (h : BeginStage endpoint client sh stage)
    (hst : Advanced client sh stage sh' stage') : BeginStage endpoint client sh' stage' := by
  cases hst with
  | fails => trivial
  | passes e he =>
    obtain rfl : e = endpoint := h
    exact ⟨rfl, he⟩
  | issues e nonce _ hclients =>
    intro he
    rw [hclients]
    exact h.2 he
  | verifies | registers | starts | answers => exact h.elim

omit [HashMapDelay D] in
theorem CompleteStage.advanced (h : CompleteStage endpoint client sh stage)
    (hst : Advanced client sh stage sh' stage') : CompleteStage endpoint client sh' stage' := by
  cases hst with
  | fails => trivial
  | verifies => exact h
  | registers nonce _ hmem => exact ⟨Eq.symm h, hmem⟩
  | starts nonce token _ hstarted => exact ⟨Eq.symm h, hstarted⟩
  | answers token => exact h
  | passes | issues => exact h.elim

/-- What is known of a request stays known, if the handler of the request keeps it. -/
theorem requested_step {p : Shared D → Stage → Prop} {a : Action}
    (hmono : ∀ sh sh' stage, Retains sh sh' → p sh stage → p sh' stage)
    (hhandle : ∀ event stage sh' r', a = .handle i event → s.tasks[i]? = some ⟨client, stage⟩ →
      p s.shared stage → handleStep V event s.shared ⟨client, stage⟩ = some (sh', r') →
      p sh' r'.stage)
    (hst : step V s a = some s') (h : Requested p s client i) : Requested p s' client i := by
  obtain ⟨stage, hi, hp⟩ := h
  have hlt : i < s.tasks.length := (List.getElem?_eq_some_iff.mp hi).1
  have hretains := retains_step hst
  have hsame : s'.tasks = s.tasks → Requested p s' client i := by
    intro htasks
    exact ⟨stage, htasks ▸ hi, hmono _ _ _ hretains hp⟩
  have harrives : ∀ r, s' = s.spawn r → Requested p s' client i := by
    rintro r rfl
    exact ⟨stage, by rw [Pool.spawn_tasks, List.getElem?_append_left hlt, hi], hp⟩
  cases a with
  | registerBegin c => exact harrives _ (Option.some.inj hst).symm
  | registerComplete c response => exact harrives _ (Option.some.inj hst).symm
  | loginBegin c => exact harrives _ (Option.some.inj hst).symm
  | loginComplete c response => exact harrives _ (Option.some.inj hst).symm
  | handle j event =>
    obtain ⟨r, sh, r', hr, hstep, rfl⟩ := Pool.advance_eq_some.mp hst
    by_cases hj : j = i
    · subst hj
      obtain rfl := Option.some.inj (hr.symm.trans hi)
      obtain ⟨hclient, -⟩ := handled_of_handleStep hstep
      have hstage := hhandle event stage sh r' rfl hi hp hstep
      obtain ⟨client', stage'⟩ := r'
      obtain rfl : client' = client := hclient
      exact ⟨stage', List.getElem?_set_self hlt, hstage⟩
    · exact ⟨stage, by rw [List.getElem?_set_ne hj, hi], hmono _ _ _ hretains hp⟩
  | getSession token =>
    refine hsame ?_
    simp only [step] at hst
    split at hst <;> cases hst <;> rfl
  | sign c nonce =>
    refine hsame ?_
    cases hst
    rfl
  | wait time =>
    refine hsame ?_
    cases hst
    rfl

/-- A begin request that was made stays one. -/
theorem begun_step {a : Action} (hst : step V s a = some s')
    (h : Requested (BeginStage endpoint client) s client i) :
    Requested (BeginStage endpoint client) s' client i :=
  requested_step (fun _ _ _ => .mono)
    (fun _ _ _ _ _ _ hp hstep => hp.advanced (advanced_of_handleStep hstep)) hst h

/-- So does a complete request. -/
theorem completed_step {a : Action} (hst : step V s a = some s')
    (h : Requested (CompleteStage endpoint client) s client i) :
    Requested (CompleteStage endpoint client) s' client i :=
  requested_step (fun _ _ _ => .mono)
    (fun _ _ _ _ _ _ hp hstep => hp.advanced (advanced_of_handleStep hstep)) hst h

end

end Backuwup.Server.Auth
