/-
# Challenges are used once (`server/src/client_auth_manager.rs`)

Registration and login consume nonces from one map, in which a client has at most one.  A nonce that
is issued while there is one for the client is not remembered, an attempt that fails leaves the
nonce where it is, and a success removes it.  An attacker submits any client id and any response, of
which it can replay those it has seen.

If nonces are drawn distinct and a response that verifies has been signed by the client, then every
success consumes a nonce that was issued to its client and that nobody has consumed before, and
every session has a nonce and a signature of its own.  It is the latest nonce of the client if and
only if no other has been issued to it since its last success (`challenges_sound_iff`): of two
nonces the second is refused (`first_nonce_consumed`).  The log is read from its latest entry
backwards: `UsedOnce` and `Latest` compare each entry with those before it.
-/
import Backuwup.Server.ClientAuth
import Mathlib.Data.List.Perm.Subperm

namespace Backuwup.Server.Auth

open Transition
open Client (SignatureScheme)

variable {D : Type → Type → Type} [HashMapDelay D]

/-! ## 1. The property -/

/-- Every entry is in order with those before it.  A nonce that is consumed was issued to its
client, has been signed by it, and has not been consumed before.  A session is started with a nonce
that its client has signed, and that has been consumed for it alone. -/
def UsedOnce : List Entry → Prop
  | [] => True
  | entry :: before => UsedOnce before ∧
    match entry with
    | .verified client nonce _ => (∃ endpoint, (endpoint, nonce) ∈ issuesOf client before) ∧
        .signed client nonce ∈ before ∧ ∀ client' time, .verified client' nonce time ∉ before
    | .started client _ nonce _ =>
      .signed client nonce ∈ before ∧ (∃ time, .verified client nonce time ∈ before) ∧
        ∀ client' token time, .started client' token nonce time ∉ before
    | _ => True

/-- A nonce that is consumed is the latest one that was issued to its client. -/
def Latest : List Entry → Prop
  | [] => True
  | entry :: before => Latest before ∧
    match entry with
    | .verified client nonce _ =>
      ∃ endpoint, (issuesOf client before).head? = some (endpoint, nonce)
    | _ => True

/-- Nonces are used once, the latest first, and then gone from the map, every session was started
with one, and no client has had more successes than nonces. -/
structure ChallengesSound (s : State D) : Prop where
  usedOnce : UsedOnce s.shared.log
  latest : Latest s.shared.log
  gone : ∀ client nonce client' time, .verified client nonce time ∈ s.shared.log →
    HashMapDelay.get s.shared.auth.challenges client' ≠ some nonce
  sessions : ∀ token client, s.shared.auth.getSession token = some client →
    ∃ nonce time, .started client token nonce time ∈ s.shared.log
  counted : ∀ client,
    (verifiedOf client s.shared.log).length ≤ (issuesOf client s.shared.log).length

/-- The nonces are distinct, and a response that verifies has been signed by its client. -/
def Ideal (V : SignatureScheme) (s : State D) : Action → Prop
  | .handle _ (.challengeBegin (some nonce)) =>
    ∀ endpoint client time, .issued endpoint client nonce time ∉ s.shared.log
  | .handle i .challengeVerify => ∀ client endpoint response nonce,
      s.tasks[i]? = some ⟨client, .completing endpoint response⟩ →
      V.verify client nonce.bytes response = true → .signed client nonce ∈ s.shared.log
  | _ => True

/-- The nonces that have been issued to the client since its last success, the latest first. -/
def issuedSince (client : ClientId) : List Entry → List (Endpoint × ChallengeNonce)
  | [] => []
  | .issued endpoint client' nonce _ :: before =>
    if client' = client then (endpoint, nonce) :: issuedSince client before
    else issuedSince client before
  | .verified client' _ _ :: before => if client' = client then [] else issuedSince client before
  | .signed _ _ :: before | .started _ _ _ _ :: before | .authorized _ _ _ :: before =>
    issuedSince client before

/-- A client that answers its nonce has been issued no other since its last success. -/
def OnlyOne (V : SignatureScheme) (s : State D) : Action → Prop
  | .handle i .challengeVerify => ∀ client asked response endpoint nonce time,
      s.tasks[i]? = some ⟨client, .completing asked response⟩ →
      pending client s.shared.log = some (endpoint, nonce, time) →
      V.verify client nonce.bytes response = true → (issuedSince client s.shared.log).length = 1
  | _ => True

/-! ## 2. What the log says -/

section

variable {V : SignatureScheme} {s s' : State D} {client : ClientId} {nonce : ChallengeNonce}
  {log : List Entry}

/-- A nonce that has been consumed was issued to its client and signed by it. -/
theorem UsedOnce.of_verified (h : UsedOnce log) {time : ℕ}
    (hmem : .verified client nonce time ∈ log) :
    (∃ endpoint, (endpoint, nonce) ∈ issuesOf client log) ∧ .signed client nonce ∈ log := by
  induction log with
  | nil => cases hmem
  | cons entry before ih =>
    obtain ⟨hbefore, hentry⟩ := h
    rcases List.mem_cons.mp hmem with rfl | hmem
    · obtain ⟨hissued, hsigned, -⟩ := hentry
      rw [issuesOf_verified]
      exact ⟨hissued, List.mem_cons_of_mem _ hsigned⟩
    · obtain ⟨⟨endpoint, hissued⟩, hsigned⟩ := ih hbefore hmem
      obtain ⟨time, htime⟩ := mem_issuesOf.mp hissued
      exact ⟨⟨endpoint, mem_issuesOf.mpr ⟨time, List.mem_cons_of_mem _ htime⟩⟩,
        List.mem_cons_of_mem _ hsigned⟩

/-- A nonce that started a session has been consumed. -/
theorem UsedOnce.of_started (h : UsedOnce log) {token : SessionToken} {time : ℕ}
    (hmem : .started client token nonce time ∈ log) :
    ∃ time, .verified client nonce time ∈ log := by
  induction log with
  | nil => cases hmem
  | cons entry before ih =>
    obtain ⟨hbefore, hentry⟩ := h
    rcases List.mem_cons.mp hmem with rfl | hmem
    · obtain ⟨-, ⟨time, htime⟩, -⟩ := hentry
      exact ⟨time, List.mem_cons_of_mem _ htime⟩
    · obtain ⟨time, htime⟩ := ih hbefore hmem
      exact ⟨time, List.mem_cons_of_mem _ htime⟩

/-- No nonce is consumed twice. -/
theorem UsedOnce.verifiedOf_nodup (h : UsedOnce log) (client : ClientId) :
    (verifiedOf client log).Nodup := by
  induction log with
  | nil => exact List.nodup_nil
  | cons entry before ih =>
    obtain ⟨hbefore, hentry⟩ := h
    cases entry with
    | verified client' nonce time =>
      rw [verifiedOf_verified]
      split
      · refine List.nodup_cons.mpr ⟨?_, ih hbefore⟩
        intro hmem
        obtain ⟨time', htime⟩ := mem_verifiedOf.mp hmem
        exact hentry.2.2 _ _ htime
      · exact ih hbefore
    | _ => exact ih hbefore

/-- A client has not had more successes than nonces. -/
theorem UsedOnce.counted (h : UsedOnce log) (client : ClientId) :
    (verifiedOf client log).length ≤ (issuesOf client log).length := by
  have hsub : verifiedOf client log ⊆ (issuesOf client log).map Prod.snd := by
    intro nonce hnonce
    obtain ⟨time, htime⟩ := mem_verifiedOf.mp hnonce
    obtain ⟨endpoint, hmem⟩ := (h.of_verified htime).1
    exact List.mem_map.mpr ⟨_, hmem, rfl⟩
  have hle := (List.subperm_of_subset (h.verifiedOf_nodup client) hsub).length_le
  rwa [List.length_map] at hle

/-- The nonces since the last success are the latest ones. -/
theorem issuedSince_prefix (client : ClientId) (log : List Entry) :
    issuedSince client log <+: issuesOf client log := by
  induction log with
  | nil => exact List.prefix_rfl
  | cons entry before ih =>
    cases entry with
    | issued endpoint client' nonce time =>
      rw [issuedSince, issuesOf_issued]
      split
      · exact List.prefix_cons_inj _ |>.mpr ih
      · exact ih
    | verified client' nonce time =>
      rw [issuedSince, issuesOf_verified]
      split
      · exact List.nil_prefix
      · exact ih
    | _ => exact ih

/-- The pending nonce is the first of them. -/
theorem getLast?_issuedSince (client : ClientId) (log : List Entry) :
    (issuedSince client log).getLast? = (pending client log).map fun b => (b.1, b.2.1) := by
  induction log with
  | nil => rfl
  | cons entry before ih =>
    cases entry with
    | issued endpoint client' nonce time =>
      rw [issuedSince, pending_issued]
      split
      · rw [List.getLast?_cons, ih]
        cases pending client before <;> rfl
      · exact ih
    | verified client' nonce time =>
      rw [issuedSince, pending_verified]
      split
      · rfl
      · exact ih
    | _ => exact ih

/-- Of distinct nonces the pending one is the latest exactly if it is the only one since the last
success. -/
theorem pending_latest_iff {endpoint : Endpoint} {time : ℕ}
    (hnodup : ((issuesOf client log).map Prod.snd).Nodup)
    (hpending : pending client log = some (endpoint, nonce, time)) :
    (∃ endpoint, (issuesOf client log).head? = some (endpoint, nonce)) ↔
      (issuedSince client log).length = 1 := by
  have hlast : (issuedSince client log).getLast? = some (endpoint, nonce) := by
    rw [getLast?_issuedSince, hpending]
    rfl
  obtain ⟨rest, hrest⟩ := issuedSince_prefix client log
  cases hsince : issuedSince client log with
  | nil =>
    rw [hsince] at hlast
    cases hlast
  | cons first others =>
    rw [hsince] at hlast hrest
    rw [← hrest] at hnodup ⊢
    simp only [List.cons_append, List.head?_cons, Option.some.injEq, List.length_cons,
      Nat.add_eq_right, List.length_eq_zero_iff]
    constructor
    · rintro ⟨endpoint', rfl⟩
      by_contra hne
      have hmem : (endpoint, nonce) ∈ others := by
        rw [List.getLast?_cons_of_ne_nil hne] at hlast
        exact List.mem_of_getLast? hlast
      rw [List.cons_append, List.map_cons, List.nodup_cons] at hnodup
      exact hnodup.1 (List.mem_map.mpr ⟨_, List.mem_append_left _ hmem, rfl⟩)
    · rintro rfl
      rw [List.getLast?_singleton, Option.some.injEq] at hlast
      exact ⟨endpoint, hlast⟩

/-! ## 3. The invariant -/

/-- The nonce of a request that has consumed one. -/
def Stage.consumed : Stage → Option ChallengeNonce
  | .verified _ nonce => some nonce
  | _ => none

/-- The nonces in the map can still be consumed, and those that requests have consumed have not
started a session yet and are different. -/
structure Sound (s : State D) : Prop where
  accounted : Accounted s.shared
  usedOnce : UsedOnce s.shared.log
  issuedOnce : ∀ client, ((issuesOf client s.shared.log).map Prod.snd).Nodup
  owner : ∀ client client' endpoint endpoint' nonce,
    (endpoint, nonce) ∈ issuesOf client s.shared.log →
    (endpoint', nonce) ∈ issuesOf client' s.shared.log → client = client'
  unused : ∀ client endpoint nonce time,
    pending client s.shared.log = some (endpoint, nonce, time) →
    ∀ client' time', .verified client' nonce time' ∉ s.shared.log
  requests : ∀ r ∈ s.tasks, ∀ nonce, r.stage.consumed = some nonce →
    (∃ time, .verified r.client nonce time ∈ s.shared.log) ∧
      ∀ client token time, .started client token nonce time ∉ s.shared.log
  distinct : ∀ (i j : ℕ) (r r' : Request) (nonce : ChallengeNonce), s.tasks[i]? = some r →
    s.tasks[j]? = some r' → r.stage.consumed = some nonce → r'.stage.consumed = some nonce → i = j

theorem sound_start [LawfulHashMapDelay D] (clients : List ClientId) :
    Sound (start D clients) where
  accounted := accounted_start clients
  usedOnce := trivial
  issuedOnce _ := List.nodup_nil
  owner _ _ _ _ _ h := by simp [issuesOf, start] at h
  unused _ _ _ _ h := by simp [start] at h
  requests _ h := by simp [start] at h
  distinct _ _ _ _ _ h := by simp [start] at h

variable {i : ℕ} {r : Request} {endpoint : Endpoint} {token : SessionToken}

/-- A nonce that has been consumed was issued. -/
theorem Sound.issued_of_verified (h : Sound s) {time : ℕ}
    (hmem : .verified client nonce time ∈ s.shared.log) :
    ∃ endpoint time, .issued endpoint client nonce time ∈ s.shared.log := by
  obtain ⟨endpoint, hissued⟩ := (h.usedOnce.of_verified hmem).1
  exact ⟨endpoint, mem_issuesOf.mp hissued⟩

/-- A request goes on without a nonce. -/
theorem Sound.setStage (h : Sound s) {stage : Stage} (hnone : stage.consumed = none) :
    Sound ⟨s.shared, s.tasks.set i ⟨client, stage⟩⟩ := by
  have hold : ∀ (j : ℕ) (r : Request) (nonce : ChallengeNonce),
      (s.tasks.set i ⟨client, stage⟩)[j]? = some r → r.stage.consumed = some nonce →
        s.tasks[j]? = some r := by
    intro j r nonce hj hr
    rcases Pool.getElem?_set_cases hj with ⟨-, rfl⟩ | ⟨-, hj⟩
    · exact absurd (hnone.symm.trans hr) (by simp)
    · exact hj
  refine { h with
    requests := Pool.forall_mem_set h.requests ?_
    distinct := ?_ }
  · intro nonce hnonce
    exact absurd (hnone.symm.trans hnonce) (by simp)
  · intro j k r r' nonce hj hk hr hr'
    exact h.distinct j k r r' nonce (hold j r nonce hj hr) (hold k r' nonce hk hr') hr hr'

/-- A request arrives. -/
theorem Sound.spawn (h : Sound s) (hnone : r.stage.consumed = none) : Sound (s.spawn r) := by
  have hold : ∀ (j : ℕ) (r' : Request) (nonce : ChallengeNonce),
      (s.tasks ++ [r])[j]? = some r' → r'.stage.consumed = some nonce →
        s.tasks[j]? = some r' := by
    intro j r' nonce hj hr'
    rw [List.getElem?_append] at hj
    split at hj
    · exact hj
    · rw [List.mem_singleton.mp (List.mem_of_getElem? hj), hnone] at hr'
      cases hr'
  refine { h with
    requests := Pool.forall_mem_spawn h.requests ?_
    distinct := ?_ }
  · intro nonce hnonce
    exact absurd (hnone.symm.trans hnonce) (by simp)
  · intro j k r₁ r₂ nonce hj hk h₁ h₂
    exact h.distinct j k r₁ r₂ nonce (hold j r₁ nonce hj h₁) (hold k r₂ nonce hk h₂) h₁ h₂

/-- The log gets an entry that says nothing about a nonce. -/
theorem Sound.note (h : Sound s) {entry : Entry}
    (hissues : ∀ client, issuesOf client (entry :: s.shared.log) = issuesOf client s.shared.log)
    (hpending : ∀ client, pending client (entry :: s.shared.log) = pending client s.shared.log)
    (hverified : ∀ client nonce time, entry ≠ .verified client nonce time)
    (hstarted : ∀ client token nonce time, entry ≠ .started client token nonce time)
    (haccounted : Accounted { s.shared with log := entry :: s.shared.log }) :
    Sound { s with shared := { s.shared with log := entry :: s.shared.log } } where
  accounted := haccounted
  usedOnce := by
    refine ⟨h.usedOnce, ?_⟩
    cases entry with
    | verified client nonce time => exact absurd rfl (hverified client nonce time)
    | started client token nonce time => exact absurd rfl (hstarted client token nonce time)
    | _ => trivial
  issuedOnce client := by
    rw [hissues]
    exact h.issuedOnce client
  owner client client' endpoint endpoint' nonce hmem hmem' := by
    rw [hissues] at hmem hmem'
    exact h.owner client client' endpoint endpoint' nonce hmem hmem'
  unused client endpoint nonce time hget client' time' hmem := by
    rw [hpending] at hget
    rcases List.mem_cons.mp hmem with heq | hmem
    · exact hverified _ _ _ heq.symm
    · exact h.unused client endpoint nonce time hget client' time' hmem
  requests r hr nonce hnonce := by
    obtain ⟨⟨time, htime⟩, hnot⟩ := h.requests r hr nonce hnonce
    refine ⟨⟨time, List.mem_cons_of_mem _ htime⟩, ?_⟩
    intro client token time hmem
    rcases List.mem_cons.mp hmem with heq | hmem
    · exact hstarted _ _ _ _ heq.symm
    · exact hnot client token time hmem
  distinct := h.distinct

/-- A nonce that has not been issued before is issued. -/
theorem Sound.issue [LawfulHashMapDelay D] (h : Sound s)
    (hfresh : ∀ endpoint client time, .issued endpoint client nonce time ∉ s.shared.log) :
    Sound { s with shared := { s.shared with
      auth := s.shared.auth.challengeBegin s.shared.now client nonce
      log := .issued endpoint client nonce s.shared.now :: s.shared.log } } where
  accounted := ⟨h.accounted.challenges.insert s.shared.now client (endpoint, nonce, s.shared.now),
    h.accounted.sessions⟩
  usedOnce := ⟨h.usedOnce, trivial⟩
  issuedOnce c := by
    rw [issuesOf_issued]
    split
    · refine List.nodup_cons.mpr ⟨?_, h.issuedOnce c⟩
      intro hmem
      obtain ⟨⟨endpoint', nonce'⟩, hissued, rfl⟩ := List.mem_map.mp hmem
      obtain ⟨time, htime⟩ := mem_issuesOf.mp hissued
      exact hfresh _ _ _ htime
    · exact h.issuedOnce c
  owner c c' e e' n hmem hmem' := by
    have hnew : ∀ c e, (e, n) ∈ issuesOf c (.issued endpoint client nonce s.shared.now ::
        s.shared.log) → (c = client ∧ n = nonce) ∨
          (n ≠ nonce ∧ (e, n) ∈ issuesOf c s.shared.log) := by
      intro c e hmem
      obtain ⟨time, hissued⟩ := mem_issuesOf.mp hmem
      rcases List.mem_cons.mp hissued with heq | hissued
      · cases heq
        exact Or.inl ⟨rfl, rfl⟩
      · refine Or.inr ⟨?_, mem_issuesOf.mpr ⟨time, hissued⟩⟩
        intro hn
        exact hfresh _ _ _ (hn ▸ hissued)
    rcases hnew c e hmem with ⟨rfl, hn⟩ | ⟨hn, hold⟩
    · rcases hnew c' e' hmem' with ⟨rfl, -⟩ | ⟨hn', -⟩
      · rfl
      · exact absurd hn hn'
    · rcases hnew c' e' hmem' with ⟨-, hn'⟩ | ⟨-, hold'⟩
      · exact absurd hn' hn
      · exact h.owner c c' e e' n hold hold'
  unused c e n t hget c' t' hmem := by
    have hmem : .verified c' n t' ∈ s.shared.log := by
      rcases List.mem_cons.mp hmem with heq | hmem
      · cases heq
      · exact hmem
    rw [pending_issued] at hget
    split at hget
    · cases hbefore : pending c s.shared.log with
      | none =>
        rw [hbefore] at hget
        cases hget
        obtain ⟨endpoint', time', hissued⟩ := h.issued_of_verified hmem
        exact hfresh _ _ _ hissued
      | some b =>
        rw [hbefore] at hget
        cases hget
        exact h.unused c e n t hbefore c' t' hmem
    · exact h.unused c e n t hget c' t' hmem
  requests r hr n hn := by
    obtain ⟨⟨time, htime⟩, hnot⟩ := h.requests r hr n hn
    refine ⟨⟨time, List.mem_cons_of_mem _ htime⟩, ?_⟩
    intro client token time hmem
    rcases List.mem_cons.mp hmem with heq | hmem
    · cases heq
    · exact hnot client token time hmem
  distinct := h.distinct

/-- A request consumes the nonce of its client. -/
theorem Sound.verify [LawfulHashMapDelay D] (h : Sound s)
    (hget : HashMapDelay.get s.shared.auth.challenges client = some nonce)
    (hsigned : .signed client nonce ∈ s.shared.log) :
    Sound ⟨{ s.shared with
        auth := { s.shared.auth with
          challenges := (HashMapDelay.remove s.shared.auth.challenges client).2 }
        log := .verified client nonce s.shared.now :: s.shared.log },
      s.tasks.set i ⟨client, .verified endpoint nonce⟩⟩ := by
  obtain ⟨endpoint', issued, hpending⟩ := h.accounted.pending_of_get hget
  have hissued : (endpoint', nonce) ∈ issuesOf client s.shared.log :=
    mem_issuesOf.mpr ⟨issued, mem_of_pending hpending⟩
  have hunused := h.unused client endpoint' nonce issued hpending
  have hother : ∀ r ∈ s.tasks, r.stage.consumed ≠ some nonce := by
    intro r hr hn
    obtain ⟨⟨time, htime⟩, -⟩ := h.requests r hr nonce hn
    exact hunused _ _ htime
  have hold : ∀ (j : ℕ) (r : Request) (n : ChallengeNonce),
      (s.tasks.set i ⟨client, .verified endpoint nonce⟩)[j]? = some r →
      r.stage.consumed = some n → (j = i ∧ n = nonce) ∨ (s.tasks[j]? = some r ∧ n ≠ nonce) := by
    intro j r n hj hn
    rcases Pool.getElem?_set_cases hj with ⟨rfl, rfl⟩ | ⟨-, hold⟩
    · exact Or.inl ⟨rfl, (Option.some.inj hn).symm⟩
    · refine Or.inr ⟨hold, ?_⟩
      rintro rfl
      exact hother r (List.mem_of_getElem? hold) hn
  refine { h with
    accounted := ⟨h.accounted.challenges.remove client, h.accounted.sessions⟩
    usedOnce := ⟨h.usedOnce, ⟨endpoint', hissued⟩, hsigned, hunused⟩
    unused := ?_
    requests := Pool.forall_mem_set ?_ ?_
    distinct := ?_ }
  · intro c e n t hafter c' t' hmem
    rw [pending_verified] at hafter
    split at hafter
    · cases hafter
    · rename_i hc
      rcases List.mem_cons.mp hmem with heq | hmem
      · -- the nonce was issued to one client only
        cases heq
        exact hc (h.owner _ _ _ _ _ hissued (mem_issuesOf.mpr ⟨t, mem_of_pending hafter⟩))
      · exact h.unused c e n t hafter c' t' hmem
  · intro r hr n hn
    obtain ⟨⟨time, htime⟩, hnot⟩ := h.requests r hr n hn
    refine ⟨⟨time, List.mem_cons_of_mem _ htime⟩, ?_⟩
    intro client token time hmem
    rcases List.mem_cons.mp hmem with heq | hmem
    · cases heq
    · exact hnot client token time hmem
  · intro n hn
    obtain rfl := Option.some.inj hn
    refine ⟨⟨_, List.mem_cons_self⟩, ?_⟩
    intro c token time hmem
    rcases List.mem_cons.mp hmem with heq | hmem
    · cases heq
    · obtain ⟨time, htime⟩ := h.usedOnce.of_started hmem
      exact hunused _ _ htime
  · intro j k r r' n hj hk hr hr'
    rcases hold j r n hj hr with ⟨rfl, hn⟩ | ⟨hj, hn⟩
    · rcases hold k r' n hk hr' with ⟨rfl, -⟩ | ⟨-, hn'⟩
      · rfl
      · exact absurd hn hn'
    · rcases hold k r' n hk hr' with ⟨-, hn'⟩ | ⟨hk, -⟩
      · exact absurd hn' hn
      · exact h.distinct j k r r' n hj hk hr hr'

theorem Sound.startSession [LawfulHashMapDelay D] (h : Sound s)
    (hr : s.tasks[i]? = some ⟨client, .verified .login nonce⟩) :
    Sound ⟨{ s.shared with
        auth := s.shared.auth.sessionStart s.shared.now client token
        log := .started client token nonce s.shared.now :: s.shared.log },
      s.tasks.set i ⟨client, .started token⟩⟩ := by
  obtain ⟨⟨time, hverified⟩, hunused⟩ := h.requests _ (List.mem_of_getElem? hr) nonce rfl
  have hsigned := (h.usedOnce.of_verified hverified).2
  -- the other requests have other nonces
  have hother : ∀ (j : ℕ) (r : Request), (s.tasks.set i ⟨client, .started token⟩)[j]? = some r →
      ∀ n, r.stage.consumed = some n → s.tasks[j]? = some r ∧ n ≠ nonce := by
    intro j r hj n hn
    rcases Pool.getElem?_set_cases hj with ⟨-, rfl⟩ | ⟨hji, hj⟩
    · cases hn
    · refine ⟨hj, ?_⟩
      rintro rfl
      exact hji (h.distinct j i r _ n hj hr hn rfl)
  refine { h with
    accounted := ⟨h.accounted.challenges,
      h.accounted.sessions.insert s.shared.now token (client, nonce, s.shared.now)⟩
    usedOnce := ⟨h.usedOnce, hsigned, ⟨time, hverified⟩, hunused⟩
    unused := ?_
    requests := ?_
    distinct := ?_ }
  · intro c e n t hget c' t' hmem
    rcases List.mem_cons.mp hmem with heq | hmem
    · cases heq
    · exact h.unused c e n t hget c' t' hmem
  · intro r hmem n hn
    obtain ⟨j, hj⟩ := List.mem_iff_getElem?.mp hmem
    obtain ⟨hold, hne⟩ := hother j r hj n hn
    obtain ⟨⟨time, htime⟩, hnot⟩ := h.requests r (List.mem_of_getElem? hold) n hn
    refine ⟨⟨time, List.mem_cons_of_mem _ htime⟩, ?_⟩
    intro c token time hmem
    rcases List.mem_cons.mp hmem with heq | hmem
    · cases heq
      exact hne rfl
    · exact hnot c token time hmem
  · intro j k r r' n hj hk hn hn'
    exact h.distinct j k r r' n (hother j r hj n hn).1 (hother k r' hk n hn').1 hn hn'

/-! ## 4. Every step keeps it -/

/-- One step of a handler. -/
theorem Sound.handled [LawfulHashMapDelay D] (h : Sound s) {event : Event} {sh : Shared D}
    {stage : Stage} (hr : s.tasks[i]? = some r) (hok : Ideal V s (.handle i event))
    (hh : Handled V r.client s.shared event r.stage sh stage) :
    Sound ⟨sh, s.tasks.set i ⟨r.client, stage⟩⟩ := by
  obtain ⟨client, stage₀⟩ := r
  cases hh with
  | answers event stage answer hfails => exact h.setStage rfl
  | passes endpoint hlogin => exact h.setStage rfl
  | issues endpoint nonce => exact (h.issue hok).setStage rfl
  | verifies endpoint response nonce hget hverify =>
    exact h.verify hget (hok client endpoint response nonce hr hverify)
  | registers nonce hnew =>
    have hset : Sound ⟨s.shared, s.tasks.set i ⟨client, .answered (.ok .ok)⟩⟩ := h.setStage rfl
    exact { hset with accounted := ⟨hset.accounted.challenges, hset.accounted.sessions⟩ }
  | starts nonce token => exact h.startSession hr

theorem sound_step [LawfulHashMapDelay D] {a : Action} (h : Sound s) (hok : Ideal V s a)
    (hst : step V s a = some s') : Sound s' := by
  have haccounted : Accounted s'.shared := accounted_step h.accounted hst
  cases moved_of_step hst with
  | arrives a r harrives hchecked hverified =>
    refine h.spawn ?_
    cases hstage : r.stage with
    | verified endpoint nonce => exact absurd hstage (hverified endpoint nonce)
    | _ => rfl
  | handles i event r sh stage hr hh => exact h.handled hr hok hh
  | refuses token hnone => exact h
  | authorizes token client hsome =>
    exact h.note (by simp) (by simp) (by simp) (by simp) haccounted
  | signs client nonce => exact h.note (by simp) (by simp) (by simp) (by simp) haccounted
  | waits time => exact { h with accounted := haccounted }

/-- Only a nonce that is consumed can be an older one. -/
theorem latest_step_iff {a : Action} (h : Sound s) (hst : step V s a = some s') :
    Latest s'.shared.log ↔ Latest s.shared.log ∧ OnlyOne V s a := by
  cases moved_of_step hst with
  | arrives a r harrives hchecked hverified =>
    refine (and_iff_left ?_).symm
    cases a with
    | handle | getSession => cases harrives
    | _ => trivial
  | handles i event r sh stage hr hh =>
    obtain ⟨client, stage₀⟩ := r
    cases hh with
    | answers event stage answer hfails =>
      refine (and_iff_left ?_).symm
      unfold OnlyOne
      split
      · rename_i heq
        cases heq
        intro c asked response endpoint nonce time hr' hpending hverify
        cases hr.symm.trans hr'
        have hget : HashMapDelay.get s.shared.auth.challenges client = some nonce := by
          rw [h.accounted.challenges client]
          exact congrArg (Option.map _) hpending
        rw [hfails rfl asked response nonce rfl hget] at hverify
        cases hverify
      · trivial
    | verifies endpoint response nonce hget hverify =>
      refine and_congr_right fun _ => ?_
      obtain ⟨endpoint', time, hpending⟩ := h.accounted.pending_of_get hget
      refine (pending_latest_iff (h.issuedOnce client) hpending).trans ?_
      constructor
      · intro hone c asked response' endpoint₂ nonce₂ time₂ hr' _ _
        cases hr.symm.trans hr'
        exact hone
      · intro hone
        exact hone client endpoint response endpoint' nonce time hr hpending hverify
    | passes | registers => exact (and_iff_left trivial).symm
    | issues | starts => exact and_congr_right fun _ => Iff.rfl
  | refuses | waits => exact (and_iff_left trivial).symm
  | authorizes | signs => exact and_congr_right fun _ => Iff.rfl

theorem Sound.challengesSound_iff (h : Sound s) :
    ChallengesSound s ↔ Latest s.shared.log := by
  refine ⟨ChallengesSound.latest, fun hlatest => ⟨h.usedOnce, hlatest, ?_, ?_, h.usedOnce.counted⟩⟩
  · intro client nonce client' time hmem hget
    obtain ⟨endpoint, issued, hpending⟩ := h.accounted.pending_of_get hget
    exact h.unused client' endpoint nonce issued hpending client time hmem
  · intro token client hget
    obtain ⟨nonce, time, hsession⟩ := h.accounted.sessionOf_of_get hget
    exact ⟨nonce, time, mem_of_sessionOf hsession⟩

/-- In every run, with any responses of anyone, the nonces are used once and by the client they
were issued to, and every session was started with one; and each success consumes the latest nonce
of its client if and only if whoever answers a nonce has been issued no other since the last
success. -/
theorem challenges_sound_iff [LawfulHashMapDelay D] {clients : List ClientId} {as : List Action}
    (h : run (step V) (start D clients) as = some s)
    (hideal : Meets (step V) (Ideal V) (start D clients) as) :
    ChallengesSound s ↔ Meets (step V) (OnlyOne V) (start D clients) as := by
  have hsound : Sound s := (reach_of_meets hideal h).invariant (sound_start clients)
    fun _ _ _ hs hok hst => sound_step hs hok hst
  refine hsound.challengesSound_iff.trans ?_
  refine (run_iff_meets_of (P := fun s => Latest s.shared.log) (sound_start clients) hideal ?_ ?_
    h).trans (and_iff_right (show Latest [] from trivial))
  · exact fun s a s' hs hok hst => sound_step hs hok hst
  · exact fun s a s' hs _ hst => latest_step_iff hs hst

/-- A response is made for one nonce. -/
theorem stamp_inj {nonce' : ChallengeNonce} (h : stamp client nonce = stamp client nonce') :
    nonce = nonce' := by
  have hbytes : ∀ n : ChallengeNonce, (stamp client n).take 16 = n.bytes := by
    intro n
    have hlen := n.length_eq
    simp only [stamp, stampScheme, challengeResponseLength, List.take_take, List.append_assoc]
    rw [Nat.min_eq_left (by norm_num), List.take_append_of_le_length hlen.ge,
      List.take_of_length_le hlen.le]
  exact FixedBytes.ext' ((hbytes nonce).symm.trans (h ▸ hbytes nonce'))

/-- `Ideal` for the stand-in, evaluated. -/
def ideal (s : State D) : Action → Bool
  | .handle _ (.challengeBegin (some nonce)) => s.shared.log.all fun
    | .issued _ _ nonce' _ => decide (nonce' ≠ nonce)
    | _ => true
  | .handle i .challengeVerify => (s.tasks[i]?).all fun r =>
    match r.stage with
    | .completing _ response => s.shared.log.any fun
      | .signed client nonce => decide (client = r.client ∧ response = stamp client nonce)
      | _ => false
    | _ => true
  | _ => true

omit [HashMapDelay D] in
theorem ideal_ok (s : State D) (a : Action) (h : ideal s a = true) : Ideal stampScheme s a := by
  unfold Ideal
  split
  · rename_i nonce
    intro endpoint client time hmem
    have hne := List.all_eq_true.mp h _ hmem
    simp at hne
  · rename_i i
    intro client endpoint response nonce hr hverify
    simp only [ideal, hr, Option.all_some, List.any_eq_true] at h
    obtain ⟨entry, hmem, hentry⟩ := h
    cases entry with
    | signed client' nonce' =>
      obtain ⟨rfl, hresponse⟩ := of_decide_eq_true hentry
      have hstamp : response = stamp client' nonce := of_decide_eq_true hverify
      rwa [stamp_inj (hstamp.symm.trans hresponse)]
    | _ => cases hentry
  · trivial

/-- A decidable condition that is enough for `OnlyOne`. -/
def onlyOne (s : State D) : Action → Bool
  | .handle i .challengeVerify =>
    (s.tasks[i]?).all fun r => decide ((issuedSince r.client s.shared.log).length = 1)
  | _ => true

omit [HashMapDelay D] in
theorem onlyOne_ok (s : State D) (a : Action) (h : onlyOne s a = true) :
    OnlyOne stampScheme s a := by
  unfold OnlyOne
  split
  · intro client asked response endpoint nonce time hr _ _
    simpa [onlyOne, hr] using h
  · trivial

/-- Alice registers, and logs in after a response that is not hers has been refused. -/
def registerThenLogin : List Action :=
  registerAlice ++ [.loginBegin alice, .handle 2 (.clientExists true),
   .handle 2 (.challengeBegin (some (.fill 8))),
   .loginComplete alice (stamp alice (.fill 7)), .handle 3 .challengeVerify,
   .sign alice (.fill 8), .loginComplete alice (stamp alice (.fill 8)), .handle 4 .challengeVerify,
   .handle 4 (.sessionStart (some (.fill 9))), .handle 4 (.clientUpdateLoggedIn true)]

theorem challenges_sound_alice : ∃ s : State DelayMap,
    verifiedOf alice s.shared.log = [.fill 8, .fill 7] ∧
    s.shared.auth.getSession (.fill 9) = some alice ∧ ChallengesSound s := by
  obtain ⟨s, hs, hverified, hsession⟩ : ∃ s, runWhen (step stampScheme)
      (fun s a => ideal s a && onlyOne s a) (start DelayMap []) registerThenLogin = some s ∧
      verifiedOf alice s.shared.log = [.fill 8, .fill 7] ∧
      s.shared.auth.getSession (.fill 9) = some alice := by decide +kernel
  have hchecks : ∀ (s : State DelayMap) (a : Action), (ideal s a && onlyOne s a) = true →
      Ideal stampScheme s a ∧ OnlyOne stampScheme s a := by
    intro s a h
    obtain ⟨hideal, honly⟩ := Bool.and_eq_true_iff.mp h
    exact ⟨ideal_ok s a hideal, onlyOne_ok s a honly⟩
  obtain ⟨hrun, hideal⟩ := meets_of_runWhen (fun s a h => (hchecks s a h).1) hs
  obtain ⟨-, honly⟩ := meets_of_runWhen (fun s a h => (hchecks s a h).2) hs
  exact ⟨s, hverified, hsession, (challenges_sound_iff hrun hideal).mpr honly⟩

/-- Alice asks for a nonce twice, and signs both. -/
def twoNonces : List Action :=
  [.registerBegin alice, .handle 0 (.clientExists true),
   .handle 0 (.challengeBegin (some (.fill 7))), .registerBegin alice,
   .handle 1 (.clientExists true), .handle 1 (.challengeBegin (some (.fill 8))),
   .sign alice (.fill 7), .sign alice (.fill 8),
   .registerComplete alice (stamp alice (.fill 8)), .handle 2 .challengeVerify,
   .registerComplete alice (stamp alice (.fill 7)), .handle 3 .challengeVerify]

/-- The response to the second nonce is refused, and the first one is consumed. -/
theorem first_nonce_consumed :
    (∃ s, run (step stampScheme) (start DelayMap []) twoNonces = some s ∧
      s.tasks[2]? = some ⟨alice, .answered (.error .crypto)⟩) ∧
    ¬ ∀ (V : SignatureScheme) (clients : List ClientId) (as : List Action) (s : State DelayMap),
      run (step V) (start DelayMap clients) as = some s →
      Meets (step V) (Ideal V) (start DelayMap clients) as → ChallengesSound s := by
  obtain ⟨s, hs, hlog, hrefused⟩ : ∃ s, runWhen (step stampScheme) ideal (start DelayMap [])
        twoNonces = some s ∧
      s.shared.log = [.verified alice (.fill 7) 0, .signed alice (.fill 8),
        .signed alice (.fill 7), .issued .register alice (.fill 8) 0,
        .issued .register alice (.fill 7) 0] ∧
      s.tasks[2]? = some ⟨alice, .answered (.error .crypto)⟩ := by decide +kernel
  obtain ⟨hrun, hideal⟩ := meets_of_runWhen ideal_ok hs
  refine ⟨⟨s, hrun, hrefused⟩, fun h => ?_⟩
  have hlatest := (h stampScheme [] twoNonces s hrun hideal).latest
  rw [hlog] at hlatest
  obtain ⟨-, endpoint, hhead⟩ := hlatest
  cases endpoint <;> exact absurd hhead (by decide)

end

end Backuwup.Server.Auth
