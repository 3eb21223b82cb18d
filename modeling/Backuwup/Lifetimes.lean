/-
# Lifetimes of credentials (`client_auth_manager.rs`, `p2p_connection_manager.rs`)

A challenge is meant to be valid for half a minute, a session for a day and a connection request
for a minute.  All three are kept in a `HashMapDelay`, which removes an entry that has expired
when it is polled as a stream; neither program polls it, and the calls that look up a credential
do not compare times.  So an entry lives until it is removed, even if others are inserted under its
key, and a lifetime is kept exactly if nobody presents a credential later than that
(`lifetimes_kept_iff`).
-/
import Backuwup.Client.NetP2p.ConnectionManager
import Backuwup.Server.ClientAuth

namespace Backuwup

open Transition

variable {D : Type → Type → Type} [HashMapDelay D]

/-! ## 1. Challenges and sessions -/

namespace Server.Auth

open Client (SignatureScheme)

/-- The client was issued the nonce within its lifetime. -/
def RecentNonce (log : List Entry) (now : ℕ) (client : ClientId) (nonce : ChallengeNonce) : Prop :=
  ∃ endpoint issued, .issued endpoint client nonce issued ∈ log ∧
    now ≤ issued + challengeExpiration

/-- A session of the client was started with the token within its lifetime. -/
def RecentToken (log : List Entry) (now : ℕ) (client : ClientId) (token : SessionToken) : Prop :=
  ∃ nonce started, .started client token nonce started ∈ log ∧ now ≤ started + sessionExpiration

/-- Every nonce that was consumed and every session that was used had been issued within its
lifetime. -/
def Fresh : List Entry → Prop
  | [] => True
  | entry :: before => Fresh before ∧
    match entry with
    | .verified client nonce time => RecentNonce before time client nonce
    | .authorized token client time => RecentToken before time client token
    | _ => True

/-- No response is made to a nonce that has been pending for longer than its lifetime, and no token
is presented for longer than that of its session; unless the same bytes have been drawn again. -/
def InTime (V : SignatureScheme) (s : State D) : Action → Prop
  | .handle i .challengeVerify => ∀ client asked response endpoint nonce issued,
      s.tasks[i]? = some ⟨client, .completing asked response⟩ →
      pending client s.shared.log = some (endpoint, nonce, issued) →
      V.verify client nonce.bytes response = true →
      s.shared.now ≤ issued + challengeExpiration ∨
        RecentNonce s.shared.log s.shared.now client nonce
  | .getSession token => ∀ client nonce started,
      sessionOf token s.shared.log = some (client, nonce, started) →
      s.shared.now ≤ started + sessionExpiration ∨
        RecentToken s.shared.log s.shared.now client token
  | _ => True

section

variable {V : SignatureScheme} {s s' : State D} {a : Action} {sh sh' : Shared D} {log : List Entry}
  {now time : ℕ} {client : ClientId} {nonce : ChallengeNonce} {token : SessionToken}

theorem recentNonce_iff {endpoint : Endpoint}
    (hpending : pending client log = some (endpoint, nonce, time)) :
    RecentNonce log now client nonce ↔
      now ≤ time + challengeExpiration ∨ RecentNonce log now client nonce :=
  ⟨Or.inr, fun h => h.elim (fun hle => ⟨endpoint, time, mem_of_pending hpending, hle⟩) id⟩

theorem recentToken_iff (hsession : sessionOf token log = some (client, nonce, time)) :
    RecentToken log now client token ↔
      now ≤ time + sessionExpiration ∨ RecentToken log now client token :=
  ⟨Or.inr, fun h => h.elim (fun hle => ⟨nonce, time, mem_of_sessionOf hsession, hle⟩) id⟩

/-- Only a nonce that is consumed can be late. -/
theorem fresh_handled_iff (h : Accounted s.shared) {i : ℕ} {event : Event} {r : Request}
    {stage : Stage} (hr : s.tasks[i]? = some r)
    (hh : Handled V r.client s.shared event r.stage sh stage) :
    Fresh sh.log ↔ Fresh s.shared.log ∧ InTime V s (.handle i event) := by
  obtain ⟨client, stage₀⟩ := r
  cases hh with
  | answers event stage answer hfails =>
    refine (and_iff_left ?_).symm
    unfold InTime
    split
    · rename_i heq
      cases heq
      intro c asked response endpoint nonce issued hr' hpending hverify
      cases hr.symm.trans hr'
      have hget : HashMapDelay.get s.shared.auth.challenges client = some nonce := by
        rw [h.challenges client]
        exact congrArg (Option.map _) hpending
      rw [hfails rfl asked response nonce rfl hget] at hverify
      cases hverify
    · rename_i heq
      cases heq
    · trivial
  | verifies endpoint response nonce hget hverify =>
    obtain ⟨endpoint', issued, hpending⟩ := h.pending_of_get hget
    refine and_congr_right fun _ => (recentNonce_iff hpending).trans ?_
    constructor
    · intro hrecent c asked response' e n t hr' hpending' _
      cases hr.symm.trans hr'
      cases hpending.symm.trans hpending'
      exact hrecent
    · intro hin
      exact hin client endpoint response endpoint' nonce issued hr hpending hverify
  | passes | registers => exact (and_iff_left trivial).symm
  | issues | starts => exact and_congr_right fun _ => Iff.rfl

/-- Only the two lookups can be late. -/
theorem fresh_step_iff (h : Accounted s.shared) (hst : step V s a = some s') :
    Fresh s'.shared.log ↔ Fresh s.shared.log ∧ InTime V s a := by
  cases moved_of_step hst with
  | arrives a r harrives hchecked hverified =>
    refine (and_iff_left ?_).symm
    cases a with
    | handle | getSession => cases harrives
    | _ => trivial
  | handles i event r sh stage hr hh => exact fresh_handled_iff h hr hh
  | refuses token hnone =>
    refine (and_iff_left ?_).symm
    intro client nonce started hsession
    have hget : s.shared.auth.getSession token = some client := by
      rw [ClientAuthManager.getSession, h.sessions token]
      exact congrArg (Option.map _) hsession
    cases hnone.symm.trans hget
  | authorizes token client hsome =>
    obtain ⟨nonce, started, hsession⟩ := h.sessionOf_of_get hsome
    refine and_congr_right fun _ => (recentToken_iff hsession).trans ?_
    constructor
    · intro hrecent c n t hsession'
      cases hsession.symm.trans hsession'
      exact hrecent
    · exact fun hin => hin client nonce started hsession
  | signs => exact and_congr_right fun _ => Iff.rfl
  | waits time => exact (and_iff_left trivial).symm

end

end Server.Auth

/-! ## 2. Connection requests -/

namespace Client.Requesting

/-- What has happened. -/
inductive Entry
  | added (client : ClientId) (request : P2PConnectionRequest) (time : ℕ)
  | finalized (client : ClientId) (request : P2PConnectionRequest) (time : ℕ)
deriving DecidableEq

/-- The manager, with the time and the log, the latest entry first. -/
structure State (D : Type → Type → Type) where
  now : ℕ
  manager : P2PConnectionManager D
  log : List Entry

variable (D) in
def start : State D := ⟨0, .new, []⟩

inductive Action
  | addRequest (client : ClientId) (purpose : RequestType) (sessionNonce : TransportSessionNonce)
  | finalizeRequest (client : ClientId)
  | wait (time : ℕ)
deriving DecidableEq

def step (s : State D) : Action → Option (State D)
  | .addRequest client purpose sessionNonce => some { s with
      manager := s.manager.addRequest s.now client purpose sessionNonce
      log := .added client ⟨sessionNonce, purpose⟩ s.now :: s.log }
  | .finalizeRequest client =>
    match s.manager.finalizeRequest client with
    | none => some s
    | some (request, manager) => some { s with
        manager := manager, log := .finalized client request s.now :: s.log }
  | .wait time => some { s with now := s.now + time }

/-- The request was added within its lifetime. -/
def RecentRequest (log : List Entry) (now : ℕ) (client : ClientId)
    (request : P2PConnectionRequest) : Prop :=
  ∃ added, .added client request added ∈ log ∧ now ≤ added + transportRequestExpiry

/-- Every request that was returned had been added within its lifetime. -/
def Fresh : List Entry → Prop
  | [] => True
  | entry :: before => Fresh before ∧
    match entry with
    | .finalized client request time => RecentRequest before time client request
    | .added _ _ _ => True

/-- What the log says of the map of requests. -/
def changes (log : List Entry) :
    List (HashMapDelay.Change ClientId (P2PConnectionRequest × ℕ)) :=
  log.map fun
    | .added client request time => .inserted client (request, time)
    | .finalized client _ _ => .removed client

/-- The first request that was added for the peer since one was last returned. -/
def pending (client : ClientId) (log : List Entry) : Option (P2PConnectionRequest × ℕ) :=
  HashMapDelay.standing client (changes log)

/-- No request is finalized that has been pending for longer than its lifetime; unless the same
bytes have been drawn again. -/
def InTime (s : State D) : Action → Prop
  | .finalizeRequest client => ∀ request added, pending client s.log = some (request, added) →
      s.now ≤ added + transportRequestExpiry ∨ RecentRequest s.log s.now client request
  | _ => True

/-- The log accounts for the map. -/
def Accounted (s : State D) : Prop :=
  HashMapDelay.Accounts Prod.fst (changes s.log) s.manager.requests

section

variable {s s' : State D} {a : Action} {client : ClientId} {request : P2PConnectionRequest}
  {log : List Entry} {now time : ℕ}

theorem mem_of_pending (h : pending client log = some (request, time)) :
    .added client request time ∈ log := by
  obtain ⟨entry, hmem, hentry⟩ := List.mem_map.mp (HashMapDelay.mem_of_standing h)
  cases entry <;> simp_all

theorem recentRequest_iff (hpending : pending client log = some (request, time)) :
    RecentRequest log now client request ↔
      now ≤ time + transportRequestExpiry ∨ RecentRequest log now client request :=
  ⟨Or.inr, fun h => h.elim (fun hle => ⟨time, mem_of_pending hpending, hle⟩) id⟩

theorem accounted_start [LawfulHashMapDelay D] : Accounted (start D) :=
  HashMapDelay.accounts_new _

theorem accounted_step [LawfulHashMapDelay D] (h : Accounted s) (hst : step s a = some s') :
    Accounted s' := by
  cases a with
  | addRequest client purpose sessionNonce =>
    cases hst
    exact HashMapDelay.Accounts.insert h s.now client (⟨sessionNonce, purpose⟩, s.now)
  | finalizeRequest client =>
    simp only [step] at hst
    split at hst
    · cases hst
      exact h
    · rename_i request manager hsome
      cases hst
      obtain ⟨-, rfl⟩ := P2PConnectionManager.finalizeRequest_eq_some hsome
      exact HashMapDelay.Accounts.remove h client
  | wait time =>
    cases hst
    exact h

theorem fresh_step_iff [LawfulHashMapDelay D] (h : Accounted s) (hst : step s a = some s') :
    Fresh s'.log ↔ Fresh s.log ∧ InTime s a := by
  cases a with
  | addRequest client purpose sessionNonce =>
    cases hst
    exact and_congr_right fun _ => Iff.rfl
  | finalizeRequest client =>
    simp only [step] at hst
    split at hst
    · rename_i hnone
      cases hst
      refine (and_iff_left ?_).symm
      intro request added hpending
      have hget : HashMapDelay.get s.manager.requests client = some request := by
        rw [h client]
        exact congrArg (Option.map _) hpending
      cases (P2PConnectionManager.finalizeRequest_eq_none.mp hnone).symm.trans hget
    · rename_i request manager hsome
      cases hst
      obtain ⟨hget, rfl⟩ := P2PConnectionManager.finalizeRequest_eq_some hsome
      obtain ⟨⟨request, added⟩, hpending, rfl⟩ :=
        HashMapDelay.Accounts.standing_of_get h hget
      refine and_congr_right fun _ => (recentRequest_iff hpending).trans ?_
      constructor
      · intro hrecent r t hpending'
        cases hpending.symm.trans hpending'
        exact hrecent
      · exact fun hin => hin request added hpending
  | wait time =>
    cases hst
    exact (and_iff_left trivial).symm

end

end Client.Requesting

/-! ## 3. The lifetimes -/

/-- In every run, of the server as of a client, the lifetimes are kept if and only if every
credential was presented within its lifetime. -/
theorem lifetimes_kept_iff [LawfulHashMapDelay D] {V : Client.SignatureScheme}
    {clients : List ClientId} {as : List Server.Auth.Action} {s : Server.Auth.State D}
    {bs : List Client.Requesting.Action} {t : Client.Requesting.State D}
    (hserver : run (Server.Auth.step V) (Server.Auth.start D clients) as = some s)
    (hclient : run Client.Requesting.step (Client.Requesting.start D) bs = some t) :
    (Server.Auth.Fresh s.shared.log ↔
      Meets (Server.Auth.step V) (Server.Auth.InTime V) (Server.Auth.start D clients) as) ∧
    (Client.Requesting.Fresh t.log ↔
      Meets Client.Requesting.step Client.Requesting.InTime (Client.Requesting.start D) bs) := by
  constructor
  · refine (run_iff_meets (I := fun s => Server.Auth.Accounted s.shared)
      (P := fun s => Server.Auth.Fresh s.shared.log) (Server.Auth.accounted_start clients) ?_ ?_
      hserver).trans (and_iff_right (show Server.Auth.Fresh [] from trivial))
    · exact fun s a s' hs hst => Server.Auth.accounted_step hs hst
    · exact fun s a s' hs hst => Server.Auth.fresh_step_iff hs hst
  · refine (run_iff_meets (I := Client.Requesting.Accounted)
      (P := fun s => Client.Requesting.Fresh s.log) Client.Requesting.accounted_start ?_ ?_
      hclient).trans (and_iff_right (show Client.Requesting.Fresh [] from trivial))
    · exact fun s a s' hs hst => Client.Requesting.accounted_step hs hst
    · exact fun s a s' hs hst => Client.Requesting.fresh_step_iff hs hst

def second : ℕ := 1000000000

/-- A decidable condition that is enough for `InTime`. -/
def Server.Auth.inTime (s : Server.Auth.State D) : Server.Auth.Action → Bool
  | .handle i .challengeVerify => (s.tasks[i]?).all fun r =>
      (Server.Auth.pending r.client s.shared.log).all fun b =>
        decide (s.shared.now ≤ b.2.2 + Server.Auth.challengeExpiration)
  | .getSession token => (Server.Auth.sessionOf token s.shared.log).all fun b =>
      decide (s.shared.now ≤ b.2.2 + Server.Auth.sessionExpiration)
  | _ => true

omit [HashMapDelay D] in
theorem Server.Auth.inTime_ok {V : Client.SignatureScheme} (s : Server.Auth.State D)
    (a : Server.Auth.Action) (h : Server.Auth.inTime s a = true) : Server.Auth.InTime V s a := by
  unfold Server.Auth.InTime
  split
  · intro client asked response endpoint nonce issued hr hpending _
    left
    simpa [Server.Auth.inTime, hr, hpending] using h
  · intro client nonce started hsession
    left
    simpa [Server.Auth.inTime, hsession] using h
  · trivial

def Client.Requesting.inTime (s : Client.Requesting.State D) : Client.Requesting.Action → Bool
  | .finalizeRequest client => (Client.Requesting.pending client s.log).all fun b =>
      decide (s.now ≤ b.2 + transportRequestExpiry)
  | _ => true

omit [HashMapDelay D] in
theorem Client.Requesting.inTime_ok (s : Client.Requesting.State D)
    (a : Client.Requesting.Action) (h : Client.Requesting.inTime s a = true) :
    Client.Requesting.InTime s a := by
  cases a with
  | finalizeRequest client =>
    intro request added hpending
    left
    simpa [inTime, hpending] using h
  | addRequest | wait => trivial

/-- Alice asks for a second nonce before she answers the first, logs in, and uses her token an hour
later. -/
def aliceInTime : List Server.Auth.Action :=
  [.registerBegin Server.Auth.alice, .handle 0 (.clientExists true),
   .handle 0 (.challengeBegin (some (.fill 7))), .wait (20 * second),
   .registerBegin Server.Auth.alice, .handle 1 (.clientExists true),
   .handle 1 (.challengeBegin (some (.fill 6))), .wait (5 * second),
   .sign Server.Auth.alice (.fill 7),
   .registerComplete Server.Auth.alice (Server.Auth.stamp Server.Auth.alice (.fill 7)),
   .handle 2 .challengeVerify, .handle 2 (.registerClient true),
   .loginBegin Server.Auth.alice, .handle 3 (.clientExists true),
   .handle 3 (.challengeBegin (some (.fill 8))), .sign Server.Auth.alice (.fill 8),
   .wait second, .loginComplete Server.Auth.alice (Server.Auth.stamp Server.Auth.alice (.fill 8)),
   .handle 4 .challengeVerify, .handle 4 (.sessionStart (some (.fill 9))),
   .handle 4 (.clientUpdateLoggedIn true), .wait (3600 * second), .getSession (.fill 9)]

/-- So does a peer, of which two requests are added. -/
theorem lifetimes_kept_alice :
    (∃ s : Server.Auth.State DelayMap,
      s.shared.log.head? = some (.authorized (.fill 9) Server.Auth.alice (3626 * second)) ∧
      Server.Auth.Fresh s.shared.log) ∧
    ∃ t : Client.Requesting.State DelayMap,
      t.log.head? = some (.finalized (.fill 2) ⟨.fill 5, .transport⟩ (60 * second)) ∧
      Client.Requesting.Fresh t.log := by
  obtain ⟨s, hs, hhead⟩ : ∃ s, runWhen (Server.Auth.step Server.Auth.stampScheme)
      Server.Auth.inTime (Server.Auth.start DelayMap []) aliceInTime = some s ∧
      s.shared.log.head? = some (.authorized (.fill 9) Server.Auth.alice (3626 * second)) := by
    decide +kernel
  obtain ⟨t, ht, hlog⟩ : ∃ t, runWhen Client.Requesting.step Client.Requesting.inTime
      (Client.Requesting.start DelayMap) [.addRequest (.fill 2) .transport (.fill 5),
        .wait (50 * second), .addRequest (.fill 2) .restoreAll (.fill 6), .wait (10 * second),
        .finalizeRequest (.fill 2)] = some t ∧
      t.log.head? = some (.finalized (.fill 2) ⟨.fill 5, .transport⟩ (60 * second)) := by
    decide +kernel
  obtain ⟨hserver, hserverMeets⟩ := meets_of_runWhen Server.Auth.inTime_ok hs
  obtain ⟨hclient, hclientMeets⟩ := meets_of_runWhen Client.Requesting.inTime_ok ht
  obtain ⟨hserverIff, hclientIff⟩ := lifetimes_kept_iff hserver hclient
  exact ⟨⟨s, hhead, hserverIff.mpr hserverMeets⟩, t, hlog, hclientIff.mpr hclientMeets⟩

/-- A challenge is answered after half a minute and a second, a session is used after a day and an
hour, and a request is finalized after a minute and a second. -/
theorem lifetimes_exceeded :
    (∃ s, run (Server.Auth.step Server.Auth.stampScheme) (Server.Auth.start DelayMap []) [
        .registerBegin Server.Auth.alice, .handle 0 (.clientExists true),
        .handle 0 (.challengeBegin (some (.fill 7))), .sign Server.Auth.alice (.fill 7),
        .wait (31 * second), .registerComplete Server.Auth.alice (Server.Auth.stamp
          Server.Auth.alice (.fill 7)),
        .handle 1 .challengeVerify] = some s ∧ ¬ Server.Auth.Fresh s.shared.log) ∧
    (∃ s, run (Server.Auth.step Server.Auth.stampScheme) (Server.Auth.start DelayMap [])
        (Server.Auth.registerAlice ++ Server.Auth.loginAlice ++
          [.wait (25 * 3600 * second), .getSession (.fill 9)]) = some s ∧
        ¬ Server.Auth.Fresh s.shared.log) ∧
    ∃ s, run Client.Requesting.step (Client.Requesting.start DelayMap) [
        .addRequest (.fill 2) .transport (.fill 5), .wait (61 * second),
        .finalizeRequest (.fill 2)] = some s ∧ ¬ Client.Requesting.Fresh s.log := by
  refine ⟨?challenge, ?session, ?request⟩
  case challenge =>
    obtain ⟨s, hs, hlog⟩ : ∃ s, run (Server.Auth.step Server.Auth.stampScheme)
        (Server.Auth.start DelayMap []) [
          .registerBegin Server.Auth.alice, .handle 0 (.clientExists true),
          .handle 0 (.challengeBegin (some (.fill 7))), .sign Server.Auth.alice (.fill 7),
          .wait (31 * second), .registerComplete Server.Auth.alice (Server.Auth.stamp
            Server.Auth.alice (.fill 7)),
          .handle 1 .challengeVerify] = some s ∧ s.shared.log = [
            .verified Server.Auth.alice (.fill 7) (31 * second),
            .signed Server.Auth.alice (.fill 7),
            .issued .register Server.Auth.alice (.fill 7) 0] := by decide +kernel
    refine ⟨s, hs, ?_⟩
    rw [hlog]
    rintro ⟨-, endpoint, issued, hmem, hle⟩
    simp only [List.mem_cons, reduceCtorEq, Server.Auth.Entry.issued.injEq, List.not_mem_nil,
      or_false, false_or] at hmem
    obtain ⟨-, -, -, rfl⟩ := hmem
    exact absurd hle (by decide)
  case session =>
    obtain ⟨s, hs, hlog⟩ : ∃ s, run (Server.Auth.step Server.Auth.stampScheme)
        (Server.Auth.start DelayMap []) (Server.Auth.registerAlice ++ Server.Auth.loginAlice ++
          [.wait (25 * 3600 * second), .getSession (.fill 9)]) = some s ∧
        s.shared.log = [
          .authorized (.fill 9) Server.Auth.alice (25 * 3600 * second),
          .started Server.Auth.alice (.fill 9) (.fill 8) 0,
          .verified Server.Auth.alice (.fill 8) 0, .signed Server.Auth.alice (.fill 8),
          .issued .login Server.Auth.alice (.fill 8) 0,
          .verified Server.Auth.alice (.fill 7) 0, .signed Server.Auth.alice (.fill 7),
          .issued .register Server.Auth.alice (.fill 7) 0] := by decide +kernel
    refine ⟨s, hs, ?_⟩
    rw [hlog]
    rintro ⟨-, nonce, started, hmem, hle⟩
    simp only [List.mem_cons, reduceCtorEq, Server.Auth.Entry.started.injEq, List.not_mem_nil,
      or_false] at hmem
    obtain ⟨-, -, -, rfl⟩ := hmem
    exact absurd hle (by decide)
  case request =>
    obtain ⟨s, hs, hlog⟩ : ∃ s, run Client.Requesting.step (Client.Requesting.start DelayMap) [
        .addRequest (.fill 2) .transport (.fill 5), .wait (61 * second),
        .finalizeRequest (.fill 2)] = some s ∧ s.log = [
          .finalized (.fill 2) ⟨.fill 5, .transport⟩ (61 * second),
          .added (.fill 2) ⟨.fill 5, .transport⟩ 0] := by decide +kernel
    refine ⟨s, hs, ?_⟩
    rw [hlog]
    rintro ⟨-, added, hmem, hle⟩
    simp only [List.mem_cons, Client.Requesting.Entry.added.injEq, List.not_mem_nil,
      or_false] at hmem
    obtain ⟨-, -, rfl⟩ := hmem
    exact absurd hle (by decide)

end Backuwup
