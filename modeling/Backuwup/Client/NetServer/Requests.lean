/-
# Requests with a session token (`client/src/net_server/requests.rs`)

A request that the server answers with `Unauthorized` wipes the stored token, a client without a
token logs in, and either takes one round of the loop in `retry_with_login`.  The loop has two
rounds: a client that logs in first still has one to make its request, and a client whose token the
server no longer knows logs in during the second and has none (`relogin_iff`).

The server is what answers the requests (`Service`); that of this repository is `managerService`,
where a login succeeds unless the nonce of another is pending (`login_fails_of_pending`).  The local
database does not fail.
-/
import Backuwup.Server.ClientAuth

namespace Backuwup.Client.Requests

open Server.Auth (ChallengeNonce SessionToken ClientAuthManager)

/-! ## 1. `retry_with_login` -/

inductive ResponseError
  | unauthorized
  | network
  | other
deriving DecidableEq

inductive CallError
  | invalidAuthTokenLength
  | loginFailed
  | request (e : ResponseError)
  | unrecoverableAuthError
deriving DecidableEq

/-- The server and the network in between, with the request function `func` that is called. -/
structure Service (σ τ : Type) where
  loginBegin : ClientId → σ → Except ResponseError ChallengeNonce × σ
  loginComplete : ClientId → Bytes → σ → Except ResponseError SessionToken × σ
  func : SessionToken → σ → Except ResponseError τ × σ
  /-- what happens in the two seconds after a wiped token -/
  sleep : σ → σ

/-- The row `auth_token` of the configuration, the state of the server, and the tokens with which
`func` has been called. -/
structure World (σ : Type) where
  authToken : Option Bytes
  server : σ
  used : List SessionToken

section

variable {σ τ : Type}

def saveAuthToken (token : Option SessionToken) (w : World σ) : World σ :=
  { w with authToken := token.map FixedBytes.bytes }

def loadAuthToken (w : World σ) : Except CallError (Option SessionToken) :=
  match w.authToken with
  | some value =>
    if h : value.length = 16 then .ok (some ⟨value, h⟩) else .error .invalidAuthTokenLength
  | none => .ok none

variable (V : SignatureScheme) (me : ClientId) (api : Service σ τ)

def login (w : World σ) : Except CallError Unit × World σ :=
  match api.loginBegin me w.server with
  | (.error _, s) => (.error .loginFailed, { w with server := s })
  | (.ok challengeNonce, s) =>
    match api.loginComplete me (V.sign me challengeNonce.bytes) s with
    | (.error _, s) => (.error .loginFailed, { w with server := s })
    | (.ok token, s) => (.ok (), saveAuthToken (some token) { w with server := s })

/-- The rounds that are left. -/
def retryLoop : ℕ → World σ → Except CallError τ × World σ
  | 0, w => (.error .unrecoverableAuthError, w)
  | rounds + 1, w =>
    match loadAuthToken w with
    | .error e => (.error e, w)
    | .ok (some token) =>
      match api.func token w.server with
      | (.ok val, s) => (.ok val, { w with server := s, used := w.used ++ [token] })
      | (.error .unauthorized, s) =>
        retryLoop rounds <|
          saveAuthToken none { w with server := api.sleep s, used := w.used ++ [token] }
      | (.error e, s) => (.error (.request e), { w with server := s, used := w.used ++ [token] })
    | .ok none =>
      match login V me api w with
      | (.error e, w) => (.error e, w)
      | (.ok (), w) => retryLoop rounds w

def retryWithLogin (w : World σ) : Except CallError τ × World σ := retryLoop V me api 2 w

/-- Before a call, with this token stored. -/
def before (stored : Option SessionToken) (s : σ) : World σ := ⟨stored.map FixedBytes.bytes, s, []⟩

/-! ## 2. What the client relies on -/

/-- While no login of the client is under way (`idle`), a login yields a token that the server
accepts.  Made with such a token a request succeeds and leaves it accepted; made with another it is
unauthorized. -/
structure Serves (idle : σ → Prop) (accepts : σ → SessionToken → Prop) : Prop where
  login : ∀ s, idle s → ∃ challengeNonce s₁ token s₂,
    api.loginBegin me s = (.ok challengeNonce, s₁) ∧
      api.loginComplete me (V.sign me challengeNonce.bytes) s₁ = (.ok token, s₂) ∧
      accepts s₂ token ∧ idle s₂
  func_ok : ∀ s token, idle s → accepts s token →
    ∃ val s', api.func token s = (.ok val, s') ∧ accepts s' token
  func_unauthorized : ∀ s token, idle s → ¬ accepts s token →
    ∃ s', api.func token s = (.error .unauthorized, s') ∧ idle (api.sleep s')

/-- The call returns what the request returns for an accepted token, it leaves a token that the
server accepts, and it makes the request with no token twice. -/
def Transparent (accepts : σ → SessionToken → Prop) (w : World σ) : Prop :=
  ∃ s token val s', accepts s token ∧ api.func token s = (.ok val, s') ∧
    (retryWithLogin V me api w).1 = .ok val ∧
    (∃ kept, loadAuthToken (retryWithLogin V me api w).2 = .ok (some kept) ∧
      accepts (retryWithLogin V me api w).2.server kept) ∧
    (retryWithLogin V me api w).2.used.Nodup

end

/-! ## 3. The rounds -/

section

variable {σ τ : Type} {V : SignatureScheme} {me : ClientId} {api : Service σ τ}
  {idle : σ → Prop} {accepts : σ → SessionToken → Prop} {w : World σ} {token : SessionToken}

theorem loadAuthToken_eq {stored : Option SessionToken}
    (h : w.authToken = stored.map FixedBytes.bytes) : loadAuthToken w = .ok stored := by
  unfold loadAuthToken
  cases stored with
  | none => rw [h, Option.map_none]
  | some token =>
    rw [h, Option.map_some]
    exact dif_pos token.length_eq

/-- With an accepted token one round is enough. -/
theorem retryLoop_accepted (hserves : Serves V me api idle accepts) (hidle : idle w.server)
    (hw : w.authToken = some token.bytes) (haccepts : accepts w.server token) (rounds : ℕ) :
    ∃ val s', api.func token w.server = (.ok val, s') ∧ accepts s' token ∧
      retryLoop V me api (rounds + 1) w
        = (.ok val, { w with server := s', used := w.used ++ [token] }) := by
  obtain ⟨val, s', hfunc, hkept⟩ := hserves.func_ok _ _ hidle haccepts
  have hload : loadAuthToken w = .ok (some token) := loadAuthToken_eq hw
  exact ⟨val, s', hfunc, hkept, by simp only [retryLoop, hload, hfunc]⟩

/-- Without a token a round logs in. -/
theorem retryLoop_none (hserves : Serves V me api idle accepts) (hidle : idle w.server)
    (hw : w.authToken = none) (rounds : ℕ) :
    ∃ s' token, accepts s' token ∧ idle s' ∧ retryLoop V me api (rounds + 1) w
      = retryLoop V me api rounds { w with authToken := some token.bytes, server := s' } := by
  obtain ⟨challengeNonce, s₁, token, s₂, hbegin, hcomplete, haccepts, hidle₂⟩ :=
    hserves.login w.server hidle
  have hload : loadAuthToken w = .ok none := loadAuthToken_eq hw
  refine ⟨s₂, token, haccepts, hidle₂, ?_⟩
  simp only [retryLoop, hload, login, hbegin, hcomplete, saveAuthToken, Option.map_some]

/-- With a token that is not accepted a round wipes it. -/
theorem retryLoop_stale (hserves : Serves V me api idle accepts) (hidle : idle w.server)
    (hw : w.authToken = some token.bytes) (hstale : ¬ accepts w.server token) (rounds : ℕ) :
    ∃ s', idle s' ∧ retryLoop V me api (rounds + 1) w
      = retryLoop V me api rounds ⟨none, s', w.used ++ [token]⟩ := by
  obtain ⟨s', hfunc, hidle'⟩ := hserves.func_unauthorized _ _ hidle hstale
  have hload : loadAuthToken w = .ok (some token) := loadAuthToken_eq hw
  exact ⟨api.sleep s', hidle', by
    simp only [retryLoop, hload, hfunc, saveAuthToken, Option.map_none]⟩

/-! ## 4. When a login goes unnoticed -/

/-- A call is transparent if and only if no token is stored or the server accepts it. -/
theorem relogin_iff (hserves : Serves V me api idle accepts) (stored : Option SessionToken) (s : σ)
    (hidle : idle s) :
    Transparent V me api accepts (before stored s) ↔ ∀ token ∈ stored, accepts s token := by
  constructor
  · rintro ⟨-, -, val, -, -, -, hok, -⟩ token rfl
    by_contra hstale
    obtain ⟨s₁, hidle₁, hfirst⟩ :=
      retryLoop_stale (w := before (some token) s) hserves hidle rfl hstale 1
    obtain ⟨s₂, fresh, -, -, hsecond⟩ :=
      retryLoop_none (w := ⟨none, s₁, [token]⟩) hserves hidle₁ rfl 0
    -- the second round has logged in, and there is no third one
    have hend : (retryWithLogin V me api (before (some token) s)).1
        = .error .unrecoverableAuthError := by
      rw [retryWithLogin, hfirst]
      change (retryLoop V me api (0 + 1) ⟨none, s₁, [token]⟩).1 = _
      rw [hsecond]
      rfl
    cases hend.symm.trans hok
  · intro haccepts
    cases stored with
    | some token =>
      have hacc : accepts s token := haccepts token rfl
      obtain ⟨val, s', hfunc, hkept, hloop⟩ :=
        retryLoop_accepted (w := before (some token) s) hserves hidle rfl hacc 1
      have hcall : retryWithLogin V me api (before (some token) s) = _ := hloop
      refine ⟨s, token, val, s', hacc, hfunc, ?_⟩
      rw [hcall]
      exact ⟨rfl, ⟨token, loadAuthToken_eq rfl, hkept⟩, by simp [before]⟩
    | none =>
      obtain ⟨s₁, token, hacc, hidle₁, hfirst⟩ :=
        retryLoop_none (w := before none s) hserves hidle rfl 1
      obtain ⟨val, s', hfunc, hkept, hloop⟩ :=
        retryLoop_accepted (w := ⟨some token.bytes, s₁, []⟩) hserves hidle₁ rfl hacc 0
      have hcall : retryWithLogin V me api (before none s) = _ := hfirst.trans hloop
      refine ⟨s₁, token, val, s', hacc, hfunc, ?_⟩
      rw [hcall]
      exact ⟨rfl, ⟨token, loadAuthToken_eq rfl, hkept⟩, by simp⟩

end

/-! ## 5. The server of this repository -/

variable {D : Type → Type → Type} [HashMapDelay D]

variable (D) in
/-- A registered client at `ClientAuthManager`, which draws its nonces and tokens from `draw`.  The
request tells the client who it is. -/
def managerService (V : SignatureScheme) (draw : ℕ → FixedBytes 16) :
    Service (ClientAuthManager D × ℕ) ClientId where
  loginBegin client s := (.ok (draw s.2), s.1.challengeBegin 0 client (draw s.2), s.2 + 1)
  loginComplete client response s :=
    match s.1.challengeVerify V client response with
    | .error _ => (.error .other, s)
    | .ok (_, m) => (.ok (draw s.2), m.sessionStart 0 client (draw s.2), s.2 + 1)
  func token s :=
    match s.1.getSession token with
    | some client => (.ok client, s)
    | none => (.error .unauthorized, s)
  sleep s := s

/-- No nonce is pending for the client. -/
def NonePending (me : ClientId) (s : ClientAuthManager D × ℕ) : Prop :=
  HashMapDelay.get s.1.challenges me = none

/-- The server has a session for the token. -/
def HasSession (s : ClientAuthManager D × ℕ) (token : SessionToken) : Prop :=
  (s.1.getSession token).isSome = true

/-- A login that finds no nonce of an earlier one pending succeeds, and leaves none behind. -/
theorem managerService_serves [LawfulHashMapDelay D] {V : SignatureScheme} (hV : V.Correct)
    (me : ClientId) (draw : ℕ → FixedBytes 16) :
    Serves V me (managerService D V draw) (NonePending me) HasSession := by
  refine ⟨fun s hidle => ?_, fun s token _ h => ?_, fun s token hidle h => ?_⟩
  · have hget : HashMapDelay.get (s.1.challengeBegin 0 me (draw s.2)).challenges me =
        some (draw s.2) := by
      rw [ClientAuthManager.challengeBegin, LawfulHashMapDelay.get_insert, if_pos rfl, hidle,
        Option.getD_none]
    obtain ⟨m, hverify, hremoved⟩ : ∃ m, (s.1.challengeBegin 0 me (draw s.2)).challengeVerify V me
        (V.sign me (draw s.2).bytes) = .ok (draw s.2, m) ∧
        HashMapDelay.get m.challenges me = none := by
      simp [ClientAuthManager.challengeVerify, hget, hV me, LawfulHashMapDelay.get_remove]
    refine ⟨_, _, draw (s.2 + 1), (m.sessionStart 0 me (draw (s.2 + 1)), s.2 + 1 + 1), rfl, ?_, ?_,
      hremoved⟩
    · simp only [managerService, hverify]
    · simp [HasSession, ClientAuthManager.getSession, ClientAuthManager.sessionStart,
        LawfulHashMapDelay.get_insert]
  · obtain ⟨client, hclient⟩ := Option.isSome_iff_exists.mp h
    exact ⟨client, s, by simp only [managerService, hclient], h⟩
  · have hnone : s.1.getSession token = none := by simpa [HasSession] using h
    exact ⟨s, by simp only [managerService, hnone], hidle⟩

/-- While a nonce of another login is pending, a login of the client fails. -/
theorem login_fails_of_pending [LawfulHashMapDelay D] {V : SignatureScheme} {me : ClientId}
    {draw : ℕ → FixedBytes 16} {w : World (ClientAuthManager D × ℕ)} {nonce : ChallengeNonce}
    (hpending : HashMapDelay.get w.server.1.challenges me = some nonce)
    (hother : V.verify me nonce.bytes (V.sign me (draw w.server.2).bytes) = false) :
    (login V me (managerService D V draw) w).1 = .error .loginFailed := by
  have hget : HashMapDelay.get (w.server.1.challengeBegin 0 me (draw w.server.2)).challenges me =
      some nonce := by
    rw [ClientAuthManager.challengeBegin, LawfulHashMapDelay.get_insert, if_pos rfl, hpending,
      Option.getD_some]
  simp [login, managerService, ClientAuthManager.challengeVerify, hget, hother]

/-- The nonces and tokens of the runs. -/
def draws (k : ℕ) : FixedBytes 16 := .fill (Fin.ofNat 256 k)

theorem relogin_without_token :
    Transparent nameScheme (.fill 1) (managerService DelayMap nameScheme draws) HasSession
      (before none (.new, 0)) :=
  (relogin_iff (managerService_serves nameScheme_correct (.fill 1) draws) none (.new, 0)
    (LawfulHashMapDelay.get_new _ _)).mpr
    (by simp)

/-- The server has been restarted since the token was stored: the client wipes the token, logs in,
and reports an error without having made its request. -/
theorem stale_token_fails :
    ¬ Transparent nameScheme (.fill 1) (managerService DelayMap nameScheme draws) HasSession
      (before (some (.fill 9)) (.new, 0)) := by
  have hfails : (retryWithLogin nameScheme (.fill 1) (managerService DelayMap nameScheme draws)
      (before (some (.fill 9)) (.new, 0))).1 = .error .unrecoverableAuthError := by
    decide +kernel
  rintro ⟨-, -, val, -, -, -, hok, -⟩
  cases hfails.symm.trans hok

end Backuwup.Client.Requests
