/-
# Registration and login (`server/src/client_auth_manager.rs`, `handlers/login.rs`, `register.rs`)

A client proves that it holds the key of its id by signing a nonce that the server has issued.
The four endpoints share one map of nonces, keyed by the client alone: a nonce does not remember
whether it was asked for in order to register or in order to log in.  The begin requests look up
the client in the database, the complete requests only look at the signature.  Every handler is
cut at its awaits and at the locks it takes, and any number of requests run at once.

The state keeps a log of what has happened, which the handlers do not read.  Two results are about
it:

* the nonces are used once, by the client they were issued to, and a client that has been issued a
  second one can only use the first (`challenges_sound_iff`);
* a session belongs to a registered client as long as no session is started with a nonce that was
  issued for a registration (`sessions_registered`), and not otherwise (`unregistered_session`).

Nothing polls the two maps of `ClientAuthManager`, so that no entry of them expires.
-/
import Backuwup.Client.NetP2p.Signed
import Backuwup.Lib.HashMapDelay
import Backuwup.Lib.Pool
import Backuwup.Lib.Transition
import Backuwup.Shared.Types

namespace Backuwup.Server.Auth

open Transition
open Client (SignatureScheme)

variable {D : Type → Type → Type} [HashMapDelay D]

/-! ## 1. `ClientAuthManager` -/

abbrev ChallengeNonce := FixedBytes 16

abbrev SessionToken := FixedBytes 16

def challengeResponseLength : ℕ := 64

/-- `CHALLENGE_EXPIRATION`, in nanoseconds as all times here: 30 seconds. -/
def challengeExpiration : ℕ := 30 * 1000000000

/-- `SESSION_EXPIRATION`: a day. -/
def sessionExpiration : ℕ := 24 * 3600 * 1000000000

/-- The errors of `handlers::Error` that these handlers return. -/
inductive Error
  | badRequest
  | challengeNotFound
  | database
  | crypto
  | rng
  | clientNotFound (client : ClientId)
  | clientExists (client : ClientId)
deriving DecidableEq

structure ClientAuthManager (D : Type → Type → Type) where
  challenges : D ClientId ChallengeNonce
  sessions : D SessionToken ClientId

namespace ClientAuthManager

def new : ClientAuthManager D :=
  ⟨HashMapDelay.new challengeExpiration, HashMapDelay.new sessionExpiration⟩

/-- `challenge_begin`, with the nonce that has been drawn. -/
def challengeBegin (m : ClientAuthManager D) (now : ℕ) (client : ClientId)
    (nonce : ChallengeNonce) : ClientAuthManager D :=
  { m with challenges := HashMapDelay.insert m.challenges now client nonce }

/-- `challenge_verify`, with the nonce that it consumes. -/
def challengeVerify (V : SignatureScheme) (m : ClientAuthManager D) (client : ClientId)
    (response : Bytes) : Except Error (ChallengeNonce × ClientAuthManager D) :=
  match HashMapDelay.get m.challenges client with
  | none => .error .challengeNotFound
  | some nonce =>
    if V.verify client nonce.bytes response then
      .ok (nonce, { m with challenges := (HashMapDelay.remove m.challenges client).2 })
    else .error .crypto

/-- `session_start`, with the token that has been drawn. -/
def sessionStart (m : ClientAuthManager D) (now : ℕ) (client : ClientId) (token : SessionToken) :
    ClientAuthManager D :=
  { m with sessions := HashMapDelay.insert m.sessions now token client }

def getSession (m : ClientAuthManager D) (token : SessionToken) : Option ClientId :=
  HashMapDelay.get m.sessions token

end ClientAuthManager

/-! ## 2. The handlers -/

/-- What a client is asked to prove itself for. -/
inductive Endpoint
  | register
  | login
deriving DecidableEq

/-- The successful answers: a nonce to sign, `ServerMessage::Ok`, or a token. -/
inductive Reply
  | challenge (nonce : ChallengeNonce)
  | ok
  | token (token : SessionToken)
deriving DecidableEq

/-- Where a request is. -/
inductive Stage
  /-- `client_exists` comes next -/
  | beginning (endpoint : Endpoint)
  /-- the check has passed, `challenge_begin` comes next -/
  | checked (endpoint : Endpoint)
  /-- `challenge_verify` comes next -/
  | completing (endpoint : Endpoint) (response : Bytes)
  /-- the nonce has been consumed, `register_client` or `session_start` comes next -/
  | verified (endpoint : Endpoint) (nonce : ChallengeNonce)
  /-- `client_update_logged_in` comes next -/
  | started (token : SessionToken)
  | answered (answer : Except Error Reply)
deriving DecidableEq

/-- A request that is being handled. -/
structure Request where
  client : ClientId
  stage : Stage
deriving DecidableEq

def registerBegin (client : ClientId) : Request := ⟨client, .beginning .register⟩

def loginBegin (client : ClientId) : Request := ⟨client, .beginning .login⟩

/-- The check of the response that both complete requests begin with. -/
def complete (endpoint : Endpoint) (client : ClientId) (response : Bytes) : Request :=
  ⟨client, if response.length ≠ challengeResponseLength then .answered (.error .badRequest)
    else .completing endpoint response⟩

def registerComplete (client : ClientId) (response : Bytes) : Request :=
  complete .register client response

def loginComplete (client : ClientId) (response : Bytes) : Request :=
  complete .login client response

/-- What has happened. -/
inductive Entry
  | issued (endpoint : Endpoint) (client : ClientId) (nonce : ChallengeNonce) (time : ℕ)
  /-- the key of the client has signed the nonce -/
  | signed (client : ClientId) (nonce : ChallengeNonce)
  | verified (client : ClientId) (nonce : ChallengeNonce) (time : ℕ)
  | started (client : ClientId) (token : SessionToken) (nonce : ChallengeNonce) (time : ℕ)
  /-- `get_session` has returned the client -/
  | authorized (token : SessionToken) (client : ClientId) (time : ℕ)
deriving DecidableEq

/-- What the requests share: the time, the maps, the rows of `clients`, and the log, the latest
entry first. -/
structure Shared (D : Type → Type → Type) where
  now : ℕ
  auth : ClientAuthManager D
  clients : List ClientId
  log : List Entry

/-- A step of a request, with the outcome of what it calls. -/
inductive Event
  | clientExists (ok : Bool)
  /-- with the nonce that `getrandom` has drawn, if it has not failed -/
  | challengeBegin (nonce : Option ChallengeNonce)
  | challengeVerify
  | registerClient (ok : Bool)
  | sessionStart (token : Option SessionToken)
  | clientUpdateLoggedIn (ok : Bool)
deriving DecidableEq

def handleStep (V : SignatureScheme) (event : Event) (s : Shared D) (r : Request) :
    Option (Shared D × Request) :=
  let fail := fun e => some (s, ⟨r.client, .answered (.error e)⟩)
  match event, r.stage with
  | .clientExists false, .beginning _ => fail .database
  | .clientExists true, .beginning .register =>
    if r.client ∈ s.clients then fail (.clientExists r.client)
    else some (s, ⟨r.client, .checked .register⟩)
  | .clientExists true, .beginning .login =>
    if r.client ∉ s.clients then fail (.clientNotFound r.client)
    else some (s, ⟨r.client, .checked .login⟩)
  | .challengeBegin none, .checked _ => fail .rng
  | .challengeBegin (some nonce), .checked endpoint =>
    some ({ s with
      auth := s.auth.challengeBegin s.now r.client nonce
      log := .issued endpoint r.client nonce s.now :: s.log },
      ⟨r.client, .answered (.ok (.challenge nonce))⟩)
  | .challengeVerify, .completing endpoint response =>
    match s.auth.challengeVerify V r.client response with
    | .error e => fail e
    | .ok (nonce, auth) =>
      some ({ s with auth := auth, log := .verified r.client nonce s.now :: s.log },
        ⟨r.client, .verified endpoint nonce⟩)
  | .registerClient ok, .verified .register _ =>
    -- the public key is the primary key of the table
    if ok = true ∧ r.client ∉ s.clients then
      some ({ s with clients := r.client :: s.clients }, ⟨r.client, .answered (.ok .ok)⟩)
    else fail .database
  | .sessionStart none, .verified .login _ => fail .rng
  | .sessionStart (some token), .verified .login nonce =>
    some ({ s with
      auth := s.auth.sessionStart s.now r.client token
      log := .started r.client token nonce s.now :: s.log }, ⟨r.client, .started token⟩)
  | .clientUpdateLoggedIn ok, .started token =>
    -- an update of a row that is not there is no error
    if ok then some (s, ⟨r.client, .answered (.ok (.token token))⟩) else fail .database
  | _, _ => none

/-! ## 3. The server -/

abbrev State (D : Type → Type → Type) := Pool (Shared D) Request

variable (D) in
/-- The server has started with these clients in its database. -/
def start (clients : List ClientId) : State D := ⟨⟨0, .new, clients, []⟩, []⟩

inductive Action
  | registerBegin (client : ClientId)
  | registerComplete (client : ClientId) (response : Bytes)
  | loginBegin (client : ClientId)
  | loginComplete (client : ClientId) (response : Bytes)
  | handle (i : ℕ) (event : Event)
  /-- a handler of another request calls `get_session` -/
  | getSession (token : SessionToken)
  /-- whoever holds the key of the client signs a nonce -/
  | sign (client : ClientId) (nonce : ChallengeNonce)
  | wait (time : ℕ)
deriving DecidableEq

def step (V : SignatureScheme) (s : State D) : Action → Option (State D)
  | .registerBegin client => some (s.spawn (Auth.registerBegin client))
  | .registerComplete client response => some (s.spawn (Auth.registerComplete client response))
  | .loginBegin client => some (s.spawn (Auth.loginBegin client))
  | .loginComplete client response => some (s.spawn (Auth.loginComplete client response))
  | .handle i event => s.advance (handleStep V event) i
  | .getSession token =>
    match s.shared.auth.getSession token with
    | none => some s
    | some client => some { s with shared := { s.shared with
        log := .authorized token client s.shared.now :: s.shared.log } }
  | .sign client nonce =>
    some { s with shared := { s.shared with log := .signed client nonce :: s.shared.log } }
  | .wait time => some { s with shared := { s.shared with now := s.shared.now + time } }

/-! ## 4. What a step does -/

/-- What each step of a handler does, by the stage it finds. -/
inductive Handled (V : SignatureScheme) (client : ClientId) (s : Shared D) :
    Event → Stage → Shared D → Stage → Prop
  | answers (event : Event) (stage : Stage) (answer : Except Error Reply) :
      (event = .challengeVerify → ∀ endpoint response nonce, stage = .completing endpoint response →
        HashMapDelay.get s.auth.challenges client = some nonce →
        V.verify client nonce.bytes response = false) →
      Handled V client s event stage s (.answered answer)
  | passes (endpoint : Endpoint) : (endpoint = .login → client ∈ s.clients) →
      Handled V client s (.clientExists true) (.beginning endpoint) s (.checked endpoint)
  | issues (endpoint : Endpoint) (nonce : ChallengeNonce) :
      Handled V client s (.challengeBegin (some nonce)) (.checked endpoint)
        { s with
          auth := s.auth.challengeBegin s.now client nonce
          log := .issued endpoint client nonce s.now :: s.log }
        (.answered (.ok (.challenge nonce)))
  | verifies (endpoint : Endpoint) (response : Bytes) (nonce : ChallengeNonce) :
      HashMapDelay.get s.auth.challenges client = some nonce →
      V.verify client nonce.bytes response = true →
      Handled V client s .challengeVerify (.completing endpoint response)
        { s with
          auth := { s.auth with challenges := (HashMapDelay.remove s.auth.challenges client).2 }
          log := .verified client nonce s.now :: s.log }
        (.verified endpoint nonce)
  | registers (nonce : ChallengeNonce) : client ∉ s.clients →
      Handled V client s (.registerClient true) (.verified .register nonce)
        { s with clients := client :: s.clients } (.answered (.ok .ok))
  | starts (nonce : ChallengeNonce) (token : SessionToken) :
      Handled V client s (.sessionStart (some token)) (.verified .login nonce)
        { s with
          auth := s.auth.sessionStart s.now client token
          log := .started client token nonce s.now :: s.log }
        (.started token)

section

variable {V : SignatureScheme} {s s' : State D} {sh sh' : Shared D} {r r' : Request}

theorem handled_of_handleStep {event : Event} (h : handleStep V event sh r = some (sh', r')) :
    r'.client = r.client ∧ Handled V r.client sh event r.stage sh' r'.stage := by
  obtain ⟨client, stage⟩ := r
  cases event with
  | clientExists ok =>
    cases stage with
    | beginning endpoint =>
      cases ok <;> cases endpoint <;> simp only [handleStep] at h
      · cases h
        exact ⟨rfl, .answers _ _ _ (by simp)⟩
      · cases h
        exact ⟨rfl, .answers _ _ _ (by simp)⟩
      · split at h
        · cases h
          exact ⟨rfl, .answers _ _ _ (by simp)⟩
        · cases h
          exact ⟨rfl, .passes .register (by simp)⟩
      · split at h
        · cases h
          exact ⟨rfl, .answers _ _ _ (by simp)⟩
        · rename_i hmem
          cases h
          exact ⟨rfl, .passes .login fun _ => not_not.mp hmem⟩
    | _ => cases ok <;> simp [handleStep] at h
  | challengeBegin nonce =>
    cases stage with
    | checked endpoint =>
      cases nonce with
      | none =>
        cases h
        exact ⟨rfl, .answers _ _ _ (by simp)⟩
      | some nonce =>
        cases h
        exact ⟨rfl, .issues endpoint nonce⟩
    | _ => cases nonce <;> simp [handleStep] at h
  | challengeVerify =>
    cases stage with
    | completing endpoint response =>
      simp only [handleStep, ClientAuthManager.challengeVerify] at h
      split at h
      · rename_i herror
        cases h
        refine ⟨rfl, .answers _ _ _ ?_⟩
        rintro - endpoint' response' nonce hstage hget
        obtain ⟨rfl, rfl⟩ := Stage.completing.inj hstage
        simp only [hget] at herror
        split at herror
        · cases herror
        · rename_i hverify
          exact eq_false_of_ne_true hverify
      · rename_i hok
        cases h
        split at hok
        · cases hok
        · rename_i nonce hget
          split at hok
          · rename_i hverify
            cases hok
            exact ⟨rfl, .verifies endpoint response _ hget hverify⟩
          · cases hok
    | _ => simp [handleStep] at h
  | registerClient ok =>
    cases stage with
    | verified endpoint nonce =>
      cases endpoint with
      | register =>
        simp only [handleStep] at h
        split at h
        · rename_i hnew
          obtain ⟨rfl, hnew⟩ := hnew
          cases h
          exact ⟨rfl, .registers nonce hnew⟩
        · cases h
          exact ⟨rfl, .answers _ _ _ (by simp)⟩
      | login => simp [handleStep] at h
    | _ => simp [handleStep] at h
  | sessionStart token =>
    cases stage with
    | verified endpoint nonce =>
      cases endpoint with
      | register => cases token <;> simp [handleStep] at h
      | login =>
        cases token with
        | none =>
          cases h
          exact ⟨rfl, .answers _ _ _ (by simp)⟩
        | some token =>
          cases h
          exact ⟨rfl, .starts nonce token⟩
    | _ => cases token <;> simp [handleStep] at h
  | clientUpdateLoggedIn ok =>
    cases stage with
    | started token =>
      simp only [handleStep] at h
      split at h
      · cases h
        exact ⟨rfl, .answers _ _ _ (by simp)⟩
      · cases h
        exact ⟨rfl, .answers _ _ _ (by simp)⟩
    | _ => simp [handleStep] at h

def Action.arrives : Action → Bool
  | .registerBegin _ | .registerComplete _ _ | .loginBegin _ | .loginComplete _ _ => true
  | _ => false

/-- What each action does. -/
inductive Moved (V : SignatureScheme) (s : State D) : Action → State D → Prop
  | arrives (a : Action) (r : Request) : a.arrives = true →
      (∀ endpoint, r.stage ≠ .checked endpoint) →
      (∀ endpoint nonce, r.stage ≠ .verified endpoint nonce) → Moved V s a (s.spawn r)
  | handles (i : ℕ) (event : Event) (r : Request) (sh : Shared D) (stage : Stage) :
      s.tasks[i]? = some r → Handled V r.client s.shared event r.stage sh stage →
      Moved V s (.handle i event) ⟨sh, s.tasks.set i ⟨r.client, stage⟩⟩
  | refuses (token : SessionToken) : s.shared.auth.getSession token = none →
      Moved V s (.getSession token) s
  | authorizes (token : SessionToken) (client : ClientId) :
      s.shared.auth.getSession token = some client →
      Moved V s (.getSession token) { s with shared := { s.shared with
        log := .authorized token client s.shared.now :: s.shared.log } }
  | signs (client : ClientId) (nonce : ChallengeNonce) :
      Moved V s (.sign client nonce)
        { s with shared := { s.shared with log := .signed client nonce :: s.shared.log } }
  | waits (time : ℕ) :
      Moved V s (.wait time) { s with shared := { s.shared with now := s.shared.now + time } }

theorem Moved.completes {a : Action} (ha : a.arrives = true) (endpoint : Endpoint)
    (client : ClientId) (response : Bytes) :
    Moved V s a (s.spawn (complete endpoint client response)) := by
  refine .arrives a _ ha ?_ ?_ <;> unfold complete <;> split <;> simp

theorem moved_of_step {a : Action} (h : step V s a = some s') : Moved V s a s' := by
  cases a with
  | registerBegin client =>
    cases h
    exact .arrives _ _ rfl (by simp [Auth.registerBegin]) (by simp [Auth.registerBegin])
  | loginBegin client =>
    cases h
    exact .arrives _ _ rfl (by simp [Auth.loginBegin]) (by simp [Auth.loginBegin])
  | registerComplete client response =>
    cases h
    exact .completes rfl .register client response
  | loginComplete client response =>
    cases h
    exact .completes rfl .login client response
  | handle i event =>
    obtain ⟨r, sh, r', hr, hstep, rfl⟩ := Pool.advance_eq_some.mp h
    obtain ⟨hclient, hhandled⟩ := handled_of_handleStep hstep
    have hmoved := Moved.handles i event r sh r'.stage hr hhandled
    rwa [← hclient] at hmoved
  | getSession token =>
    simp only [step] at h
    split at h
    · rename_i hnone
      cases h
      exact .refuses token hnone
    · rename_i client hsome
      cases h
      exact .authorizes token client hsome
  | sign client nonce =>
    cases h
    exact .signs client nonce
  | wait time =>
    cases h
    exact .waits time

/-! ## 5. The nonces of a client -/

/-- The nonces that have been issued to the client, the latest first. -/
def issuesOf (client : ClientId) (log : List Entry) : List (Endpoint × ChallengeNonce) :=
  log.filterMap fun
    | .issued endpoint client' nonce _ => if client' = client then some (endpoint, nonce) else none
    | _ => none

/-- The nonces that the client has proved itself with. -/
def verifiedOf (client : ClientId) (log : List Entry) : List ChallengeNonce :=
  log.filterMap fun
    | .verified client' nonce _ => if client' = client then some nonce else none
    | _ => none

variable {client client' : ClientId} {nonce : ChallengeNonce} {log : List Entry}

theorem issuesOf_issued {endpoint : Endpoint} {time : ℕ} :
    issuesOf client (.issued endpoint client' nonce time :: log)
      = if client' = client then (endpoint, nonce) :: issuesOf client log
        else issuesOf client log := by
  unfold issuesOf
  rw [List.filterMap_cons]
  split <;> rename_i h <;> split at h <;> simp_all

@[simp] theorem issuesOf_signed :
    issuesOf client (.signed client' nonce :: log) = issuesOf client log := rfl

@[simp] theorem issuesOf_verified {time : ℕ} :
    issuesOf client (.verified client' nonce time :: log) = issuesOf client log := rfl

@[simp] theorem issuesOf_started {token : SessionToken} {time : ℕ} :
    issuesOf client (.started client' token nonce time :: log) = issuesOf client log := rfl

@[simp] theorem issuesOf_authorized {token : SessionToken} {time : ℕ} :
    issuesOf client (.authorized token client' time :: log) = issuesOf client log := rfl

/-- What a log yields by the one kind of entries that tells of it. -/
theorem mem_filterMap_entry {α β : Type*} {f : Entry → Option α} {x : α} {entry : β → Entry}
    (h : ∀ e, f e = some x ↔ ∃ b, e = entry b) :
    x ∈ log.filterMap f ↔ ∃ b, entry b ∈ log := by
  rw [List.mem_filterMap]
  constructor
  · rintro ⟨e, hmem, hx⟩
    obtain ⟨b, rfl⟩ := (h e).mp hx
    exact ⟨b, hmem⟩
  · rintro ⟨b, hmem⟩
    exact ⟨_, hmem, (h _).mpr ⟨b, rfl⟩⟩

theorem mem_issuesOf {endpoint : Endpoint} : (endpoint, nonce) ∈ issuesOf client log ↔
    ∃ time, .issued endpoint client nonce time ∈ log :=
  mem_filterMap_entry fun e => by cases e <;> simp; grind

theorem verifiedOf_verified {time : ℕ} :
    verifiedOf client (.verified client' nonce time :: log)
      = if client' = client then nonce :: verifiedOf client log else verifiedOf client log := by
  unfold verifiedOf
  rw [List.filterMap_cons]
  split <;> rename_i h <;> split at h <;> simp_all

theorem mem_verifiedOf :
    nonce ∈ verifiedOf client log ↔ ∃ time, .verified client nonce time ∈ log :=
  mem_filterMap_entry fun e => by cases e <;> simp

/-- A stand-in for the signature scheme: the signature of a nonce holds the nonce and the client. -/
def stampScheme : SignatureScheme where
  sign client body := (body ++ client.bytes ++ List.replicate challengeResponseLength 0).take
    challengeResponseLength
  verify client body signature := decide (signature =
    (body ++ client.bytes ++ List.replicate challengeResponseLength 0).take challengeResponseLength)

/-- What the client answers to a nonce. -/
def stamp (client : ClientId) (nonce : ChallengeNonce) : Bytes :=
  stampScheme.sign client nonce.bytes

/-! ## 6. What the log says of the two maps -/

/-- The insertions into the map of challenges, with the endpoint and the time, and the removals. -/
def challengeChanges (log : List Entry) :
    List (HashMapDelay.Change ClientId (Endpoint × ChallengeNonce × ℕ)) :=
  log.filterMap fun
    | .issued endpoint client nonce time => some (.inserted client (endpoint, nonce, time))
    | .verified client _ _ => some (.removed client)
    | _ => none

/-- The insertions into the map of sessions, with the nonce and the time. -/
def sessionChanges (log : List Entry) :
    List (HashMapDelay.Change SessionToken (ClientId × ChallengeNonce × ℕ)) :=
  log.filterMap fun
    | .started client token nonce time => some (.inserted token (client, nonce, time))
    | _ => none

/-- The nonce that a response of the client is compared with: the first that was issued to it since
its last success. -/
def pending (client : ClientId) (log : List Entry) : Option (Endpoint × ChallengeNonce × ℕ) :=
  HashMapDelay.standing client (challengeChanges log)

/-- The session of a token: the first that was started with it. -/
def sessionOf (token : SessionToken) (log : List Entry) : Option (ClientId × ChallengeNonce × ℕ) :=
  HashMapDelay.standing token (sessionChanges log)

@[simp] theorem pending_nil : pending client [] = none := rfl

theorem pending_issued {endpoint : Endpoint} {time : ℕ} :
    pending client (.issued endpoint client' nonce time :: log) =
      if client' = client then some ((pending client log).getD (endpoint, nonce, time))
      else pending client log := rfl

theorem pending_verified {time : ℕ} : pending client (.verified client' nonce time :: log) =
    if client' = client then none else pending client log := rfl

@[simp] theorem pending_signed :
    pending client (.signed client' nonce :: log) = pending client log := rfl

@[simp] theorem pending_started {token : SessionToken} {time : ℕ} :
    pending client (.started client' token nonce time :: log) = pending client log := rfl

@[simp] theorem pending_authorized {token : SessionToken} {time : ℕ} :
    pending client (.authorized token client' time :: log) = pending client log := rfl

theorem mem_of_pending {endpoint : Endpoint} {time : ℕ}
    (h : pending client log = some (endpoint, nonce, time)) :
    .issued endpoint client nonce time ∈ log := by
  obtain ⟨entry, hmem, hentry⟩ := List.mem_filterMap.mp (HashMapDelay.mem_of_standing h)
  cases entry <;> simp_all

theorem mem_of_sessionOf {token : SessionToken} {time : ℕ}
    (h : sessionOf token log = some (client, nonce, time)) :
    .started client token nonce time ∈ log := by
  obtain ⟨entry, hmem, hentry⟩ := List.mem_filterMap.mp (HashMapDelay.mem_of_standing h)
  cases entry <;> simp_all

/-- The log accounts for both maps. -/
structure Accounted (sh : Shared D) : Prop where
  challenges : HashMapDelay.Accounts (fun b => b.2.1) (challengeChanges sh.log) sh.auth.challenges
  sessions : HashMapDelay.Accounts Prod.fst (sessionChanges sh.log) sh.auth.sessions

theorem accounted_start [LawfulHashMapDelay D] (clients : List ClientId) :
    Accounted (start D clients).shared :=
  ⟨HashMapDelay.accounts_new _, HashMapDelay.accounts_new _⟩

theorem accounted_handled [LawfulHashMapDelay D] {event : Event} {stage stage' : Stage}
    (h : Accounted sh) (hh : Handled V client sh event stage sh' stage') : Accounted sh' := by
  cases hh with
  | answers | passes | registers => exact ⟨h.challenges, h.sessions⟩
  | issues endpoint nonce =>
    exact ⟨h.challenges.insert sh.now client (endpoint, nonce, sh.now), h.sessions⟩
  | verifies endpoint response nonce hget hverify =>
    exact ⟨h.challenges.remove client, h.sessions⟩
  | starts nonce token =>
    exact ⟨h.challenges, h.sessions.insert sh.now token (client, nonce, sh.now)⟩

theorem accounted_step [LawfulHashMapDelay D] {a : Action} (h : Accounted s.shared)
    (hst : step V s a = some s') : Accounted s'.shared := by
  cases moved_of_step hst with
  | arrives | refuses => exact h
  | handles i event r sh stage hr hh => exact accounted_handled h hh
  | authorizes | signs | waits => exact ⟨h.challenges, h.sessions⟩

/-- The nonce that is found is the pending one. -/
theorem Accounted.pending_of_get (h : Accounted sh)
    (hget : HashMapDelay.get sh.auth.challenges client = some nonce) :
    ∃ endpoint time, pending client sh.log = some (endpoint, nonce, time) := by
  obtain ⟨⟨endpoint, nonce', time⟩, hpending, rfl⟩ := h.challenges.standing_of_get hget
  exact ⟨endpoint, time, hpending⟩

theorem Accounted.sessionOf_of_get (h : Accounted sh) {token : SessionToken}
    (hget : sh.auth.getSession token = some client) :
    ∃ nonce time, sessionOf token sh.log = some (client, nonce, time) := by
  obtain ⟨⟨client', nonce, time⟩, hsession, rfl⟩ := h.sessions.standing_of_get hget
  exact ⟨nonce, time, hsession⟩

/-! ## 7. Sessions of registered clients -/

/-- Every token of the session map belongs to a client with a row in `clients`. -/
def SessionsRegistered (s : State D) : Prop :=
  ∀ token client, s.shared.auth.getSession token = some client → client ∈ s.shared.clients

/-- All database calls succeed. -/
def DatabaseSucceeds (_ : State D) : Action → Prop
  | .handle _ (.clientExists ok) | .handle _ (.registerClient ok)
  | .handle _ (.clientUpdateLoggedIn ok) => ok = true
  | _ => True

/-- A nonce that completes a login was issued for a login, or its client has registered since. -/
def ForLogin (V : SignatureScheme) (s : State D) : Action → Prop
  | .handle i .challengeVerify => ∀ client response endpoint nonce time,
      s.tasks[i]? = some ⟨client, .completing .login response⟩ →
      pending client s.shared.log = some (endpoint, nonce, time) →
      V.verify client nonce.bytes response = true →
      endpoint = .login ∨ client ∈ s.shared.clients
  | _ => True

/-- A request that gets a session unless it fails. -/
def Stage.LoggingIn (stage : Stage) : Prop :=
  stage = .checked .login ∨ ∃ nonce, stage = .verified .login nonce

/-- Who may get a session is registered. -/
structure Registered (s : State D) : Prop where
  accounted : Accounted s.shared
  issued : ∀ client nonce time, pending client s.shared.log = some (.login, nonce, time) →
    client ∈ s.shared.clients
  requests : ∀ r ∈ s.tasks, r.stage.LoggingIn → r.client ∈ s.shared.clients
  sessions : SessionsRegistered s

theorem registered_start [LawfulHashMapDelay D] (clients : List ClientId) :
    Registered (start D clients) where
  accounted := accounted_start clients
  issued client nonce time h := by simp [start] at h
  requests _ h := by simp [start] at h
  sessions _ _ h := by simp [start, ClientAuthManager.getSession, ClientAuthManager.new] at h

/-- One step of a handler. -/
theorem Registered.handled [LawfulHashMapDelay D] (h : Registered s) {i : ℕ} {event : Event}
    {r : Request} {sh : Shared D} {stage : Stage} (hr : s.tasks[i]? = some r)
    (hok : ForLogin V s (.handle i event))
    (hh : Handled V r.client s.shared event r.stage sh stage) :
    Registered ⟨sh, s.tasks.set i ⟨r.client, stage⟩⟩ := by
  obtain ⟨client, stage₀⟩ := r
  have hmem := h.requests _ (List.mem_of_getElem? hr)
  have haccounted : Accounted sh := accounted_handled h.accounted hh
  cases hh with
  | answers event stage answer hfails =>
    exact { h with requests := Pool.forall_mem_set h.requests (by simp [Stage.LoggingIn]) }
  | passes endpoint hlogin =>
    refine { h with requests := Pool.forall_mem_set h.requests ?_ }
    rintro (hstage | ⟨nonce, hstage⟩)
    · cases hstage
      exact hlogin rfl
    · cases hstage
  | issues endpoint nonce =>
    refine ⟨haccounted, ?_, Pool.forall_mem_set h.requests (by simp [Stage.LoggingIn]),
      h.sessions⟩
    intro c n t hpending
    rw [pending_issued] at hpending
    split at hpending
    · rename_i hc
      subst hc
      cases hbefore : pending client s.shared.log with
      | none =>
        rw [hbefore] at hpending
        cases hpending
        exact hmem (Or.inl rfl)
      | some b =>
        rw [hbefore] at hpending
        cases hpending
        exact h.issued client n t hbefore
    · exact h.issued c n t hpending
  | verifies endpoint response nonce hget hverify =>
    obtain ⟨endpoint', time, hpending⟩ := h.accounted.pending_of_get hget
    refine ⟨haccounted, ?_, Pool.forall_mem_set h.requests ?_, h.sessions⟩
    · intro c n t hafter
      rw [pending_verified] at hafter
      split at hafter
      · cases hafter
      · exact h.issued c n t hafter
    · rintro (hstage | ⟨n, hstage⟩)
      · cases hstage
      · cases hstage
        rcases hok client response endpoint' nonce time hr hpending hverify with rfl | hrow
        · exact h.issued client nonce time hpending
        · exact hrow
  | registers nonce hnew =>
    have hgrows : s.shared.clients ⊆ client :: s.shared.clients := List.subset_cons_self _ _
    refine ⟨haccounted, fun c n t hc => hgrows (h.issued c n t hc), Pool.forall_mem_set ?_ ?_,
      fun token c hc => hgrows (h.sessions token c hc)⟩
    · exact fun r hr hstage => hgrows (h.requests r hr hstage)
    · simp [Stage.LoggingIn]
  | starts nonce token =>
    refine ⟨haccounted, h.issued, Pool.forall_mem_set h.requests (by simp [Stage.LoggingIn]), ?_⟩
    intro token' c hc
    simp only [ClientAuthManager.getSession, ClientAuthManager.sessionStart,
      LawfulHashMapDelay.get_insert] at hc
    split at hc
    · rename_i htoken
      subst htoken
      cases hold : HashMapDelay.get s.shared.auth.sessions token' with
      | none =>
        rw [hold] at hc
        cases hc
        exact hmem (Or.inr ⟨nonce, rfl⟩)
      | some owner =>
        rw [hold] at hc
        cases hc
        exact h.sessions token' owner hold
    · exact h.sessions token' c hc

theorem registered_step [LawfulHashMapDelay D] {a : Action} (h : Registered s)
    (hok : ForLogin V s a) (hst : step V s a = some s') : Registered s' := by
  cases moved_of_step hst with
  | arrives a r harrives hchecked hverified =>
    refine { h with requests := Pool.forall_mem_spawn h.requests ?_ }
    rintro (hstage | ⟨nonce, hstage⟩)
    · exact absurd hstage (hchecked _)
    · exact absurd hstage (hverified _ _)
  | handles i event r sh stage hr hh => exact h.handled hr hok hh
  | refuses token hnone => exact h
  | authorizes | signs | waits =>
    exact ⟨⟨h.accounted.challenges, h.accounted.sessions⟩, h.issued, h.requests, h.sessions⟩

/-- In every run in which a login is only completed with a nonce that was issued for a login, or
by a client that has registered since, every session belongs to a registered client. -/
theorem sessions_registered [LawfulHashMapDelay D] {clients : List ClientId}
    (h : Reach (step V) (ForLogin V) (start D clients) s) : SessionsRegistered s :=
  (h.invariant (registered_start clients) fun _ _ _ hs hok hst =>
    registered_step hs hok hst).sessions

/-- The client of a login that is being completed has a row. -/
def completesRegistered (s : State D) : Action → Bool
  | .handle i .challengeVerify => (s.tasks[i]?).all fun r => decide (r.client ∈ s.shared.clients) ||
      match r.stage with
      | .completing .login _ => false
      | _ => true
  | _ => true

omit [HashMapDelay D] in
theorem completesRegistered_ok (s : State D) (a : Action) (h : completesRegistered s a = true) :
    ForLogin V s a := by
  unfold ForLogin
  split
  · intro client response endpoint nonce time hr _ _
    simp only [completesRegistered, hr, Option.all_some, Bool.or_false, decide_eq_true_eq] at h
    exact Or.inr h
  · trivial

/-- A client that the runs are about. -/
def alice : ClientId := .fill 1

def registerAlice : List Action :=
  [.registerBegin alice, .handle 0 (.clientExists true),
   .handle 0 (.challengeBegin (some (.fill 7))), .sign alice (.fill 7),
   .registerComplete alice (stamp alice (.fill 7)), .handle 1 .challengeVerify,
   .handle 1 (.registerClient true)]

def loginAlice : List Action :=
  [.loginBegin alice, .handle 2 (.clientExists true), .handle 2 (.challengeBegin (some (.fill 8))),
   .sign alice (.fill 8), .loginComplete alice (stamp alice (.fill 8)), .handle 3 .challengeVerify,
   .handle 3 (.sessionStart (some (.fill 9))), .handle 3 (.clientUpdateLoggedIn true)]

theorem sessions_registered_alice : ∃ s : State DelayMap,
    s.shared.auth.getSession (.fill 9) = some alice ∧ SessionsRegistered s := by
  obtain ⟨s, hs, hsession⟩ : ∃ s, runWhen (step stampScheme) completesRegistered (start DelayMap [])
      (registerAlice ++ loginAlice) = some s ∧
      s.shared.auth.getSession (.fill 9) = some alice := by decide +kernel
  exact ⟨s, hsession, sessions_registered (reach_of_runWhen completesRegistered_ok hs)⟩

/-- A nonce that was issued for a registration completes a login. -/
theorem unregistered_session :
    ¬ ∀ (V : SignatureScheme) (clients : List ClientId) (s : State DelayMap),
      Reach (step V) DatabaseSucceeds (start DelayMap clients) s → SessionsRegistered s := by
  intro h
  obtain ⟨s, hs, hsession, hclients⟩ : ∃ s, run (step stampScheme) (start DelayMap [])
      [.registerBegin alice, .handle 0 (.clientExists true),
       .handle 0 (.challengeBegin (some (.fill 7))), .sign alice (.fill 7),
       .loginComplete alice (stamp alice (.fill 7)), .handle 1 .challengeVerify,
       .handle 1 (.sessionStart (some (.fill 9))), .handle 1 (.clientUpdateLoggedIn true)]
        = some s ∧
      s.shared.auth.getSession (.fill 9) = some alice ∧ s.shared.clients = [] := by decide +kernel
  have hreach : Reach (step stampScheme) DatabaseSucceeds (start DelayMap []) s := by
    refine reach_of_run (fun a ha s => ?_) hs
    simp only [List.mem_cons, List.not_mem_nil, or_false] at ha
    rcases ha with rfl | rfl | rfl | rfl | rfl | rfl | rfl | rfl <;>
      first | rfl | trivial
  have hmem := h stampScheme [] s hreach (.fill 9) alice hsession
  rw [hclients] at hmem
  cases hmem

end

end Backuwup.Server.Auth
