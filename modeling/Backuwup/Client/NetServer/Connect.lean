/-
# One token for everybody (`client/src/net_server/mod.rs`, `net_server/requests.rs`)

`connect_ws` keeps the connection to the server up, and the requests of the rest of the client go
through `retry_with_login`.  All of them use the token in the configuration: whoever is told that it
is not valid wipes it, whoever finds none logs in and stores a new one, and nobody knows of the
others.  A token can be wiped that has just been stored, and of two logins at a time only one can
answer the nonce that the server remembers.

`session_kept`: as long as the server is not restarted, no request is unauthorized, the token is
never wiped, and no call is out of rounds.  That a client logs in at all is another matter
(`LockedOut.lean`).

The database of the client does not fail.  What a request does once it is authorized is left out.
-/
import Backuwup.Client.NetServer.Requests
import Backuwup.Client.Setup

namespace Backuwup.Client.Connecting

open Transition
open Config
open Requests (CallError)
open Setup (Handshake Progress HandshakeOk Later handshake_step retains_of_later)
open Server.Auth (SessionToken ChallengeNonce)

variable {D : Type → Type → Type} [HashMapDelay D]

/-! ## 1. The two loops -/

/-- Where a loop is. -/
inductive Pc
  /-- `load_auth_token` comes next -/
  | loading
  /-- the request is under way -/
  | requesting (token : SessionToken)
  /-- the server has refused it, `save_auth_token(None)` comes next -/
  | unauthorized
  | sleeping
  | loggingIn (h : Handshake)
  | done (result : Except CallError Unit)
deriving DecidableEq

/-- A task in one of the loops. -/
structure Task where
  /-- the rounds that are left; the loop of `websocket_connect` does not count them -/
  rounds : Option ℕ
  pc : Pc
deriving DecidableEq

/-- `websocket_connect`, which is done when it is connected. -/
def websocketConnect : Task := ⟨none, .loading⟩

def retryWithLogin : Task := ⟨some 2, .loading⟩

namespace Task

def goes (t : Task) (pc : Pc) : Task := { t with pc := pc }

/-- `retry_with_login` returns the error, `websocket_connect` tries again later. -/
def fails (t : Task) (e : CallError) : Task :=
  t.goes (if t.rounds.isSome then .done (.error e) else .sleeping)

end Task

/-- The configuration, and the server. -/
structure Shared (D : Type → Type → Type) where
  rows : ConfigRows
  server : Server.Auth.State D

/-- A step of a task. -/
inductive Event
  | load
  /-- the server looks at the token; then the request succeeds, or fails for another reason -/
  | answer (ok : Bool)
  | wipe
  | login
  /-- the network fails -/
  | fails
  | wake
  /-- the connection is closed, and `connect_ws` calls `websocket_connect` again -/
  | closed
deriving DecidableEq

variable (V : SignatureScheme) (me : ClientId)

def taskStep (event : Event) (s : Shared D) (t : Task) : Option (Shared D × Task) :=
  match event, t.pc with
  | .load, .loading =>
    if t.rounds = some 0 then some (s, t.goes (.done (.error .unrecoverableAuthError)))
    else
      let t := { t with rounds := t.rounds.map (· - 1) }
      match loadAuthToken s.rows with
      | .ok (some token) => some (s, t.goes (.requesting token))
      | .ok none => some (s, t.goes (.loggingIn .beginning))
      -- `websocket_connect` panics
      | .error _ => some (s, t.goes (.done (.error .invalidAuthTokenLength)))
  | .answer ok, .requesting token =>
    if (s.server.shared.auth.getSession token).isSome then
      if ok then some (s, t.goes (.done (.ok ()))) else some (s, t.fails (.request .other))
    else some (s, t.goes .unauthorized)
  | .wipe, .unauthorized =>
    some ({ s with rows := saveAuthToken s.rows none },
      t.goes (if t.rounds.isSome then .sleeping else .loading))
  | .login, .loggingIn h =>
    match h.step V .login me s.server with
    | some (server, .pending h) => some ({ s with server := server }, t.goes (.loggingIn h))
    | some (server, .accepted (.token token)) =>
      some (⟨saveAuthToken s.rows (some token), server⟩, t.goes .loading)
    | some (server, _) => some ({ s with server := server }, t.fails .loginFailed)
    | none => none
  | .fails, .requesting _ => some (s, t.fails (.request .network))
  | .fails, .loggingIn _ => some (s, t.fails .loginFailed)
  | .wake, .sleeping => some (s, t.goes .loading)
  | .closed, .done (.ok ()) => if t.rounds = none then some (s, t.goes .loading) else none
  | _, _ => none

/-! ## 2. The client and the server -/

/-- The calls that have been made, beside the connection. -/
structure State (D : Type → Type → Type) extends Pool (Shared D) Task where
  websocket : Task

/-- The client begins to run, with what is stored. -/
def start (rows : ConfigRows) (server : Server.Auth.State D) : State D :=
  ⟨⟨⟨rows, server⟩, []⟩, websocketConnect⟩

/-- A request that the server was handling when it stopped: its client gets no answer. -/
def killed (r : Server.Auth.Request) : Server.Auth.Request :=
  match r.stage with
  | .answered _ => r
  | _ => { r with stage := .answered (.error .database) }

/-- The server stops and starts again: the clients are in its database, nonces and sessions are
not. -/
def restarted (server : Server.Auth.State D) : Server.Auth.State D :=
  ⟨{ server.shared with auth := .new }, server.tasks.map killed⟩

inductive Action
  /-- a request of someone else, or a step of the server -/
  | server (a : Server.Auth.Action)
  | restart
  | websocket (event : Event)
  | startCall
  | call (k : ℕ) (event : Event)
deriving DecidableEq

namespace State

def setServer (s : State D) (server : Server.Auth.State D) : State D :=
  { s with shared := { s.shared with server := server } }

end State

def step (s : State D) : Action → Option (State D)
  | .server a => (Server.Auth.step V s.shared.server a).map s.setServer
  | .restart => some (s.setServer (restarted s.shared.server))
  | .websocket event =>
    (taskStep V me event s.shared s.websocket).map fun r =>
      { s with shared := r.1, websocket := r.2 }
  | .startCall => some { s with toPool := s.toPool.spawn retryWithLogin }
  | .call k event =>
    (s.toPool.advance (taskStep V me event) k).map fun p => { s with toPool := p }

/-! ## 3. What a step of a task does -/

/-- The server has a session for the token. -/
abbrev Accepts (server : Server.Auth.Shared D) (token : SessionToken) : Prop :=
  (server.auth.getSession token).isSome = true

/-- The request that a login waits for. -/
def awaits : Handshake → Option ℕ
  | .awaitingChallenge i | .awaitingAnswer i => some i
  | _ => none

/-- The log of the server has been written to. -/
def withLog (server : Server.Auth.State D) (log : List Server.Auth.Entry) : Server.Auth.State D :=
  { server with shared := { server.shared with log := log } }

omit [HashMapDelay D] in
@[simp] theorem withLog_tasks (server : Server.Auth.State D) (log : List Server.Auth.Entry) :
    (withLog server log).tasks = server.tasks := rfl

/-- The steps of a login. -/
inductive Asked (server : Server.Auth.State D) : Handshake → Server.Auth.State D → Progress → Prop
  | begins : Asked server .beginning (server.spawn (Server.Auth.loginBegin me))
      (.pending (.awaitingChallenge server.tasks.length))
  | receives (i : ℕ) (client : ClientId) (nonce : ChallengeNonce) :
      server.tasks[i]? = some ⟨client, .answered (.ok (.challenge nonce))⟩ →
      Asked server (.awaitingChallenge i) server (.pending (.signing nonce))
  | completes (nonce : ChallengeNonce) :
      Asked server (.signing nonce)
        ((withLog server (.signed me nonce :: server.shared.log)).spawn
          (Server.Auth.loginComplete me (V.sign me nonce.bytes)))
        (.pending (.awaitingAnswer server.tasks.length))
  | accepted (i : ℕ) (client : ClientId) (token : SessionToken) :
      server.tasks[i]? = some ⟨client, .answered (.ok (.token token))⟩ →
      Asked server (.awaitingAnswer i) server (.accepted (.token token))
  | refusedChallenge (i : ℕ) (client : ClientId)
      (answer : Except Server.Auth.Error Server.Auth.Reply) :
      server.tasks[i]? = some ⟨client, .answered answer⟩ →
      (∀ nonce, answer ≠ .ok (.challenge nonce)) →
      Asked server (.awaitingChallenge i) server .failed
  | refusedToken (i : ℕ) (client : ClientId)
      (answer : Except Server.Auth.Error Server.Auth.Reply) :
      server.tasks[i]? = some ⟨client, .answered answer⟩ →
      (∀ token, answer ≠ .ok (.token token)) →
      Asked server (.awaitingAnswer i) server .failed

inductive TaskMoved (s : Shared D) : Event → Task → Shared D → Task → Prop
  | exhausted :
      TaskMoved s .load ⟨some 0, .loading⟩ s ⟨some 0, .done (.error .unrecoverableAuthError)⟩
  | loads (rounds : Option ℕ) (token : SessionToken) : rounds ≠ some 0 →
      loadAuthToken s.rows = .ok (some token) →
      TaskMoved s .load ⟨rounds, .loading⟩ s ⟨rounds.map (· - 1), .requesting token⟩
  | lacks (rounds : Option ℕ) : rounds ≠ some 0 → loadAuthToken s.rows = .ok none →
      TaskMoved s .load ⟨rounds, .loading⟩ s ⟨rounds.map (· - 1), .loggingIn .beginning⟩
  | unreadable (rounds : Option ℕ) (e : ConfigError) : loadAuthToken s.rows = .error e →
      TaskMoved s .load ⟨rounds, .loading⟩ s
        ⟨rounds.map (· - 1), .done (.error .invalidAuthTokenLength)⟩
  | succeeds (rounds : Option ℕ) (token : SessionToken) : Accepts s.server.shared token →
      TaskMoved s (.answer true) ⟨rounds, .requesting token⟩ s ⟨rounds, .done (.ok ())⟩
  | disappoints (rounds : Option ℕ) (token : SessionToken) : Accepts s.server.shared token →
      TaskMoved s (.answer false) ⟨rounds, .requesting token⟩ s
        (Task.fails ⟨rounds, .requesting token⟩ (.request .other))
  | refused (ok : Bool) (rounds : Option ℕ) (token : SessionToken) :
      ¬ Accepts s.server.shared token →
      TaskMoved s (.answer ok) ⟨rounds, .requesting token⟩ s ⟨rounds, .unauthorized⟩
  | wipes (rounds : Option ℕ) :
      TaskMoved s .wipe ⟨rounds, .unauthorized⟩ { s with rows := saveAuthToken s.rows none }
        ⟨rounds, if rounds.isSome then .sleeping else .loading⟩
  | proceeds (rounds : Option ℕ) (h h' : Handshake) (server : Server.Auth.State D) :
      h.step V .login me s.server = some (server, .pending h') →
      TaskMoved s .login ⟨rounds, .loggingIn h⟩ { s with server := server } ⟨rounds, .loggingIn h'⟩
  | saves (rounds : Option ℕ) (h : Handshake) (server : Server.Auth.State D)
      (token : SessionToken) :
      h.step V .login me s.server = some (server, .accepted (.token token)) →
      TaskMoved s .login ⟨rounds, .loggingIn h⟩ ⟨saveAuthToken s.rows (some token), server⟩
        ⟨rounds, .loading⟩
  | loginFails (rounds : Option ℕ) (h : Handshake) (server : Server.Auth.State D) :
      h.step V .login me s.server = some (server, .failed) →
      TaskMoved s .login ⟨rounds, .loggingIn h⟩ { s with server := server }
        (Task.fails ⟨rounds, .loggingIn h⟩ .loginFailed)
  | cutOff (t : Task) (e : CallError) : e ≠ .unrecoverableAuthError →
      ((∃ token, t.pc = .requesting token) ∨ ∃ h, t.pc = .loggingIn h) →
      TaskMoved s .fails t s (t.fails e)
  | wakes (rounds : Option ℕ) : TaskMoved s .wake ⟨rounds, .sleeping⟩ s ⟨rounds, .loading⟩
  | closes : TaskMoved s .closed ⟨none, .done (.ok ())⟩ s ⟨none, .loading⟩

section

variable {V : SignatureScheme} {me : ClientId} {s s' : State D} {sh sh' : Shared D} {t t' : Task}
  {server server' : Server.Auth.State D} {h : Handshake} {p : Progress} {event : Event}

omit [HashMapDelay D] in
/-- What a step of a login does. -/
theorem asked_of_step (hst : h.step V .login me server = some (server', p)) :
    Asked V me server h server' p := by
  cases h with
  | beginning =>
    obtain ⟨rfl, rfl⟩ := Prod.mk.inj (Option.some.inj hst)
    exact .begins
  | awaitingChallenge i =>
    simp only [Handshake.step] at hst
    split at hst
    · rename_i nonce heq
      obtain ⟨r, hr, hstage⟩ := Option.map_eq_some_iff.mp heq
      obtain ⟨rfl, rfl⟩ := Prod.mk.inj (Option.some.inj hst)
      exact .receives i r.client nonce (by rw [hr, ← hstage])
    · rename_i answer hother heq
      obtain ⟨r, hr, hstage⟩ := Option.map_eq_some_iff.mp heq
      obtain ⟨rfl, rfl⟩ := Prod.mk.inj (Option.some.inj hst)
      refine .refusedChallenge i r.client answer (by rw [hr, ← hstage]) ?_
      rintro nonce rfl
      exact hother nonce rfl
    · cases hst
  | signing nonce =>
    obtain ⟨rfl, rfl⟩ := Prod.mk.inj (Option.some.inj hst)
    exact .completes nonce
  | awaitingAnswer i =>
    simp only [Handshake.step] at hst
    split at hst
    · rename_i reply heq
      obtain ⟨r, hr, hstage⟩ := Option.map_eq_some_iff.mp heq
      have hi : server.tasks[i]? = some ⟨r.client, .answered (.ok reply)⟩ := by rw [hr, ← hstage]
      split at hst
      · exact absurd ‹Server.Auth.Endpoint.login = .register› (by decide)
      · obtain ⟨rfl, rfl⟩ := Prod.mk.inj (Option.some.inj hst)
        exact .accepted i r.client _ hi
      · rename_i hother
        obtain ⟨rfl, rfl⟩ := Prod.mk.inj (Option.some.inj hst)
        refine .refusedToken i r.client _ hi ?_
        intro token htoken
        exact hother token rfl (Except.ok.inj htoken)
    · rename_i e heq
      obtain ⟨r, hr, hstage⟩ := Option.map_eq_some_iff.mp heq
      obtain ⟨rfl, rfl⟩ := Prod.mk.inj (Option.some.inj hst)
      exact .refusedToken i r.client _ (by rw [hr, ← hstage]) (by simp)
    · cases hst

theorem taskMoved_of_taskStep (hst : taskStep V me event sh t = some (sh', t')) :
    TaskMoved V me sh event t sh' t' := by
  obtain ⟨rounds, pc⟩ := t
  cases event with
  | load =>
    cases pc with
    | loading =>
      simp only [taskStep] at hst
      split at hst
      · rename_i hzero
        obtain rfl : rounds = some 0 := hzero
        cases hst
        exact .exhausted
      · rename_i hrounds
        split at hst
        · cases hst
          exact .loads rounds _ hrounds ‹_›
        · cases hst
          exact .lacks rounds hrounds ‹_›
        · cases hst
          exact .unreadable rounds _ ‹_›
    | _ => simp [taskStep] at hst
  | answer ok =>
    cases pc with
    | requesting token =>
      simp only [taskStep] at hst
      split at hst
      · rename_i haccepts
        cases ok
        · cases hst
          exact .disappoints rounds token haccepts
        · cases hst
          exact .succeeds rounds token haccepts
      · cases hst
        exact .refused ok rounds token ‹_›
    | _ => simp [taskStep] at hst
  | wipe =>
    cases pc with
    | unauthorized =>
      cases hst
      exact .wipes rounds
    | _ => simp [taskStep] at hst
  | login =>
    cases pc with
    | loggingIn h =>
      simp only [taskStep] at hst
      split at hst
      · cases hst
        exact .proceeds rounds h _ _ ‹_›
      · cases hst
        exact .saves rounds h _ _ ‹_›
      · rename_i server p hpending htoken hstep
        cases hst
        -- `login` takes only a token for an answer
        obtain rfl : p = .failed := by
          cases asked_of_step hstep with
          | refusedChallenge | refusedToken => rfl
          | begins | receives | completes => exact (hpending _ rfl).elim
          | accepted => exact (htoken _ rfl).elim
        exact .loginFails rounds h server hstep
      · cases hst
    | _ => simp [taskStep] at hst
  | fails =>
    cases pc with
    | requesting token =>
      cases hst
      exact .cutOff _ _ (by simp) (Or.inl ⟨token, rfl⟩)
    | loggingIn h =>
      cases hst
      exact .cutOff _ _ (by simp) (Or.inr ⟨h, rfl⟩)
    | _ => simp [taskStep] at hst
  | wake =>
    cases pc with
    | sleeping =>
      cases hst
      exact .wakes rounds
    | _ => simp [taskStep] at hst
  | closed =>
    cases pc with
    | done result =>
      cases result with
      | error e => simp [taskStep] at hst
      | ok =>
        simp only [taskStep] at hst
        split at hst
        · rename_i hnone
          obtain rfl : rounds = none := hnone
          cases hst
          exact .closes
        · cases hst
    | _ => simp [taskStep] at hst

/-! ## 4. What is known of the tasks -/

/-- A login waits for a request of its own, and the connection is tried again and again. -/
structure TaskOk (me : ClientId) (server : Server.Auth.State D) (t : Task) : Prop where
  handshake : ∀ h, t.pc = .loggingIn h → HandshakeOk .login me server h
  endless : t.rounds = none → ∀ e, t.pc ≠ .done (.error e)

/-- The token can be read, the server knows the client, and only calls count their rounds. -/
structure InOrder (me : ClientId) (s : State D) : Prop where
  stored : ∃ stored, loadAuthToken s.shared.rows = .ok stored
  known : me ∈ s.shared.server.shared.clients
  websocket : TaskOk me s.shared.server s.websocket
  endless : s.websocket.rounds = none
  calls : ∀ t ∈ s.tasks, TaskOk me s.shared.server t ∧ t.rounds ≠ none

theorem TaskOk.later (hl : Later V server server') (h : TaskOk me server t) :
    TaskOk me server' t :=
  ⟨fun hs hpc => (h.handshake hs hpc).later hl, h.endless⟩

omit [HashMapDelay D] in
/-- A task that gives up, or sleeps before it tries again. -/
theorem TaskOk.fails (e : CallError) : TaskOk me server (t.fails e) := by
  unfold Task.fails Task.goes
  cases hrounds : t.rounds with
  | none => exact ⟨by simp, by simp⟩
  | some n => exact ⟨by simp, by simp⟩

/-- A step of a task keeps it in order, and so the others. -/
theorem TaskMoved.keeps (hst : TaskMoved V me sh event t sh' t') (ht : TaskOk me sh.server t)
    (hstored : ∃ stored, loadAuthToken sh.rows = .ok stored) :
    Later V sh.server sh'.server ∧ (∃ stored, loadAuthToken sh'.rows = .ok stored) ∧
      TaskOk me sh'.server t' ∧ (t'.rounds = none ↔ t.rounds = none) := by
  cases hst with
  | exhausted => exact ⟨.refl, hstored, ⟨by simp, by simp⟩, Iff.rfl⟩
  | loads => exact ⟨.refl, hstored, ⟨by simp, by simp⟩, by simp⟩
  | lacks =>
    refine ⟨.refl, hstored, ⟨?_, by simp⟩, by simp⟩
    rintro h hpc
    obtain rfl := Pc.loggingIn.inj hpc
    trivial
  | unreadable rounds e herror =>
    obtain ⟨stored, hok⟩ := hstored
    cases herror.symm.trans hok
  | succeeds => exact ⟨.refl, hstored, ⟨by simp, by simp⟩, Iff.rfl⟩
  | refused => exact ⟨.refl, hstored, ⟨by simp, by simp⟩, Iff.rfl⟩
  | disappoints => exact ⟨.refl, hstored, .fails _, Iff.rfl⟩
  | wipes rounds =>
    refine ⟨.refl, ⟨_, loadAuthToken_saveAuthToken _ none⟩, ⟨?_, ?_⟩, Iff.rfl⟩
    · intro h hpc
      split at hpc <;> cases hpc
    · intro _ e hpc
      split at hpc <;> cases hpc
  | proceeds rounds h h' server hstep =>
    obtain ⟨hl, hpending, -⟩ := handshake_step (ht.handshake h rfl) hstep
    refine ⟨hl, hstored, ⟨?_, by simp⟩, Iff.rfl⟩
    intro h'' hpc
    obtain rfl := Pc.loggingIn.inj hpc
    exact hpending _ rfl
  | saves rounds h server token hstep =>
    obtain ⟨hl, -, -⟩ := handshake_step (ht.handshake h rfl) hstep
    exact ⟨hl, ⟨_, loadAuthToken_saveAuthToken _ (some token)⟩, ⟨by simp, by simp⟩, Iff.rfl⟩
  | loginFails rounds h server hstep =>
    obtain ⟨hl, -, -⟩ := handshake_step (ht.handshake h rfl) hstep
    exact ⟨hl, hstored, .fails _, Iff.rfl⟩
  | cutOff => exact ⟨.refl, hstored, .fails _, Iff.rfl⟩
  | wakes => exact ⟨.refl, hstored, ⟨by simp, by simp⟩, Iff.rfl⟩
  | closes => exact ⟨.refl, hstored, ⟨by simp, by simp⟩, Iff.rfl⟩

/-- A request that was killed has been answered, with an error. -/
theorem requested_restarted {q : Server.Auth.Shared D → Server.Auth.Stage → Prop} {i : ℕ}
    (hmono : ∀ sh sh' stage, Server.Auth.Retains sh sh' → q sh stage → q sh' stage)
    (herror : ∀ sh, q sh (.answered (.error .database)))
    (h : Server.Auth.Requested q server me i) :
    Server.Auth.Requested q (restarted server) me i := by
  obtain ⟨stage, hi, hq⟩ := h
  have hkilled : (restarted server).tasks[i]? = some (killed ⟨me, stage⟩) := by
    simp [restarted, hi]
  cases stage with
  | answered answer =>
    exact ⟨_, hkilled, hmono server.shared _ _ ⟨List.Subset.refl _, List.Subset.refl _⟩ hq⟩
  | _ => exact ⟨_, hkilled, herror _⟩

theorem TaskOk.restarted (h : TaskOk me server t) : TaskOk me (restarted server) t := by
  refine ⟨fun hs hpc => ?_, h.endless⟩
  have hok := h.handshake hs hpc
  cases hs with
  | beginning => trivial
  | awaitingChallenge i => exact requested_restarted (fun _ _ _ => .mono) (fun _ => trivial) hok
  | signing nonce => exact hok
  | awaitingAnswer i =>
    exact ⟨requested_restarted (fun _ _ _ => .mono) (fun _ => trivial) hok.1, hok.2⟩

theorem inOrder_step {a : Action} (h : InOrder me s) (hst : step V me s a = some s') :
    InOrder me s' := by
  have hlater : ∀ {server}, Later V s.shared.server server → ∀ t ∈ s.tasks,
      TaskOk me server t ∧ t.rounds ≠ none :=
    fun hl t ht => ⟨(h.calls t ht).1.later hl, (h.calls t ht).2⟩
  cases a with
  | server a =>
    obtain ⟨server, hserver, rfl⟩ := Option.map_eq_some_iff.mp hst
    have hl : Later V s.shared.server server := .tail a .refl trivial hserver
    exact ⟨h.stored, (retains_of_later hl).clients h.known, h.websocket.later hl, h.endless,
      hlater hl⟩
  | restart =>
    obtain rfl := Option.some.inj hst
    exact { h with
      websocket := h.websocket.restarted
      calls := fun t ht => ⟨(h.calls t ht).1.restarted, (h.calls t ht).2⟩ }
  | websocket event =>
    obtain ⟨⟨sh, t⟩, hmoved, rfl⟩ := Option.map_eq_some_iff.mp hst
    obtain ⟨hl, hstored, ht, hrounds⟩ :=
      (taskMoved_of_taskStep hmoved).keeps h.websocket h.stored
    exact ⟨hstored, (retains_of_later hl).clients h.known, ht, hrounds.mpr h.endless, hlater hl⟩
  | startCall =>
    obtain rfl := Option.some.inj hst
    refine { h with calls := Pool.forall_mem_spawn h.calls ?_ }
    exact ⟨⟨by simp [retryWithLogin], by simp [retryWithLogin]⟩, by simp [retryWithLogin]⟩
  | call k event =>
    obtain ⟨p, hadvance, rfl⟩ := Option.map_eq_some_iff.mp hst
    obtain ⟨t, sh, t', hk, hmoved, rfl⟩ := Pool.advance_eq_some.mp hadvance
    obtain ⟨htask, hcounts⟩ := h.calls t (List.mem_of_getElem? hk)
    obtain ⟨hl, hstored, ht, hrounds⟩ := (taskMoved_of_taskStep hmoved).keeps htask h.stored
    exact ⟨hstored, (retains_of_later hl).clients h.known, h.websocket.later hl, h.endless,
      Pool.forall_mem_set (hlater hl) ⟨ht, fun hnone => hcounts (hrounds.mp hnone)⟩⟩

omit [HashMapDelay D] in
theorem inOrder_start {rows : ConfigRows}
    (hstored : ∃ stored, loadAuthToken rows = .ok stored) (hknown : me ∈ server.shared.clients) :
    InOrder me (start rows server) :=
  ⟨hstored, hknown, ⟨by simp [start, websocketConnect], by simp [start, websocketConnect]⟩, rfl,
    by simp [start]⟩

/-! ## 5. While the server keeps its sessions -/

/-- The token that a request to log in has been given, or is about to be. -/
def Yields (stage : Server.Auth.Stage) (token : SessionToken) : Prop :=
  stage = .started token ∨ stage = .answered (.ok (.token token))

/-- The token of the `i`-th request is valid. -/
def TokenAt (server : Server.Auth.State D) (i : ℕ) : Prop :=
  ∀ r, server.tasks[i]? = some r → ∀ token, Yields r.stage token → Accepts server.shared token

/-- A valid token is stored. -/
def HasToken (s : Shared D) : Prop :=
  ∃ token, loadAuthToken s.rows = .ok (some token) ∧ Accepts s.server.shared token

/-- Every token that the task has to do with is valid, and it has a round left for its request. -/
def Task.Current (s : Shared D) (t : Task) : Prop :=
  match t.pc with
  | .loading => t.rounds = none ∨ t.rounds = some 2 ∨ t.rounds = some 1 ∧ HasToken s
  | .requesting token => Accepts s.server.shared token
  | .unauthorized => False
  | .sleeping => t.rounds = none
  | .loggingIn h =>
    (t.rounds = none ∨ t.rounds = some 1) ∧ ∀ i, h = .awaitingAnswer i → TokenAt s.server i
  | .done result => result ≠ .error .unrecoverableAuthError

/-- No request is unauthorized, and no call is out of rounds. -/
def NoneRefused (s : State D) : Prop :=
  ∀ t ∈ s.websocket :: s.tasks,
    (∀ token, t.pc = .requesting token → Accepts s.shared.server.shared token) ∧
      t.pc ≠ .unauthorized ∧ t.pc ≠ .done (.error .unrecoverableAuthError)

/-- A stored token is valid, and so are the others. -/
structure Kept (s : State D) : Prop where
  stored : loadAuthToken s.shared.rows = .ok none ∨ HasToken s.shared
  websocket : s.websocket.Current s.shared
  calls : ∀ t ∈ s.tasks, t.Current s.shared

variable [LawfulHashMapDelay D]

/-- The handlers only add sessions. -/
theorem accepts_handleStep {sh sh' : Server.Auth.Shared D} {r r' : Server.Auth.Request}
    {event : Server.Auth.Event} (hst : Server.Auth.handleStep V event sh r = some (sh', r'))
    {token : SessionToken} (h : Accepts sh token) : Accepts sh' token := by
  obtain ⟨-, hhandled⟩ := Server.Auth.handled_of_handleStep hst
  generalize r'.stage = stage' at hhandled
  generalize r.stage = stage at hhandled
  cases hhandled with
  | answers | passes | issues | verifies | registers => exact h
  | starts nonce fresh =>
    simp only [Accepts, Server.Auth.ClientAuthManager.getSession,
      Server.Auth.ClientAuthManager.sessionStart, LawfulHashMapDelay.get_insert]
    split
    · rfl
    · exact h

/-- A request that yields a token has started its session. -/
theorem yields_handleStep {sh sh' : Server.Auth.Shared D} {r r' : Server.Auth.Request}
    {event : Server.Auth.Event} (hst : Server.Auth.handleStep V event sh r = some (sh', r'))
    (h : ∀ token, Yields r.stage token → Accepts sh token) {token : SessionToken}
    (hy : Yields r'.stage token) : Accepts sh' token := by
  rcases hy with hy | hy
  · obtain ⟨-, hhandled⟩ := Server.Auth.handled_of_handleStep hst
    rw [hy] at hhandled
    generalize r.stage = stage at hhandled
    cases hhandled with
    | starts nonce => simp [Accepts, Server.Auth.ClientAuthManager.getSession,
        Server.Auth.ClientAuthManager.sessionStart, LawfulHashMapDelay.get_insert]
  · have hadvanced := Server.Auth.advanced_of_handleStep hst
    rw [hy] at hadvanced
    generalize hr : r.stage = stage at hadvanced
    cases hadvanced with
    | answers => exact h token (Or.inl hr)

theorem accepts_step {a : Server.Auth.Action} (hst : Server.Auth.step V server a = some server')
    {token : SessionToken} (h : Accepts server.shared token) : Accepts server'.shared token := by
  cases a with
  | handle j event =>
    obtain ⟨r, sh, r', -, hhandle, rfl⟩ := Pool.advance_eq_some.mp hst
    exact accepts_handleStep hhandle h
  | getSession token' =>
    simp only [Server.Auth.step] at hst
    split at hst <;> cases hst <;> exact h
  | _ =>
    cases hst
    exact h

omit [LawfulHashMapDelay D] in
/-- A request that arrives yields no token yet. -/
theorem TokenAt.spawn {r : Server.Auth.Request} (hr : ∀ token, ¬ Yields r.stage token) {i : ℕ}
    (h : TokenAt server i) : TokenAt (server.spawn r) i := by
  intro r' hi token hy
  rw [Pool.spawn_tasks, List.getElem?_append] at hi
  split at hi
  · exact h r' hi token hy
  · obtain rfl := List.mem_singleton.mp (List.mem_of_getElem? hi)
    exact (hr token hy).elim

theorem yields_complete {endpoint : Server.Auth.Endpoint} {client : ClientId} {response : Bytes}
    {token : SessionToken} :
    ¬ Yields (Server.Auth.complete endpoint client response).stage token := by
  unfold Server.Auth.complete Yields
  split <;> simp

theorem tokenAt_step {a : Server.Auth.Action} (hst : Server.Auth.step V server a = some server')
    {i : ℕ} (h : TokenAt server i) : TokenAt server' i := by
  have haccepts : ∀ token, Accepts server.shared token → Accepts server'.shared token :=
    fun _ => accepts_step hst
  have hsame : server'.tasks = server.tasks → TokenAt server' i := by
    intro htasks r hi token hy
    rw [htasks] at hi
    exact haccepts token (h r hi token hy)
  cases a with
  | registerBegin client | loginBegin client =>
    cases hst
    exact h.spawn (by simp [Yields, Server.Auth.registerBegin, Server.Auth.loginBegin])
  | registerComplete client response | loginComplete client response =>
    cases hst
    exact h.spawn fun _ => yields_complete
  | handle j event =>
    obtain ⟨r, sh, r', hj, hhandle, rfl⟩ := Pool.advance_eq_some.mp hst
    intro x hi token hy
    by_cases hji : j = i
    · subst hji
      rw [List.getElem?_set_self (List.getElem?_eq_some_iff.mp hj).1, Option.some.injEq] at hi
      subst hi
      exact yields_handleStep hhandle (h r hj) hy
    · rw [List.getElem?_set_ne hji] at hi
      exact haccepts token (h x hi token hy)
  | getSession token' =>
    refine hsame ?_
    simp only [Server.Auth.step] at hst
    split at hst <;> cases hst <;> rfl
  | sign | wait =>
    refine hsame ?_
    cases hst
    rfl

theorem accepts_later (hl : Later V server server') {token : SessionToken}
    (h : Accepts server.shared token) : Accepts server'.shared token :=
  hl.invariant (I := fun x => Accepts x.shared token) h fun _ _ _ hx _ hst => accepts_step hst hx

theorem tokenAt_later (hl : Later V server server') {i : ℕ} (h : TokenAt server i) :
    TokenAt server' i :=
  hl.invariant (I := fun x => TokenAt x i) h fun _ _ _ hx _ hst => tokenAt_step hst hx

theorem HasToken.later (hl : Later V sh.server server') (h : HasToken sh) :
    HasToken { sh with server := server' } := by
  obtain ⟨token, hload, haccepts⟩ := h
  exact ⟨token, hload, accepts_later hl haccepts⟩

/-- The others go on. -/
theorem Task.Current.later (hl : Later V sh.server sh'.server) (hrow : HasToken sh → HasToken sh')
    (h : t.Current sh) : t.Current sh' := by
  obtain ⟨rounds, pc⟩ := t
  cases pc with
  | loading => exact h.imp_right (Or.imp_right (And.imp_right hrow))
  | requesting token => exact accepts_later hl h
  | loggingIn hs => exact ⟨h.1, fun i hi => tokenAt_later hl (h.2 i hi)⟩
  | _ => exact h

omit [LawfulHashMapDelay D] in
/-- A task that gives up has not run out of rounds. -/
theorem Task.Current.fails {e : CallError} (he : e ≠ .unrecoverableAuthError) :
    (t.fails e).Current sh := by
  unfold Task.fails Task.goes Task.Current
  cases hrounds : t.rounds with
  | none => rfl
  | some n => simpa using he

/-- A step of a task that has to do with valid tokens only. -/
theorem TaskMoved.current (hst : TaskMoved V me sh event t sh' t') (ht : t.Current sh)
    (hl : Later V sh.server sh'.server) (hrow : loadAuthToken sh.rows = .ok none ∨ HasToken sh) :
    t'.Current sh' ∧ (loadAuthToken sh'.rows = .ok none ∨ HasToken sh') ∧
      (HasToken sh → HasToken sh') := by
  have hcounted : ∀ {rounds : Option ℕ}, rounds ≠ some 0 →
      (rounds = none ∨ rounds = some 2 ∨ rounds = some 1 ∧ HasToken sh) →
      loadAuthToken sh.rows = .ok none →
      rounds.map (· - 1) = none ∨ rounds.map (· - 1) = some 1 := by
    rintro rounds - (rfl | rfl | ⟨rfl, token, hload, -⟩) hnone
    · exact Or.inl rfl
    · exact Or.inr rfl
    · cases hnone.symm.trans hload
  cases hst with
  | exhausted =>
    rcases ht with hr | hr | ⟨hr, -⟩ <;> cases hr
  | loads rounds token hr hload =>
    refine ⟨?_, hrow, id⟩
    rcases hrow with hnone | ⟨token', hload', haccepts⟩
    · cases hnone.symm.trans hload
    · obtain rfl := Option.some.inj (Except.ok.inj (hload.symm.trans hload'))
      exact haccepts
  | lacks rounds hr hnone => exact ⟨⟨hcounted hr ht hnone, by simp⟩, hrow, id⟩
  | unreadable => exact ⟨by simp [Task.Current], hrow, id⟩
  | succeeds => exact ⟨by simp [Task.Current], hrow, id⟩
  | disappoints => exact ⟨.fails (by simp), hrow, id⟩
  | refused ok rounds token hrefused => exact (hrefused ht).elim
  | wipes => exact ht.elim
  | proceeds rounds h h' server hstep =>
    refine ⟨⟨ht.1, ?_⟩, hrow.imp_right (HasToken.later hl), HasToken.later hl⟩
    rintro i rfl
    cases asked_of_step hstep with
    | completes nonce =>
      refine TokenAt.spawn (fun _ => yields_complete) ?_
      intro r hi
      simp at hi
  | saves rounds h server token hstep =>
    cases asked_of_step hstep with
    | accepted i client _ hi =>
      have hnew : HasToken ⟨saveAuthToken sh.rows (some token), sh.server⟩ :=
        ⟨token, loadAuthToken_saveAuthToken sh.rows (some token),
          ht.2 i rfl _ hi token (Or.inr rfl)⟩
      refine ⟨?_, Or.inr hnew, fun _ => hnew⟩
      rcases ht.1 with hr | hr
      · exact Or.inl hr
      · exact Or.inr (Or.inr ⟨hr, hnew⟩)
  | loginFails =>
    exact ⟨.fails (by simp), hrow.imp_right (HasToken.later hl), HasToken.later hl⟩
  | cutOff _ e he => exact ⟨.fails he, hrow, id⟩
  | wakes rounds => exact ⟨Or.inl ht, hrow, id⟩
  | closes => exact ⟨Or.inl rfl, hrow, id⟩

theorem kept_step {a : Action} (horder : InOrder me s) (h : Kept s) (ha : a ≠ .restart)
    (hst : step V me s a = some s') :
    Kept s' ∧ (HasToken s.shared → HasToken s'.shared) := by
  cases a with
  | server a =>
    obtain ⟨server, hserver, rfl⟩ := Option.map_eq_some_iff.mp hst
    have hl : Later V s.shared.server server := .tail a .refl trivial hserver
    have hrow : HasToken s.shared → HasToken ⟨s.shared.rows, server⟩ := HasToken.later hl
    exact ⟨⟨h.stored.imp_right hrow, h.websocket.later hl hrow,
      fun t ht => (h.calls t ht).later hl hrow⟩, hrow⟩
  | restart => exact (ha rfl).elim
  | websocket event =>
    obtain ⟨⟨sh, t⟩, hmoved, rfl⟩ := Option.map_eq_some_iff.mp hst
    have hmoved := taskMoved_of_taskStep hmoved
    obtain ⟨hl, -⟩ := hmoved.keeps horder.websocket horder.stored
    obtain ⟨ht, hstored, hrow⟩ := hmoved.current h.websocket hl h.stored
    exact ⟨⟨hstored, ht, fun t ht => (h.calls t ht).later hl hrow⟩, hrow⟩
  | startCall =>
    obtain rfl := Option.some.inj hst
    exact ⟨{ h with calls := Pool.forall_mem_spawn h.calls (Or.inr (Or.inl rfl)) }, id⟩
  | call k event =>
    obtain ⟨p, hadvance, rfl⟩ := Option.map_eq_some_iff.mp hst
    obtain ⟨t, sh, t', hk, hmoved, rfl⟩ := Pool.advance_eq_some.mp hadvance
    have hmoved := taskMoved_of_taskStep hmoved
    have hmem := List.mem_of_getElem? hk
    obtain ⟨hl, -⟩ := hmoved.keeps (horder.calls t hmem).1 horder.stored
    obtain ⟨ht, hstored, hrow⟩ := hmoved.current (h.calls t hmem) hl h.stored
    exact ⟨⟨hstored, h.websocket.later hl hrow,
      Pool.forall_mem_set (fun t ht => (h.calls t ht).later hl hrow) ht⟩, hrow⟩

omit [LawfulHashMapDelay D] in
theorem Kept.noneRefused (h : Kept s) : NoneRefused s := by
  intro t ht
  have hcurrent : t.Current s.shared := by
    rcases List.mem_cons.mp ht with rfl | ht
    · exact h.websocket
    · exact h.calls t ht
  unfold Task.Current at hcurrent
  refine ⟨?_, ?_, ?_⟩
  · intro token hpc
    rwa [hpc] at hcurrent
  · intro hpc
    rwa [hpc] at hcurrent
  · intro hpc
    rw [hpc] at hcurrent
    exact hcurrent rfl

/-- In a run without a restart, from a client that has no token or a valid one, every token that is
used is valid, no call is out of rounds, and a token that is stored is there from then on. -/
theorem session_kept {rows : ConfigRows}
    (hrow : loadAuthToken rows = .ok none ∨ HasToken ⟨rows, server⟩)
    (hknown : me ∈ server.shared.clients)
    (h : Reach (step V me) (fun _ a => a ≠ .restart) (start rows server) s)
    (h' : Reach (step V me) (fun _ a => a ≠ .restart) s s') :
    NoneRefused s' ∧ (HasToken s.shared → HasToken s'.shared) := by
  have hstored : ∃ stored, loadAuthToken rows = .ok stored := by
    rcases hrow with hnone | ⟨token, hload, -⟩
    · exact ⟨_, hnone⟩
    · exact ⟨_, hload⟩
  obtain ⟨horder, hkept⟩ : InOrder me s ∧ Kept s := by
    refine h.invariant (I := fun x => InOrder me x ∧ Kept x) ⟨inOrder_start hstored hknown, ?_⟩ ?_
    · exact ⟨hrow, Or.inl rfl, by simp [start]⟩
    · intro x a x' hx ha hst
      exact ⟨inOrder_step hx.1 hst, (kept_step hx.1 hx.2 ha hst).1⟩
  obtain ⟨-, hkept', hstays⟩ :
      InOrder me s' ∧ Kept s' ∧ (HasToken s.shared → HasToken s'.shared) := by
    refine h'.invariant (I := fun x => InOrder me x ∧ Kept x ∧
      (HasToken s.shared → HasToken x.shared)) ⟨horder, hkept, id⟩ ?_
    intro x a x' hx ha hst
    obtain ⟨hnext, hgoes⟩ := kept_step hx.1 hx.2.1 ha hst
    exact ⟨inOrder_step hx.1 hst, hnext, hgoes ∘ hx.2.2⟩
  exact ⟨hkept'.noneRefused, hstays⟩

end

/-- The connection and a call log in at the same time: the server remembers the nonce of the
connection, the answer of the call to its own is refused, and the next call finds the token. -/
def twoLogins : List Action :=
  [.startCall, .websocket .load, .call 0 .load,
    .websocket .login, .server (.handle 0 (.clientExists true)),
    .server (.handle 0 (.challengeBegin (some (.fill 7)))), .websocket .login,
    .call 0 .login, .server (.handle 1 (.clientExists true)),
    .server (.handle 1 (.challengeBegin (some (.fill 8)))), .call 0 .login,
    .call 0 .login, .server (.handle 2 .challengeVerify), .call 0 .login,
    .websocket .login, .server (.handle 3 .challengeVerify),
    .server (.handle 3 (.sessionStart (some (.fill 9)))),
    .server (.handle 3 (.clientUpdateLoggedIn true)), .websocket .login,
    .startCall, .call 1 .load, .call 1 (.answer true), .websocket .load]

/-- Where the connection and the calls are then. -/
def oneLoggedIn (s : State DelayMap) : Bool :=
  decide (s.websocket.pc = .requesting (.fill 9) ∧
    s.tasks = [⟨some 1, .done (.error .loginFailed)⟩, ⟨some 1, .done (.ok ())⟩])

theorem twoLogins_run : (run (step Server.Auth.stampScheme Server.Auth.alice)
    (start .empty (Server.Auth.start DelayMap [Server.Auth.alice])) twoLogins).any oneLoggedIn
      = true := by
  decide +kernel

theorem session_kept_twoLogins : ∃ s : State DelayMap, oneLoggedIn s = true ∧ NoneRefused s := by
  obtain ⟨s, hrun, hs⟩ := (Option.any_eq_true _ _).mp twoLogins_run
  have hreach : Reach (step Server.Auth.stampScheme Server.Auth.alice) (fun _ a => a ≠ .restart)
      (start .empty (Server.Auth.start DelayMap [Server.Auth.alice])) s :=
    reach_of_run (by simp [twoLogins]) hrun
  obtain ⟨hnone, -⟩ := session_kept (Or.inl rfl) (by simp [Server.Auth.start]) hreach .refl
  exact ⟨s, hs, hnone⟩

end Backuwup.Client.Connecting
