/-
# The identity of a client (`client/src/identity.rs`, `main.rs`, `config/mod.rs`)

At its first start the client creates its database, asks for a mnemonic or draws a new secret, and
proves itself to the server; the secret is written in a transaction that is only committed once the
server has agreed.  At a later start it loads the secret, and it logs in whenever it has no session
token.  The process may end anywhere, calls of the database and the network may fail, and the
server handles the requests of others in between.

* `setup_all_or_nothing`: a client is set up completely or not at all, and if it is, its server
  knows it, its process has the keys of the stored secret, and a stored token is its own;
* `never_started`: a process that ends between creating the database file and creating the first
  table leaves a client that no later start gets to work.

The requests and answers of the client arrive as they are, or not at all.  The mnemonic is the
secret that it encodes.
-/
import Backuwup.Client.Config.Store
import Backuwup.Server.Requested

namespace Backuwup.Client.Setup

open Transition
open Config
open Server.Auth (SessionToken ChallengeNonce Endpoint Reply Started)

variable {D : Type → Type → Type} [HashMapDelay D]

/-! ## 1. A challenge and its answer -/

/-- Where a client is that proves itself, with the place of its request at the server. -/
inductive Handshake
  | beginning
  | awaitingChallenge (i : ℕ)
  | signing (nonce : ChallengeNonce)
  | awaitingAnswer (i : ℕ)
deriving DecidableEq

/-- How a step of it ends. -/
inductive Progress
  | pending (h : Handshake)
  | accepted (reply : Reply)
  | failed
deriving DecidableEq

/-- `register_begin` and `register_complete`, or `login_begin` and `login_complete`, of
`net_server/requests.rs`. -/
def Handshake.step (V : SignatureScheme) (endpoint : Endpoint) (me : ClientId)
    (server : Server.Auth.State D) : Handshake → Option (Server.Auth.State D × Progress)
  | .beginning =>
    some (server.spawn (match endpoint with
      | .register => Server.Auth.registerBegin me
      | .login => Server.Auth.loginBegin me), .pending (.awaitingChallenge server.tasks.length))
  | .awaitingChallenge i =>
    match server.tasks[i]?.map Server.Auth.Request.stage with
    | some (.answered (.ok (.challenge nonce))) => some (server, .pending (.signing nonce))
    | some (.answered _) => some (server, .failed)
    | _ => none
  | .signing nonce =>
    let response := V.sign me nonce.bytes
    let signed : Server.Auth.State D := { server with shared := { server.shared with
      log := .signed me nonce :: server.shared.log } }
    some (signed.spawn (match endpoint with
      | .register => Server.Auth.registerComplete me response
      | .login => Server.Auth.loginComplete me response),
      .pending (.awaitingAnswer server.tasks.length))
  | .awaitingAnswer i =>
    match server.tasks[i]?.map Server.Auth.Request.stage with
    | some (.answered (.ok reply)) =>
      match endpoint, reply with
      | .register, .ok => some (server, .accepted .ok)
      | .login, .token token => some (server, .accepted (.token token))
      -- "Unexpected response"
      | _, _ => some (server, .failed)
    | some (.answered (.error _)) => some (server, .failed)
    | _ => none

/-! ## 2. The client -/

/-- The file of the database: how many of the tables `config`, `peers` and `log` there are, and the
rows of the first. -/
structure ConfigFile where
  tables : ℕ
  rows : ConfigRows

/-- `new_secret_setup` or `existing_secret_setup`. -/
inductive Kind
  | new
  | existing
deriving DecidableEq

def Kind.endpoint : Kind → Endpoint
  | .new => .register
  | .existing => .login

/-- Where a setup is; its transaction has been begun, and the secret written in it. -/
inductive SetupPc
  | proving (h : Handshake)
  /-- `save_obfuscation_key` comes next -/
  | accepted
  /-- `set_initialized` comes next -/
  | keyed
  /-- `commit` comes next -/
  | ready
deriving DecidableEq

inductive Process
  | off
  /-- in `create_db_structure` -/
  | creating
  /-- `Config::init` has returned -/
  | opened
  /-- in `first_run_guide` -/
  | guide
  /-- with what the transaction has written -/
  | setup (kind : Kind) (secret : RootSecret) (transaction : ConfigRows) (pc : SetupPc)
  /-- `KEYS` is set; with the calls of `login` that have not ended -/
  | running (secret : RootSecret) (logins : List Handshake)

structure State (D : Type → Type → Type) where
  file : Option ConfigFile
  process : Process
  server : Server.Auth.State D

variable (D) in
/-- The client has not been started yet. -/
def start (clients : List ClientId) : State D := ⟨none, .off, Server.Auth.start D clients⟩

inductive Action
  /-- a request of someone else, or a step of the server -/
  | server (a : Server.Auth.Action)
  /-- `Config::init` creates the file, or opens it -/
  | launch
  /-- a statement of `create_db_structure` -/
  | createTable
  /-- `is_initialized`, and `load_secret` if so -/
  | boot
  /-- the choice in `first_run_guide`, up to `save_root_secret` -/
  | choose (kind : Kind) (secret : RootSecret)
  | prove
  | saveObfuscationKey (key : FixedBytes 4)
  | setInitialized
  | commit
  /-- a call of `login` -/
  | startLogin
  /-- a step of the `k`-th of these calls -/
  | login (k : ℕ)
  /-- a call of `login` fails -/
  | loginFails (k : ℕ)
  /-- `save_auth_token(None)` -/
  | wipeToken
  | setBackupPath (path : List UInt8)
  | saveHighestSentIndexNumber (index : ℕ)
  /-- the process is killed, or panics, as it does when a call fails before the client runs -/
  | stop

namespace State

/-- The rows as a transaction of its own has left them. -/
def setRows (s : State D) (f : ConfigFile) (rows : ConfigRows) : State D :=
  { s with file := some { f with rows := rows } }

def setProcess (s : State D) (process : Process) : State D := { s with process := process }

end State

variable (pubkeyOf : RootSecret → ClientId) (V : SignatureScheme)

/-- One statement of the transaction of a setup; when it fails the client panics. -/
def write (s : State D) (kind : Kind) (secret : RootSecret) (pc : SetupPc) :
    Except ConfigError ConfigRows → State D
  | .ok transaction => s.setProcess (.setup kind secret transaction pc)
  | .error _ => s.setProcess .off

/-- A step of a call of `login`, which ends by saving the token. -/
def loginStep (s : State D) (f : ConfigFile) (secret : RootSecret) (logins : List Handshake)
    (k : ℕ) : Option (State D) :=
  match logins[k]? with
  | none => none
  | some h =>
    match h.step V .login (pubkeyOf secret) s.server with
    | some (server, .pending h) =>
      some { s with server := server, process := .running secret (logins.set k h) }
    | some (server, .accepted (.token token)) =>
      some (({ s with server := server }.setRows f (saveAuthToken f.rows (some token))).setProcess
        (.running secret (logins.eraseIdx k)))
    | some (server, _) =>
      some { s with server := server, process := .running secret (logins.eraseIdx k) }
    | none => none

/-- One step of the client, or of the server between its steps. -/
def step (s : State D) : Action → Option (State D)
  | .server a => (Server.Auth.step V s.server a).map fun server => { s with server := server }
  | .launch =>
    match s.process, s.file with
    | .off, none => some { s with file := some ⟨0, .empty⟩, process := .creating }
    | .off, some _ => some (s.setProcess .opened)
    | _, _ => none
  | .createTable =>
    match s.process, s.file with
    | .creating, some f => some { s with
        file := some { f with tables := f.tables + 1 }
        process := if f.tables + 1 = 3 then .opened else .creating }
    | _, _ => none
  | .boot =>
    match s.process, s.file with
    | .opened, some f =>
      -- without the table `config` the query fails
      if f.tables = 0 then some (s.setProcess .off)
      else if isInitialized f.rows then
        match loadRootSecret f.rows with
        | .ok secret => some (s.setProcess (.running secret []))
        | .error _ => some (s.setProcess .off)
      else some (s.setProcess .guide)
    | _, _ => none
  | .choose kind secret =>
    match s.process, s.file with
    | .guide, some f =>
      some (write s kind secret (.proving .beginning) (saveRootSecret f.rows secret))
    | _, _ => none
  | .prove =>
    match s.process with
    | .setup kind secret transaction (.proving h) =>
      match h.step V kind.endpoint (pubkeyOf secret) s.server with
      | some (server, .pending h) =>
        some { s with server := server, process := .setup kind secret transaction (.proving h) }
      | some (server, .accepted _) =>
        some { s with server := server, process := .setup kind secret transaction .accepted }
      | some (server, .failed) => some { s with server := server, process := .off }
      | none => none
    | _ => none
  | .saveObfuscationKey key =>
    match s.process with
    | .setup kind secret transaction .accepted =>
      some (write s kind secret .keyed (Config.saveObfuscationKey transaction key))
    | _ => none
  | .setInitialized =>
    match s.process with
    | .setup kind secret transaction .keyed =>
      some (write s kind secret .ready (Config.setInitialized transaction))
    | _ => none
  | .commit =>
    match s.process, s.file with
    | .setup _ secret transaction .ready, some f =>
      some ((s.setRows f transaction).setProcess (.running secret []))
    | _, _ => none
  | .startLogin =>
    match s.process with
    | .running secret logins => some (s.setProcess (.running secret (logins ++ [.beginning])))
    | _ => none
  | .login k =>
    match s.process, s.file with
    | .running secret logins, some f => loginStep pubkeyOf V s f secret logins k
    | _, _ => none
  | .loginFails k =>
    match s.process with
    | .running secret logins => some (s.setProcess (.running secret (logins.eraseIdx k)))
    | _ => none
  | .wipeToken =>
    match s.process, s.file with
    | .running _ _, some f => some (s.setRows f (saveAuthToken f.rows none))
    | _, _ => none
  | .setBackupPath path =>
    match s.process, s.file with
    | .running _ _, some f => some (s.setRows f (Config.setBackupPath f.rows path))
    | _, _ => none
  | .saveHighestSentIndexNumber index =>
    match s.process, s.file with
    | .running _ _, some f =>
      some (s.setRows f (Config.saveHighestSentIndexNumber f.rows index))
    | _, _ => none
  | .stop =>
    match s.process with
    | .off => none
    | _ => some (s.setProcess .off)

/-! ## 3. What is known of a client -/

/-- Nothing of an identity has been stored. -/
structure Fresh (rows : ConfigRows) : Prop where
  initialized : rows .initialized = none
  rootSecret : rows .rootSecret = none
  obfuscationKey : rows .obfuscationKey = none
  authToken : rows .authToken = none

/-- The stored token, if there is one, was started for the client. -/
def OwnToken (server : Server.Auth.Shared D) (me : ClientId) (rows : ConfigRows) : Prop :=
  rows .authToken = none ∨
    ∃ token, loadAuthToken rows = .ok (some token) ∧ Started server me token

/-- Everything of the identity has been stored, and the server knows the client. -/
structure Complete (server : Server.Auth.Shared D) (rows : ConfigRows) (secret : RootSecret) :
    Prop where
  initialized : isInitialized rows = true
  rootSecret : loadRootSecret rows = .ok secret
  obfuscationKey : ∃ key, getObfuscationKey rows = .ok key
  registered : pubkeyOf secret ∈ server.clients
  token : OwnToken server (pubkeyOf secret) rows

/-- What is known of a client in the middle of a challenge. -/
def HandshakeOk (endpoint : Endpoint) (me : ClientId) (server : Server.Auth.State D) :
    Handshake → Prop
  | .beginning => True
  | .awaitingChallenge i => Server.Auth.Requested (Server.Auth.BeginStage endpoint me) server me i
  | .signing _ => endpoint = .login → me ∈ server.shared.clients
  | .awaitingAnswer i =>
    Server.Auth.Requested (Server.Auth.CompleteStage endpoint me) server me i ∧
      (endpoint = .login → me ∈ server.shared.clients)

/-- What a setup has written in its transaction. -/
structure Written (transaction : ConfigRows) (secret : RootSecret) (pc : SetupPc) : Prop where
  rootSecret : loadRootSecret transaction = .ok secret
  authToken : transaction .authToken = none
  obfuscationKey : if pc = .keyed ∨ pc = .ready then ∃ key, getObfuscationKey transaction = .ok key
    else transaction .obfuscationKey = none
  initialized : if pc = .ready then isInitialized transaction = true
    else transaction .initialized = none

def SetupPc.Ok (server : Server.Auth.State D) (endpoint : Endpoint) (me : ClientId) :
    SetupPc → Prop
  | .proving h => HandshakeOk endpoint me server h
  | _ => me ∈ server.shared.clients

def ProcessOk (s : State D) : Process → Prop
  | .off => True
  | .opened => ∃ f, s.file = some f
  | .creating | .guide => ∃ f, s.file = some f ∧ Fresh f.rows
  | .setup kind secret transaction pc => (∃ f, s.file = some f ∧ Fresh f.rows) ∧
    Written transaction secret pc ∧ pc.Ok s.server kind.endpoint (pubkeyOf secret)
  | .running secret logins =>
    (∃ f, s.file = some f ∧ Complete pubkeyOf s.server.shared f.rows secret) ∧
      ∀ h ∈ logins, HandshakeOk .login (pubkeyOf secret) s.server h

structure InOrder (s : State D) : Prop where
  stored : ∀ f, s.file = some f →
    Fresh f.rows ∨ ∃ secret, Complete pubkeyOf s.server.shared f.rows secret
  process : ProcessOk pubkeyOf s s.process

section

variable {pubkeyOf : RootSecret → ClientId} {V : SignatureScheme} {s s' : State D}
  {server server' : Server.Auth.State D} {endpoint : Endpoint} {me : ClientId} {secret : RootSecret}
  {rows rows' transaction : ConfigRows} {f : ConfigFile}

/-! ## 4. The server in between -/

/-- The server takes any number of steps. -/
abbrev Later (V : SignatureScheme) (server server' : Server.Auth.State D) : Prop :=
  Reach (Server.Auth.step V) (fun _ _ => True) server server'

theorem retains_of_later (h : Later V server server') :
    Server.Auth.Retains server.shared server'.shared := by
  refine h.invariant (I := fun s => Server.Auth.Retains server.shared s.shared) (.refl _) ?_
  intro x a x' hx _ hst
  have hstep := Server.Auth.retains_step hst
  exact ⟨List.Subset.trans hx.clients hstep.clients, List.Subset.trans hx.log hstep.log⟩

theorem HandshakeOk.later (hl : Later V server server') {h : Handshake}
    (hok : HandshakeOk endpoint me server h) : HandshakeOk endpoint me server' h := by
  have hretains := retains_of_later hl
  cases h with
  | beginning => trivial
  | awaitingChallenge i =>
    exact hl.invariant (I := fun x => Server.Auth.Requested (Server.Auth.BeginStage endpoint me) x
      me i) hok fun _ _ _ hx _ hst => Server.Auth.begun_step hst hx
  | signing nonce => exact fun he => hretains.clients (hok he)
  | awaitingAnswer i =>
    refine ⟨hl.invariant (I := fun x => Server.Auth.Requested
      (Server.Auth.CompleteStage endpoint me) x me i) hok.1 fun _ _ _ hx _ hst =>
        Server.Auth.completed_step hst hx, ?_⟩
    exact fun he => hretains.clients (hok.2 he)

/-- A step of a challenge: the server has stepped too, a client that goes on is in order, and one
that was accepted is known to the server. -/
theorem handshake_step {h : Handshake} {p : Progress} (hok : HandshakeOk endpoint me server h)
    (hst : h.step V endpoint me server = some (server', p)) :
    Later V server server' ∧ (∀ h', p = .pending h' → HandshakeOk endpoint me server' h') ∧
      ∀ reply, p = .accepted reply →
        Server.Auth.Completed endpoint me server'.shared reply ∧ me ∈ server'.shared.clients := by
  cases h with
  | beginning =>
    obtain ⟨rfl, rfl⟩ := Prod.mk.inj (Option.some.inj hst)
    refine ⟨?_, ?_, by simp⟩
    · cases endpoint with
      | register => exact .tail (.registerBegin me) .refl trivial rfl
      | login => exact .tail (.loginBegin me) .refl trivial rfl
    · intro h' hh'
      obtain rfl := Progress.pending.inj hh'
      refine ⟨.beginning endpoint, ?_, rfl⟩
      rw [Pool.spawn_tasks, List.getElem?_concat_length]
      cases endpoint <;> rfl
  | awaitingChallenge i =>
    obtain ⟨stage, hi, hstage⟩ := hok
    simp only [Handshake.step, hi, Option.map_some] at hst
    split at hst
    · rename_i nonce heq
      obtain rfl := Option.some.inj heq
      obtain ⟨rfl, rfl⟩ := Prod.mk.inj (Option.some.inj hst)
      refine ⟨.refl, ?_, by simp⟩
      intro h' hh'
      obtain rfl := Progress.pending.inj hh'
      exact hstage
    · obtain ⟨rfl, rfl⟩ := Prod.mk.inj (Option.some.inj hst)
      exact ⟨.refl, by simp, by simp⟩
    · cases hst
  | signing nonce =>
    obtain ⟨rfl, rfl⟩ := Prod.mk.inj (Option.some.inj hst)
    refine ⟨?_, ?_, by simp⟩
    · have hsign : Reach (Server.Auth.step V) (fun _ _ => True) server _ :=
        .tail (.sign me nonce) .refl trivial rfl
      cases endpoint with
      | register => exact hsign.tail (.registerComplete me (V.sign me nonce.bytes)) trivial rfl
      | login => exact hsign.tail (.loginComplete me (V.sign me nonce.bytes)) trivial rfl
    · intro h' hh'
      obtain rfl := Progress.pending.inj hh'
      have hstage : ∀ sh : Server.Auth.Shared D, Server.Auth.CompleteStage endpoint me sh
          (if (V.sign me nonce.bytes).length ≠ Server.Auth.challengeResponseLength then
            .answered (.error .badRequest)
          else .completing endpoint (V.sign me nonce.bytes)) := by
        intro sh
        split
        · trivial
        · rfl
      refine ⟨⟨_, ?_, hstage _⟩, hok⟩
      rw [Pool.spawn_tasks]
      simp only [List.getElem?_concat_length]
      cases endpoint <;> rfl
  | awaitingAnswer i =>
    obtain ⟨⟨stage, hi, hstage⟩, hclient⟩ := hok
    simp only [Handshake.step, hi, Option.map_some] at hst
    split at hst
    · rename_i reply heq
      obtain rfl := Option.some.inj heq
      split at hst
      · obtain ⟨rfl, rfl⟩ := Prod.mk.inj (Option.some.inj hst)
        refine ⟨.refl, by simp, ?_⟩
        intro reply hreply
        obtain rfl := Progress.accepted.inj hreply
        exact ⟨hstage, hstage.2⟩
      · obtain ⟨rfl, rfl⟩ := Prod.mk.inj (Option.some.inj hst)
        refine ⟨.refl, by simp, ?_⟩
        intro reply hreply
        obtain rfl := Progress.accepted.inj hreply
        exact ⟨hstage, hclient rfl⟩
      · obtain ⟨rfl, rfl⟩ := Prod.mk.inj (Option.some.inj hst)
        exact ⟨.refl, by simp, by simp⟩
    · obtain ⟨rfl, rfl⟩ := Prod.mk.inj (Option.some.inj hst)
      exact ⟨.refl, by simp, by simp⟩
    · cases hst

/-! ## 5. What a step keeps -/

omit [HashMapDelay D] in
theorem OwnToken.later (hr : Server.Auth.Retains server.shared server'.shared)
    (h : OwnToken server.shared me rows) : OwnToken server'.shared me rows :=
  h.imp_right fun ⟨token, hload, hstarted⟩ => ⟨token, hload, hr.started hstarted⟩

omit [HashMapDelay D] in
theorem Complete.later (hr : Server.Auth.Retains server.shared server'.shared)
    (h : Complete pubkeyOf server.shared rows secret) :
    Complete pubkeyOf server'.shared rows secret :=
  { h with registered := hr.clients h.registered, token := h.token.later hr }

omit [HashMapDelay D] in
/-- The other rows do not matter. -/
theorem Complete.update (h : Complete pubkeyOf server.shared rows secret) {key : ConfigKey}
    (hi : key ≠ .initialized) (hs : key ≠ .rootSecret) (ho : key ≠ .obfuscationKey)
    (ht : key ≠ .authToken) (value : Option Value) :
    Complete pubkeyOf server.shared (Function.update rows key value) secret := by
  obtain ⟨hinit, hsecret, ⟨k, hkey⟩, hreg, htoken⟩ := h
  refine ⟨?_, ?_, ⟨k, ?_⟩, hreg, ?_⟩
  · rwa [isInitialized, Function.update_of_ne hi.symm]
  · rw [loadRootSecret_eq_ok] at hsecret ⊢
    rwa [Function.update_of_ne hs.symm]
  · rw [getObfuscationKey, ConfigRows.getBlob_eq_ok] at hkey ⊢
    rwa [Function.update_of_ne ho.symm]
  · simp only [OwnToken, loadAuthToken_eq_some, Function.update_of_ne ht.symm] at htoken ⊢
    exact htoken

omit [HashMapDelay D] in
theorem Complete.saveAuthToken (h : Complete pubkeyOf server.shared rows secret)
    {token : Option SessionToken}
    (htoken : ∀ t ∈ token, Started server.shared (pubkeyOf secret) t) :
    Complete pubkeyOf server.shared (saveAuthToken rows token) secret := by
  obtain ⟨hinit, hsecret, ⟨k, hkey⟩, hreg, -⟩ := h
  rw [loadRootSecret_eq_ok] at hsecret
  rw [getObfuscationKey, ConfigRows.getBlob_eq_ok] at hkey
  cases token with
  | none =>
    refine ⟨hinit, ?_, ⟨k, ?_⟩, hreg, Or.inl rfl⟩
    · rw [loadRootSecret_eq_ok]
      exact hsecret
    · rw [getObfuscationKey, ConfigRows.getBlob_eq_ok]
      exact hkey
  | some t =>
    refine ⟨hinit, ?_, ⟨k, ?_⟩, hreg, Or.inr ⟨t, ?_, htoken t rfl⟩⟩
    · rw [loadRootSecret_eq_ok]
      exact hsecret
    · rw [getObfuscationKey, ConfigRows.getBlob_eq_ok]
      exact hkey
    · rw [loadAuthToken_eq_some]
      rfl

theorem SetupPc.Ok.later (hl : Later V server server') {pc : SetupPc}
    (h : pc.Ok server endpoint me) : pc.Ok server' endpoint me := by
  cases pc with
  | proving h' => exact HandshakeOk.later hl h
  | _ => exact (retains_of_later hl).clients h

/-- The server takes steps of its own. -/
theorem InOrder.later (h : InOrder pubkeyOf s) (hl : Later V s.server server') :
    InOrder pubkeyOf { s with server := server' } := by
  have hr := retains_of_later hl
  refine ⟨fun f hf => (h.stored f hf).imp_right fun ⟨secret, hc⟩ => ⟨secret, hc.later hr⟩, ?_⟩
  obtain ⟨file, process, server⟩ := s
  have hprocess := h.process
  cases process with
  | setup kind secret transaction pc => exact ⟨hprocess.1, hprocess.2.1, hprocess.2.2.later hl⟩
  | running secret logins =>
    obtain ⟨⟨f, hf, hc⟩, hlogins⟩ := hprocess
    exact ⟨⟨f, hf, hc.later hr⟩, fun h hh => (hlogins h hh).later hl⟩
  | _ => exact hprocess

omit [HashMapDelay D] in
/-- Only the process moves on. -/
theorem InOrder.setProcess (h : InOrder pubkeyOf s) {process : Process}
    (hp : ProcessOk pubkeyOf s process) : InOrder pubkeyOf (s.setProcess process) := by
  refine ⟨h.stored, ?_⟩
  cases process <;> exact hp

omit [HashMapDelay D] in
/-- The process of a client that is set up writes to the table. -/
theorem InOrder.setRows (hc : Complete pubkeyOf s.server.shared rows secret)
    {logins : List Handshake}
    (hlogins : ∀ h ∈ logins, HandshakeOk .login (pubkeyOf secret) s.server h) (f : ConfigFile) :
    InOrder pubkeyOf ((s.setRows f rows).setProcess (.running secret logins)) := by
  constructor
  · intro f' hf'
    obtain rfl := Option.some.inj hf'
    exact Or.inr ⟨secret, hc⟩
  · exact ⟨⟨_, rfl, hc⟩, hlogins⟩

omit [HashMapDelay D] in
/-- The client writes to a row in between. -/
theorem InOrder.savesRows (h : InOrder pubkeyOf s) {logins : List Handshake}
    (hprocess : s.process = .running secret logins) (hf : s.file = some f)
    (hrows : ∀ secret, Complete pubkeyOf s.server.shared f.rows secret →
      Complete pubkeyOf s.server.shared rows secret) : InOrder pubkeyOf (s.setRows f rows) := by
  have hok := h.process
  rw [hprocess] at hok
  obtain ⟨⟨f', hf', hc⟩, hlogins⟩ := hok
  obtain rfl := Option.some.inj (hf.symm.trans hf')
  have hset := InOrder.setRows (hrows secret hc) hlogins f
  rwa [show (s.setRows f rows).setProcess (.running secret logins) = s.setRows f rows by
    rw [← hprocess]; rfl] at hset

omit [HashMapDelay D] in
/-- A statement of a setup. -/
theorem InOrder.write (h : InOrder pubkeyOf s) {kind : Kind} {pc : SetupPc}
    {result : Except ConfigError ConfigRows}
    (hok : ∀ transaction, result = .ok transaction →
      ProcessOk pubkeyOf s (.setup kind secret transaction pc)) :
    InOrder pubkeyOf (write s kind secret pc result) := by
  unfold Setup.write
  split
  · exact h.setProcess (hok _ rfl)
  · exact h.setProcess trivial

/-! ## 6. The statements of a setup -/

theorem Fresh.saveRootSecret (h : Fresh rows) (hs : saveRootSecret rows secret = .ok transaction) :
    Written transaction secret (.proving .beginning) := by
  obtain ⟨-, rfl⟩ := ConfigRows.insert_eq_ok.mp hs
  exact ⟨loadRootSecret_eq_ok.mpr rfl, h.authToken, h.obfuscationKey, h.initialized⟩

theorem Written.proving {h h' : Handshake} (hw : Written transaction secret (.proving h)) :
    Written transaction secret (.proving h') :=
  ⟨hw.rootSecret, hw.authToken, by simpa using hw.obfuscationKey, by simpa using hw.initialized⟩

theorem Written.accepted {h : Handshake} (hw : Written transaction secret (.proving h)) :
    Written transaction secret .accepted :=
  ⟨hw.rootSecret, hw.authToken, by simpa using hw.obfuscationKey, by simpa using hw.initialized⟩

theorem Written.saveObfuscationKey (hw : Written transaction secret .accepted) {key : FixedBytes 4}
    (hs : saveObfuscationKey transaction key = .ok rows) : Written rows secret .keyed := by
  obtain ⟨-, rfl⟩ := ConfigRows.insert_eq_ok.mp hs
  refine ⟨?_, hw.authToken, ?_, hw.initialized⟩
  · exact loadRootSecret_eq_ok.mpr (loadRootSecret_eq_ok.mp hw.rootSecret)
  · exact ⟨key, ConfigRows.getBlob_eq_ok.mpr rfl⟩

theorem Written.setInitialized (hw : Written transaction secret .keyed)
    (hs : setInitialized transaction = .ok rows) : Written rows secret .ready := by
  obtain ⟨-, rfl⟩ := ConfigRows.insert_eq_ok.mp hs
  obtain ⟨key, hkey⟩ := hw.obfuscationKey
  refine ⟨?_, hw.authToken, ⟨key, ?_⟩, rfl⟩
  · exact loadRootSecret_eq_ok.mpr (loadRootSecret_eq_ok.mp hw.rootSecret)
  · exact ConfigRows.getBlob_eq_ok.mpr (ConfigRows.getBlob_eq_ok.mp hkey)

omit [HashMapDelay D] in
theorem Written.complete (hw : Written transaction secret .ready)
    (hreg : pubkeyOf secret ∈ server.shared.clients) :
    Complete pubkeyOf server.shared transaction secret :=
  ⟨hw.initialized, hw.rootSecret, hw.obfuscationKey, hreg, Or.inl hw.authToken⟩

/-! ## 7. Runs -/

theorem inOrder_start (clients : List ClientId) : InOrder pubkeyOf (start D clients) :=
  ⟨by simp [start], trivial⟩

theorem inOrder_loginStep {logins : List Handshake} (h : InOrder pubkeyOf s)
    (hprocess : s.process = .running secret logins) (hf : s.file = some f) {k : ℕ}
    (hst : loginStep pubkeyOf V s f secret logins k = some s') : InOrder pubkeyOf s' := by
  have hok := h.process
  rw [hprocess] at hok
  obtain ⟨⟨f', hf', hc⟩, hlogins⟩ := hok
  obtain rfl := Option.some.inj (hf.symm.trans hf')
  unfold loginStep at hst
  split at hst
  · cases hst
  · rename_i x hk
    have hx := hlogins x (List.mem_of_getElem? hk)
    have herase : ∀ {server' : Server.Auth.State D}, Later V s.server server' →
        ∀ x ∈ logins.eraseIdx k, HandshakeOk .login (pubkeyOf secret) server' x :=
      fun hl x hx => (hlogins x (List.mem_of_mem_eraseIdx hx)).later hl
    split at hst
    · rename_i server' x' hstep
      obtain rfl := Option.some.inj hst
      obtain ⟨hl, hpending, -⟩ := handshake_step hx hstep
      refine (h.later hl).setProcess ⟨⟨f, hf, hc.later (retains_of_later hl)⟩, ?_⟩
      exact Pool.forall_mem_set (fun x hx => (hlogins x hx).later hl) (hpending x' rfl)
    · rename_i server' token hstep
      obtain rfl := Option.some.inj hst
      obtain ⟨hl, -, haccepted⟩ := handshake_step hx hstep
      obtain ⟨⟨-, hstarted⟩, -⟩ := haccepted _ rfl
      refine InOrder.setRows (s := { s with server := server' })
        ((hc.later (retains_of_later hl)).saveAuthToken ?_) (herase hl) f
      rintro t ht
      obtain rfl := Option.some.inj ht
      exact hstarted
    · rename_i server' p _ _ hstep
      obtain rfl := Option.some.inj hst
      obtain ⟨hl, -, -⟩ := handshake_step hx hstep
      exact (h.later hl).setProcess ⟨⟨f, hf, hc.later (retains_of_later hl)⟩, herase hl⟩
    · cases hst

/-- The file is created, or opened. -/
theorem InOrder.launch (h : InOrder pubkeyOf s)
    (hst : step pubkeyOf V s .launch = some s') : InOrder pubkeyOf s' := by
  simp only [step] at hst
  split at hst
  · obtain rfl := Option.some.inj hst
    have hfresh : Fresh .empty := ⟨rfl, rfl, rfl, rfl⟩
    refine ⟨?_, ⟨_, rfl, hfresh⟩⟩
    intro f hf
    obtain rfl := Option.some.inj hf
    exact Or.inl hfresh
  · rename_i f _ hf
    obtain rfl := Option.some.inj hst
    exact h.setProcess ⟨f, hf⟩
  · cases hst

theorem InOrder.createTable (h : InOrder pubkeyOf s)
    (hst : step pubkeyOf V s .createTable = some s') : InOrder pubkeyOf s' := by
  have hok := h.process
  simp only [step] at hst
  split at hst
  · rename_i f hprocess hf
    obtain rfl := Option.some.inj hst
    rw [hprocess] at hok
    obtain ⟨f', hf', hfresh⟩ := hok
    obtain rfl := Option.some.inj (hf.symm.trans hf')
    constructor
    · intro f' hf'
      obtain rfl := Option.some.inj hf'
      exact Or.inl hfresh
    · dsimp only
      split
      · exact ⟨_, rfl⟩
      · exact ⟨_, rfl, hfresh⟩
  · cases hst

/-- A process that finds an identity has its keys, and one that finds none asks for it. -/
theorem InOrder.boot (h : InOrder pubkeyOf s)
    (hst : step pubkeyOf V s .boot = some s') : InOrder pubkeyOf s' := by
  simp only [step] at hst
  split at hst
  · rename_i f hprocess hf
    split at hst
    · obtain rfl := Option.some.inj hst
      exact h.setProcess trivial
    split at hst
    · rename_i hinit
      split at hst
      · rename_i secret hsecret
        obtain rfl := Option.some.inj hst
        rcases h.stored f hf with hfresh | ⟨secret', hc⟩
        · simp [isInitialized, hfresh.initialized] at hinit
        · obtain rfl := Except.ok.inj (hsecret.symm.trans hc.rootSecret)
          exact h.setProcess ⟨⟨f, hf, hc⟩, by simp⟩
      · obtain rfl := Option.some.inj hst
        exact h.setProcess trivial
    · rename_i hinit
      obtain rfl := Option.some.inj hst
      rcases h.stored f hf with hfresh | ⟨secret, hc⟩
      · exact h.setProcess ⟨f, hf, hfresh⟩
      · exact absurd hc.initialized hinit
  · cases hst

/-- The transaction begins with the secret. -/
theorem InOrder.choose {kind : Kind} {secret : RootSecret} (h : InOrder pubkeyOf s)
    (hst : step pubkeyOf V s (.choose kind secret) = some s') : InOrder pubkeyOf s' := by
  have hok := h.process
  simp only [step] at hst
  split at hst
  · rename_i f hprocess hf
    obtain rfl := Option.some.inj hst
    rw [hprocess] at hok
    obtain ⟨f', hf', hfresh⟩ := hok
    obtain rfl := Option.some.inj (hf.symm.trans hf')
    exact h.write fun transaction hs => ⟨⟨f, hf, hfresh⟩, hfresh.saveRootSecret hs, trivial⟩
  · cases hst

/-- The registration or the login goes on, has succeeded, or has failed. -/
theorem InOrder.prove (h : InOrder pubkeyOf s)
    (hst : step pubkeyOf V s .prove = some s') : InOrder pubkeyOf s' := by
  have hok := h.process
  simp only [step] at hst
  split at hst
  · rename_i kind secret transaction x hprocess
    rw [hprocess] at hok
    obtain ⟨hfile, hw, hx⟩ := hok
    split at hst
    · rename_i server' x' hstep
      obtain rfl := Option.some.inj hst
      obtain ⟨hl, hpending, -⟩ := handshake_step hx hstep
      exact (h.later hl).setProcess ⟨hfile, hw.proving, hpending x' rfl⟩
    · rename_i server' reply hstep
      obtain rfl := Option.some.inj hst
      obtain ⟨hl, -, haccepted⟩ := handshake_step hx hstep
      exact (h.later hl).setProcess ⟨hfile, hw.accepted, (haccepted reply rfl).2⟩
    · rename_i server' hstep
      obtain rfl := Option.some.inj hst
      obtain ⟨hl, -, -⟩ := handshake_step hx hstep
      exact (h.later hl).setProcess trivial
    · cases hst
  · cases hst

theorem InOrder.saveObfuscationKey {key : FixedBytes 4} (h : InOrder pubkeyOf s)
    (hst : step pubkeyOf V s (.saveObfuscationKey key) = some s') : InOrder pubkeyOf s' := by
  have hok := h.process
  simp only [step] at hst
  split at hst
  · rename_i kind secret transaction hprocess
    obtain rfl := Option.some.inj hst
    rw [hprocess] at hok
    obtain ⟨hfile, hw, hreg⟩ := hok
    exact h.write fun transaction hs => ⟨hfile, hw.saveObfuscationKey hs, hreg⟩
  · cases hst

theorem InOrder.setInitialized (h : InOrder pubkeyOf s)
    (hst : step pubkeyOf V s .setInitialized = some s') : InOrder pubkeyOf s' := by
  have hok := h.process
  simp only [step] at hst
  split at hst
  · rename_i kind secret transaction hprocess
    obtain rfl := Option.some.inj hst
    rw [hprocess] at hok
    obtain ⟨hfile, hw, hreg⟩ := hok
    exact h.write fun transaction hs => ⟨hfile, hw.setInitialized hs, hreg⟩
  · cases hst

/-- The transaction is written as a whole. -/
theorem InOrder.commit (h : InOrder pubkeyOf s)
    (hst : step pubkeyOf V s .commit = some s') : InOrder pubkeyOf s' := by
  have hok := h.process
  simp only [step] at hst
  split at hst
  · rename_i kind secret transaction f hprocess hf
    obtain rfl := Option.some.inj hst
    rw [hprocess] at hok
    obtain ⟨-, hw, hreg⟩ := hok
    exact InOrder.setRows (hw.complete hreg) (by simp) f
  · cases hst

theorem inOrder_step {a : Action} (h : InOrder pubkeyOf s)
    (hst : step pubkeyOf V s a = some s') : InOrder pubkeyOf s' := by
  cases a with
  | server a =>
    obtain ⟨server', hserver, rfl⟩ := Option.map_eq_some_iff.mp hst
    exact h.later (.tail a .refl trivial hserver)
  | launch => exact h.launch hst
  | createTable => exact h.createTable hst
  | boot => exact h.boot hst
  | choose kind secret => exact h.choose hst
  | prove => exact h.prove hst
  | saveObfuscationKey key => exact h.saveObfuscationKey hst
  | setInitialized => exact h.setInitialized hst
  | commit => exact h.commit hst
  | startLogin =>
    have hok := h.process
    simp only [step] at hst
    split at hst
    · rename_i secret logins hprocess
      obtain rfl := Option.some.inj hst
      rw [hprocess] at hok
      exact h.setProcess ⟨hok.1, Pool.forall_mem_spawn hok.2 trivial⟩
    · cases hst
  | login k =>
    simp only [step] at hst
    split at hst
    · rename_i secret logins f hprocess hf
      exact inOrder_loginStep h hprocess hf hst
    · cases hst
  | loginFails k =>
    have hok := h.process
    simp only [step] at hst
    split at hst
    · rename_i secret logins hprocess
      obtain rfl := Option.some.inj hst
      rw [hprocess] at hok
      exact h.setProcess ⟨hok.1, fun x hx => hok.2 x (List.mem_of_mem_eraseIdx hx)⟩
    · cases hst
  | wipeToken =>
    simp only [step] at hst
    split at hst
    · rename_i hprocess hf
      obtain rfl := Option.some.inj hst
      exact h.savesRows hprocess hf fun secret hc => hc.saveAuthToken (by simp)
    · cases hst
  | setBackupPath path =>
    simp only [step] at hst
    split at hst
    · rename_i hprocess hf
      obtain rfl := Option.some.inj hst
      exact h.savesRows hprocess hf fun secret hc =>
        hc.update (by simp) (by simp) (by simp) (by simp) _
    · cases hst
  | saveHighestSentIndexNumber index =>
    simp only [step] at hst
    split at hst
    · rename_i hprocess hf
      obtain rfl := Option.some.inj hst
      exact h.savesRows hprocess hf fun secret hc =>
        hc.update (by simp) (by simp) (by simp) (by simp) _
    · cases hst
  | stop =>
    simp only [step] at hst
    split at hst
    · cases hst
    · obtain rfl := Option.some.inj hst
      exact h.setProcess trivial

/-! ## 8. All or nothing -/

/-- The identity of the client is stored as a whole or not at all.  A running client has the keys of
the stored secret.  A client that has an identity gets to run with it when its process starts, one
that has none is asked for one, and then no statement of its setup fails because its row is
there. -/
structure AllOrNothing (pubkeyOf : RootSecret → ClientId) (V : SignatureScheme) (s : State D) :
    Prop where
  stored : ∀ f, s.file = some f →
    Fresh f.rows ∨ ∃ secret, Complete pubkeyOf s.server.shared f.rows secret
  running : ∀ secret logins, s.process = .running secret logins →
    ∃ f, s.file = some f ∧ Complete pubkeyOf s.server.shared f.rows secret
  boots : ∀ f, s.process = .opened → s.file = some f → 0 < f.tables →
    (Fresh f.rows ∧ step pubkeyOf V s .boot = some (s.setProcess .guide)) ∨
      ∃ secret, Complete pubkeyOf s.server.shared f.rows secret ∧
        step pubkeyOf V s .boot = some (s.setProcess (.running secret []))
  secretWritten : ∀ kind secret s', s.process = .guide →
    step pubkeyOf V s (.choose kind secret) = some s' → s'.process ≠ .off
  keyWritten : ∀ kind secret transaction key s',
    s.process = .setup kind secret transaction .accepted →
    step pubkeyOf V s (.saveObfuscationKey key) = some s' → s'.process ≠ .off
  initializedWritten : ∀ kind secret transaction s',
    s.process = .setup kind secret transaction .keyed →
    step pubkeyOf V s .setInitialized = some s' → s'.process ≠ .off

/-- Whenever the process ends, whatever fails, and whoever else makes which requests, a client is
set up completely or not at all, and the server knows it if it is. -/
theorem setup_all_or_nothing {clients : List ClientId}
    (h : Reach (step pubkeyOf V) (fun _ _ => True) (start D clients) s) :
    AllOrNothing pubkeyOf V s := by
  have hin : InOrder pubkeyOf s := h.invariant (inOrder_start clients) fun _ _ _ hi _ hst =>
    inOrder_step hi hst
  have hok := hin.process
  refine ⟨hin.stored, ?_, ?_, ?_, ?_, ?_⟩
  · intro secret logins hprocess
    rw [hprocess] at hok
    exact hok.1
  · intro f hprocess hf htables
    rcases hin.stored f hf with hfresh | ⟨secret, hc⟩
    · refine Or.inl ⟨hfresh, ?_⟩
      simp [step, hprocess, hf, htables.ne', isInitialized, hfresh.initialized]
    · refine Or.inr ⟨secret, hc, ?_⟩
      simp [step, hprocess, hf, htables.ne', hc.initialized, hc.rootSecret]
  · intro kind secret s' hprocess hst
    rw [hprocess] at hok
    obtain ⟨f, hf, hfresh⟩ := hok
    simp only [step, hprocess, hf, saveRootSecret,
      ConfigRows.insert_of_none hfresh.rootSecret, write, Option.some.injEq] at hst
    rw [← hst]
    simp [State.setProcess]
  · intro kind secret transaction key s' hprocess hst
    rw [hprocess] at hok
    obtain ⟨-, hw, -⟩ := hok
    have hnone : transaction .obfuscationKey = none := hw.obfuscationKey
    simp only [step, hprocess, Config.saveObfuscationKey, ConfigRows.insert_of_none hnone, write,
      Option.some.injEq] at hst
    rw [← hst]
    simp [State.setProcess]
  · intro kind secret transaction s' hprocess hst
    rw [hprocess] at hok
    obtain ⟨-, hw, -⟩ := hok
    have hnone : transaction .initialized = none := hw.initialized
    simp only [step, hprocess, Config.setInitialized, ConfigRows.insert_of_none hnone, write,
      Option.some.injEq] at hst
    rw [← hst]
    simp [State.setProcess]

/-- Without the first table no start gets any further. -/
theorem never_started (hf : s.file = some f) (htables : f.tables = 0) (hoff : s.process = .off)
    (h : Reach (step pubkeyOf V) (fun _ _ => True) s s') :
    s'.process = .off ∨ s'.process = .opened := by
  have hstuck : (∃ f, s'.file = some f ∧ f.tables = 0) ∧
      (s'.process = .off ∨ s'.process = .opened) := by
    refine h.invariant (I := fun s => (∃ f, s.file = some f ∧ f.tables = 0) ∧
      (s.process = .off ∨ s.process = .opened)) ⟨⟨f, hf, htables⟩, Or.inl hoff⟩ ?_
    rintro ⟨file, process, server⟩ a s' ⟨⟨f, hf, htables⟩, hprocess⟩ - hst
    obtain rfl : file = some f := hf
    cases a with
    | server a =>
      obtain ⟨server', -, rfl⟩ := Option.map_eq_some_iff.mp hst
      exact ⟨⟨f, rfl, htables⟩, hprocess⟩
    | launch =>
      rcases hprocess with hp | hp <;> obtain rfl : process = _ := hp
      · obtain rfl := Option.some.inj hst
        exact ⟨⟨f, rfl, htables⟩, Or.inr rfl⟩
      · cases hst
    | boot =>
      rcases hprocess with hp | hp <;> obtain rfl : process = _ := hp
      · cases hst
      · simp only [step, if_pos htables, Option.some.injEq] at hst
        exact hst ▸ ⟨⟨f, rfl, htables⟩, Or.inl rfl⟩
    | stop =>
      rcases hprocess with hp | hp <;> obtain rfl : process = _ := hp
      · cases hst
      · obtain rfl := Option.some.inj hst
        exact ⟨⟨f, rfl, htables⟩, Or.inl rfl⟩
    | _ => rcases hprocess with hp | hp <;> obtain rfl : process = _ := hp <;> cases hst
  exact hstuck.2

end

/-! ## 9. A first start, and another one -/

def sampleSecret : RootSecret := .fill 1

/-- The client registers, logs in, ends, and starts again. -/
def twoStarts : List Action :=
  [.launch, .createTable, .createTable, .createTable, .boot, .choose .new sampleSecret,
    .prove, .server (.handle 0 (.clientExists true)),
    .server (.handle 0 (.challengeBegin (some (.fill 2)))), .prove,
    .prove, .server (.handle 1 .challengeVerify), .server (.handle 1 (.registerClient true)),
    .prove, .saveObfuscationKey (.fill 3), .setInitialized, .commit,
    .startLogin, .login 0, .server (.handle 2 (.clientExists true)),
    .server (.handle 2 (.challengeBegin (some (.fill 4)))), .login 0,
    .login 0, .server (.handle 3 .challengeVerify),
    .server (.handle 3 (.sessionStart (some (.fill 5)))),
    .server (.handle 3 (.clientUpdateLoggedIn true)), .login 0,
    .stop, .launch, .boot]

/-- Whether it runs with this secret. -/
def isRunning (s : State D) (secret : RootSecret) : Bool :=
  match s.process with
  | .running secret' _ => decide (secret' = secret)
  | _ => false

theorem setup_all_or_nothing_twoStarts : ∃ s : State DelayMap, isRunning s sampleSecret = true ∧
    (∃ f, s.file = some f ∧ loadAuthToken f.rows = .ok (some (.fill 5))) ∧
    AllOrNothing id Server.Auth.stampScheme s := by
  have hall : (run (step id Server.Auth.stampScheme) (start DelayMap []) twoStarts).any (fun s =>
      isRunning s sampleSecret && s.file.any fun f =>
        decide (loadAuthToken f.rows = .ok (some (.fill 5)))) = true := by
    decide +kernel
  obtain ⟨s, hrun, hs⟩ := (Option.any_eq_true _ _).mp hall
  obtain ⟨hrunning, hfile⟩ := Bool.and_eq_true_iff.mp hs
  obtain ⟨f, hf, htoken⟩ := (Option.any_eq_true _ _).mp hfile
  exact ⟨s, hrunning, ⟨f, hf, of_decide_eq_true htoken⟩,
    setup_all_or_nothing (reach_of_run_true hrun)⟩

/-- The process ends after the file has been created. -/
theorem never_started_reached : ∃ s : State DelayMap,
    Reach (step id Server.Auth.stampScheme) (fun _ _ => True) (start DelayMap []) s ∧
      ∀ s', Reach (step id Server.Auth.stampScheme) (fun _ _ => True) s s' →
        s'.process = .off ∨ s'.process = .opened := by
  have hreach : Reach (step id Server.Auth.stampScheme) (fun _ _ => True) (start DelayMap [])
      ⟨some ⟨0, .empty⟩, .off, Server.Auth.start DelayMap []⟩ :=
    reach_of_run_true (show run _ _ [.launch, .stop] = some _ from rfl)
  exact ⟨_, hreach, fun s' h => never_started rfl rfl rfl h⟩

end Backuwup.Client.Setup
