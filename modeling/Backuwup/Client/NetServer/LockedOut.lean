/-
# A client that is locked out (`client/src/net_server/mod.rs`, `server/src/client_auth_manager.rs`)

A nonce that is issued while another one is pending for the client is sent to the client and not
remembered, and a response to it is refused.  Therefore a nonce that nobody answers (of a login that
was cut off, or that a stranger began in the client's name) stays pending for good, and until the
server is restarted no login of the client succeeds (`locked_out`): `websocket_connect` tries again
and again, and no call of `retry_with_login` gets as far as its request.
-/
import Backuwup.Client.NetServer.Connect
import Backuwup.Server.Challenges

namespace Backuwup.Client.Connecting

open Transition
open Config
open Setup (Handshake Progress)
open Server.Auth (ChallengeNonce Requested requested_step)

variable {D : Type → Type → Type} [HashMapDelay D]

variable (V : SignatureScheme) (me : ClientId) (nonce : ChallengeNonce)

/-! ## 1. A nonce that nobody answers -/

/-- What happens at the server while the nonce is not answered: nonces are distinct, a response
that verifies has been signed, and nobody signs this one for the client. -/
def Unanswered (s : Server.Auth.State D) (a : Server.Auth.Action) : Prop :=
  Server.Auth.Ideal V s a ∧ a ≠ .sign me nonce

/-- The same in a run of the client and the server, which is not restarted. -/
def Quiet (s : State D) : Action → Prop
  | .server a => Unanswered V me nonce s.shared.server a
  | .restart => False
  | _ => True

/-- The nonce is pending, and its client has not signed it. -/
structure Held (s : Server.Auth.State D) : Prop where
  pending : HashMapDelay.get s.shared.auth.challenges me = some nonce
  issued : ∃ endpoint time, .issued endpoint me nonce time ∈ s.shared.log
  unsigned : .signed me nonce ∉ s.shared.log

/-- A request that has been refused, or will be. -/
def Refused : Server.Auth.Stage → Prop
  | .completing _ _ | .answered (.error _) => True
  | _ => False

/-- A login that does not know the nonce. -/
def AwayFrom (s : Server.Auth.State D) : Handshake → Prop
  | .beginning => True
  | .awaitingChallenge i =>
    Requested (fun _ stage => stage ≠ .answered (.ok (.challenge nonce))) s me i
  | .signing nonce' => nonce' ≠ nonce
  | .awaitingAnswer i => Requested (fun _ => Refused) s me i

def LockedTask (s : Server.Auth.State D) (t : Task) : Prop :=
  match t.pc with
  | .loading | .sleeping | .done (.error _) => True
  | .loggingIn h => AwayFrom me nonce s h
  | .requesting _ | .unauthorized | .done (.ok _) => False

/-- No task has a token, and none is stored. -/
structure Locked (s : State D) : Prop where
  held : Held me nonce s.shared.server
  stored : loadAuthToken s.shared.rows = .ok none
  websocket : LockedTask me nonce s.shared.server s.websocket
  calls : ∀ t ∈ s.tasks, LockedTask me nonce s.shared.server t

section

variable {V : SignatureScheme} {me : ClientId} {nonce : ChallengeNonce} {s s' : State D}
  {server server' : Server.Auth.State D} {sh sh' : Shared D} {h : Handshake} {t t' : Task}

/-! ## 2. At the server -/

/-- While the nonce is pending no response of the client verifies. -/
theorem Held.refuses (hheld : Held me nonce server) {i : ℕ} {endpoint : Server.Auth.Endpoint}
    {response : Bytes} {nonce' : ChallengeNonce}
    (hok : Server.Auth.Ideal V server (.handle i .challengeVerify))
    (hi : server.tasks[i]? = some ⟨me, .completing endpoint response⟩)
    (hget : HashMapDelay.get server.shared.auth.challenges me = some nonce')
    (hverify : V.verify me nonce'.bytes response = true) : False := by
  obtain rfl := Option.some.inj (hheld.pending.symm.trans hget)
  exact hheld.unsigned (hok me endpoint response nonce hi hverify)

theorem held_step [LawfulHashMapDelay D] {a : Server.Auth.Action} (hheld : Held me nonce server)
    (hok : Unanswered V me nonce server a) (hst : Server.Auth.step V server a = some server') :
    Held me nonce server' := by
  obtain ⟨hideal, hsign⟩ := hok
  -- what is added to the log is not the signature
  have hlogged : ∀ entry : Server.Auth.Entry, entry ≠ .signed me nonce →
      (∃ endpoint time, .issued endpoint me nonce time ∈ entry :: server.shared.log) ∧
        .signed me nonce ∉ entry :: server.shared.log := by
    intro entry hentry
    obtain ⟨endpoint, time, hissued⟩ := hheld.issued
    exact ⟨⟨endpoint, time, List.mem_cons_of_mem _ hissued⟩,
      by simp [hentry.symm, hheld.unsigned]⟩
  cases Server.Auth.moved_of_step hst with
  | arrives | refuses => exact { hheld with }
  | waits => exact { hheld with }
  | handles i event r shared stage hr hh =>
    obtain ⟨client, stage₀⟩ := r
    cases hh with
    | answers | passes | registers => exact { hheld with }
    | issues endpoint nonce' =>
      obtain ⟨hissued, hunsigned⟩ := hlogged (.issued endpoint client nonce' _) (by simp)
      refine ⟨?_, hissued, hunsigned⟩
      simp only [Server.Auth.ClientAuthManager.challengeBegin, LawfulHashMapDelay.get_insert]
      split
      · rename_i hclient
        rw [← hclient, hheld.pending, Option.getD_some]
      · exact hheld.pending
    | verifies endpoint response nonce' hget hverify =>
      obtain ⟨hissued, hunsigned⟩ := hlogged (.verified client nonce' _) (by simp)
      refine ⟨?_, hissued, hunsigned⟩
      rw [LawfulHashMapDelay.get_remove]
      split
      · rename_i hclient
        subst hclient
        exact (hheld.refuses hideal hr hget hverify).elim
      · exact hheld.pending
    | starts nonce' token =>
      obtain ⟨hissued, hunsigned⟩ := hlogged (.started client token nonce' _) (by simp)
      exact ⟨hheld.pending, hissued, hunsigned⟩
  | authorizes token client =>
    obtain ⟨hissued, hunsigned⟩ := hlogged (.authorized token client _) (by simp)
    exact ⟨hheld.pending, hissued, hunsigned⟩
  | signs client nonce' =>
    obtain ⟨hissued, hunsigned⟩ := hlogged (.signed client nonce') (by
      rintro heq
      cases heq
      exact hsign rfl)
    exact ⟨hheld.pending, hissued, hunsigned⟩

/-- The nonce of an answer has just been drawn. -/
theorem challenge_of_handleStep {event : Server.Auth.Event} {sh sh' : Server.Auth.Shared D}
    {r r' : Server.Auth.Request} (hst : Server.Auth.handleStep V event sh r = some (sh', r'))
    (hr' : r'.stage = .answered (.ok (.challenge nonce))) :
    event = .challengeBegin (some nonce) := by
  have hadvanced := Server.Auth.advanced_of_handleStep hst
  rw [hr'] at hadvanced
  generalize hr : r.stage = stage at hadvanced
  cases hadvanced with
  | issues endpoint =>
    obtain ⟨client, stage⟩ := r
    obtain rfl : stage = .checked endpoint := hr
    cases event with
    | challengeBegin drawn =>
      cases drawn with
      | none =>
        cases hst
        cases hr'
      | some drawn =>
        cases hst
        cases hr'
        rfl
    | clientExists ok | sessionStart ok => cases ok <;> simp [Server.Auth.handleStep] at hst
    | _ => simp [Server.Auth.handleStep] at hst

/-- A login that does not know the nonce does not learn it, and is refused. -/
theorem awayFrom_step {a : Server.Auth.Action} (hheld : Held me nonce server)
    (hok : Unanswered V me nonce server a) (hst : Server.Auth.step V server a = some server')
    (haway : AwayFrom me nonce server h) : AwayFrom me nonce server' h := by
  cases h with
  | beginning => trivial
  | signing nonce' => exact haway
  | awaitingChallenge i =>
    refine requested_step
      (p := fun _ stage => stage ≠ .answered (.ok (.challenge nonce)))
      (fun _ _ _ _ hstage => hstage) ?_ hst haway
    rintro event stage sh' r' rfl - - hstep hanswer
    obtain rfl := challenge_of_handleStep hstep hanswer
    obtain ⟨endpoint, time, hissued⟩ := hheld.issued
    exact hok.1 endpoint me time hissued
  | awaitingAnswer i =>
    refine requested_step (p := fun _ => Refused) (fun _ _ _ _ hstage => hstage) ?_ hst haway
    rintro event stage sh' r' rfl hi hstage hstep
    obtain ⟨-, hhandled⟩ := Server.Auth.handled_of_handleStep hstep
    have hadvanced := Server.Auth.advanced_of_handleStep hstep
    obtain ⟨client', stage'⟩ := r'
    dsimp only at hhandled hadvanced ⊢
    cases hadvanced with
    | fails => trivial
    | verifies endpoint response =>
      cases hhandled with
      | verifies _ _ nonce' hget hverify => exact hheld.refuses hok.1 hi hget hverify
    | passes | issues | registers | starts | answers => exact hstage.elim

theorem later_quiet [LawfulHashMapDelay D] (hheld : Held me nonce server)
    (hl : Reach (Server.Auth.step V) (Unanswered V me nonce) server server') :
    Held me nonce server' ∧ ∀ h, AwayFrom me nonce server h → AwayFrom me nonce server' h := by
  refine hl.invariant (I := fun x => Held me nonce x ∧
    ∀ h, AwayFrom me nonce server h → AwayFrom me nonce x h) ⟨hheld, fun _ => id⟩ ?_
  rintro x a x' ⟨hx, haway⟩ hok hst
  exact ⟨held_step hx hok hst, fun h hh => awayFrom_step hx hok hst (haway h hh)⟩

/-! ## 3. At the client -/

/-- A step of a login is one or two at the server; it does not learn the nonce, and is not
accepted. -/
theorem asked_quiet {p : Progress} (hst : Asked V me server h server' p)
    (haway : AwayFrom me nonce server h) :
    Reach (Server.Auth.step V) (Unanswered V me nonce) server server' ∧
      (∀ h', p = .pending h' → AwayFrom me nonce server' h') ∧ ∀ reply, p ≠ .accepted reply := by
  cases hst with
  | begins =>
    refine ⟨.tail (.loginBegin me) .refl ⟨trivial, by simp⟩ rfl, ?_, by simp⟩
    rintro h' hh'
    obtain rfl := Progress.pending.inj hh'
    exact ⟨.beginning .login, by simp [Server.Auth.loginBegin], by simp⟩
  | receives i client nonce' hi =>
    refine ⟨.refl, ?_, by simp⟩
    rintro h' hh'
    obtain rfl := Progress.pending.inj hh'
    obtain ⟨stage, hi', hstage⟩ := haway
    rintro rfl
    cases hi.symm.trans hi'
    exact hstage rfl
  | completes nonce' =>
    have hne : Server.Auth.Action.sign me nonce' ≠ .sign me nonce := by
      rintro heq
      exact haway (Server.Auth.Action.sign.inj heq).2
    have hsigned : Reach (Server.Auth.step V) (Unanswered V me nonce) server
        (withLog server (.signed me nonce' :: server.shared.log)) :=
      .tail (.sign me nonce') .refl ⟨trivial, hne⟩ rfl
    refine ⟨hsigned.tail (.loginComplete me (V.sign me nonce'.bytes)) ⟨trivial, by simp⟩ rfl,
      ?_, by simp⟩
    rintro h' hh'
    obtain rfl := Progress.pending.inj hh'
    obtain ⟨stage, hstage, hrefused⟩ : ∃ stage, Server.Auth.loginComplete me
        (V.sign me nonce'.bytes) = ⟨me, stage⟩ ∧ Refused stage := by
      unfold Server.Auth.loginComplete Server.Auth.complete
      split
      · exact ⟨_, rfl, trivial⟩
      · exact ⟨_, rfl, trivial⟩
    exact ⟨stage, by simp [hstage], hrefused⟩
  | accepted i client token hi =>
    obtain ⟨stage, hi', hstage⟩ := haway
    cases hi.symm.trans hi'
    exact hstage.elim
  | refusedChallenge | refusedToken => exact ⟨.refl, by simp, by simp⟩

theorem LockedTask.later [LawfulHashMapDelay D] (hheld : Held me nonce server)
    (hl : Reach (Server.Auth.step V) (Unanswered V me nonce) server server')
    (ht : LockedTask me nonce server t) : LockedTask me nonce server' t := by
  obtain ⟨rounds, pc⟩ := t
  cases pc with
  | loggingIn h => exact (later_quiet hheld hl).2 h ht
  | done result => cases result <;> exact ht
  | _ => exact ht

omit [HashMapDelay D] in
theorem LockedTask.fails (e : Requests.CallError) : LockedTask me nonce server (t.fails e) := by
  unfold Task.fails Task.goes LockedTask
  cases t.rounds <;> trivial

/-- A step of a task without a token. -/
theorem TaskMoved.locked {event : Event} (hst : TaskMoved V me sh event t sh' t')
    (hstored : loadAuthToken sh.rows = .ok none) (ht : LockedTask me nonce sh.server t) :
    Reach (Server.Auth.step V) (Unanswered V me nonce) sh.server sh'.server ∧
      loadAuthToken sh'.rows = .ok none ∧ LockedTask me nonce sh'.server t' := by
  cases hst with
  | loads rounds token hrounds hload => cases hload.symm.trans hstored
  | succeeds | disappoints | refused | wipes | closes => exact ht.elim
  | proceeds rounds h h' server hstep =>
    obtain ⟨hl, hpending, -⟩ := asked_quiet (asked_of_step hstep) ht
    exact ⟨hl, hstored, hpending h' rfl⟩
  | saves rounds h server token hstep =>
    obtain ⟨-, -, haccepted⟩ := asked_quiet (asked_of_step hstep) ht
    exact (haccepted _ rfl).elim
  | loginFails rounds h server hstep =>
    obtain ⟨hl, -, -⟩ := asked_quiet (asked_of_step hstep) ht
    exact ⟨hl, hstored, .fails _⟩
  | cutOff => exact ⟨.refl, hstored, .fails _⟩
  | exhausted | lacks | unreadable | wakes => exact ⟨.refl, hstored, trivial⟩

theorem locked_step [LawfulHashMapDelay D] {a : Action} (hlocked : Locked me nonce s)
    (hok : Quiet V me nonce s a) (hst : step V me s a = some s') : Locked me nonce s' := by
  have hcalls : ∀ {server},
      Reach (Server.Auth.step V) (Unanswered V me nonce) s.shared.server server →
      ∀ t ∈ s.tasks, LockedTask me nonce server t :=
    fun hl t ht => (hlocked.calls t ht).later hlocked.held hl
  cases a with
  | restart => exact hok.elim
  | server a =>
    obtain ⟨server, hserver, rfl⟩ := Option.map_eq_some_iff.mp hst
    have hl : Reach (Server.Auth.step V) (Unanswered V me nonce) s.shared.server server :=
      .tail a .refl hok hserver
    exact {
      held := (later_quiet hlocked.held hl).1
      stored := hlocked.stored
      websocket := hlocked.websocket.later hlocked.held hl
      calls := hcalls hl }
  | websocket event =>
    obtain ⟨⟨sh, t⟩, hmoved, rfl⟩ := Option.map_eq_some_iff.mp hst
    obtain ⟨hl, hstored, ht⟩ :=
      (taskMoved_of_taskStep hmoved).locked hlocked.stored hlocked.websocket
    exact ⟨(later_quiet hlocked.held hl).1, hstored, ht, hcalls hl⟩
  | startCall =>
    obtain rfl := Option.some.inj hst
    exact { hlocked with calls := Pool.forall_mem_spawn hlocked.calls trivial }
  | call k event =>
    obtain ⟨p, hadvance, rfl⟩ := Option.map_eq_some_iff.mp hst
    obtain ⟨t, sh, t', hk, hmoved, rfl⟩ := Pool.advance_eq_some.mp hadvance
    obtain ⟨hl, hstored, ht⟩ := (taskMoved_of_taskStep hmoved).locked hlocked.stored
      (hlocked.calls t (List.mem_of_getElem? hk))
    exact {
      held := (later_quiet hlocked.held hl).1
      stored := hstored
      websocket := hlocked.websocket.later hlocked.held hl
      calls := Pool.forall_mem_set (hcalls hl) ht }

/-- From a client without a token, at a server that has a nonce pending for it which the client has
not signed: as long as nobody signs this nonce and the server is not restarted, the client has no
token, is not connected, and makes no request. -/
theorem locked_out [LawfulHashMapDelay D] {clients : List ClientId} {rows : ConfigRows}
    (hserver : Reach (Server.Auth.step V) (Server.Auth.Ideal V) (Server.Auth.start D clients)
      server)
    (hpending : HashMapDelay.get server.shared.auth.challenges me = some nonce)
    (hunsigned : .signed me nonce ∉ server.shared.log) (hrow : loadAuthToken rows = .ok none)
    (hrun : Reach (step V me) (Quiet V me nonce) (start rows server) s) :
    loadAuthToken s.shared.rows = .ok none ∧ ∀ t ∈ s.websocket :: s.tasks,
      (∀ token, t.pc ≠ .requesting token) ∧ t.pc ≠ .done (.ok ()) := by
  have haccounted : Server.Auth.Accounted server.shared :=
    hserver.invariant (I := fun x => Server.Auth.Accounted x.shared)
      (Server.Auth.accounted_start clients) fun _ _ _ hx _ hst => Server.Auth.accounted_step hx hst
  obtain ⟨endpoint, time, hlast⟩ := haccounted.pending_of_get hpending
  have hlocked : Locked me nonce s := by
    refine hrun.invariant (I := Locked me nonce) ?_ fun _ _ _ hx hok hst => locked_step hx hok hst
    exact ⟨⟨hpending, ⟨endpoint, time, Server.Auth.mem_of_pending hlast⟩, hunsigned⟩, hrow,
      trivial, by simp [start]⟩
  refine ⟨hlocked.stored, ?_⟩
  intro t ht
  have htask : LockedTask me nonce s.shared.server t := by
    rcases List.mem_cons.mp ht with rfl | ht
    · exact hlocked.websocket
    · exact hlocked.calls t ht
  refine ⟨?_, ?_⟩
  · intro token hpc
    rw [LockedTask, hpc] at htask
    exact htask
  · intro hpc
    rw [LockedTask, hpc] at htask
    exact htask

end

/-- A stranger begins a login in Alice's name. -/
def strangerBegins : List Server.Auth.Action :=
  [.loginBegin Server.Auth.alice, .handle 0 (.clientExists true),
    .handle 0 (.challengeBegin (some (.fill 5)))]

/-- Then Alice logs in, as she does each time. -/
def aliceLogsIn : List Action :=
  [.websocket .load, .websocket .login, .server (.handle 1 (.clientExists true)),
    .server (.handle 1 (.challengeBegin (some (.fill 7)))), .websocket .login, .websocket .login,
    .server (.handle 2 .challengeVerify), .websocket .login]

/-- `Quiet` for the stand-in and the stranger's nonce, evaluated. -/
def quiet (s : State DelayMap) : Action → Bool
  | .server a => Server.Auth.ideal s.shared.server a &&
      decide (a ≠ .sign Server.Auth.alice (.fill 5))
  | .restart => false
  | _ => true

theorem quiet_ok (s : State DelayMap) (a : Action) (h : quiet s a = true) :
    Quiet Server.Auth.stampScheme Server.Auth.alice (.fill 5) s a := by
  cases a with
  | server a =>
    obtain ⟨hideal, hsign⟩ := Bool.and_eq_true_iff.mp h
    exact ⟨Server.Auth.ideal_ok _ a hideal, of_decide_eq_true hsign⟩
  | restart => cases h
  | _ => trivial

theorem locked_out_alice : ∃ s : State DelayMap, s.websocket.pc = .sleeping ∧
    s.shared.server.tasks[2]? = some ⟨Server.Auth.alice, .answered (.error .crypto)⟩ ∧
    loadAuthToken s.shared.rows = .ok none := by
  obtain ⟨server, hbegins, ⟨hpending, hunsigned⟩, s, hlogsIn, hsleeping, hrefused⟩ :
      ∃ server : Server.Auth.State DelayMap,
        runWhen (Server.Auth.step Server.Auth.stampScheme) Server.Auth.ideal
          (Server.Auth.start DelayMap [Server.Auth.alice]) strangerBegins = some server ∧
        (HashMapDelay.get server.shared.auth.challenges Server.Auth.alice = some (.fill 5) ∧
          .signed Server.Auth.alice (.fill 5) ∉ server.shared.log) ∧
        ∃ s, runWhen (step Server.Auth.stampScheme Server.Auth.alice) quiet (start .empty server)
            aliceLogsIn = some s ∧
          s.websocket.pc = .sleeping ∧
          s.shared.server.tasks[2]? = some ⟨Server.Auth.alice, .answered (.error .crypto)⟩ := by
    decide +kernel
  obtain ⟨hstored, -⟩ := locked_out (reach_of_runWhen Server.Auth.ideal_ok hbegins) hpending
    hunsigned rfl (reach_of_runWhen quiet_ok hlogsIn)
  exact ⟨s, hsleeping, hrefused, hstored⟩

end Backuwup.Client.Connecting
