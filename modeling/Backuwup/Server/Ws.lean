/-
# WebSocket connections with clients (`server/src/ws.rs`)

The server keeps one sink for each client, which the insertion of a newer connection replaces.
The handler of a connection spawns a listener and then inserts the sink; the listener removes the
sink when the socket ends, by the id of the client.  So the listener of an old connection drops
the sink of a newer one, and an insertion may come after the removal or after a newer insertion.

If the steps of the connections of one client do not overtake each other in these ways, the map
holds the sink of the latest connection as long as that is open (`connections_live`);
`live_connection_dropped` is the run in which a client that has reconnected is not notified.
-/
import Backuwup.Lib.Pool
import Backuwup.Lib.Transition
import Backuwup.Shared.Types
import Mathlib.Logic.Function.Basic

namespace Backuwup.Server.Ws

open Transition

/-! ## 1. `ClientConnections` -/

/-- The errors of `notify_client`. -/
inductive Error
  | clientNotConnected (client : ClientId)
  /-- the message could not be serialized or sent -/
  | send
deriving DecidableEq

/-- The sinks by their clients; a sink is named by its connection. -/
structure ClientConnections where
  connections : ClientId → Option ℕ

namespace ClientConnections

def new : ClientConnections := ⟨fun _ => none⟩

def newConnection (m : ClientConnections) (client : ClientId) (connection : ℕ) :
    ClientConnections :=
  ⟨Function.update m.connections client (some connection)⟩

def removeConnection (m : ClientConnections) (client : ClientId) : ClientConnections :=
  ⟨Function.update m.connections client none⟩

/-- `notify_client`, with the outcome of sending on a sink; the sink that was used. -/
def notifyClient (m : ClientConnections) (client : ClientId) (sent : ℕ → Bool) : Except Error ℕ :=
  match m.connections client with
  | none => .error (.clientNotConnected client)
  | some connection => if sent connection then .ok connection else .error .send

end ClientConnections

/-! ## 2. The connections -/

/-- What the handler of a connection has done. -/
inductive HandlerStage
  | upgraded
  /-- `incoming_listener` has been spawned -/
  | spawned
  /-- the sink has been inserted -/
  | inserted
deriving DecidableEq

/-- A connection with its handler and its listener. -/
structure Connection where
  client : ClientId
  /-- the socket has not ended -/
  isOpen : Bool
  handler : HandlerStage
  /-- the listener has removed the sink -/
  removed : Bool
deriving DecidableEq

/-- The map, and all connections in the order they were established. -/
abbrev State := Pool ClientConnections Connection

def start : State := ⟨.new, []⟩

inductive Action
  /-- a request for a connection, with the client of its token -/
  | handler (session : Option ClientId)
  | spawnListener (i : ℕ)
  | newConnection (i : ℕ)
  /-- the socket ends -/
  | close (i : ℕ)
  /-- `incoming_listener` notices -/
  | removeConnection (i : ℕ)
deriving DecidableEq

def connectionStep (a : Action) (m : ClientConnections) (c : Connection) :
    Option (ClientConnections × Connection) :=
  match a with
  | .handler _ => none
  | .spawnListener _ =>
    if c.handler = .upgraded then some (m, { c with handler := .spawned }) else none
  | .newConnection i =>
    if c.handler = .spawned then
      some (m.newConnection c.client i, { c with handler := .inserted })
    else none
  | .close _ => if c.isOpen then some (m, { c with isOpen := false }) else none
  | .removeConnection _ =>
    if c.handler ≠ .upgraded ∧ c.isOpen = false ∧ c.removed = false then
      some (m.removeConnection c.client, { c with removed := true })
    else none

def step (s : State) : Action → Option State
  -- without a valid token, the socket is dropped
  | .handler none => some s
  | .handler (some client) => some (s.spawn ⟨client, true, .upgraded, false⟩)
  | .spawnListener i => s.advance (connectionStep (.spawnListener i)) i
  | .newConnection i => s.advance (connectionStep (.newConnection i)) i
  | .close i => s.advance (connectionStep (.close i)) i
  | .removeConnection i => s.advance (connectionStep (.removeConnection i)) i

/-! ## 3. The live connection of a client -/

/-- The `i`-th connection is the most recent one of the client, and it is open. -/
def Live (s : State) (client : ClientId) (i : ℕ) : Prop :=
  (∃ c, s.tasks[i]? = some c ∧ c.client = client ∧ c.isOpen = true) ∧
    ∀ j c, s.tasks[j]? = some c → c.client = client → j ≤ i

/-- All steps that have been started have run. -/
def Quiescent (s : State) : Prop :=
  ∀ c ∈ s.tasks, c.handler = .inserted ∧ (c.isOpen = false → c.removed = true)

/-- The map holds the sinks of the live connections, and their clients are notified. -/
structure TracksLive (s : State) : Prop where
  entry : ∀ client i, s.shared.connections client = some i ↔ Live s client i
  notified : ∀ client i sent, Live s client i →
    s.shared.notifyClient client sent ≠ .error (.clientNotConnected client)

/-- A sink is inserted before its own listener has removed it and before that of a later
connection of the client, and a listener does not remove the sink of another connection that is
open. -/
def InOrder (s : State) : Action → Prop
  | .newConnection i => ∀ c, s.tasks[i]? = some c → c.removed = false ∧
      ∀ j c', s.tasks[j]? = some c' → c'.client = c.client → c'.handler = .inserted → j ≤ i
  | .removeConnection i => ∀ c j c', s.tasks[i]? = some c →
      s.shared.connections c.client = some j → j ≠ i → s.tasks[j]? = some c' → c'.isOpen = false
  | _ => True

/-! ## 4. The invariant -/

/-- No connection of the client after the `i`-th has been inserted. -/
def Latest (connections : List Connection) (client : ClientId) (i : ℕ) : Prop :=
  ∀ j c, connections[j]? = some c → c.client = client → c.handler = .inserted → j ≤ i

/-- An entry is the sink of the latest connection that was inserted, whose listener has not
finished; as long as that connection is open, the entry is there. -/
structure Tracked (s : State) : Prop where
  entry : ∀ client i, s.shared.connections client = some i →
    ∃ c, s.tasks[i]? = some c ∧ c.client = client ∧ c.handler = .inserted ∧ c.removed = false ∧
      Latest s.tasks client i
  live : ∀ i c, s.tasks[i]? = some c → c.handler = .inserted → c.isOpen = true →
    Latest s.tasks c.client i → s.shared.connections c.client = some i
  ended : ∀ c ∈ s.tasks, c.removed = true → c.isOpen = false

section

variable {s s' : State} {m : ClientConnections} {connections : List Connection}
variable {client : ClientId} {i k : ℕ} {c c' : Connection}

theorem latest_append (hnew : c.handler ≠ .inserted) :
    Latest (connections ++ [c]) client k ↔ Latest connections client k := by
  constructor
  · intro h j x hx
    exact h j x (List.getElem?_append_left (List.getElem?_eq_some_iff.mp hx).1 ▸ hx)
  · intro h j x hx hclient hinserted
    rcases Pool.getElem?_spawn_cases hx with hx | rfl
    · exact h j x hx hclient hinserted
    · exact absurd hinserted hnew

theorem latest_set (hi : connections[i]? = some c) (hclient : c'.client = c.client)
    (hhandler : c'.handler = .inserted ↔ c.handler = .inserted) :
    Latest (connections.set i c') client k ↔ Latest connections client k := by
  constructor
  · intro h j x hx hc hinserted
    by_cases hji : j = i
    · subst hji
      cases hi.symm.trans hx
      exact h j c' (List.getElem?_set_self (List.getElem?_eq_some_iff.mp hi).1)
        (hclient.trans hc) (hhandler.mpr hinserted)
    · exact h j x ((List.getElem?_set_ne (Ne.symm hji)).trans hx) hc hinserted
  · intro h j x hx hc hinserted
    rcases Pool.getElem?_set_cases hx with ⟨rfl, rfl⟩ | ⟨-, hx⟩
    · exact h j c hi (hclient.symm.trans hc) (hhandler.mp hinserted)
    · exact h j x hx hc hinserted

theorem tracked_start : Tracked start where
  entry client i h := by simp [start, ClientConnections.new] at h
  live i c h := by simp [start] at h
  ended c h := by simp [start] at h

theorem Tracked.establish (h : Tracked s) :
    Tracked (s.spawn ⟨client, true, .upgraded, false⟩) := by
  refine ⟨fun cl i he => ?_, fun i c hc hinserted hopen hlatest => ?_,
    Pool.forall_mem_spawn h.ended (by simp)⟩
  · obtain ⟨c, hc, hclient, hinserted, hremoved, hlatest⟩ := h.entry cl i he
    refine ⟨c, ?_, hclient, hinserted, hremoved, (latest_append (by simp)).mpr hlatest⟩
    exact (List.getElem?_append_left (List.getElem?_eq_some_iff.mp hc).1).trans hc
  · rcases Pool.getElem?_spawn_cases hc with hc | rfl
    · exact h.live i c hc hinserted hopen ((latest_append (by simp)).mp hlatest)
    · cases hinserted

/-- A step of a connection that does not touch the map. -/
theorem Tracked.setConnection (h : Tracked s) (hi : s.tasks[i]? = some c)
    (hclient : c'.client = c.client) (hhandler : c'.handler = .inserted ↔ c.handler = .inserted)
    (hremoved : c'.removed = c.removed) (hopen : c'.isOpen = true → c.isOpen = true) :
    Tracked ⟨s.shared, s.tasks.set i c'⟩ := by
  refine ⟨fun cl j he => ?_, fun j x hx hinserted hxopen hlatest => ?_,
    Pool.forall_mem_set h.ended ?_⟩
  · obtain ⟨x, hx, hxclient, hinserted, hxremoved, hlatest⟩ := h.entry cl j he
    have hlatest' := (latest_set hi hclient hhandler (k := j)).mpr hlatest
    by_cases hji : j = i
    · subst hji
      cases hi.symm.trans hx
      refine ⟨c', ?_, hclient.trans hxclient, hhandler.mpr hinserted, hremoved.trans hxremoved,
        hlatest'⟩
      exact List.getElem?_set_self (List.getElem?_eq_some_iff.mp hi).1
    · exact ⟨x, (List.getElem?_set_ne (Ne.symm hji)).trans hx, hxclient, hinserted, hxremoved,
        hlatest'⟩
  · have hlatest' := (latest_set hi hclient hhandler).mp hlatest
    rcases Pool.getElem?_set_cases hx with ⟨rfl, rfl⟩ | ⟨-, hx⟩
    · rw [hclient] at hlatest' ⊢
      exact h.live j c hi (hhandler.mp hinserted) (hopen hxopen) hlatest'
    · exact h.live j x hx hinserted hxopen hlatest'
  · intro hr
    have hclosed := h.ended c (List.mem_of_getElem? hi) (hremoved.symm.trans hr)
    cases hc' : c'.isOpen with
    | false => rfl
    | true => exact absurd (hopen hc') (by simp [hclosed])

theorem Tracked.insert (h : Tracked s) (hi : s.tasks[i]? = some c)
    (hok : InOrder s (.newConnection i)) :
    Tracked ⟨s.shared.newConnection c.client i, s.tasks.set i { c with handler := .inserted }⟩ := by
  obtain ⟨hremoved, hlatest⟩ := hok c hi
  have hself : (s.tasks.set i { c with handler := .inserted })[i]? =
      some { c with handler := .inserted } :=
    List.getElem?_set_self (List.getElem?_eq_some_iff.mp hi).1
  have hlatest' : Latest (s.tasks.set i { c with handler := .inserted }) c.client i := by
    intro j x hx hclient hinserted
    rcases Pool.getElem?_set_cases hx with ⟨rfl, -⟩ | ⟨-, hx⟩
    · exact le_refl _
    · exact hlatest j x hx hclient hinserted
  refine ⟨fun cl j he => ?_, fun j x hx hinserted hopen hxlatest => ?_, ?_⟩
  · by_cases hcl : cl = c.client
    · subst hcl
      simp only [ClientConnections.newConnection, Function.update_self, Option.some.injEq] at he
      subst he
      exact ⟨_, hself, rfl, rfl, hremoved, hlatest'⟩
    · simp only [ClientConnections.newConnection, Function.update_of_ne hcl] at he
      obtain ⟨x, hx, hxclient, hinserted, hxremoved, hxlatest⟩ := h.entry cl j he
      have hji : j ≠ i := by
        rintro rfl
        cases hi.symm.trans hx
        exact hcl hxclient.symm
      refine ⟨x, (List.getElem?_set_ne (Ne.symm hji)).trans hx, hxclient, hinserted, hxremoved, ?_⟩
      intro k y hy hyclient hyinserted
      rcases Pool.getElem?_set_cases hy with ⟨-, rfl⟩ | ⟨-, hy⟩
      · exact absurd hyclient.symm hcl
      · exact hxlatest k y hy hyclient hyinserted
  · by_cases hxclient : x.client = c.client
    · -- the latest one that was inserted can only be this one
      have hle := hxlatest i _ hself hxclient.symm rfl
      have hge : j ≤ i := hlatest' j x hx hxclient hinserted
      obtain rfl := le_antisymm hge hle
      simp [ClientConnections.newConnection, hxclient]
    · rcases Pool.getElem?_set_cases hx with ⟨-, rfl⟩ | ⟨hji, hx⟩
      · exact absurd rfl hxclient
      · simp only [ClientConnections.newConnection, Function.update_of_ne hxclient]
        refine h.live j x hx hinserted hopen fun k y hy hyclient hyinserted => ?_
        have hki : k ≠ i := by
          rintro rfl
          cases hi.symm.trans hy
          exact hxclient hyclient.symm
        exact hxlatest k y ((List.getElem?_set_ne (Ne.symm hki)).trans hy) hyclient hyinserted
  · exact Pool.forall_mem_set h.ended (h.ended c (List.mem_of_getElem? hi))

/-- A listener removes a sink. -/
theorem Tracked.remove (h : Tracked s) (hi : s.tasks[i]? = some c) (hclosed : c.isOpen = false)
    (hok : InOrder s (.removeConnection i)) :
    Tracked ⟨s.shared.removeConnection c.client, s.tasks.set i { c with removed := true }⟩ := by
  have hset : ∀ cl k, Latest (s.tasks.set i { c with removed := true }) cl k ↔
      Latest s.tasks cl k := fun _ _ => latest_set hi rfl Iff.rfl
  refine ⟨fun cl j he => ?_, fun j x hx hinserted hopen hxlatest => ?_,
    Pool.forall_mem_set h.ended fun _ => hclosed⟩
  · by_cases hcl : cl = c.client
    · subst hcl
      simp [ClientConnections.removeConnection] at he
    · simp only [ClientConnections.removeConnection, Function.update_of_ne hcl] at he
      obtain ⟨x, hx, hxclient, hinserted, hxremoved, hxlatest⟩ := h.entry cl j he
      have hji : j ≠ i := by
        rintro rfl
        cases hi.symm.trans hx
        exact hcl hxclient.symm
      exact ⟨x, (List.getElem?_set_ne (Ne.symm hji)).trans hx, hxclient, hinserted, hxremoved,
        (hset cl j).mpr hxlatest⟩
  · have hxlatest' := (hset x.client j).mp hxlatest
    rcases Pool.getElem?_set_cases hx with ⟨rfl, rfl⟩ | ⟨hji, hx⟩
    · exact absurd hopen (by simp [hclosed])
    · have hsink := h.live j x hx hinserted hopen hxlatest'
      have hxclient : x.client ≠ c.client := by
        intro hxclient
        rw [hxclient] at hsink
        exact absurd (hok c j x hi hsink hji hx) (by simp [hopen])
      simpa only [ClientConnections.removeConnection, Function.update_of_ne hxclient] using hsink

theorem tracked_step {a : Action} (h : Tracked s) (hok : InOrder s a)
    (hst : step s a = some s') : Tracked s' := by
  cases a with
  | handler session =>
    cases session with
    | none => exact Option.some.inj hst ▸ h
    | some client => exact Option.some.inj hst ▸ h.establish
  | spawnListener i =>
    obtain ⟨c, m, c', hi, hc, rfl⟩ := Pool.advance_eq_some.mp hst
    simp only [connectionStep, Option.ite_none_right_eq_some, Option.some.injEq,
      Prod.mk.injEq] at hc
    obtain ⟨hstage, rfl, rfl⟩ := hc
    exact h.setConnection hi rfl (by simp [hstage]) rfl id
  | newConnection i =>
    obtain ⟨c, m, c', hi, hc, rfl⟩ := Pool.advance_eq_some.mp hst
    simp only [connectionStep, Option.ite_none_right_eq_some, Option.some.injEq,
      Prod.mk.injEq] at hc
    obtain ⟨-, rfl, rfl⟩ := hc
    exact h.insert hi hok
  | close i =>
    obtain ⟨c, m, c', hi, hc, rfl⟩ := Pool.advance_eq_some.mp hst
    simp only [connectionStep, Option.ite_none_right_eq_some, Option.some.injEq,
      Prod.mk.injEq] at hc
    obtain ⟨-, rfl, rfl⟩ := hc
    exact h.setConnection hi rfl Iff.rfl rfl (by simp)
  | removeConnection i =>
    obtain ⟨c, m, c', hi, hc, rfl⟩ := Pool.advance_eq_some.mp hst
    simp only [connectionStep, Option.ite_none_right_eq_some, Option.some.injEq,
      Prod.mk.injEq] at hc
    obtain ⟨⟨-, hclosed, -⟩, rfl, rfl⟩ := hc
    exact h.remove hi hclosed hok

/-- When all steps have run, the sinks are those of the live connections. -/
theorem Tracked.tracksLive (h : Tracked s) (hq : Quiescent s) : TracksLive s := by
  have hlive : ∀ client i, Live s client i → s.shared.connections client = some i := by
    rintro client i ⟨⟨c, hc, rfl, hopen⟩, hlatest⟩
    exact h.live i c hc (hq c (List.mem_of_getElem? hc)).1 hopen
      fun j x hx hclient _ => hlatest j x hx hclient
  refine ⟨fun client i => ⟨fun he => ?_, hlive client i⟩, fun client i sent hl => ?_⟩
  · obtain ⟨c, hc, hclient, -, hremoved, hlatest⟩ := h.entry client i he
    have hopen : c.isOpen = true := by
      cases hc' : c.isOpen with
      | true => rfl
      | false => cases hremoved.symm.trans ((hq c (List.mem_of_getElem? hc)).2 hc')
    exact ⟨⟨c, hc, hclient, hopen⟩, fun j x hx hxclient =>
      hlatest j x hx hxclient (hq x (List.mem_of_getElem? hx)).1⟩
  · rw [ClientConnections.notifyClient, hlive client i hl]
    cases hsent : sent i <;> simp [hsent]

/-! ## 5. Every run -/

/-- In every run in which the insertions and removals of a client's sinks are in order, the map
tracks the live connections whenever all steps have run. -/
theorem connections_live (h : Reach step InOrder start s) (hq : Quiescent s) : TracksLive s :=
  (h.invariant tracked_start fun _ _ _ hs hok hst => tracked_step hs hok hst).tracksLive hq

/-- A decidable form of `InOrder`. -/
def inOrder (s : State) : Action → Bool
  | .newConnection i => (s.tasks[i]?).all fun c => !c.removed && s.tasks.zipIdx.all fun x =>
      decide (x.1.client = c.client → x.1.handler = .inserted → x.2 ≤ i)
  | .removeConnection i => (s.tasks[i]?).all fun c => (s.shared.connections c.client).all fun j =>
      decide (j = i) || (s.tasks[j]?).all fun c' => !c'.isOpen
  | _ => true

theorem inOrder_ok (s : State) (a : Action) (h : inOrder s a = true) : InOrder s a := by
  cases a with
  | newConnection i =>
    intro c hc
    simp only [inOrder, hc, Option.all_some, Bool.and_eq_true, List.all_eq_true,
      decide_eq_true_eq, Bool.not_eq_true'] at h
    exact ⟨h.1, fun j c' hc' => h.2 (c', j) (List.mk_mem_zipIdx_iff_getElem?.mpr hc')⟩
  | removeConnection i =>
    intro c j c' hc hsink hji hc'
    simpa [inOrder, hc, hsink, hc', hji] using h
  | handler | spawnListener | close => trivial

/-- A client of the runs. -/
def alice : ClientId := .fill 1

/-- Alice connects, the connection ends, and she connects again. -/
theorem connections_live_alice : ∃ s : State,
    s.shared.connections alice = some 1 ∧ TracksLive s := by
  obtain ⟨s, hs, hsink, hq⟩ : ∃ s, runWhen step inOrder start [
      .handler (some alice), .spawnListener 0, .newConnection 0, .close 0, .removeConnection 0,
      .handler (some alice), .spawnListener 1, .newConnection 1] = some s ∧
      s.shared.connections alice = some 1 ∧
      ∀ c ∈ s.tasks, c.handler = .inserted ∧ (c.isOpen = false → c.removed = true) := by
    decide +kernel
  exact ⟨s, hsink, connections_live (reach_of_runWhen inOrder_ok hs) hq⟩

/-- Alice connects again before the server notices that the first connection has ended: the
listener of the first removes the sink of the second, and she is not notified. -/
theorem live_connection_dropped :
    ¬ ∀ s : State, Reach step (fun _ _ => True) start s → Quiescent s → TracksLive s := by
  intro h
  obtain ⟨s, hs, hq, hopen, hlatest, hnone⟩ : ∃ s, run step start [
      .handler (some alice), .spawnListener 0, .newConnection 0,
      .handler (some alice), .spawnListener 1, .newConnection 1,
      .close 0, .removeConnection 0] = some s ∧
      (∀ c ∈ s.tasks, c.handler = .inserted ∧ (c.isOpen = false → c.removed = true)) ∧
      s.tasks[1]? = some ⟨alice, true, .inserted, false⟩ ∧ s.tasks.length = 2 ∧
      s.shared.connections alice = none := by decide +kernel
  have hlive : Live s alice 1 := by
    refine ⟨⟨_, hopen, rfl, rfl⟩, fun j c hc _ => ?_⟩
    have hlt := (List.getElem?_eq_some_iff.mp hc).1
    omega
  refine (h s (reach_of_run_true hs) hq).notified alice 1 (fun _ => true) hlive ?_
  rw [ClientConnections.notifyClient, hnone]

end

end Backuwup.Server.Ws
