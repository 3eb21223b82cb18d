/-
# Overlapping handshakes (`net_p2p/handle_connections.rs`, `backup/send.rs`, `backup/mod.rs`)

Three tasks of a client register a connection request and then tell the server: the sending loop
when it dials a known peer, the handler of a storage match, and the restore.  The peer opens a
listener for the nonce it has been told, the server sends its address back, and the client
connects, takes the pending request of the peer, and sends its nonce and purpose as the first
message.

The pending requests are keyed by the peer alone, one that is added while there is another for the
peer is not remembered, and the message that brings the address does not name the nonce.  So the
first message is right exactly if the listener was opened for the request that is pending
(`inits_right_iff`): if two handshakes with one peer overlap, the listener of the second may get the
nonce of the first (`init_for_other_request`).
-/
import Backuwup.Client.NetP2p.ConnectionManager
import Backuwup.Lib.Transition

namespace Backuwup.Client.Handshakes

open Transition

variable {D : Type → Type → Type} [HashMapDelay D]

/-! ## 1. The parties and their messages -/

/-- The `ip:port` of a listener; a machine is named by the client that runs on it. -/
structure Address where
  host : ClientId
  port : ℕ
deriving DecidableEq

/-- Tells the destination that the client wants to connect. -/
structure IncomingP2PConnection where
  destination : ClientId
  sessionNonce : TransportSessionNonce
deriving DecidableEq

/-- Tells the client where the destination listens. -/
structure FinalizeP2PConnection where
  destinationClientId : ClientId
  destinationIpAddress : Address
deriving DecidableEq

/-- What an `accept_and_listen` task has done. -/
inductive Stage
  | bound
  | confirmed
  | accepted
deriving DecidableEq

/-- An `accept_and_listen` task of a peer. -/
structure Listener where
  address : Address
  sessionNonce : TransportSessionNonce
  stage : Stage
deriving DecidableEq

/-- An `accept_and_connect` task that has connected to a listener; `finalize_request` comes
next. -/
structure Connected where
  destinationClientId : ClientId
  socket : Listener
deriving DecidableEq

/-- What the client has done. -/
inductive Entry
  | registered (peer : ClientId) (request : P2PConnectionRequest)
  /-- the first message, on a socket that the peer has opened for this nonce -/
  | sent (peer : ClientId) (opened : TransportSessionNonce) (request : P2PConnectionRequest)
deriving DecidableEq

/-- The client, its peers and the messages on their way, the latest log entry first. -/
structure State (D : Type → Type → Type) where
  now : ℕ
  manager : P2PConnectionManager D
  /-- tasks that have registered a request; `p2p_connection_begin` comes next -/
  dialing : List (ClientId × TransportSessionNonce)
  incoming : List IncomingP2PConnection
  listeners : List Listener
  finalizing : List FinalizeP2PConnection
  connected : List Connected
  log : List Entry

variable (D) in
def start : State D := ⟨0, .new, [], [], [], [], [], []⟩

namespace State

/-- `add_request`, with the nonce that has been drawn. -/
def addRequest (s : State D) (peer : ClientId) (purpose : RequestType)
    (sessionNonce : TransportSessionNonce) : State D :=
  { s with
    manager := s.manager.addRequest s.now peer purpose sessionNonce
    dialing := s.dialing ++ [(peer, sessionNonce)]
    log := .registered peer ⟨sessionNonce, purpose⟩ :: s.log }

/-- `get_peer_connection`, for one of the peers with storage. -/
def getPeerConnection (s : State D) (peer : ClientId) (sessionNonce : TransportSessionNonce) :
    State D :=
  s.addRequest peer .transport sessionNonce

def handleStorageRequestMatched (s : State D) (peer : ClientId)
    (sessionNonce : TransportSessionNonce) : State D :=
  s.addRequest peer .transport sessionNonce

def requestRestoreFromPeer (s : State D) (peer : ClientId) (sessionNonce : TransportSessionNonce) :
    State D :=
  s.addRequest peer .restoreAll sessionNonce

/-- `p2p_connection_begin`; the server may not reach the peer. -/
def p2pConnectionBegin (s : State D) (i : ℕ) (delivered : Bool) : Option (State D) :=
  s.dialing[i]?.map fun (destination, sessionNonce) =>
    { s with
      dialing := s.dialing.eraseIdx i
      incoming := if delivered then s.incoming ++ [⟨destination, sessionNonce⟩] else s.incoming }

/-- The beginning of `accept_and_listen`: the peer knows the client or ignores it, and binds a
port. -/
def acceptAndListen (s : State D) (i : ℕ) (known : Bool) (port : ℕ) : Option (State D) :=
  s.incoming[i]?.map fun m =>
    let address := ⟨m.destination, port⟩
    { s with
      incoming := s.incoming.eraseIdx i
      listeners :=
        if known ∧ ∀ l ∈ s.listeners, l.address ≠ address then
          s.listeners ++ [⟨address, m.sessionNonce, .bound⟩]
        else s.listeners }

/-- `p2p_connection_confirm`; if the server does not reach the client, the task ends. -/
def p2pConnectionConfirm (s : State D) (i : ℕ) (delivered : Bool) : Option (State D) :=
  s.listeners[i]?.bind fun l =>
    if l.stage ≠ .bound then none
    else if delivered then
      some { s with
        listeners := s.listeners.set i { l with stage := .confirmed }
        finalizing := s.finalizing ++ [⟨l.address.host, l.address⟩] }
    else some { s with listeners := s.listeners.eraseIdx i }

/-- The beginning of `accept_and_connect`: the client connects to whoever listens at the address,
if anybody does. -/
def acceptAndConnect (s : State D) (i : ℕ) : Option (State D) :=
  s.finalizing[i]?.map fun m =>
    let rest := { s with finalizing := s.finalizing.eraseIdx i }
    match s.listeners.findIdx? fun l =>
      l.address = m.destinationIpAddress ∧ l.stage = .confirmed with
    | none => rest
    | some j =>
      match s.listeners[j]? with
      | none => rest
      | some l => { rest with
        listeners := s.listeners.set j { l with stage := .accepted }
        connected := s.connected ++ [⟨m.destinationClientId, l⟩] }

/-- The first message of `accept_and_connect`, with what `finalize_request` returns. -/
def sendInit (s : State D) (i : ℕ) : Option (State D) :=
  s.connected[i]?.map fun c =>
    let rest := { s with connected := s.connected.eraseIdx i }
    match s.manager.finalizeRequest c.destinationClientId with
    | none => rest
    | some (request, manager) => { rest with
      manager := manager
      log := .sent c.socket.address.host c.socket.sessionNonce request :: s.log }

end State

/-! ## 2. Steps -/

inductive Action
  | getPeerConnection (peer : ClientId) (sessionNonce : TransportSessionNonce)
  | handleStorageRequestMatched (peer : ClientId) (sessionNonce : TransportSessionNonce)
  | requestRestoreFromPeer (peer : ClientId) (sessionNonce : TransportSessionNonce)
  | p2pConnectionBegin (i : ℕ) (delivered : Bool)
  | acceptAndListen (i : ℕ) (known : Bool) (port : ℕ)
  | p2pConnectionConfirm (i : ℕ) (delivered : Bool)
  | acceptAndConnect (i : ℕ)
  | sendInit (i : ℕ)
  /-- an `accept_and_listen` task ends, and its port is free again -/
  | close (i : ℕ)
  | wait (time : ℕ)
deriving DecidableEq

def step (s : State D) : Action → Option (State D)
  | .getPeerConnection peer sessionNonce => some (s.getPeerConnection peer sessionNonce)
  | .handleStorageRequestMatched peer sessionNonce =>
    some (s.handleStorageRequestMatched peer sessionNonce)
  | .requestRestoreFromPeer peer sessionNonce => some (s.requestRestoreFromPeer peer sessionNonce)
  | .p2pConnectionBegin i delivered => s.p2pConnectionBegin i delivered
  | .acceptAndListen i known port => s.acceptAndListen i known port
  | .p2pConnectionConfirm i delivered => s.p2pConnectionConfirm i delivered
  | .acceptAndConnect i => s.acceptAndConnect i
  | .sendInit i => s.sendInit i
  | .close i => s.listeners[i]?.map fun _ => { s with listeners := s.listeners.eraseIdx i }
  | .wait time => some { s with now := s.now + time }

/-! ## 3. The first messages -/

/-- Every first message carries the nonce that its socket was opened for, and the purpose that was
registered with it. -/
def InitsRight : List Entry → Prop
  | [] => True
  | entry :: before => InitsRight before ∧
    match entry with
    | .sent peer opened request =>
      request.sessionNonce = opened ∧ .registered peer request ∈ before
    | .registered _ _ => True

/-- How often a request of the peer was sent. -/
def uses (log : List Entry) (peer : ClientId) (request : P2PConnectionRequest) : ℕ :=
  log.countP fun
    | .sent p _ r => p = peer ∧ r = request
    | .registered _ _ => false

/-- How often it was registered. -/
def registrations (log : List Entry) (peer : ClientId) (request : P2PConnectionRequest) : ℕ :=
  log.count (.registered peer request)

/-- What the log says of the map of requests. -/
def requestChanges (log : List Entry) : List (HashMapDelay.Change ClientId P2PConnectionRequest) :=
  log.map fun
    | .registered peer request => .inserted peer request
    | .sent peer _ _ => .removed peer

/-- The first request registered with the peer since one was last sent to it. -/
def pending (peer : ClientId) (log : List Entry) : Option P2PConnectionRequest :=
  HashMapDelay.standing peer (requestChanges log)

/-- If a request of the peer is pending when a connection comes about, the socket was opened for
it. -/
def ForPending (s : State D) : Action → Prop
  | .sendInit i => ∀ c request, s.connected[i]? = some c →
      pending c.destinationClientId s.log = some request →
      c.socket.sessionNonce = request.sessionNonce
  | _ => True

/-! ## 4. What a step does -/

/-- What each step does to the pending requests and the log. -/
inductive Moved (s : State D) (a : Action) (s' : State D) : Prop
  | registers (peer : ClientId) (purpose : RequestType) (sessionNonce : TransportSessionNonce) :
      (∀ i, a ≠ .sendInit i) → s' = s.addRequest peer purpose sessionNonce → Moved s a s'
  | sends (i : ℕ) (c : Connected) (request : P2PConnectionRequest) : a = .sendInit i →
      s.connected[i]? = some c →
      HashMapDelay.get s.manager.requests c.destinationClientId = some request →
      s' = { s with
        connected := s.connected.eraseIdx i
        manager := ⟨(HashMapDelay.remove s.manager.requests c.destinationClientId).2⟩
        log := .sent c.socket.address.host c.socket.sessionNonce request :: s.log } →
      Moved s a s'
  | keeps : (∀ i c, a = .sendInit i → s.connected[i]? = some c →
        HashMapDelay.get s.manager.requests c.destinationClientId = none) →
      s'.manager = s.manager → s'.log = s.log → Moved s a s'

/-- A connection is to a machine of the peer that the message named. -/
structure Hosts (s : State D) : Prop where
  finalizing : ∀ m ∈ s.finalizing, m.destinationIpAddress.host = m.destinationClientId
  connected : ∀ c ∈ s.connected, c.socket.address.host = c.destinationClientId

section

variable {s s' : State D} {a : Action} {peer : ClientId} {request : P2PConnectionRequest}

theorem moved_of_step [LawfulHashMapDelay D] (hst : step s a = some s') : Moved s a s' := by
  cases a with
  | getPeerConnection peer sessionNonce =>
    exact .registers peer .transport sessionNonce (by simp) (Option.some.inj hst).symm
  | handleStorageRequestMatched peer sessionNonce =>
    exact .registers peer .transport sessionNonce (by simp) (Option.some.inj hst).symm
  | requestRestoreFromPeer peer sessionNonce =>
    exact .registers peer .restoreAll sessionNonce (by simp) (Option.some.inj hst).symm
  | p2pConnectionBegin i delivered =>
    obtain ⟨d, -, rfl⟩ := Option.map_eq_some_iff.mp hst
    exact .keeps (by simp) rfl rfl
  | acceptAndListen i known port =>
    obtain ⟨m, -, rfl⟩ := Option.map_eq_some_iff.mp hst
    exact .keeps (by simp) rfl rfl
  | p2pConnectionConfirm i delivered =>
    obtain ⟨l, -, hst⟩ := Option.bind_eq_some_iff.mp hst
    split at hst
    · cases hst
    · split at hst <;> cases hst <;> exact .keeps (by simp) rfl rfl
  | acceptAndConnect i =>
    obtain ⟨m, -, rfl⟩ := Option.map_eq_some_iff.mp hst
    split
    · exact .keeps (by simp) rfl rfl
    · split <;> exact .keeps (by simp) rfl rfl
  | sendInit i =>
    obtain ⟨c, hc, rfl⟩ := Option.map_eq_some_iff.mp hst
    split
    · rename_i hnone
      refine .keeps ?_ rfl rfl
      rintro j c' hj hc'
      cases hj
      cases hc.symm.trans hc'
      exact P2PConnectionManager.finalizeRequest_eq_none.mp hnone
    · rename_i request manager hsome
      obtain ⟨hget, rfl⟩ := P2PConnectionManager.finalizeRequest_eq_some hsome
      exact .sends i c _ rfl hc hget rfl
  | close i =>
    obtain ⟨l, -, rfl⟩ := Option.map_eq_some_iff.mp hst
    exact .keeps (by simp) rfl rfl
  | wait time =>
    cases hst
    exact .keeps (by simp) rfl rfl

theorem hosts_start : Hosts (start D) := ⟨by simp [start], by simp [start]⟩

theorem hosts_step (h : Hosts s) (hst : step s a = some s') : Hosts s' := by
  cases a with
  | getPeerConnection | handleStorageRequestMatched | requestRestoreFromPeer | wait =>
    cases hst
    exact ⟨h.finalizing, h.connected⟩
  | p2pConnectionBegin | acceptAndListen | close =>
    obtain ⟨_, -, rfl⟩ := Option.map_eq_some_iff.mp hst
    exact ⟨h.finalizing, h.connected⟩
  | p2pConnectionConfirm i delivered =>
    obtain ⟨l, -, hst⟩ := Option.bind_eq_some_iff.mp hst
    split at hst
    · cases hst
    · split at hst
      · cases hst
        refine ⟨fun m hm => ?_, h.connected⟩
        rcases List.mem_append.mp hm with hm | hm
        · exact h.finalizing m hm
        · cases List.mem_singleton.mp hm
          rfl
      · cases hst
        exact ⟨h.finalizing, h.connected⟩
  | acceptAndConnect i =>
    obtain ⟨m, hm, rfl⟩ := Option.map_eq_some_iff.mp hst
    have hfinalizing : ∀ m ∈ s.finalizing.eraseIdx i,
        m.destinationIpAddress.host = m.destinationClientId :=
      fun m hm => h.finalizing m (List.mem_of_mem_eraseIdx hm)
    split
    · exact ⟨hfinalizing, h.connected⟩
    · rename_i j hj
      split
      · exact ⟨hfinalizing, h.connected⟩
      · rename_i l hl
        refine ⟨hfinalizing, fun c hc => ?_⟩
        rcases List.mem_append.mp hc with hc | hc
        · exact h.connected c hc
        · obtain ⟨hlt, haddress, -⟩ := List.findIdx?_eq_some_iff_getElem.mp hj
          rw [List.getElem?_eq_getElem hlt, Option.some.injEq] at hl
          rw [hl, decide_eq_true_eq] at haddress
          cases List.mem_singleton.mp hc
          change l.address.host = m.destinationClientId
          rw [haddress.1]
          exact h.finalizing m (List.mem_of_getElem? hm)
  | sendInit i =>
    obtain ⟨c, hc, rfl⟩ := Option.map_eq_some_iff.mp hst
    have hconnected : ∀ c ∈ s.connected.eraseIdx i,
        c.socket.address.host = c.destinationClientId :=
      fun c hc => h.connected c (List.mem_of_mem_eraseIdx hc)
    split <;> exact ⟨h.finalizing, hconnected⟩

/-! ## 5. The pending requests -/

@[simp] theorem pending_nil : pending peer [] = none := rfl

theorem pending_registered (log : List Entry) (p : ClientId) (r : P2PConnectionRequest) :
    pending peer (.registered p r :: log) =
      if p = peer then some ((pending peer log).getD r) else pending peer log := rfl

theorem pending_sent (log : List Entry) (p : ClientId) (opened : TransportSessionNonce)
    (r : P2PConnectionRequest) : pending peer (.sent p opened r :: log) =
      if p = peer then none else pending peer log := rfl

theorem mem_of_pending {log : List Entry} (h : pending peer log = some request) :
    .registered peer request ∈ log := by
  obtain ⟨entry, hmem, hentry⟩ := List.mem_map.mp (HashMapDelay.mem_of_standing h)
  cases entry <;> simp_all

/-- The log accounts for the pending requests, and none of them has been used. -/
structure Accounted (s : State D) : Prop extends Hosts s where
  requests : HashMapDelay.Accounts id (requestChanges s.log) s.manager.requests
  unused : ∀ peer request, uses s.log peer request +
    (if pending peer s.log = some request then 1 else 0) ≤ registrations s.log peer request

theorem Accounted.get_eq (h : Accounted s) (peer : ClientId) :
    HashMapDelay.get s.manager.requests peer = pending peer s.log := by
  rw [h.requests peer, Option.map_id, id]
  rfl

@[simp] theorem uses_registered (log : List Entry) (p : ClientId) (r : P2PConnectionRequest) :
    uses (.registered p r :: log) peer request = uses log peer request := by
  simp [uses]

@[simp] theorem uses_sent (log : List Entry) (p : ClientId) (opened : TransportSessionNonce)
    (r : P2PConnectionRequest) : uses (.sent p opened r :: log) peer request =
      uses log peer request + if p = peer ∧ r = request then 1 else 0 := by
  simp [uses, List.countP_cons]

@[simp] theorem registrations_registered (log : List Entry) (p : ClientId)
    (r : P2PConnectionRequest) : registrations (.registered p r :: log) peer request =
      registrations log peer request + if p = peer ∧ r = request then 1 else 0 := by
  simp [registrations, List.count_cons]

@[simp] theorem registrations_sent (log : List Entry) (p : ClientId)
    (opened : TransportSessionNonce) (r : P2PConnectionRequest) :
    registrations (.sent p opened r :: log) peer request = registrations log peer request := by
  simp [registrations]

theorem accounted_start [LawfulHashMapDelay D] : Accounted (start D) where
  toHosts := hosts_start
  requests := HashMapDelay.accounts_new _
  unused peer request := by simp [start, uses, registrations]

theorem accounted_step [LawfulHashMapDelay D] (h : Accounted s) (hst : step s a = some s') :
    Accounted s' := by
  have hhosts := hosts_step h.toHosts hst
  cases moved_of_step hst with
  | registers peer purpose sessionNonce _ heq =>
    subst heq
    refine ⟨hhosts, h.requests.insert s.now peer ⟨sessionNonce, purpose⟩, fun p r => ?_⟩
    have hunused := h.unused p r
    simp only [State.addRequest, uses_registered, registrations_registered, pending_registered]
    by_cases hp : peer = p
    · subst hp
      simp only [↓reduceIte, Option.some.injEq, true_and]
      cases hpending : pending peer s.log with
      | none =>
        simp only [hpending, reduceCtorEq, ↓reduceIte] at hunused
        simp only [Option.getD_none]
        omega
      | some old =>
        simp only [hpending, Option.some.injEq] at hunused
        simp only [Option.getD_some]
        omega
    · simp only [hp, ↓reduceIte, false_and]
      exact hunused
  | sends i c request ha hc hget heq =>
    subst heq
    have hhost := h.connected c (List.mem_of_getElem? hc)
    rw [h.get_eq] at hget
    refine ⟨hhosts, ?_, fun p r => ?_⟩
    · have hremoved := h.requests.remove c.destinationClientId
      rwa [← hhost] at hremoved ⊢
    · have hunused := h.unused p r
      simp only [pending_sent, uses_sent, registrations_sent, hhost]
      by_cases hp : c.destinationClientId = p
      · subst hp
        rw [hget] at hunused
        simpa using hunused
      · simp only [hp, ↓reduceIte, false_and]
        exact hunused
  | keeps _ hmanager hlog =>
    refine ⟨hhosts, ?_, ?_⟩
    · rw [hmanager, hlog]
      exact h.requests
    · rw [hlog]
      exact h.unused

/-- Only a first message can be wrong. -/
theorem inits_right_step_iff [LawfulHashMapDelay D] (h : Accounted s) (hst : step s a = some s') :
    InitsRight s'.log ↔ InitsRight s.log ∧ ForPending s a := by
  cases moved_of_step hst with
  | registers peer purpose sessionNonce hother heq =>
    subst heq
    refine and_congr_right fun _ => ⟨fun _ => ?_, fun _ => trivial⟩
    cases a with
    | sendInit i => exact absurd rfl (hother i)
    | _ => trivial
  | sends i c request ha hc hget heq =>
    subst heq ha
    rw [h.get_eq] at hget
    have hhost := h.connected c (List.mem_of_getElem? hc)
    refine and_congr_right fun _ => ?_
    constructor
    · rintro ⟨hnonce, -⟩ c' request' hc' hpending
      cases hc.symm.trans hc'
      cases hget.symm.trans hpending
      exact hnonce.symm
    · intro hfor
      refine ⟨(hfor c request hc hget).symm, ?_⟩
      rw [hhost]
      exact mem_of_pending hget
  | keeps hnone _ hlog =>
    rw [hlog]
    refine (and_iff_left ?_).symm
    cases a with
    | sendInit i =>
      intro c request hc hpending
      rw [← h.get_eq, hnone i c rfl hc] at hpending
      cases hpending
    | _ => trivial

/-! ## 6. Every run -/

/-- In every run, all first messages are right and no request is used twice if and only if every
connection that found a pending request was to a socket opened for it. -/
theorem inits_right_iff [LawfulHashMapDelay D] {as : List Action}
    (h : run step (start D) as = some s) :
    (InitsRight s.log ∧ ∀ peer request, uses s.log peer request ≤
      registrations s.log peer request) ↔ Meets step ForPending (start D) as := by
  have haccounted : Accounted s :=
    (reach_of_run_true h).invariant accounted_start fun _ _ _ hs _ hst => accounted_step hs hst
  have honce : ∀ peer request, uses s.log peer request ≤ registrations s.log peer request :=
    fun peer request => (Nat.le_add_right _ _).trans (haccounted.unused peer request)
  refine (and_iff_left honce).trans ?_
  refine (run_iff_meets (P := fun s => InitsRight s.log) accounted_start ?_ ?_ h).trans
    (and_iff_right (show InitsRight [] from trivial))
  · exact fun s a s' hs hst => accounted_step hs hst
  · exact fun s a s' hs hst => inits_right_step_iff hs hst

/-- A decidable form of `ForPending`. -/
def forPending (s : State D) : Action → Bool
  | .sendInit i => (s.connected[i]?).all fun c =>
      (pending c.destinationClientId s.log).all fun request =>
        decide (c.socket.sessionNonce = request.sessionNonce)
  | _ => true

omit [HashMapDelay D] in
theorem forPending_ok (s : State D) (a : Action) (h : forPending s a = true) :
    ForPending s a := by
  unfold ForPending
  split
  · intro c request hc hpending
    simpa [forPending, hc, hpending] using h
  · trivial

/-- A peer of the runs. -/
def bob : ClientId := .fill 2

/-- One handshake after the other, the second for a restore; a match registers a request with
another peer in between. -/
theorem inits_right_two : ∃ s : State DelayMap,
    s.log.head? = some (.sent bob (.fill 6) ⟨.fill 6, .restoreAll⟩) ∧
    pending (.fill 3) s.log = some ⟨.fill 7, .transport⟩ ∧ InitsRight s.log := by
  obtain ⟨s, hs, hlog, hpending⟩ : ∃ s, runWhen step forPending (start DelayMap) [
      .getPeerConnection bob (.fill 5), .p2pConnectionBegin 0 true,
      .acceptAndListen 0 true 4000, .p2pConnectionConfirm 0 true, .acceptAndConnect 0,
      .sendInit 0, .handleStorageRequestMatched (.fill 3) (.fill 7),
      .requestRestoreFromPeer bob (.fill 6), .p2pConnectionBegin 1 true,
      .acceptAndListen 0 true 4001, .p2pConnectionConfirm 1 true, .acceptAndConnect 0,
      .sendInit 0] = some s ∧
      s.log.head? = some (.sent bob (.fill 6) ⟨.fill 6, .restoreAll⟩) ∧
      pending (.fill 3) s.log = some ⟨.fill 7, .transport⟩ := by decide +kernel
  obtain ⟨hrun, hmeets⟩ := meets_of_runWhen forPending_ok hs
  exact ⟨s, hlog, hpending, ((inits_right_iff hrun).mpr hmeets).1⟩

/-- A restore begins while the handshake after a match is under way, and its listener confirms
first: it gets the nonce of the backup session. -/
theorem init_for_other_request :
    ¬ ∀ (as : List Action) (s : State DelayMap), run step (start DelayMap) as = some s →
      InitsRight s.log ∧ ∀ peer request, uses s.log peer request ≤
        registrations s.log peer request := by
  intro h
  obtain ⟨s, hs, hlog⟩ : ∃ s, run step (start DelayMap) [
      .handleStorageRequestMatched bob (.fill 5), .requestRestoreFromPeer bob (.fill 6),
      .p2pConnectionBegin 0 true, .p2pConnectionBegin 0 true, .acceptAndListen 0 true 4000,
      .acceptAndListen 0 true 4001, .p2pConnectionConfirm 1 true, .p2pConnectionConfirm 0 true,
      .acceptAndConnect 0, .sendInit 0] = some s ∧
      s.log.head? = some (.sent bob (.fill 6) ⟨.fill 5, .transport⟩) := by decide +kernel
  have hright := (h _ s hs).1
  obtain ⟨before, hbefore⟩ := List.head?_eq_some_iff.mp hlog
  rw [hbefore] at hright
  exact absurd hright.2.1 (by decide)

end

end Backuwup.Client.Handshakes
