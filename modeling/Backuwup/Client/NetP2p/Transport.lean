/-
# The sending side of a transport session (`net_p2p/transport.rs`)

A `BackupTransportManager` sends one file after the other.  `send_data` hands the signed message to
the socket, waits until it is written, and then `wait_for_ack` subscribes to the numbers that the
task `process_acks` passes on from the acknowledgements of the peer.

Two things can go wrong here.  `parse_incoming_ack` unwraps the body of a message once its
signature has been verified, so a body of another type that the peer has signed makes the client
panic (`survives_iff`, `init_request_panics`).  And an acknowledgement that is processed before
`wait_for_ack` has subscribed is heard by nobody (`ack_missed`); `acks_heard` says when none is
missed.
-/
import Backuwup.Client.NetP2p.Signed
import Backuwup.Lib.Broadcast
import Backuwup.Lib.Transition

namespace Backuwup.Client.Transport

open Transition

/-! ## 1. `parse_incoming_ack` and its counter -/

section

variable (V : SignatureScheme) (nonce : TransportSessionNonce) (sender : ClientId) (data : Bytes)
  (messagesReceived : ℕ)

/-- `parse_incoming_ack` with `messages_received` behind its reference: the result, and what the
counter is left at. -/
def parseIncomingAckMut : Except Failure ℕ × ℕ :=
  match V.bodyOf sender data with
  | none => (.error .error, messagesReceived)
  | some bytes =>
    match AckBody.codec.decodePrefix bytes with
    | none => (.error .panic, messagesReceived)
    | some body =>
      if body.header.sessionNonce ≠ nonce ∨ body.header.sequenceNumber ≠ messagesReceived then
        (.error .error, messagesReceived)
      else
        match incrementU64 messagesReceived with
        | .error e => (.error e, messagesReceived)
        | .ok next => (.ok body.acknowledgedSequenceNumber, next)

/-- An error that leaves the counter alone, or a result that counts one message. -/
def Survives : Prop :=
  parseIncomingAckMut V nonce sender data messagesReceived = (.error .error, messagesReceived) ∨
    ∃ num, parseIncomingAckMut V nonce sender data messagesReceived
      = (.ok num, messagesReceived + 1)

/-- The counter moves with the last step, so the two views of the function agree. -/
theorem parseIncomingAckMut_eq : parseIncomingAckMut V nonce sender data messagesReceived =
    match parseIncomingAck V data nonce sender messagesReceived with
    | .ok (num, next) => (.ok num, next)
    | .error e => (.error e, messagesReceived) := by
  unfold parseIncomingAckMut parseIncomingAck
  cases V.bodyOf sender data with
  | none => rfl
  | some bytes =>
    cases hdec : AckBody.codec.decodePrefix bytes with
    | none => simp only [hdec]
    | some body =>
      simp only [hdec]
      split
      · rfl
      · cases incrementU64 messagesReceived <;> rfl

/-- The parser survives a message exactly if what the sender has signed in it is an
acknowledgement, and not the one that the counter has no number for. -/
theorem survives_iff : Survives V nonce sender data messagesReceived ↔
    ∀ bytes, V.bodyOf sender data = some bytes →
      ∃ body, AckBody.codec.decodePrefix bytes = some body ∧
        (body.header = ⟨messagesReceived, nonce⟩ → messagesReceived + 1 < u64Bound) := by
  unfold Survives parseIncomingAckMut
  cases V.bodyOf sender data with
  | none => simp
  | some bytes =>
    simp only [Option.some.injEq, forall_eq']
    cases hdec : AckBody.codec.decodePrefix bytes with
    | none => simp
    | some body =>
      obtain ⟨⟨seq, n⟩, acknowledged⟩ := body
      simp only [Option.some.injEq, exists_eq_left', Header.mk.injEq]
      by_cases hhead : n ≠ nonce ∨ seq ≠ messagesReceived
      · simp only [if_pos hhead, true_or, true_iff]
        rintro ⟨rfl, rfl⟩
        simp at hhead
      · rw [if_neg hhead]
        push Not at hhead
        obtain ⟨rfl, rfl⟩ := hhead
        by_cases hlt : seq + 1 < u64Bound
        · simp [incrementU64, hlt]
        · simp [incrementU64, hlt]

end

/-- The sender's own request to open the session, seen again by the task that reads
acknowledgements, ends the client. -/
theorem init_request_panics {V : SignatureScheme} (hV : V.Correct) {nonce : TransportSessionNonce}
    {sender : ClientId} {purpose : RequestType} {messagesReceived : ℕ}
    (hsig : (V.sign sender (EncapsulateRequestBody.codec.enc ⟨⟨0, nonce⟩, purpose⟩)).length
      < u64Bound) :
    (parseIncomingAckMut V nonce sender
      (V.seal sender (EncapsulateRequestBody.codec.enc ⟨⟨0, nonce⟩, purpose⟩))
      messagesReceived).1 = .error .panic := by
  have hlen : (EncapsulateRequestBody.codec.enc ⟨⟨0, nonce⟩, purpose⟩).length < u64Bound := by
    have henc : EncapsulateRequestBody.codec.enc ⟨⟨0, nonce⟩, purpose⟩
        = leBytes 8 0 ++ nonce.bytes ++ leBytes 4 purpose.tag := rfl
    rw [henc]
    simp [nonce.length_eq, u64Bound]
  have hnone := decode_ack_request (b := ⟨⟨0, nonce⟩, purpose⟩) (by simp [u64Bound])
  simp only [parseIncomingAckMut, bodyOf_seal hV hlen hsig, hnone]

/-- Replayed over the network, the request of the peer that restores makes the client that sends
panic. -/
theorem replayed_request_panics :
    ¬ Survives nameScheme (.fill 7) (.fill 2)
      (nameScheme.seal (.fill 2)
        (EncapsulateRequestBody.codec.enc ⟨⟨0, .fill 7⟩, .restoreAll⟩)) 0 := by
  have hpanic : (parseIncomingAckMut nameScheme (.fill 7) (.fill 2)
      (nameScheme.seal (.fill 2)
        (EncapsulateRequestBody.codec.enc ⟨⟨0, .fill 7⟩, .restoreAll⟩)) 0).1 = .error .panic :=
    init_request_panics nameScheme_correct (by decide)
  rintro (h | ⟨num, h⟩)
  · rw [h] at hpanic
    cases hpanic
  · rw [h] at hpanic
    cases hpanic

/-! ## 2. `send_data` and `process_acks` -/

/-- A session as its sending side sees it.  The channel of the numbers is made with
`broadcast::channel(100)`, which may keep more than 100. -/
structure Link where
  scheme : SignatureScheme
  peer : ClientId
  nonce : TransportSessionNonce
  capacity : ℕ

/-- Where `send_data` is. -/
inductive Phase
  /-- between two calls, the last of which has returned `Ok` -/
  | idle
  /-- in `tx.send`, and the socket does not have the message -/
  | handing
  /-- the socket has the message, and `tx.send` has not returned -/
  | handed
  /-- in `wait_for_ack`, about to receive -/
  | awaiting (receiver : Receiver ℕ)
  /-- nothing was received, and `timeout` is about to look at its timer -/
  | polled (receiver : Receiver ℕ)
  /-- `wait_for_ack` has returned "Peer disconnected" -/
  | disconnected
  /-- the message was not sent, or `timeout` has elapsed -/
  | failed
deriving DecidableEq

namespace Phase

/-- The message is with the socket, and `send_data` waits or has given up waiting. -/
def isHanded : Phase → Bool
  | .handed | .awaiting _ | .polled _ | .disconnected => true
  | _ => false

def receiver : Phase → Option (Receiver ℕ)
  | .awaiting r | .polled r => some r
  | _ => none

/-- `notifier.send`: who has subscribed gets the number. -/
def notify (num : ℕ) : Phase → Phase
  | .awaiting r => .awaiting (r.send num)
  | .polled r => .polled (r.send num)
  | phase => phase

end Phase

/-- A transport, with the task that reads the acknowledgements. -/
structure State where
  phase : Phase
  msgCounter : ℕ
  /-- `PACKFILE_ACK_TIMEOUT` has elapsed in this call -/
  elapsed : Bool
  messagesReceived : ℕ
  /-- a task has panicked, and the client has exited -/
  crashed : Bool
  /-- the acknowledgement of this message was processed after the message was handed to the socket
  and before the timeout -/
  answered : Bool
deriving DecidableEq

def start : State := ⟨.idle, 1, false, 0, false, false⟩

inductive Action
  /-- `send_data` is called -/
  | send
  /-- the socket takes the message -/
  | hand
  /-- `tx.send` fails, or `PACKFILE_SEND_TIMEOUT` elapses -/
  | sendFails
  /-- `tx.send` has returned, and `wait_for_ack` subscribes -/
  | subscribe
  /-- `process_acks` reads a message -/
  | ack (data : Bytes)
  /-- `wait_for_ack` receives -/
  | recv
  /-- `PACKFILE_ACK_TIMEOUT` elapses -/
  | elapse
  /-- `timeout` looks at its timer -/
  | timer

section

variable (l : Link)

/-- `process_acks` on one message. -/
def ackStep (s : State) (data : Bytes) : State :=
  match parseIncomingAckMut l.scheme l.nonce l.peer data s.messagesReceived with
  | (.ok num, received) => { s with
      messagesReceived := received
      phase := s.phase.notify num
      answered := s.answered ||
        decide (num = s.msgCounter ∧ s.phase.isHanded = true ∧ s.elapsed = false) }
  | (.error .error, received) => { s with messagesReceived := received }
  | (.error .panic, received) => { s with messagesReceived := received, crashed := true }

/-- `wait_for_ack` receives a number, and the end of `send_data` if it is the awaited one. -/
def recvStep (s : State) (r : Receiver ℕ) : State :=
  match r.recv l.capacity with
  | (.value num, rest) =>
    if num = s.msgCounter then
      match incrementU64 s.msgCounter with
      | .ok next => { s with phase := .idle, msgCounter := next }
      | .error _ => { s with crashed := true }
    else { s with phase := .awaiting rest }
  | (.lagged, _) => { s with phase := .disconnected }
  | (.empty, rest) => { s with phase := .polled rest }

def step (s : State) (a : Action) : Option State :=
  if s.crashed then none
  else
    match a, s.phase with
    | .send, .idle => some { s with phase := .handing, elapsed := false, answered := false }
    | .hand, .handing => some { s with phase := .handed }
    | .sendFails, .handing => some { s with phase := .failed }
    | .sendFails, .handed => some { s with phase := .failed }
    | .subscribe, .handed => some { s with phase := .awaiting .subscribe }
    | .ack data, _ => some (ackStep l s data)
    | .recv, .awaiting r => some (recvStep l s r)
    | .elapse, .awaiting _ => some { s with elapsed := true }
    | .elapse, .polled _ => some { s with elapsed := true }
    | .elapse, .disconnected => some { s with elapsed := true }
    | .timer, .polled r => some { s with phase := if s.elapsed then .failed else .awaiting r }
    | _, _ => none

/-! ## 3. The property and its condition -/

/-- An acknowledgement that was processed in time makes `send_data` return `Ok`: what the call
still does by itself leads there. -/
def Heard (s : State) : Prop :=
  s.answered = true → ∃ as : List Action, (∀ a ∈ as, a = .recv ∨ a = .timer) ∧
    ∃ s', run (step l) s as = some s' ∧ s'.phase = .idle ∧ s'.crashed = false

/-- What may come of a message: the awaited number when `wait_for_ack` has subscribed, and no number
that makes it fall behind; no panic. -/
def PassesInTime (s : State) : Except Failure ℕ → Prop
  | .ok num => (num = s.msgCounter → s.phase ≠ .handed) ∧
      ∀ r ∈ s.phase.receiver, r.unread.length < l.capacity
  | .error .error => True
  | .error .panic => False

instance (s : State) : ∀ result, Decidable (PassesInTime l s result)
  | .ok _ => inferInstanceAs (Decidable (_ ∧ _))
  | .error .error => inferInstanceAs (Decidable True)
  | .error .panic => inferInstanceAs (Decidable False)

/-- Messages come in time; the timeout does not elapse between a look into the channel, at which the
number was not there, and the look at the timer that follows, if the number has come meanwhile; and
the number is not the last of the `u64`. -/
def InTime (s : State) : Action → Prop
  | .send => s.msgCounter + 1 < u64Bound
  | .ack data => PassesInTime l s
      (parseIncomingAckMut l.scheme l.nonce l.peer data s.messagesReceived).1
  | .elapse => ∀ r ∈ s.phase.receiver, s.phase = .polled r → s.msgCounter ∉ r.unread
  | _ => True

instance (s : State) : ∀ a, Decidable (InTime l s a)
  | .send => inferInstanceAs (Decidable (_ < _))
  | .ack _ => inferInstanceAs (Decidable (PassesInTime l s _))
  | .elapse => inferInstanceAs (Decidable (∀ r ∈ s.phase.receiver, _))
  | .hand | .sendFails | .subscribe | .recv | .timer => inferInstanceAs (Decidable True)

end

/-! ## 4. What an acknowledgement in time leads to -/

section

variable {l : Link} {s s' : State} {a : Action} {r : Receiver ℕ}

/-- While a call is under way its number has a successor, the receiver has not fallen behind, and
the number of an acknowledgement in time has been received or will be. -/
structure Inv (l : Link) (s : State) : Prop where
  running : s.crashed = false
  counter : s.phase ≠ .idle → s.msgCounter + 1 < u64Bound
  keeps : ∀ r ∈ s.phase.receiver, r.Keeps l.capacity
  connected : s.phase ≠ .disconnected
  heard : s.answered = true → s.phase = .idle ∨
    (∃ r, s.phase = .awaiting r ∧ s.msgCounter ∈ r.unread) ∨
    ∃ r, s.phase = .polled r ∧ s.msgCounter ∈ r.unread ∧ s.elapsed = false

theorem inv_start : Inv l start where
  running := rfl
  counter h := absurd rfl h
  keeps r hr := by cases hr
  connected := by simp [start]
  heard h := by cases h

/-- The receiver comes to the awaited number. -/
theorem recv_awaited (hrun : s.crashed = false) (hcounter : s.msgCounter + 1 < u64Bound)
    (hphase : s.phase = .awaiting r) (hkeeps : r.Keeps l.capacity)
    (hmem : s.msgCounter ∈ r.unread) : ∃ k s',
      run (step l) s (List.replicate k .recv) = some s' ∧ s'.phase = .idle ∧
        s'.crashed = false := by
  obtain ⟨unread, hunread⟩ : ∃ unread, unread = r.unread := ⟨_, rfl⟩
  induction unread generalizing s r with
  | nil =>
    rw [← hunread] at hmem
    cases hmem
  | cons num rest ih =>
    have hstep : step l s .recv = some (recvStep l s r) := by
      simp [step, hrun, hphase]
    have hrecv := Receiver.recv_cons hkeeps hunread.symm
    by_cases hnum : num = s.msgCounter
    · refine ⟨1, { s with phase := .idle, msgCounter := s.msgCounter + 1 }, ?_, rfl, hrun⟩
      have hnext : incrementU64 s.msgCounter = .ok (s.msgCounter + 1) :=
        incrementU64_eq_ok.mpr ⟨rfl, hcounter⟩
      rw [List.replicate_one, run_cons_of_step _ hstep, run_nil, recvStep, hrecv]
      simp only [hnum, if_true, hnext]
    · have hnext : recvStep l s r = { s with phase := .awaiting ⟨rest⟩ } := by
        rw [recvStep, hrecv]
        simp only [if_neg hnum]
      have hmem' : s.msgCounter ∈ rest := by
        rw [← hunread] at hmem
        exact (List.mem_cons.mp hmem).resolve_left fun heq => hnum heq.symm
      have hlen : (num :: rest).length ≤ l.capacity := hunread ▸ hkeeps
      obtain ⟨k, s', hk, hidle, hrun'⟩ := ih (s := { s with phase := .awaiting ⟨rest⟩ })
        (r := ⟨rest⟩) hrun hcounter rfl (Nat.le_of_succ_le hlen) hmem' rfl
      refine ⟨k + 1, s', ?_, hidle, hrun'⟩
      rw [List.replicate_succ, run_cons_of_step _ hstep, hnext]
      exact hk

theorem Inv.allHeard (h : Inv l s) : Heard l s := by
  intro hanswered
  have hrecv : ∀ {s : State} {r : Receiver ℕ}, s.crashed = false → s.msgCounter + 1 < u64Bound →
      s.phase = .awaiting r → r.Keeps l.capacity → s.msgCounter ∈ r.unread →
      ∃ as : List Action, (∀ a ∈ as, a = .recv ∨ a = .timer) ∧
        ∃ s', run (step l) s as = some s' ∧ s'.phase = .idle ∧ s'.crashed = false := by
    intro s r hrun hcounter hphase hkeeps hmem
    obtain ⟨k, s', hk, hidle, hrun'⟩ := recv_awaited hrun hcounter hphase hkeeps hmem
    exact ⟨_, fun a ha => Or.inl (List.eq_of_mem_replicate ha), s', hk, hidle, hrun'⟩
  rcases h.heard hanswered with hidle | ⟨r, hphase, hmem⟩ | ⟨r, hphase, hmem, helapsed⟩
  · exact ⟨[], by simp, s, rfl, hidle, h.running⟩
  · exact hrecv h.running (h.counter (by simp [hphase])) hphase
      (h.keeps r (by simp [hphase, Phase.receiver])) hmem
  · -- the timer has not elapsed, so the channel is looked into again
    have hstep : step l s .timer = some { s with phase := .awaiting r } := by
      simp [step, h.running, hphase, helapsed]
    obtain ⟨as, has, s', hrun, hdone⟩ := hrecv (s := { s with phase := .awaiting r }) h.running
      (h.counter (by simp [hphase])) rfl (h.keeps r (by simp [hphase, Phase.receiver])) hmem
    refine ⟨.timer :: as, ?_, s', ?_, hdone⟩
    · rintro a ha
      rcases List.mem_cons.mp ha with rfl | ha
      · exact Or.inr rfl
      · exact has a ha
    · rw [run_cons_of_step _ hstep]
      exact hrun

/-! ## 5. Each step keeps it -/

theorem Phase.notify_receiver {phase : Phase} {num : ℕ} (h : r ∈ (phase.notify num).receiver) :
    ∃ r₀ ∈ phase.receiver, r = r₀.send num := by
  cases phase with
  | awaiting r₀ | polled r₀ =>
    obtain rfl : r₀.send num = r := by simpa [Phase.notify, Phase.receiver] using h
    exact ⟨r₀, rfl, rfl⟩
  | idle | handing | handed | disconnected | failed => simp [Phase.notify, Phase.receiver] at h

/-- A number is passed on. -/
theorem Inv.notify (h : Inv l s) {num received : ℕ} {answered : Bool}
    (hkeeps : ∀ r ∈ s.phase.receiver, r.unread.length < l.capacity)
    (hanswered : answered = true → s.answered = true ∨
      (num = s.msgCounter ∧ s.elapsed = false ∧ ∃ r, r ∈ s.phase.receiver)) :
    Inv l { s with
      messagesReceived := received, phase := s.phase.notify num, answered := answered } := by
  refine ⟨h.running, fun hne => h.counter ?_, fun r hr => ?_, fun hd => h.connected ?_,
    fun ha => ?_⟩
  · intro hidle
    exact hne (by simp [hidle, Phase.notify])
  · obtain ⟨r₀, hr₀, rfl⟩ := Phase.notify_receiver hr
    exact Receiver.keeps_send (hkeeps r₀ hr₀)
  · cases hphase : s.phase <;> simp [hphase, Phase.notify] at hd ⊢
  · rcases hanswered ha with hold | ⟨rfl, helapsed, r, hr⟩
    · rcases h.heard hold with hidle | ⟨r, hphase, hmem⟩ | ⟨r, hphase, hmem, helapsed⟩
      · exact Or.inl (by simp [hidle, Phase.notify])
      · exact Or.inr (Or.inl ⟨r.send num, by simp [hphase, Phase.notify], Receiver.mem_send hmem⟩)
      · exact Or.inr (Or.inr
          ⟨r.send num, by simp [hphase, Phase.notify], Receiver.mem_send hmem, helapsed⟩)
    · cases hphase : s.phase with
      | awaiting r₀ =>
        exact Or.inr (Or.inl ⟨r₀.send s.msgCounter, by simp [Phase.notify],
          Receiver.mem_send_self⟩)
      | polled r₀ =>
        exact Or.inr (Or.inr ⟨r₀.send s.msgCounter, by simp [Phase.notify],
          Receiver.mem_send_self, helapsed⟩)
      | idle | handing | handed | disconnected | failed => simp [hphase, Phase.receiver] at hr

theorem Inv.ack (h : Inv l s) {data : Bytes} (ha : InTime l s (.ack data)) :
    Inv l (ackStep l s data) := by
  have hpass : PassesInTime l s
      (parseIncomingAckMut l.scheme l.nonce l.peer data s.messagesReceived).1 := ha
  unfold ackStep
  split
  · rename_i num received hparse
    rw [hparse] at hpass
    obtain ⟨hhanded, hkeeps⟩ := hpass
    refine h.notify hkeeps fun hanswered => ?_
    rw [Bool.or_eq_true, decide_eq_true_eq] at hanswered
    refine hanswered.imp id fun ⟨hnum, hphase, helapsed⟩ => ⟨hnum, helapsed, ?_⟩
    -- of the phases in which the message is with the socket, one has no receiver yet, and one none
    -- any more
    have hnot := hhanded hnum
    have hconnected := h.connected
    revert hphase hnot hconnected
    cases s.phase with
    | awaiting r | polled r => exact fun _ _ _ => ⟨r, rfl⟩
    | handed => exact fun _ hnot _ => absurd rfl hnot
    | disconnected => exact fun _ _ hconnected => absurd rfl hconnected
    | idle | handing | failed => intro hphase; cases hphase
  · exact { h with }
  · rename_i received hparse
    rw [hparse] at hpass
    exact hpass.elim

/-- The number of an acknowledgement in time is in the channel that is looked into. -/
theorem Inv.awaited (h : Inv l s) (hphase : s.phase = .awaiting r) (hanswered : s.answered = true) :
    s.msgCounter ∈ r.unread := by
  rcases h.heard hanswered with hidle | ⟨r', hr', hmem⟩ | ⟨r', hr', -⟩
  · exact absurd (hphase.symm.trans hidle) (by simp)
  · cases hphase.symm.trans hr'
    exact hmem
  · exact absurd (hphase.symm.trans hr') (by simp)

/-- Or the channel will be looked into again. -/
theorem Inv.polled (h : Inv l s) (hphase : s.phase = .polled r) (hanswered : s.answered = true) :
    s.msgCounter ∈ r.unread ∧ s.elapsed = false := by
  rcases h.heard hanswered with hidle | ⟨r', hr', -⟩ | ⟨r', hr', hmem⟩
  · exact absurd (hphase.symm.trans hidle) (by simp)
  · exact absurd (hphase.symm.trans hr') (by simp)
  · cases hphase.symm.trans hr'
    exact hmem

theorem Inv.recv (h : Inv l s) (hphase : s.phase = .awaiting r) : Inv l (recvStep l s r) := by
  have hkeeps := h.keeps r (by simp [hphase, Phase.receiver])
  have hcounter := h.counter (by simp [hphase])
  rcases Receiver.recv_cases hkeeps with ⟨hnil, hrecv⟩ | ⟨num, rest, hcons, hrecv, hrest⟩
  · have hnext : recvStep l s r = { s with phase := .polled r } := by rw [recvStep, hrecv]
    rw [hnext]
    refine ⟨h.running, fun _ => hcounter, fun r' hr' => ?_, by simp, fun hanswered => ?_⟩
    · obtain rfl : r = r' := by simpa [Phase.receiver] using hr'
      exact hkeeps
    · have hin := h.awaited hphase hanswered
      rw [hnil] at hin
      cases hin
  · by_cases hnum : num = s.msgCounter
    · have hnext : recvStep l s r = { s with phase := .idle, msgCounter := s.msgCounter + 1 } := by
        have hinc : incrementU64 s.msgCounter = .ok (s.msgCounter + 1) :=
          incrementU64_eq_ok.mpr ⟨rfl, hcounter⟩
        rw [recvStep, hrecv]
        simp only [hnum, if_true, hinc]
      rw [hnext]
      exact ⟨h.running, fun hne => absurd rfl hne, fun r' hr' => (by cases hr'), by simp,
        fun _ => Or.inl rfl⟩
    · have hnext : recvStep l s r = { s with phase := .awaiting ⟨rest⟩ } := by
        rw [recvStep, hrecv]
        simp only [if_neg hnum]
      rw [hnext]
      refine ⟨h.running, fun _ => hcounter, fun r' hr' => ?_, by simp, fun hanswered => ?_⟩
      · obtain rfl : ⟨rest⟩ = r' := by simpa [Phase.receiver] using hr'
        exact hrest
      · have hin := h.awaited hphase hanswered
        rw [hcons] at hin
        exact Or.inr (Or.inl
          ⟨⟨rest⟩, rfl, (List.mem_cons.mp hin).resolve_left fun heq => hnum heq.symm⟩)

theorem Inv.timer (h : Inv l s) (hphase : s.phase = .polled r) :
    Inv l { s with phase := if s.elapsed then .failed else .awaiting r } := by
  have hkeeps := h.keeps r (by simp [hphase, Phase.receiver])
  have hcounter := h.counter (by simp [hphase])
  cases helapsed : s.elapsed with
  | true =>
    refine ⟨h.running, fun _ => hcounter, fun r' hr' => (by cases hr'), by simp, ?_⟩
    intro hanswered
    exact absurd (h.polled hphase hanswered).2 (by simp [helapsed])
  | false =>
    refine ⟨h.running, fun _ => hcounter, fun r' hr' => ?_, by simp, fun hanswered => ?_⟩
    · obtain rfl : r = r' := by simpa [Phase.receiver] using hr'
      exact hkeeps
    · exact Or.inr (Or.inl ⟨r, rfl, (h.polled hphase hanswered).1⟩)

theorem Inv.elapse (h : Inv l s) (ha : InTime l s .elapse) : Inv l { s with elapsed := true } := by
  refine { h with heard := fun hanswered => ?_ }
  rcases h.heard hanswered with hidle | hawaiting | ⟨r, hphase, hmem, -⟩
  · exact Or.inl hidle
  · exact Or.inr (Or.inl hawaiting)
  · exact absurd hmem (ha r (by simp [hphase, Phase.receiver]) hphase)

/-- No number of this call is unread when the receiver is new. -/
theorem Inv.not_answered (h : Inv l s) (hphase : s.phase = .handing ∨ s.phase = .handed) :
    s.answered = false := by
  rw [← Bool.not_eq_true]
  intro hanswered
  rcases h.heard hanswered with hidle | ⟨r, hr, -⟩ | ⟨r, hr, -⟩ <;>
    rcases hphase with hphase | hphase <;> simp_all

/-- What precedes the first look into the channel, and an error there. -/
theorem Inv.setPhase (h : Inv l s) (hphase : s.phase = .handing ∨ s.phase = .handed) {phase : Phase}
    (hkeeps : ∀ r ∈ phase.receiver, r.Keeps l.capacity) (hconnected : phase ≠ .disconnected) :
    Inv l { s with phase := phase } where
  running := h.running
  counter _ := h.counter (by rcases hphase with hphase | hphase <;> simp [hphase])
  keeps := hkeeps
  connected := hconnected
  heard hanswered := absurd hanswered (by simp [h.not_answered hphase])

theorem inv_step (h : Inv l s) (ha : InTime l s a) (hst : step l s a = some s') : Inv l s' := by
  have hrunning : ¬ s.crashed = true := by simp [h.running]
  unfold step at hst
  rw [if_neg hrunning] at hst
  split at hst
  · -- `send_data` is called
    obtain rfl := Option.some.inj hst
    exact ⟨h.running, fun _ => ha, fun r hr => (by cases hr), by simp, fun hn => (by cases hn)⟩
  · rename_i hphase
    obtain rfl := Option.some.inj hst
    exact h.setPhase (Or.inl hphase) (fun r hr => (by cases hr)) (by simp)
  · rename_i hphase
    obtain rfl := Option.some.inj hst
    exact h.setPhase (Or.inl hphase) (fun r hr => (by cases hr)) (by simp)
  · rename_i hphase
    obtain rfl := Option.some.inj hst
    exact h.setPhase (Or.inr hphase) (fun r hr => (by cases hr)) (by simp)
  · rename_i hphase
    obtain rfl := Option.some.inj hst
    refine h.setPhase (Or.inr hphase) (fun r hr => ?_) (by simp)
    obtain rfl : Receiver.subscribe = r := by simpa [Phase.receiver] using hr
    exact Receiver.keeps_subscribe
  · obtain rfl := Option.some.inj hst
    exact h.ack ha
  · rename_i r hphase
    obtain rfl := Option.some.inj hst
    exact h.recv hphase
  · obtain rfl := Option.some.inj hst
    exact h.elapse ha
  · obtain rfl := Option.some.inj hst
    exact h.elapse ha
  · obtain rfl := Option.some.inj hst
    exact h.elapse ha
  · rename_i r hphase
    obtain rfl := Option.some.inj hst
    exact h.timer hphase
  · cases hst

/-- In a run whose messages come in time no acknowledgement is missed. -/
theorem acks_heard (h : Reach (step l) (InTime l) start s) : Heard l s :=
  (h.invariant (I := Inv l) inv_start fun _ _ _ hinv ha hst => inv_step hinv ha hst).allHeard

end

/-! ## 6. Two runs -/

/-- A session with the peer 2. -/
def sampleLink : Link := ⟨nameScheme, .fill 2, .fill 7, 128⟩

/-- Its acknowledgement of the first file. -/
def firstAck : Bytes := nameScheme.seal (.fill 2) (AckBody.codec.enc ⟨⟨0, .fill 7⟩, 1⟩)

/-- The acknowledgement comes when `wait_for_ack` has subscribed. -/
theorem acks_heard_first : ∃ s, Reach (step sampleLink) (InTime sampleLink) start s ∧
    s.answered = true ∧ s.phase = .awaiting ⟨[1]⟩ ∧ Heard sampleLink s := by
  have hrun : ∃ s, runWhen (step sampleLink) (fun s a => decide (InTime sampleLink s a)) start
      [.send, .hand, .subscribe, .ack firstAck] = some s ∧
      s.answered = true ∧ s.phase = .awaiting ⟨[1]⟩ := by decide +kernel
  obtain ⟨s, hs, hanswered, hphase⟩ := hrun
  have hreach : Reach (step sampleLink) (InTime sampleLink) start s :=
    reach_of_runWhen (fun _ _ hcheck => of_decide_eq_true hcheck) hs
  exact ⟨s, hreach, hanswered, hphase, acks_heard hreach⟩

/-- The acknowledgement comes before: nobody hears it, and `send_data` times out. -/
theorem ack_missed : ∃ s, run (step sampleLink) start
    [.send, .hand, .ack firstAck, .subscribe, .recv, .elapse, .timer] = some s ∧
    s.answered = true ∧ s.phase = .failed := by
  decide +kernel

end Backuwup.Client.Transport
