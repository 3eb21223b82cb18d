/-
# One session between two peers (`net_p2p/transport.rs`, `net_p2p/receive.rs`)

The sender signs its files with the numbers 1, 2, … and waits after each for an acknowledgement
of that number; a task of its own checks the acknowledgements and passes their numbers on
through a broadcast channel, on which `wait_for_ack` subscribes after the file was sent.  The
receiver checks a message, saves the file, and signs an acknowledgement; acknowledgements are
numbered from 0.  The party that opened the connection first signed an initialization message
with the number 0: the sender in a `Transport` session, the receiver in a `RestoreAll` session.

The network is an adversary that holds every message of the session: it may deliver any bytes at
any time, except that the body of a message that verifies was signed by that party in the
session (`Unforged`).

The result (`acknowledged_means_stored`): in every state of every run, the files of which
`send_data` returned `Ok` are the first files that the receiver saved, and the files it saved are
the first that the sender signed, in order.
-/
import Backuwup.Client.NetP2p.Signed
import Backuwup.Lib.Transition

namespace Backuwup.Client.Session

open Transition

/-! ## 1. The code -/

abbrev File := FileInfo × Bytes

/-- The two parties of a session, its nonce, and what it is for. -/
structure Parties where
  scheme : SignatureScheme
  sender : ClientId
  receiver : ClientId
  nonce : TransportSessionNonce
  purpose : RequestType

/-- Where the sender stands. -/
inductive SendPhase
  /-- accepted the connection, and waits for the initialization message -/
  | accepting
  /-- between two calls of `send_data` -/
  | idle
  /-- the file is being written to the connection -/
  | sending (file : File)
  /-- in `wait_for_ack`, with the numbers received since it subscribed -/
  | awaiting (file : File) (numbers : List ℕ)
  /-- dropped after an error -/
  | dropped
deriving DecidableEq

/-- Where the receiver stands. -/
inductive ReceivePhase
  /-- accepted the connection, and waits for the initialization message -/
  | accepting
  | reading
  | saving (num : ℕ) (file : File)
  | acking (num : ℕ)
  | finished
deriving DecidableEq

/-- A session: what the parties signed in it, the sender, the task that checks its
acknowledgements, and the receiver.  The last three fields record the files signed by the
sender, those of which `send_data` returned `Ok`, and those that were saved. -/
structure State where
  signed : List (ClientId × Bytes)
  sendPhase : SendPhase
  msgCounter : ℕ
  ackTask : Bool
  messagesReceived : ℕ
  receivePhase : ReceivePhase
  dataMsgCounter : ℕ
  ackMsgCounter : ℕ
  sent : List File
  confirmed : List File
  saved : List File
deriving DecidableEq

inductive Action
  /-- the accepting party reads a message as the initialization message -/
  | request (data : Bytes)
  /-- `send_data` is called -/
  | send (file : File)
  /-- the file was written to the connection, or not -/
  | written (ok : Bool)
  /-- a message arrives at the task that checks acknowledgements -/
  | ack (data : Bytes)
  /-- `wait_for_ack` takes the next number -/
  | number
  /-- `wait_for_ack` times out, or lags behind the channel -/
  | timeout
  /-- a message arrives at the receiver -/
  | deliver (data : Bytes)
  /-- the receiver has saved the file, or not -/
  | save (ok : Bool)
  /-- the receiver has signed its acknowledgement, and it was written or not -/
  | acknowledge (ok : Bool)
  /-- the receiver's connection ends -/
  | close

section

variable (p : Parties)

/-- The party that opened the connection. -/
def Parties.initiator : ClientId :=
  match p.purpose with
  | .transport => p.sender
  | .restoreAll => p.receiver

/-- The body of the initialization message. -/
def Parties.requestBody : Bytes :=
  EncapsulateRequestBody.codec.enc ⟨⟨0, p.nonce⟩, p.purpose⟩

/-- The connection is open and the initialization message signed. -/
def start : State where
  signed := [(p.initiator, p.requestBody)]
  sendPhase := if p.purpose = .transport then .idle else .accepting
  msgCounter := 1
  ackTask := true
  messagesReceived := 0
  receivePhase := if p.purpose = .transport then .accepting else .reading
  dataMsgCounter := 1
  ackMsgCounter := 0
  sent := []
  confirmed := []
  saved := []

/-- The body of the file message number `num`. -/
def Parties.fileBody (num : ℕ) (file : File) : Bytes :=
  EncapsulatedFileBody.codec.enc ⟨⟨num, p.nonce⟩, file.1, file.2⟩

/-- The step of the accepting party on the first message. -/
def acceptStep (s : State) (data : Bytes) : Option State :=
  match p.purpose with
  | .transport =>
    if s.receivePhase = .accepting then
      match receiveRequest p.scheme p.nonce p.sender data with
      | .ok .transport => some { s with receivePhase := .reading }
      | _ => some { s with receivePhase := .finished }
    else none
  | .restoreAll =>
    if s.sendPhase = .accepting then
      match receiveRequest p.scheme p.nonce p.receiver data with
      | .ok .restoreAll => some { s with sendPhase := .idle }
      | _ => some { s with sendPhase := .dropped }
    else none

/-- `process_acks` on one message: the number goes to `wait_for_ack` if it has subscribed. -/
def ackStep (s : State) (data : Bytes) : Option State :=
  if s.ackTask = true ∧ s.sendPhase ≠ .accepting then
    match parseIncomingAck p.scheme data p.nonce p.receiver s.messagesReceived with
    | .ok (num, next) =>
      let s := { s with messagesReceived := next }
      match s.sendPhase with
      | .awaiting file numbers => some { s with sendPhase := .awaiting file (numbers ++ [num]) }
      | _ => some s
    | .error .error => some s
    | .error .panic => some { s with ackTask := false }
  else none

/-- `wait_for_ack` on the next number, and the end of `send_data` if it is the awaited one. -/
def numberStep (s : State) : Option State :=
  match s.sendPhase with
  | .awaiting file (num :: numbers) =>
    if num = s.msgCounter then
      match incrementU64 s.msgCounter with
      | .ok next => some { s with
          sendPhase := .idle, msgCounter := next, confirmed := s.confirmed ++ [file] }
      | .error _ => some { s with sendPhase := .dropped }
    else some { s with sendPhase := .awaiting file numbers }
  | _ => none

/-- `handle_stream` on one message. -/
def deliverStep (s : State) (data : Bytes) : Option State :=
  if s.receivePhase = .reading then
    match validateIncomingMessage p.scheme p.nonce p.sender s.dataMsgCounter data with
    | .ok ((num, info, file), next) =>
      some { s with receivePhase := .saving num (info, file), dataMsgCounter := next }
    | .error _ => some { s with receivePhase := .finished }
  else none

/-- One event of the session. -/
def step (s : State) : Action → Option State
  | .request data => acceptStep p s data
  | .send file =>
    if s.sendPhase = .idle ∧ file.2.length < u64Bound then
      some { s with
        sendPhase := .sending file
        sent := s.sent ++ [file]
        signed := s.signed ++ [(p.sender, p.fileBody s.msgCounter file)] }
    else none
  | .written ok =>
    match s.sendPhase with
    | .sending file => some { s with sendPhase := if ok then .awaiting file [] else .dropped }
    | _ => none
  | .ack data => ackStep p s data
  | .number => numberStep s
  | .timeout =>
    match s.sendPhase with
    | .awaiting _ _ => some { s with sendPhase := .dropped }
    | _ => none
  | .deliver data => deliverStep p s data
  | .save ok =>
    match s.receivePhase with
    | .saving num file =>
      if ok then some { s with receivePhase := .acking num, saved := s.saved ++ [file] }
      else some { s with receivePhase := .finished }
    | _ => none
  | .acknowledge ok =>
    match s.receivePhase with
    | .acking num =>
      match ackMsg p.nonce s.ackMsgCounter num with
      | .ok (body, next) => some { s with
          receivePhase := if ok then .reading else .finished
          ackMsgCounter := next
          signed := s.signed ++ [(p.receiver, body)] }
      | .error _ => some { s with receivePhase := .finished }
    | _ => none
  | .close =>
    if s.receivePhase = .reading then some { s with receivePhase := .finished } else none

/-- What the network may deliver: the body of a message that verifies as a party's was signed by
it in this session. -/
def Unforged (s : State) : Action → Prop
  | .request data | .ack data | .deliver data =>
    ∀ c body, (c = p.sender ∨ c = p.receiver) → p.scheme.bodyOf c data = some body →
      (c, body) ∈ s.signed
  | _ => True

end

/-! ## 2. The invariant -/

/-- What a body signed by the sender is: a file with its number, or the initialization
message. -/
def SenderBody (p : Parties) (s : State) (body : Bytes) : Prop :=
  (∃ i file, s.sent[i]? = some file ∧ i + 1 < u64Bound ∧ file.2.length < u64Bound ∧
    body = p.fileBody (i + 1) file) ∨ body = p.requestBody

/-- What a body signed by the receiver is: the acknowledgement of a file that it saved, or the
initialization message. -/
def ReceiverBody (p : Parties) (s : State) (body : Bytes) : Prop :=
  (∃ k, k < s.saved.length ∧ k + 1 < u64Bound ∧
    body = AckBody.codec.enc ⟨⟨k, p.nonce⟩, k + 1⟩) ∨ body = p.requestBody

/-- The counter and the files of the sender, by phase. -/
def SenderOk (s : State) : Prop :=
  match s.sendPhase with
  | .accepting | .idle => s.msgCounter = s.sent.length + 1
  | .sending file => s.msgCounter = s.sent.length ∧ s.sent = s.confirmed ++ [file]
  | .awaiting file numbers => s.msgCounter = s.sent.length ∧ s.sent = s.confirmed ++ [file] ∧
      ∀ n ∈ numbers, n ≤ s.saved.length
  | .dropped => True

/-- The counters of the receiver, by phase. -/
def ReceiverOk (s : State) : Prop :=
  match s.receivePhase with
  | .accepting | .reading =>
    s.dataMsgCounter = s.saved.length + 1 ∧ s.ackMsgCounter = s.saved.length
  | .saving num file => num = s.saved.length + 1 ∧ s.dataMsgCounter = num + 1 ∧
      num + 1 < u64Bound ∧ s.ackMsgCounter = s.saved.length ∧ s.sent[s.saved.length]? = some file
  | .acking num => num = s.saved.length ∧ s.dataMsgCounter = num + 1 ∧ num < u64Bound ∧
      s.ackMsgCounter + 1 = s.saved.length
  | .finished => True

/-- The invariant of a session. -/
structure Inv (p : Parties) (s : State) : Prop where
  signedSender : ∀ body, (p.sender, body) ∈ s.signed → SenderBody p s body
  signedReceiver : ∀ body, (p.receiver, body) ∈ s.signed → ReceiverBody p s body
  counter : s.msgCounter < u64Bound
  sender : SenderOk s
  receiver : ReceiverOk s
  confirmed_sent : s.confirmed <+: s.sent
  /-- between two files, every file signed is confirmed -/
  confirmed_all : (s.sendPhase = .idle ∨ s.sendPhase = .accepting) → s.confirmed = s.sent
  confirmed_le : s.confirmed.length ≤ s.saved.length
  saved_sent : s.saved <+: s.sent

section

variable {p : Parties} {s s' : State}

theorem SenderBody.mono {body : Bytes} (h : SenderBody p s body) (hsent : s.sent <+: s'.sent) :
    SenderBody p s' body := by
  rcases h with ⟨i, file, hi, hlt, hlen, rfl⟩ | hreq
  · refine Or.inl ⟨i, file, ?_, hlt, hlen, rfl⟩
    obtain ⟨t, ht⟩ := hsent
    rw [← ht, List.getElem?_append_left (List.getElem?_eq_some_iff.mp hi).1]
    exact hi
  · exact Or.inr hreq

theorem ReceiverBody.mono {body : Bytes} (h : ReceiverBody p s body)
    (hsaved : s.saved.length ≤ s'.saved.length) : ReceiverBody p s' body := by
  rcases h with ⟨k, hk, hlt, rfl⟩ | hreq
  · exact Or.inl ⟨k, by omega, hlt, rfl⟩
  · exact Or.inr hreq

/-- A file message that the receiver accepts carries the next file of the sender. -/
theorem accepted_file {num counter next : ℕ} {info : FileInfo} {file data : Bytes}
    (hs : ∀ body, (p.sender, body) ∈ s.signed → SenderBody p s body)
    (hun : ∀ body, p.scheme.bodyOf p.sender data = some body → (p.sender, body) ∈ s.signed)
    (h : validateIncomingMessage p.scheme p.nonce p.sender counter data
      = .ok ((num, info, file), next)) :
    num = counter ∧ next = counter + 1 ∧ next < u64Bound ∧
      ∃ i, counter = i + 1 ∧ s.sent[i]? = some (info, file) := by
  obtain ⟨hnum, hnext, hlt, bytes, hbytes, hdec⟩ := validateIncomingMessage_eq_ok h
  refine ⟨hnum, hnext, hlt, ?_⟩
  rcases hs bytes (hun bytes hbytes) with ⟨i, f, hi, hseq, hlen, rfl⟩ | rfl
  · rw [Parties.fileBody, decode_file hseq hlen, Option.some.injEq] at hdec
    obtain ⟨info', file'⟩ := f
    simp only [EncapsulatedFileBody.mk.injEq, Header.mk.injEq] at hdec
    obtain ⟨⟨hseq', -⟩, rfl, rfl⟩ := hdec
    exact ⟨i, hseq'.symm, hi⟩
  · rw [Parties.requestBody, decode_file_request (by simp [u64Bound])] at hdec
    cases hdec

/-- A number that passes the check of acknowledgements is that of a saved file. -/
theorem accepted_ack {num counter next : ℕ} {data : Bytes}
    (hs : ∀ body, (p.receiver, body) ∈ s.signed → ReceiverBody p s body)
    (hun : ∀ body, p.scheme.bodyOf p.receiver data = some body → (p.receiver, body) ∈ s.signed)
    (h : parseIncomingAck p.scheme data p.nonce p.receiver counter = .ok (num, next)) :
    num ≤ s.saved.length := by
  obtain ⟨-, bytes, hbytes, hdec⟩ := parseIncomingAck_eq_ok h
  rcases hs bytes (hun bytes hbytes) with ⟨k, hk, hlt, rfl⟩ | rfl
  · rw [decode_ack (by simp only; omega) hlt, Option.some.injEq] at hdec
    simp only [AckBody.mk.injEq] at hdec
    omega
  · rw [Parties.requestBody, decode_ack_request (by simp [u64Bound])] at hdec
    cases hdec

/-- The prefix of a list of a given length. -/
theorem prefix_append_getElem? {α : Type} {l m : List α} {x : α} (h : l <+: m)
    (hx : m[l.length]? = some x) : l ++ [x] <+: m := by
  obtain ⟨t, rfl⟩ := h
  cases t with
  | nil => simp at hx
  | cons y t =>
    rw [List.getElem?_append_right (le_refl _), Nat.sub_self, List.getElem?_cons_zero,
      Option.some.injEq] at hx
    subst hx
    exact ⟨t, by simp⟩

/-! ## 3. Each event keeps it -/

theorem inv_start : Inv p (start p) where
  signedSender body hmem := by
    simp only [start, List.mem_singleton, Prod.mk.injEq] at hmem
    exact Or.inr hmem.2
  signedReceiver body hmem := by
    simp only [start, List.mem_singleton, Prod.mk.injEq] at hmem
    exact Or.inr hmem.2
  counter := by simp [start, u64Bound]
  sender := by cases hp : p.purpose <;> simp [SenderOk, start, hp]
  receiver := by cases hp : p.purpose <;> simp [ReceiverOk, start, hp]
  confirmed_sent := List.prefix_rfl
  confirmed_all _ := rfl
  confirmed_le := le_refl _
  saved_sent := List.prefix_rfl

theorem Inv.accept (h : Inv p s) {data : Bytes} (hst : acceptStep p s data = some s') :
    Inv p s' := by
  unfold acceptStep at hst
  split at hst
  · split at hst
    · rename_i hphase
      have hr := h.receiver
      simp only [ReceiverOk, hphase] at hr
      split at hst
      · cases hst
        exact { h with receiver := hr }
      · cases hst
        exact { h with receiver := trivial }
    · cases hst
  · split at hst
    · rename_i hphase
      have hsd := h.sender
      simp only [SenderOk, hphase] at hsd
      split at hst
      · cases hst
        exact { h with sender := hsd, confirmed_all := fun _ => h.confirmed_all (Or.inr hphase) }
      · cases hst
        exact { h with sender := trivial, confirmed_all := by simp }
    · cases hst

theorem Inv.send (h : Inv p s) (hne : p.sender ≠ p.receiver) {file : File}
    (hidle : s.sendPhase = .idle) (hlen : file.2.length < u64Bound) :
    Inv p { s with
      sendPhase := .sending file
      sent := s.sent ++ [file]
      signed := s.signed ++ [(p.sender, p.fileBody s.msgCounter file)] } := by
  have hsd := h.sender
  simp only [SenderOk, hidle] at hsd
  have hgrow : s.sent <+: s.sent ++ [file] := List.prefix_append _ _
  constructor
  · intro body hmem
    rcases List.mem_append.mp hmem with hmem | hmem
    · exact (h.signedSender body hmem).mono hgrow
    · simp only [List.mem_singleton, Prod.mk.injEq, true_and] at hmem
      refine Or.inl ⟨s.sent.length, file, by simp, ?_, hlen, ?_⟩
      · rw [← hsd]
        exact h.counter
      · rw [hmem, hsd]
  · intro body hmem
    rcases List.mem_append.mp hmem with hmem | hmem
    · exact h.signedReceiver body hmem
    · simp only [List.mem_singleton, Prod.mk.injEq] at hmem
      exact absurd hmem.1.symm hne
  · exact h.counter
  · simp [SenderOk, hsd, h.confirmed_all (Or.inl hidle)]
  · have hr := h.receiver
    unfold ReceiverOk at hr ⊢
    cases hphase : s.receivePhase with
    | saving num f =>
      simp only [hphase] at hr ⊢
      obtain ⟨h1, h2, h3, h4, h5⟩ := hr
      refine ⟨h1, h2, h3, h4, ?_⟩
      rw [List.getElem?_append_left (List.getElem?_eq_some_iff.mp h5).1]
      exact h5
    | accepting | reading | acking num =>
      simp only [hphase] at hr ⊢
      exact hr
    | finished => trivial
  · exact h.confirmed_sent.trans hgrow
  · simp
  · exact h.confirmed_le
  · exact h.saved_sent.trans hgrow

theorem Inv.ack (h : Inv p s) {data : Bytes} (hun : Unforged p s (.ack data))
    (hst : ackStep p s data = some s') : Inv p s' := by
  unfold ackStep at hst
  split at hst
  · split at hst
    · rename_i num next hack
      have hle := accepted_ack h.signedReceiver (fun body => hun p.receiver body (Or.inr rfl)) hack
      cases hphase : s.sendPhase with
      | awaiting file numbers =>
        simp only [hphase] at hst
        cases hst
        have hsd := h.sender
        simp only [SenderOk, hphase] at hsd
        obtain ⟨h1, h2, h3⟩ := hsd
        refine { h with sender := ⟨h1, h2, fun n hn => ?_⟩, confirmed_all := by simp }
        rcases List.mem_append.mp hn with hn | hn
        · exact h3 n hn
        · rw [List.mem_singleton.mp hn]
          exact hle
      | accepting | idle | sending | dropped =>
        simp only [hphase] at hst
        cases hst
        have hsender := h.sender
        simp only [SenderOk, hphase] at hsender
        exact { h with
          sender := hsender
          confirmed_all := by simpa only [hphase] using h.confirmed_all }
    · cases hst
      exact h
    · cases hst
      exact { h with }
  · cases hst

/-- The number of the file under way is only passed on once the file is saved. -/
theorem Inv.number (h : Inv p s) (hst : numberStep s = some s') : Inv p s' := by
  unfold numberStep at hst
  split at hst
  · rename_i file num numbers hphase
    have hsd := h.sender
    simp only [SenderOk, hphase] at hsd
    obtain ⟨hcount, hsent, hnums⟩ := hsd
    split at hst
    · rename_i hnum
      split at hst
      · rename_i next hnext
        cases hst
        obtain ⟨rfl, hlt⟩ := incrementU64_eq_ok.mp hnext
        have hsaved := hnums num List.mem_cons_self
        have hlen : s.sent.length = s.confirmed.length + 1 := by simp [hsent]
        refine { h with
          counter := hlt
          sender := by simp [SenderOk, hcount]
          confirmed_sent := by simp [hsent]
          confirmed_all := fun _ => hsent.symm
          confirmed_le := ?_ }
        simp only [List.length_append, List.length_singleton]
        omega
      · cases hst
        exact { h with sender := trivial, confirmed_all := by simp }
    · cases hst
      refine { h with
        sender := ⟨hcount, hsent, fun n hn => hnums n (List.mem_cons_of_mem _ hn)⟩
        confirmed_all := by simp }
  · cases hst

theorem Inv.deliver (h : Inv p s) {data : Bytes} (hun : Unforged p s (.deliver data))
    (hst : deliverStep p s data = some s') : Inv p s' := by
  unfold deliverStep at hst
  split at hst
  · rename_i hphase
    have hr := h.receiver
    simp only [ReceiverOk, hphase] at hr
    split at hst
    · rename_i num info file next hval
      cases hst
      obtain ⟨rfl, rfl, hlt, i, hi, hfile⟩ := accepted_file h.signedSender
        (fun body => hun p.sender body (Or.inl rfl)) hval
      obtain rfl : i = s.saved.length := by omega
      exact { h with receiver := ⟨hr.1, rfl, hlt, hr.2, hfile⟩ }
    · cases hst
      exact { h with receiver := trivial }
  · cases hst

theorem Inv.save (h : Inv p s) {num : ℕ} {file : File}
    (hphase : s.receivePhase = .saving num file) :
    Inv p { s with receivePhase := .acking num, saved := s.saved ++ [file] } := by
  have hr := h.receiver
  simp only [ReceiverOk, hphase] at hr
  obtain ⟨h1, h2, h3, h4, h5⟩ := hr
  have hgrow : s.saved.length ≤ (s.saved ++ [file]).length := by simp
  refine { h with
    signedReceiver := fun body hmem => (h.signedReceiver body hmem).mono hgrow
    sender := ?_
    receiver := ⟨by simpa using h1, h2, by omega, by simp [h4]⟩
    confirmed_le := h.confirmed_le.trans hgrow
    saved_sent := prefix_append_getElem? h.saved_sent h5 }
  have hsd := h.sender
  unfold SenderOk at hsd ⊢
  cases hsend : s.sendPhase with
  | awaiting f numbers =>
    simp only [hsend] at hsd ⊢
    exact ⟨hsd.1, hsd.2.1, fun n hn => (hsd.2.2 n hn).trans hgrow⟩
  | accepting | idle | sending =>
    simp only [hsend] at hsd ⊢
    exact hsd
  | dropped => trivial

theorem Inv.acknowledge (h : Inv p s) (hne : p.sender ≠ p.receiver) {num next : ℕ} {body : Bytes}
    (hphase : s.receivePhase = .acking num)
    (hack : ackMsg p.nonce s.ackMsgCounter num = .ok (body, next)) (ok : Bool) :
    Inv p { s with
      receivePhase := if ok then .reading else .finished
      ackMsgCounter := next
      signed := s.signed ++ [(p.receiver, body)] } := by
  have hr := h.receiver
  simp only [ReceiverOk, hphase] at hr
  obtain ⟨h1, h2, h3, h4⟩ := hr
  obtain ⟨rfl, hlt, rfl⟩ := ackMsg_eq_ok hack
  refine { h with signedSender := ?_, signedReceiver := ?_, receiver := ?_ }
  · intro b hmem
    rcases List.mem_append.mp hmem with hmem | hmem
    · exact h.signedSender b hmem
    · simp only [List.mem_singleton, Prod.mk.injEq] at hmem
      exact absurd hmem.1 hne
  · intro b hmem
    rcases List.mem_append.mp hmem with hmem | hmem
    · exact h.signedReceiver b hmem
    · simp only [List.mem_singleton, Prod.mk.injEq, true_and] at hmem
      refine Or.inl ⟨s.ackMsgCounter, by simp only; omega, hlt, ?_⟩
      rw [hmem, h1, ← h4]
  · cases ok with
    | false => trivial
    | true => exact ⟨by simp only; omega, h4⟩

/-- Every event keeps the invariant. -/
theorem Inv.step (h : Inv p s) (hne : p.sender ≠ p.receiver) {a : Action}
    (hun : Unforged p s a) (hst : Session.step p s a = some s') : Inv p s' := by
  cases a with
  | request data => exact h.accept hst
  | send file =>
    simp only [Session.step] at hst
    split at hst
    · rename_i hcond
      cases hst
      exact h.send hne hcond.1 hcond.2
    · cases hst
  | written ok =>
    simp only [Session.step] at hst
    split at hst
    · rename_i file hphase
      cases hst
      have hsd := h.sender
      simp only [SenderOk, hphase] at hsd
      cases ok with
      | false => exact { h with sender := trivial, confirmed_all := by simp }
      | true => exact { h with
          sender := ⟨hsd.1, hsd.2, by simp⟩
          confirmed_all := by simp }
    · cases hst
  | ack data => exact h.ack hun hst
  | number => exact h.number hst
  | timeout =>
    simp only [Session.step] at hst
    split at hst
    · cases hst
      exact { h with sender := trivial, confirmed_all := by simp }
    · cases hst
  | deliver data => exact h.deliver hun hst
  | save ok =>
    simp only [Session.step] at hst
    split at hst
    · rename_i num file hphase
      split at hst
      · cases hst
        exact h.save hphase
      · cases hst
        exact { h with receiver := trivial }
    · cases hst
  | acknowledge ok =>
    simp only [Session.step] at hst
    split at hst
    · rename_i num hphase
      split at hst
      · rename_i body next hack
        cases hst
        exact h.acknowledge hne hphase hack ok
      · cases hst
        exact { h with receiver := trivial }
    · cases hst
  | close =>
    simp only [Session.step] at hst
    split at hst
    · cases hst
      exact { h with receiver := trivial }
    · cases hst

end

/-! ## 4. Acknowledged means stored -/

/-- The files of which `send_data` returned `Ok` are, in order, files the receiver has saved,
and those are the first files that the sender signed. -/
structure AcknowledgedStored (s : State) : Prop where
  stored : ∀ (n : ℕ) (file : File), s.confirmed[n]? = some file → s.saved[n]? = some file
  in_order : s.saved <+: s.sent

theorem getElem?_of_prefix {α : Type} {l m : List α} {n : ℕ} {x : α} (h : l <+: m)
    (hn : l[n]? = some x) : m[n]? = some x := by
  obtain ⟨t, rfl⟩ := h
  rw [List.getElem?_append_left (List.getElem?_eq_some_iff.mp hn).1]
  exact hn

theorem Inv.acknowledgedStored {p : Parties} {s : State} (h : Inv p s) :
    AcknowledgedStored s where
  stored _ _ hn :=
    getElem?_of_prefix (List.prefix_of_prefix_length_le h.confirmed_sent h.saved_sent
      h.confirmed_le) hn
  in_order := h.saved_sent

/-- Acknowledged means stored.  In every session between two parties, in either role, whatever
the network does with the messages of the session short of forging a signature: when `send_data`
returned `Ok` for the `n`-th file, the receiver has saved exactly that file as its `n`-th, and
what it has saved is a prefix of what the sender signed. -/
theorem acknowledged_means_stored (p : Parties) (hne : p.sender ≠ p.receiver) (s : State)
    (h : Reach (step p) (Unforged p) (start p) s) : AcknowledgedStored s :=
  (h.invariant (I := Inv p) inv_start fun _ _ _ hs hun hst =>
    hs.step hne hun hst).acknowledgedStored

/-- A session in which the first party restores from the second. -/
def restoring : Parties where
  scheme := nameScheme
  sender := .fill 1
  receiver := .fill 2
  nonce := .fill 7
  purpose := .restoreAll

/-- `Unforged`, evaluated. -/
def unforged (p : Parties) (s : State) : Action → Bool
  | .request data | .ack data | .deliver data =>
    [p.sender, p.receiver].all fun c =>
      (p.scheme.bodyOf c data).all fun body => decide ((c, body) ∈ s.signed)
  | _ => true

theorem unforged_ok (p : Parties) (s : State) (a : Action) (h : unforged p s a = true) :
    Unforged p s a := by
  have hdata : ∀ data, ([p.sender, p.receiver].all fun c =>
      (p.scheme.bodyOf c data).all fun body => decide ((c, body) ∈ s.signed)) = true →
      ∀ c body, (c = p.sender ∨ c = p.receiver) → p.scheme.bodyOf c data = some body →
        (c, body) ∈ s.signed := by
    intro data hall c body hc hbody
    have hx := List.all_eq_true.mp hall c (by simpa using hc)
    simpa [hbody] using hx
  cases a with
  | request data => exact hdata data h
  | ack data => exact hdata data h
  | deliver data => exact hdata data h
  | _ => trivial

/-- Two files are sent, saved and acknowledged.  The network also delivers the first
acknowledgement twice, and a message of the sender to the sender. -/
def twoFiles : List Action :=
  let first : File := (.index 5, [1, 2, 3])
  let second : File := (.packfile (.fill 6), [4, 5])
  let firstAck := nameScheme.seal (.fill 2) (AckBody.codec.enc ⟨⟨0, .fill 7⟩, 1⟩)
  [.request (nameScheme.seal (.fill 2) restoring.requestBody),
   .send first, .written true,
   .deliver (nameScheme.seal (.fill 1) (restoring.fileBody 1 first)), .save true,
   .acknowledge true, .ack firstAck, .number,
   .send second, .written true, .ack firstAck,
   .ack (nameScheme.seal (.fill 1) (restoring.fileBody 2 second)),
   .deliver (nameScheme.seal (.fill 1) (restoring.fileBody 2 second)), .save true,
   .acknowledge true,
   .ack (nameScheme.seal (.fill 2) (AckBody.codec.enc ⟨⟨1, .fill 7⟩, 2⟩)), .number]

theorem twoFiles_stored :
    ∃ s, runWhen (step restoring) (unforged restoring) (start restoring) twoFiles = some s ∧
      s.confirmed = [(.index 5, [1, 2, 3]), (.packfile (.fill 6), [4, 5])] ∧
      AcknowledgedStored s := by
  obtain ⟨s, hs, hconf⟩ : ∃ s, runWhen (step restoring) (unforged restoring) (start restoring)
      twoFiles = some s ∧ s.confirmed = [(.index 5, [1, 2, 3]), (.packfile (.fill 6), [4, 5])] := by
    decide +kernel
  exact ⟨s, hs, hconf, acknowledged_means_stored restoring (by decide) s
    (reach_of_runWhen (unforged_ok restoring) hs)⟩

end Backuwup.Client.Session
