/-
# Sessions among many peers (`net_p2p/handle_connections.rs`, `receive.rs`, `restore_send.rs`)

Honest clients open and accept any number of sessions; an attacker controls the connections,
reads what is sent over them, and is itself a peer that opens sessions with nonces of its
choice.  A signed body holds a nonce, a number and a file: nothing in it says to whom it was
sent or what the session is for, and the nonce of a session is chosen by whoever opens it.

The attack (`origin_confused`): while a session of `A` with `B` is open, the attacker asks `A`
to restore under the nonce of that session.  `A` signs the files it keeps for the attacker, and
`B` accepts them as files of `A`.  Where no client accepts a request to restore under the nonce
of a session in which it sends itself, every file that is accepted in a `Transport` session was
sent in it (`origin_authentic`).
-/
import Backuwup.Client.NetP2p.Signed
import Backuwup.Lib.Pool
import Backuwup.Lib.Transition

namespace Backuwup.Client.Origin

open Transition

/-! ## 1. The code -/

abbrev File := FileInfo × Bytes

/-- An entry of `P2PConnectionManager`, with the client that holds it. -/
structure Request where
  initiator : ClientId
  destination : ClientId
  nonce : TransportSessionNonce
  purpose : RequestType
deriving DecidableEq

/-- A `BackupTransportManager`: the files it has signed, the `n`-th with the number `n`. -/
structure SendSession where
  sender : ClientId
  recipient : ClientId
  nonce : TransportSessionNonce
  purpose : RequestType
  sent : List File
deriving DecidableEq

/-- A run of `handle_stream`: the files it has accepted. -/
structure ReceiveSession where
  receiver : ClientId
  source : ClientId
  nonce : TransportSessionNonce
  purpose : RequestType
  accepted : List File
  finished : Bool
deriving DecidableEq

/-- The honest clients and what they have signed.  `nonces` are the nonces that have been used
so far by anyone, `requests` the sessions that honest clients asked for, as the server relays
them, `pending` those that are not opened yet, and `stored` the files a client keeps for a
peer. -/
structure State where
  signed : List (ClientId × Bytes)
  nonces : List TransportSessionNonce
  requests : List Request
  pending : List Request
  senders : List SendSession
  receivers : List ReceiveSession
  stored : List (ClientId × ClientId × File)
deriving DecidableEq

inductive Action
  /-- a client asks the server for a session, under a random nonce -/
  | addRequest (r : Request)
  /-- the connection is confirmed to the client that asked for it: `accept_and_connect` -/
  | acceptAndConnect (client destination : ClientId)
  /-- a client is told of a session of `source` and reads the first message of it:
  `accept_and_listen` -/
  | acceptAndListen (client source : ClientId) (nonce : TransportSessionNonce) (data : Bytes)
  /-- `send_data` in a session -/
  | send (i : ℕ) (file : File)
  /-- a message arrives in a session, and the file is saved or not -/
  | deliver (j : ℕ) (data : Bytes) (saved : Bool)

def fileBody (nonce : TransportSessionNonce) (num : ℕ) (file : File) : Bytes :=
  EncapsulatedFileBody.codec.enc ⟨⟨num, nonce⟩, file.1, file.2⟩

/-- The body of an initialization message. -/
def requestBody (nonce : TransportSessionNonce) (purpose : RequestType) : Bytes :=
  EncapsulateRequestBody.codec.enc ⟨⟨0, nonce⟩, purpose⟩

/-- The session that a client opens as `accept_and_connect` does: it sends in a `Transport`
session and receives in a `RestoreAll` session. -/
def State.open (s : State) (r : Request) : State :=
  match r.purpose with
  | .transport => { s with
      senders := s.senders ++ [⟨r.initiator, r.destination, r.nonce, .transport, []⟩] }
  | .restoreAll => { s with
      receivers := s.receivers ++ [⟨r.initiator, r.destination, r.nonce, .restoreAll, [], false⟩] }

/-- The session that a client accepts: it receives in a `Transport` session and sends in a
`RestoreAll` session. -/
def State.accept (s : State) (client source : ClientId) (nonce : TransportSessionNonce) :
    RequestType → State
  | .transport => { s with
      receivers := s.receivers ++ [⟨client, source, nonce, .transport, [], false⟩] }
  | .restoreAll => { s with
      senders := s.senders ++ [⟨client, source, nonce, .restoreAll, []⟩] }

section

variable (V : SignatureScheme) (honest : ClientId → Bool)

/-- One message in a session: it is checked, the file is saved, and the acknowledgement is
signed. -/
def deliverStep (s : State) (j : ℕ) (data : Bytes) (saved : Bool) : Option State :=
  match s.receivers[j]? with
  | none => none
  | some r =>
    if r.finished then none
    else
      match validateIncomingMessage V r.nonce r.source (r.accepted.length + 1) data with
      | .error _ => some { s with receivers := s.receivers.set j { r with finished := true } }
      | .ok ((num, info, file), _) =>
        if saved then some { s with
          receivers := s.receivers.set j { r with accepted := r.accepted ++ [(info, file)] }
          stored := if r.purpose = .transport then s.stored ++ [(r.receiver, r.source, info, file)]
            else s.stored
          signed := s.signed ++
            [(r.receiver, AckBody.codec.enc ⟨⟨r.accepted.length, r.nonce⟩, num⟩)] }
        else some { s with receivers := s.receivers.set j { r with finished := true } }

/-- One event.  The server relays a session of an honest client only if that client asked for
it; the attacker asks for any.  A `RestoreAll` session sends what is kept for the peer. -/
def step (s : State) : Action → Option State
  | .addRequest r =>
    if honest r.initiator then some { s with
      nonces := r.nonce :: s.nonces
      requests := r :: s.requests
      -- the request is not remembered while there is one for the peer
      pending := if s.pending.any fun q =>
          q.initiator = r.initiator ∧ q.destination = r.destination then s.pending
        else r :: s.pending }
    else none
  | .acceptAndConnect client destination =>
    match s.pending.find? fun q => q.initiator = client ∧ q.destination = destination with
    | none => none
    | some r => some (State.open { s with
        pending := s.pending.filter fun q =>
          ¬ (q.initiator = client ∧ q.destination = destination)
        signed := s.signed ++ [(client, requestBody r.nonce r.purpose)] } r)
  | .acceptAndListen client source nonce data =>
    if honest client ∧ (honest source →
        ∃ r ∈ s.requests, r.initiator = source ∧ r.destination = client ∧ r.nonce = nonce) then
      let s := { s with nonces := nonce :: s.nonces }
      match receiveRequest V nonce source data with
      | .error _ => some s
      | .ok purpose => some (s.accept client source nonce purpose)
    else none
  | .send i file =>
    match s.senders[i]? with
    | none => none
    | some x =>
      if x.sent.length + 1 < u64Bound ∧ file.2.length < u64Bound ∧
          (x.purpose = .restoreAll → (x.sender, x.recipient, file) ∈ s.stored) then
        some { s with
          senders := s.senders.set i { x with sent := x.sent ++ [file] }
          signed := s.signed ++ [(x.sender, fileBody x.nonce (x.sent.length + 1) file)] }
      else none
  | .deliver j data saved => deliverStep V s j data saved

/-- Nonces are drawn at random, so that a new one has not been used before; and a body that
verifies as an honest client's was signed by it. -/
def Ideal (s : State) : Action → Prop
  | .addRequest r => r.nonce ∉ s.nonces
  | .acceptAndListen _ _ _ data | .deliver _ data _ =>
    ∀ c body, honest c → V.bodyOf c data = some body → (c, body) ∈ s.signed
  | _ => True

/-- A client that accepts a request to restore does so under a nonce that is not that of a
session it asked for in order to send. -/
def NonceNotOwn (s : State) : Action → Prop
  | .acceptAndListen client source nonce data =>
    receiveRequest V nonce source data = .ok .restoreAll →
      ∀ r ∈ s.requests, r.initiator = client → r.purpose = .transport → r.nonce ≠ nonce
  | _ => True

/-- Every file that an honest client accepted in a `Transport` session of an honest peer was
sent by that peer to it, with the same number in the same session. -/
def OriginAuthentic (s : State) : Prop :=
  ∀ r ∈ s.receivers, r.purpose = .transport → honest r.source = true →
    ∀ (n : ℕ) (file : File), r.accepted[n]? = some file →
      ∃ x ∈ s.senders, x.sender = r.source ∧ x.recipient = r.receiver ∧ x.nonce = r.nonce ∧
        x.purpose = .transport ∧ x.sent[n]? = some file

end

/-- No session is open. -/
def initial : State := ⟨[], [], [], [], [], [], []⟩

/-! ## 2. The invariant -/

/-- A file that a client has signed in one of its sessions. -/
def SentIn (s : State) (c : ClientId) (nonce : TransportSessionNonce) (n : ℕ) (file : File) :
    Prop :=
  ∃ x ∈ s.senders, x.sender = c ∧ x.nonce = nonce ∧ x.sent[n]? = some file

/-- What a body signed by an honest client is. -/
inductive SignedBody (s : State) (c : ClientId) : Bytes → Prop
  | request (r : Request) : r ∈ s.requests → r.initiator = c →
      SignedBody s c (requestBody r.nonce r.purpose)
  | ack (k : ℕ) (nonce : TransportSessionNonce) : k + 1 < u64Bound →
      SignedBody s c (AckBody.codec.enc ⟨⟨k, nonce⟩, k + 1⟩)
  | file (nonce : TransportSessionNonce) (n : ℕ) (file : File) : n + 1 < u64Bound →
      file.2.length < u64Bound → SentIn s c nonce n file →
      SignedBody s c (fileBody nonce (n + 1) file)

/-- A `Transport` session of an honest peer is one it asked for, and what it accepted so far was
signed by that peer under the nonce of the session. -/
def ReceiverOk (honest : ClientId → Bool) (s : State) (r : ReceiveSession) : Prop :=
  r.purpose = .transport → honest r.source = true →
    ⟨r.source, r.receiver, r.nonce, .transport⟩ ∈ s.requests ∧
      ∀ (n : ℕ) (file : File), r.accepted[n]? = some file →
        SentIn s r.source r.nonce n file

/-- A `Transport` session of a sender is one it asked for; a `RestoreAll` session is not under
the nonce of a `Transport` session it asked for. -/
def SenderOk (s : State) (x : SendSession) : Prop :=
  match x.purpose with
  | .transport => ⟨x.sender, x.recipient, x.nonce, .transport⟩ ∈ s.requests
  | .restoreAll => x.nonce ∈ s.nonces ∧
      ∀ r ∈ s.requests, r.initiator = x.sender → r.purpose = .transport → r.nonce ≠ x.nonce

structure Inv (honest : ClientId → Bool) (s : State) : Prop where
  signed : ∀ c body, (c, body) ∈ s.signed → SignedBody s c body
  nonces : ∀ r ∈ s.requests, r.nonce ∈ s.nonces
  unique : ∀ r ∈ s.requests, ∀ r' ∈ s.requests, r.nonce = r'.nonce → r = r'
  pending : ∀ r ∈ s.pending, r ∈ s.requests
  senders : ∀ x ∈ s.senders, SenderOk s x
  receivers : ∀ r ∈ s.receivers, ReceiverOk honest s r

section

variable {V : SignatureScheme} {honest : ClientId → Bool} {s s' : State}

/-- The state only grew: requests are kept, and every session of a sender continues with what it
has sent. -/
structure Grown (s s' : State) : Prop where
  requests : ∀ r ∈ s.requests, r ∈ s'.requests
  senders : ∀ x ∈ s.senders, ∃ x' ∈ s'.senders, x'.sender = x.sender ∧ x'.nonce = x.nonce ∧
    x.sent <+: x'.sent

theorem Grown.sentIn (h : Grown s s') {c : ClientId} {nonce : TransportSessionNonce} {n : ℕ}
    {file : File} (hx : SentIn s c nonce n file) : SentIn s' c nonce n file := by
  obtain ⟨x, hmem, rfl, rfl, hn⟩ := hx
  obtain ⟨x', hmem', hsender, hnonce, t, ht⟩ := h.senders x hmem
  refine ⟨x', hmem', hsender, hnonce, ?_⟩
  rw [← ht, List.getElem?_append_left (List.getElem?_eq_some_iff.mp hn).1]
  exact hn

theorem Grown.signedBody (h : Grown s s') {c : ClientId} {body : Bytes}
    (hb : SignedBody s c body) : SignedBody s' c body := by
  cases hb with
  | request r hr hc => exact .request r (h.requests r hr) hc
  | ack k nonce hk => exact .ack k nonce hk
  | file nonce n file hn hlen hx => exact .file nonce n file hn hlen (h.sentIn hx)

theorem Grown.receiverOk (h : Grown s s') {r : ReceiveSession} (hr : ReceiverOk honest s r) :
    ReceiverOk honest s' r := by
  intro hp hh
  obtain ⟨h1, h2⟩ := hr hp hh
  exact ⟨h.requests _ h1, fun n file hn => h.sentIn (h2 n file hn)⟩

/-- Other sessions and the same requests. -/
theorem Grown.of_append {t : List SendSession} (hreq : s'.requests = s.requests)
    (hsend : s'.senders = s.senders ++ t) : Grown s s' where
  requests _ hr := hreq ▸ hr
  senders x hx := ⟨x, hsend ▸ List.mem_append_left _ hx, rfl, rfl, List.prefix_rfl⟩

/-- A request body that an honest client signed for sending belongs to a request of it. -/
theorem transport_request {source : ClientId} {nonce : TransportSessionNonce} {data : Bytes}
    (hs : ∀ c body, (c, body) ∈ s.signed → SignedBody s c body)
    (hun : ∀ body, V.bodyOf source data = some body → (source, body) ∈ s.signed)
    (h : receiveRequest V nonce source data = .ok .transport) :
    ∃ r ∈ s.requests, r.initiator = source ∧ r.nonce = nonce ∧ r.purpose = .transport := by
  obtain ⟨bytes, hbytes, hdec⟩ := receiveRequest_eq_ok h
  cases hs source bytes (hun bytes hbytes) with
  | request r hr hc =>
    rw [requestBody, decode_request (by simp [u64Bound]), Option.some.injEq] at hdec
    simp only [EncapsulateRequestBody.mk.injEq, Header.mk.injEq, true_and] at hdec
    exact ⟨r, hr, hc, hdec.1, hdec.2⟩
  | ack k nonce' hk =>
    -- only the first acknowledgement has the number 0, and it reads as a request to restore
    have hhead := decode_request_header (h := ⟨k, nonce'⟩) (by simp only; omega) hdec
    simp only [Header.mk.injEq] at hhead
    obtain ⟨rfl, rfl⟩ := hhead
    rw [decode_request_ack] at hdec
    simp at hdec
  | file nonce' n file hn hlen hx =>
    have hhead := decode_request_header (h := ⟨n + 1, nonce'⟩) hn hdec
    simp at hhead

/-- A file message of an honest source that is accepted was signed by it, under the nonce of the
session and with the number the session stands at. -/
theorem accepted_file {r : ReceiveSession} {num next : ℕ} {info : FileInfo} {file data : Bytes}
    (hs : ∀ c body, (c, body) ∈ s.signed → SignedBody s c body)
    (hun : ∀ body, V.bodyOf r.source data = some body → (r.source, body) ∈ s.signed)
    (h : validateIncomingMessage V r.nonce r.source (r.accepted.length + 1) data
      = .ok ((num, info, file), next)) :
    SentIn s r.source r.nonce r.accepted.length (info, file) := by
  obtain ⟨-, -, -, bytes, hbytes, hdec⟩ := validateIncomingMessage_eq_ok h
  cases hs r.source bytes (hun bytes hbytes) with
  | request q hq hc =>
    rw [requestBody, decode_file_request (by simp [u64Bound])] at hdec
    cases hdec
  | ack k nonce hk =>
    rw [decode_file_ack (by simp only; omega)] at hdec
    cases hdec
  | file nonce n f hn hlen hx =>
    rw [fileBody, decode_file hn hlen, Option.some.injEq] at hdec
    simp only [EncapsulatedFileBody.mk.injEq, Header.mk.injEq, Nat.add_right_cancel_iff] at hdec
    obtain ⟨⟨rfl, rfl⟩, rfl, rfl⟩ := hdec
    exact hx

/-! ## 3. Each event keeps it -/

theorem Inv.addRequest (h : Inv honest s) {r : Request} (hfresh : r.nonce ∉ s.nonces)
    {pending : List Request} (hp : ∀ q ∈ pending, q = r ∨ q ∈ s.pending) :
    Inv honest { s with
      nonces := r.nonce :: s.nonces, requests := r :: s.requests, pending := pending } := by
  have hg : Grown s { s with
      nonces := r.nonce :: s.nonces, requests := r :: s.requests, pending := pending } :=
    ⟨fun q hq => List.mem_cons_of_mem _ hq, fun x hx => ⟨x, hx, rfl, rfl, List.prefix_rfl⟩⟩
  constructor
  · exact fun c body hmem => hg.signedBody (h.signed c body hmem)
  · intro q hq
    rcases List.mem_cons.mp hq with rfl | hq
    · exact List.mem_cons_self
    · exact List.mem_cons_of_mem _ (h.nonces q hq)
  · intro q hq q' hq' hnonce
    rcases List.mem_cons.mp hq with hr | hold
    · rcases List.mem_cons.mp hq' with hr' | hold'
      · rw [hr, hr']
      · exact absurd (hr ▸ hnonce ▸ h.nonces q' hold') hfresh
    · rcases List.mem_cons.mp hq' with hr' | hold'
      · exact absurd (hr' ▸ hnonce ▸ h.nonces q hold) hfresh
      · exact h.unique q hold q' hold' hnonce
  · intro q hq
    rcases hp q hq with rfl | hq
    · exact List.mem_cons_self
    · exact List.mem_cons_of_mem _ (h.pending q hq)
  · intro x hx
    have hold := h.senders x hx
    unfold SenderOk at hold ⊢
    cases hpurpose : x.purpose with
    | transport =>
      simp only [hpurpose] at hold ⊢
      exact List.mem_cons_of_mem _ hold
    | restoreAll =>
      simp only [hpurpose] at hold ⊢
      refine ⟨List.mem_cons_of_mem _ hold.1, fun q hq hi ht hn => ?_⟩
      rcases List.mem_cons.mp hq with rfl | hq
      · exact hfresh (hn ▸ hold.1)
      · exact hold.2 q hq hi ht hn
  · exact fun q hq => hg.receiverOk (h.receivers q hq)

theorem Inv.open (h : Inv honest s) {r : Request} (hr : r ∈ s.requests) (pending : List Request)
    (hp : ∀ q ∈ pending, q ∈ s.pending) :
    Inv honest (State.open { s with
      pending := pending
      signed := s.signed ++ [(r.initiator, requestBody r.nonce r.purpose)] } r) := by
  obtain ⟨initiator, destination, nonce, purpose⟩ := r
  have hsigned : ∀ s' : State, Grown s s' → (⟨initiator, destination, nonce, purpose⟩ : Request) ∈
      s'.requests → ∀ c body, (c, body) ∈ s.signed ++ [(initiator, requestBody nonce purpose)] →
      SignedBody s' c body := by
    intro s' hg hmem c body hb
    rcases List.mem_append.mp hb with hb | hb
    · exact hg.signedBody (h.signed c body hb)
    · simp only [List.mem_singleton, Prod.mk.injEq] at hb
      obtain ⟨rfl, rfl⟩ := hb
      exact .request _ hmem rfl
  cases purpose with
  | transport =>
    have hg : Grown s (State.open { s with
        pending := pending
        signed := s.signed ++ [(initiator, requestBody nonce .transport)] }
        ⟨initiator, destination, nonce, .transport⟩) := .of_append rfl rfl
    exact { h with
      signed := hsigned _ hg hr
      pending := fun q hq => h.pending q (hp q hq)
      senders := Pool.forall_mem_spawn h.senders hr
      receivers := fun q hq => hg.receiverOk (h.receivers q hq) }
  | restoreAll =>
    have hg : Grown s (State.open { s with
        pending := pending
        signed := s.signed ++ [(initiator, requestBody nonce .restoreAll)] }
        ⟨initiator, destination, nonce, .restoreAll⟩) :=
      .of_append (t := []) rfl (by simp [State.open])
    exact { h with
      signed := hsigned _ hg hr
      pending := fun q hq => h.pending q (hp q hq)
      receivers := Pool.forall_mem_spawn (fun q hq => hg.receiverOk (h.receivers q hq)) nofun }

theorem Inv.addNonce (h : Inv honest s) (nonce : TransportSessionNonce) :
    Inv honest { s with nonces := nonce :: s.nonces } := by
  have hg : Grown s { s with nonces := nonce :: s.nonces } := .of_append (t := []) rfl (by simp)
  refine { h with
    signed := fun c body hb => hg.signedBody (h.signed c body hb)
    nonces := fun r hr => List.mem_cons_of_mem _ (h.nonces r hr)
    senders := fun x hx => ?_
    receivers := fun r hr => hg.receiverOk (h.receivers r hr) }
  have hold := h.senders x hx
  unfold SenderOk at hold ⊢
  cases hpurpose : x.purpose with
  | transport => simpa only [hpurpose] using hold
  | restoreAll =>
    simp only [hpurpose] at hold ⊢
    exact ⟨List.mem_cons_of_mem _ hold.1, hold.2⟩

theorem Inv.accept (h : Inv honest s) {client source : ClientId} {nonce : TransportSessionNonce}
    {purpose : RequestType} (hnonce : nonce ∈ s.nonces)
    (htransport : purpose = .transport → honest source = true →
      ⟨source, client, nonce, .transport⟩ ∈ s.requests)
    (hrestore : purpose = .restoreAll →
      ∀ r ∈ s.requests, r.initiator = client → r.purpose = .transport → r.nonce ≠ nonce) :
    Inv honest (s.accept client source nonce purpose) := by
  cases purpose with
  | transport =>
    have hg : Grown s (s.accept client source nonce .transport) :=
      .of_append (t := []) rfl (by simp [State.accept])
    exact { h with
      signed := fun c body hb => hg.signedBody (h.signed c body hb)
      receivers := Pool.forall_mem_spawn (fun r hr => hg.receiverOk (h.receivers r hr))
        fun _ hh => ⟨htransport rfl hh, by simp⟩ }
  | restoreAll =>
    have hg : Grown s (s.accept client source nonce .restoreAll) := .of_append rfl rfl
    exact { h with
      signed := fun c body hb => hg.signedBody (h.signed c body hb)
      senders := Pool.forall_mem_spawn h.senders ⟨hnonce, hrestore rfl⟩
      receivers := fun r hr => hg.receiverOk (h.receivers r hr) }

theorem Inv.send (h : Inv honest s) {i : ℕ} {x : SendSession} {file : File}
    (hi : s.senders[i]? = some x) (hlt : x.sent.length + 1 < u64Bound)
    (hlen : file.2.length < u64Bound) :
    Inv honest { s with
      senders := s.senders.set i { x with sent := x.sent ++ [file] }
      signed := s.signed ++ [(x.sender, fileBody x.nonce (x.sent.length + 1) file)] } := by
  have hmem : x ∈ s.senders := List.mem_of_getElem? hi
  have hnew : ({ x with sent := x.sent ++ [file] } : SendSession) ∈
      s.senders.set i { x with sent := x.sent ++ [file] } :=
    (Pool.mem_set_iff_of_getElem? hi).mpr (Or.inl rfl)
  have hg : Grown s { s with
      senders := s.senders.set i { x with sent := x.sent ++ [file] }
      signed := s.signed ++ [(x.sender, fileBody x.nonce (x.sent.length + 1) file)] } := by
    refine ⟨fun r hr => hr, fun y hy => ?_⟩
    obtain ⟨j, hj⟩ := List.mem_iff_getElem?.mp hy
    by_cases hji : j = i
    · rw [hji, hi, Option.some.injEq] at hj
      subst hj
      exact ⟨_, hnew, rfl, rfl, List.prefix_append _ _⟩
    · exact ⟨y, (Pool.mem_set_iff_of_getElem? hi).mpr (Or.inr ⟨j, hji, hj⟩), rfl, rfl,
        List.prefix_rfl⟩
  refine { h with
    signed := fun c body hb => ?_
    senders := Pool.forall_mem_set h.senders (h.senders x hmem)
    receivers := fun r hr => hg.receiverOk (h.receivers r hr) }
  · rcases List.mem_append.mp hb with hb | hb
    · exact hg.signedBody (h.signed c body hb)
    · simp only [List.mem_singleton, Prod.mk.injEq] at hb
      obtain ⟨rfl, rfl⟩ := hb
      exact .file _ _ _ hlt hlen ⟨_, hnew, rfl, rfl, by simp⟩

/-- One message in a session, whatever becomes of it. -/
theorem Inv.deliver (h : Inv honest s) {j : ℕ} {data : Bytes} {saved : Bool}
    (hun : ∀ c body, honest c = true → V.bodyOf c data = some body → (c, body) ∈ s.signed)
    (hst : deliverStep V s j data saved = some s') : Inv honest s' := by
  unfold deliverStep at hst
  split at hst
  · cases hst
  · rename_i r hr
    have hmem : r ∈ s.receivers := List.mem_of_getElem? hr
    have hfinish :
        Inv honest { s with receivers := s.receivers.set j { r with finished := true } } := by
      have hg : Grown s { s with receivers := s.receivers.set j { r with finished := true } } :=
        .of_append (t := []) rfl (by simp)
      exact { h with
        signed := fun c body hb => hg.signedBody (h.signed c body hb)
        receivers := Pool.forall_mem_set (fun q hq => hg.receiverOk (h.receivers q hq))
          (hg.receiverOk (h.receivers r hmem)) }
    split at hst
    · cases hst
    · split at hst
      · cases hst
        exact hfinish
      · rename_i num info file next hval
        split at hst
        · cases hst
          obtain ⟨rfl, hnext, hlt, -⟩ := validateIncomingMessage_eq_ok hval
          refine { h with signed := fun c body hb => ?_, receivers := ?_ }
          · rcases List.mem_append.mp hb with hb | hb
            · apply Grown.signedBody (s := s)
              · exact ⟨fun q hq => hq, fun x hx => ⟨x, hx, rfl, rfl, List.prefix_rfl⟩⟩
              · exact h.signed c body hb
            · simp only [List.mem_singleton, Prod.mk.injEq] at hb
              obtain ⟨rfl, rfl⟩ := hb
              exact .ack _ _ (by omega)
          · refine Pool.forall_mem_set h.receivers ?_
            intro hp hh
            obtain ⟨hreq, hacc⟩ := h.receivers r hmem hp hh
            refine ⟨hreq, fun n f hn => ?_⟩
            rw [List.getElem?_append] at hn
            split at hn
            · exact hacc n f hn
            · rename_i hge
              obtain ⟨hlen, rfl⟩ : n - r.accepted.length = 0 ∧ f = (info, file) := by
                rw [List.getElem?_singleton] at hn
                split at hn
                · exact ⟨by omega, (Option.some.inj hn).symm⟩
                · cases hn
              obtain rfl : n = r.accepted.length := by omega
              exact accepted_file h.signed (fun body => hun r.source body hh) hval
        · cases hst
          exact hfinish

/-- Every event keeps the invariant. -/
theorem Inv.step (h : Inv honest s) {a : Action} (hideal : Ideal V honest s a)
    (hown : NonceNotOwn V s a) (hst : Origin.step V honest s a = some s') : Inv honest s' := by
  cases a with
  | addRequest r =>
    simp only [Origin.step] at hst
    split at hst
    · cases hst
      refine h.addRequest hideal fun q hq => ?_
      split at hq
      · exact Or.inr hq
      · exact List.mem_cons.mp hq
    · cases hst
  | acceptAndConnect client destination =>
    simp only [Origin.step] at hst
    split at hst
    · cases hst
    · rename_i r hfind
      cases hst
      have hr := h.pending r (List.mem_of_find?_eq_some hfind)
      have hc := List.find?_some hfind
      simp only [decide_eq_true_eq] at hc
      have hopen := h.open hr
        (s.pending.filter fun q => ¬ (q.initiator = client ∧ q.destination = destination))
        fun q hq => (List.mem_filter.mp hq).1
      rwa [hc.1] at hopen
  | acceptAndListen client source nonce data =>
    simp only [Origin.step] at hst
    split at hst
    · rename_i hcond
      split at hst
      · cases hst
        exact h.addNonce nonce
      · rename_i purpose hreq
        cases hst
        refine (h.addNonce nonce).accept List.mem_cons_self ?_ ?_
        · rintro rfl hh
          obtain ⟨r, hr, hi, hd, hn⟩ := hcond.2 hh
          obtain ⟨q, hq, hqi, hqn, hqp⟩ := transport_request h.signed
            (fun body => hideal source body hh) hreq
          -- one request has this nonce: it names the client, and is for sending
          obtain rfl := h.unique r hr q hq (hn.trans hqn.symm)
          obtain ⟨ri, rd, rn, rp⟩ := r
          simp only at hi hd hn hqp
          subst hi hd hn hqp
          exact hr
        · rintro rfl
          exact hown hreq
    · cases hst
  | send i file =>
    simp only [Origin.step] at hst
    split at hst
    · cases hst
    · rename_i x hx
      split at hst
      · rename_i hcond
        cases hst
        exact h.send hx hcond.1 hcond.2.1
      · cases hst
  | deliver j data saved => exact h.deliver hideal hst

end

/-! ## 4. Origin of accepted files -/

theorem inv_initial (honest : ClientId → Bool) : Inv honest initial where
  signed := by simp [initial]
  nonces := by simp [initial]
  unique := by simp [initial]
  pending := by simp [initial]
  senders := by simp [initial]
  receivers := by simp [initial]

/-- A session that has signed under the nonce of an accepted session is the one that was asked
for. -/
theorem Inv.originAuthentic {honest : ClientId → Bool} {s : State} (h : Inv honest s) :
    OriginAuthentic honest s := by
  intro r hr hp hh n file hn
  obtain ⟨hreq, hacc⟩ := h.receivers r hr hp hh
  obtain ⟨x, hx, hsender, hnonce, hsent⟩ := hacc n file hn
  have hok := h.senders x hx
  unfold SenderOk at hok
  cases hpurpose : x.purpose with
  | transport =>
    simp only [hpurpose] at hok
    have heq := h.unique _ hok _ hreq hnonce
    simp only [Request.mk.injEq] at heq
    exact ⟨x, hx, hsender, heq.2.1, hnonce, hpurpose, hsent⟩
  | restoreAll =>
    simp only [hpurpose] at hok
    exact absurd hnonce.symm (hok.2 _ hreq hsender.symm rfl)

/-- Origin authentication.  In every run in which no client accepts a request to restore under
the nonce of a session it asked for in order to send, every file accepted in a `Transport`
session of an honest peer was sent by that peer in that session, with that number. -/
theorem origin_authentic (V : SignatureScheme) (honest : ClientId → Bool) (s : State)
    (h : Reach (step V honest) (fun s a => Ideal V honest s a ∧ NonceNotOwn V s a) initial s) :
    OriginAuthentic honest s :=
  (h.invariant (I := Inv honest) (inv_initial honest) fun _ _ _ hs hok hst =>
    hs.step hok.1 hok.2 hst).originAuthentic

/-- The clients of a list are the honest ones. -/
def among (honest : List ClientId) (c : ClientId) : Bool := decide (c ∈ honest)

/-- `Ideal`, evaluated. -/
def ideal (honest : List ClientId) (s : State) : Action → Bool
  | .addRequest r => decide (r.nonce ∉ s.nonces)
  | .acceptAndListen _ _ _ data | .deliver _ data _ =>
    honest.all fun c => (nameScheme.bodyOf c data).all fun body => decide ((c, body) ∈ s.signed)
  | _ => true

/-- `NonceNotOwn`, evaluated. -/
def nonceNotOwn (s : State) : Action → Bool
  | .acceptAndListen client source nonce data =>
    decide (receiveRequest nameScheme nonce source data = .ok .restoreAll →
      ∀ r ∈ s.requests, r.initiator = client → r.purpose = .transport → r.nonce ≠ nonce)
  | _ => true

theorem ideal_ok (honest : List ClientId) (s : State) (a : Action) (h : ideal honest s a = true) :
    Ideal nameScheme (among honest) s a := by
  have hdata : ∀ data, (honest.all fun c =>
      (nameScheme.bodyOf c data).all fun body => decide ((c, body) ∈ s.signed)) = true →
      ∀ c body, among honest c = true → nameScheme.bodyOf c data = some body →
        (c, body) ∈ s.signed := by
    intro data hall c body hc hbody
    have hx := List.all_eq_true.mp hall c (by simpa [among] using hc)
    simpa [hbody] using hx
  cases a with
  | addRequest r =>
    have hfresh : r.nonce ∉ s.nonces := of_decide_eq_true h
    exact hfresh
  | acceptAndListen client source nonce data => exact hdata data h
  | deliver j data saved => exact hdata data h
  | _ => trivial

theorem nonceNotOwn_ok (s : State) (a : Action) (h : nonceNotOwn s a = true) :
    NonceNotOwn nameScheme s a := by
  cases a with
  | acceptAndListen client source nonce data =>
    simp only [nonceNotOwn, decide_eq_true_eq] at h
    exact h
  | _ => trivial

/-- Two honest clients and an attacker. -/
def alice : ClientId := .fill 1

def bob : ClientId := .fill 2

def eve : ClientId := .fill 3

def oneFile : File := (.index 5, [6])

def aliceToBob : List Action :=
  [.addRequest ⟨alice, bob, .fill 7, .transport⟩, .acceptAndConnect alice bob,
   .acceptAndListen bob alice (.fill 7)
     (nameScheme.seal alice (requestBody (.fill 7) .transport)),
   .send 0 oneFile,
   .deliver 0 (nameScheme.seal alice (fileBody (.fill 7) 1 oneFile)) true]

theorem aliceToBob_authentic :
    ∃ s, runWhen (step nameScheme (among [alice, bob]))
        (fun s a => ideal [alice, bob] s a && nonceNotOwn s a) initial aliceToBob = some s ∧
      s.receivers = [⟨bob, alice, .fill 7, .transport, [oneFile], false⟩] ∧
      OriginAuthentic (among [alice, bob]) s := by
  obtain ⟨s, hs, hrecv⟩ : ∃ s, runWhen (step nameScheme (among [alice, bob]))
      (fun s a => ideal [alice, bob] s a && nonceNotOwn s a) initial aliceToBob = some s ∧
      s.receivers = [⟨bob, alice, .fill 7, .transport, [oneFile], false⟩] := by decide +kernel
  refine ⟨s, hs, hrecv, origin_authentic nameScheme _ s (reach_of_runWhen ?_ hs)⟩
  intro s a h
  simp only [Bool.and_eq_true] at h
  exact ⟨ideal_ok _ s a h.1, nonceNotOwn_ok s a h.2⟩

/-- Eve keeps a file at Alice, and asks to restore it under the nonce of Alice's session with
Bob. -/
def restoreUnderAlicesNonce : List Action :=
  [.acceptAndListen alice eve (.fill 9) (nameScheme.seal eve (requestBody (.fill 9) .transport)),
   .deliver 0 (nameScheme.seal eve (fileBody (.fill 9) 1 oneFile)) true,
   .addRequest ⟨alice, bob, .fill 7, .transport⟩, .acceptAndConnect alice bob,
   .acceptAndListen bob alice (.fill 7)
     (nameScheme.seal alice (requestBody (.fill 7) .transport)),
   .acceptAndListen alice eve (.fill 7)
     (nameScheme.seal eve (requestBody (.fill 7) .restoreAll)),
   .send 1 oneFile,
   .deliver 1 (nameScheme.seal alice (fileBody (.fill 7) 1 oneFile)) true]

/-- Bob has accepted a file in his session with Alice, in which Alice has sent nothing. -/
theorem origin_confused :
    ¬ ∀ (V : SignatureScheme) (honest : ClientId → Bool) (s : State),
      Reach (step V honest) (Ideal V honest) initial s → OriginAuthentic honest s := by
  intro h
  obtain ⟨s, hs, hsend, hrecv⟩ : ∃ s, runWhen (step nameScheme (among [alice, bob]))
      (ideal [alice, bob]) initial restoreUnderAlicesNonce = some s ∧
      s.senders = [⟨alice, bob, .fill 7, .transport, []⟩,
        ⟨alice, eve, .fill 7, .restoreAll, [oneFile]⟩] ∧
      s.receivers[1]? = some ⟨bob, alice, .fill 7, .transport, [oneFile], false⟩ := by
    decide +kernel
  have horigin := h nameScheme (among [alice, bob]) s (reach_of_runWhen (ideal_ok _) hs)
  obtain ⟨x, hx, -, hto, -, -, hsent⟩ :=
    horigin _ (List.mem_of_getElem? hrecv) rfl (by decide) 0 oneFile rfl
  rw [hsend] at hx
  simp only [List.mem_cons, List.not_mem_nil, or_false] at hx
  rcases hx with rfl | rfl
  · simp at hsent
  · exact absurd hto (by decide)

end Backuwup.Client.Origin
