/-
# Signed messages (`net_p2p/receive.rs`, `transport.rs`, `handle_connections.rs`)

What a party does with one message: it parses the envelope, verifies the signature on the body,
parses the body as the type it waits for, and compares the header with the nonce of the session
and a counter.  The signature scheme comes from `ed25519_dalek` and is a parameter.
-/
import Backuwup.Shared.P2pMessage

namespace Backuwup.Client

/-! ## 1. Signatures -/

/-- Signing with the key pair of a client, and `verify_strict` with the parsing of the public
key and of the signature. -/
structure SignatureScheme where
  sign : ClientId → Bytes → Bytes
  verify : ClientId → Bytes → Bytes → Bool

def SignatureScheme.Correct (V : SignatureScheme) : Prop :=
  ∀ client body, V.verify client body (V.sign client body) = true

/-- Signed bodies are compared with their signers. -/
instance SignatureScheme.lawfulBEq : LawfulBEq (ClientId × Bytes) := inferInstance

/-- A stand-in for the signature scheme: the signature names the client. -/
def nameScheme : SignatureScheme where
  sign client _ := client.bytes
  verify client _ signature := decide (signature = client.bytes)

theorem nameScheme_correct : nameScheme.Correct := fun _ _ => decide_eq_true rfl

/-- A message as a client sends it. -/
def SignatureScheme.seal (V : SignatureScheme) (client : ClientId) (body : Bytes) : Bytes :=
  EncapsulatedMsg.codec.enc ⟨body, V.sign client body⟩

/-- The body of a message, if the client signed it. -/
def SignatureScheme.bodyOf (V : SignatureScheme) (client : ClientId) (data : Bytes) :
    Option Bytes :=
  match EncapsulatedMsg.codec.decodePrefix data with
  | none => none
  | some m => if V.verify client m.body m.signature then some m.body else none

/-- How a check fails: with an error, or with a panic of its task. -/
inductive Failure
  | error
  | panic
deriving DecidableEq

/-- `+= 1` on a `u64`, with overflow checks. -/
def incrementU64 (n : ℕ) : Except Failure ℕ :=
  if n + 1 < u64Bound then .ok (n + 1) else .error .panic

theorem incrementU64_eq_ok {n m : ℕ} : incrementU64 n = .ok m ↔ m = n + 1 ∧ m < u64Bound := by
  unfold incrementU64
  constructor
  · intro h
    split at h
    · rename_i hlt
      cases h
      exact ⟨rfl, hlt⟩
    · cases h
  · rintro ⟨rfl, h⟩
    rw [if_pos h]

/-! ## 2. Checks of a message -/

/-- `receive_request`, on the message received. -/
def receiveRequest (V : SignatureScheme) (nonce : TransportSessionNonce) (client : ClientId)
    (data : Bytes) : Except Failure RequestType :=
  match V.bodyOf client data with
  | none => .error .error
  | some bytes =>
    match EncapsulateRequestBody.codec.decodePrefix bytes with
    | none => .error .error
    | some body =>
      if body.header.sessionNonce ≠ nonce ∨ body.header.sequenceNumber ≠ 0 then .error .error
      else .ok body.request

/-- `validate_incoming_message`: the number of the message, the file, and the next value of the
counter. -/
def validateIncomingMessage (V : SignatureScheme) (sessionNonce : TransportSessionNonce)
    (source : ClientId) (msgCounter : ℕ) (data : Bytes) :
    Except Failure ((ℕ × FileInfo × Bytes) × ℕ) :=
  match V.bodyOf source data with
  | none => .error .error
  | some bytes =>
    match EncapsulatedFileBody.codec.decodePrefix bytes with
    | none => .error .error
    | some body =>
      if body.header.sessionNonce ≠ sessionNonce ∨ body.header.sequenceNumber ≠ msgCounter then
        .error .error
      else
        match incrementU64 msgCounter with
        | .error e => .error e
        | .ok next => .ok ((body.header.sequenceNumber, body.fileInfo, body.data), next)

/-- The body `ack_msg` signs, and the next value of the counter. -/
def ackMsg (nonce : TransportSessionNonce) (seq acknowledged : ℕ) : Except Failure (Bytes × ℕ) :=
  match incrementU64 seq with
  | .error e => .error e
  | .ok next => .ok (AckBody.codec.enc ⟨⟨seq, nonce⟩, acknowledged⟩, next)

/-- `parse_incoming_ack`: the number acknowledged, and the next value of the counter.  The body
is unwrapped after the signature was verified, so a signed body of another type panics. -/
def parseIncomingAck (V : SignatureScheme) (data : Bytes) (nonce : TransportSessionNonce)
    (sender : ClientId) (messagesReceived : ℕ) : Except Failure (ℕ × ℕ) :=
  match V.bodyOf sender data with
  | none => .error .error
  | some bytes =>
    match AckBody.codec.decodePrefix bytes with
    | none => .error .panic
    | some body =>
      if body.header.sessionNonce ≠ nonce ∨ body.header.sequenceNumber ≠ messagesReceived then
        .error .error
      else
        match incrementU64 messagesReceived with
        | .error e => .error e
        | .ok next => .ok (body.acknowledgedSequenceNumber, next)

/-! ## 3. What an accepted message is -/

section

variable {V : SignatureScheme} {nonce : TransportSessionNonce} {client : ClientId} {data : Bytes}

theorem bodyOf_seal (hV : V.Correct) {body : Bytes} (hlen : body.length < u64Bound)
    (hsig : (V.sign client body).length < u64Bound) :
    V.bodyOf client (V.seal client body) = some body := by
  have hdec := Codec.decodePrefix_enc EncapsulatedMsg.codec
    (a := ⟨body, V.sign client body⟩) (by
      simpa [EncapsulatedMsg.codec, Codec.iso, Codec.prod, Codec.bytes, Codec.nat, u64Bound]
        using And.intro hlen hsig)
  rw [SignatureScheme.bodyOf, SignatureScheme.seal, hdec]
  exact if_pos (hV client body)

theorem receiveRequest_eq_ok {t : RequestType} (h : receiveRequest V nonce client data = .ok t) :
    ∃ bytes, V.bodyOf client data = some bytes ∧
      EncapsulateRequestBody.codec.decodePrefix bytes = some ⟨⟨0, nonce⟩, t⟩ := by
  unfold receiveRequest at h
  split at h
  · cases h
  · rename_i bytes hbytes
    split at h
    · cases h
    · rename_i body hbody
      split at h
      · cases h
      · rename_i hhead
        push Not at hhead
        obtain ⟨⟨seq, n⟩, t'⟩ := body
        obtain ⟨rfl, rfl⟩ := hhead
        cases h
        exact ⟨bytes, hbytes, hbody⟩

/-- An accepted data message is a file body signed by the source, with the nonce of the session
and the number the counter stands at. -/
theorem validateIncomingMessage_eq_ok {counter next num : ℕ} {info : FileInfo} {file : Bytes}
    (h : validateIncomingMessage V nonce client counter data = .ok ((num, info, file), next)) :
    num = counter ∧ next = counter + 1 ∧ next < u64Bound ∧
      ∃ bytes, V.bodyOf client data = some bytes ∧
        EncapsulatedFileBody.codec.decodePrefix bytes = some ⟨⟨counter, nonce⟩, info, file⟩ := by
  unfold validateIncomingMessage at h
  split at h
  · cases h
  · rename_i bytes hbytes
    split at h
    · cases h
    · rename_i body hbody
      split at h
      · cases h
      · rename_i hhead
        push Not at hhead
        split at h
        · cases h
        · rename_i next' hnext
          obtain ⟨⟨seq, n⟩, i, f⟩ := body
          obtain ⟨rfl, rfl⟩ := hhead
          obtain ⟨hn, hb⟩ := incrementU64_eq_ok.mp hnext
          cases h
          exact ⟨rfl, hn, hb, bytes, hbytes, hbody⟩

/-- An accepted acknowledgement is an acknowledgement body signed by the receiver, with the
nonce of the session and the number the counter stands at. -/
theorem parseIncomingAck_eq_ok {counter next num : ℕ}
    (h : parseIncomingAck V data nonce client counter = .ok (num, next)) :
    next = counter + 1 ∧ ∃ bytes, V.bodyOf client data = some bytes ∧
      AckBody.codec.decodePrefix bytes = some ⟨⟨counter, nonce⟩, num⟩ := by
  unfold parseIncomingAck at h
  split at h
  · cases h
  · rename_i bytes hbytes
    split at h
    · cases h
    · rename_i body hbody
      split at h
      · cases h
      · rename_i hhead
        push Not at hhead
        split at h
        · cases h
        · rename_i next' hnext
          obtain ⟨⟨seq, n⟩, a⟩ := body
          obtain ⟨rfl, rfl⟩ := hhead
          cases h
          exact ⟨(incrementU64_eq_ok.mp hnext).1, bytes, hbytes, hbody⟩

theorem ackMsg_eq_ok {seq num next : ℕ} {body : Bytes}
    (h : ackMsg nonce seq num = .ok (body, next)) :
    next = seq + 1 ∧ next < u64Bound ∧ body = AckBody.codec.enc ⟨⟨seq, nonce⟩, num⟩ := by
  unfold ackMsg at h
  split at h
  · cases h
  · rename_i next' hnext
    obtain ⟨hn, hb⟩ := incrementU64_eq_ok.mp hnext
    cases h
    exact ⟨hn, hb, rfl⟩

end

end Backuwup.Client
