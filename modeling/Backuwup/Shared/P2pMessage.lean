/-
# Messages between peers (`shared/src/p2p_message.rs`)

`bincode::serialize` writes the messages: integers at full width, an enum as a four-byte tag
and its content, a byte vector preceded by its eight-byte length.  `bincode::deserialize`
ignores what follows the value.  A message is a signed byte string, the body; nothing in a body
says which of the three types it is of, so what a body of one type decodes to as another type
is part of the protocol (`decode_ack_request` and the lemmas after it).
-/
import Backuwup.Shared.Types
import Mathlib.Tactic.NormNum

namespace Backuwup

/-! ## 1. The messages -/

abbrev TransportSessionNonce := FixedBytes 16

/-- The largest message between peers: 8 MiB. -/
def maxEncapsulatedBackupChunkSize : ℕ := 8388608

/-- `u64::MAX + 1`. -/
def u64Bound : ℕ := 18446744073709551616

/-- A message with the signature of its body. -/
structure EncapsulatedMsg where
  body : Bytes
  signature : Bytes
deriving DecidableEq

/-- The replay protection header. -/
structure Header where
  sequenceNumber : ℕ
  sessionNonce : TransportSessionNonce
deriving DecidableEq

/-- The purpose of a session. -/
inductive RequestType
  | transport
  | restoreAll
deriving DecidableEq

/-- The body of the initialization message. -/
structure EncapsulateRequestBody where
  header : Header
  request : RequestType
deriving DecidableEq

/-- Literals of index file numbers. -/
instance FileInfo.neZero : NeZero 4294967296 := ⟨by decide⟩

/-- The kind of a file, and its name: a `u32` for an index file. -/
inductive FileInfo
  | packfile (id : PackfileId)
  | index (id : Fin 4294967296)
deriving DecidableEq

/-- The body of a file transport message. -/
structure EncapsulatedFileBody where
  header : Header
  fileInfo : FileInfo
  data : Bytes
deriving DecidableEq

structure AckBody where
  header : Header
  acknowledgedSequenceNumber : ℕ
deriving DecidableEq

/-! ## 2. Their encodings -/

def EncapsulatedMsg.codec : Codec EncapsulatedMsg :=
  ((Codec.bytes (.nat 8)).prod (.bytes (.nat 8))).iso (fun m => (m.body, m.signature))
    (fun p => ⟨p.1, p.2⟩) fun _ => rfl

def Header.codec : Codec Header :=
  ((Codec.nat 8).prod (FixedBytes.codec 16)).iso (fun h => (h.sequenceNumber, h.sessionNonce))
    (fun p => ⟨p.1, p.2⟩) fun _ => rfl

def RequestType.tag : RequestType → ℕ
  | .transport => 0
  | .restoreAll => 1

def RequestType.ofTag : ℕ → Option RequestType
  | 0 => some .transport
  | 1 => some .restoreAll
  | _ => none

def RequestType.codec : Codec RequestType :=
  (Codec.nat 4).partialIso RequestType.tag RequestType.ofTag fun t => by cases t <;> rfl

def EncapsulateRequestBody.codec : Codec EncapsulateRequestBody :=
  (Header.codec.prod RequestType.codec).iso (fun b => (b.header, b.request))
    (fun p => ⟨p.1, p.2⟩) fun _ => rfl

/-- A `u32`. -/
def u32Codec : Codec (Fin 4294967296) :=
  (Codec.nat 4).partialIso Fin.val (fun n => if h : n < 4294967296 then some ⟨n, h⟩ else none)
    fun i => by simp

def FileInfo.codec : Codec FileInfo :=
  (Codec.sum (.nat 4) (FixedBytes.codec 12) u32Codec (by simp [Codec.nat])
      (by simp [Codec.nat])).iso
    (fun
      | .packfile id => .inl id
      | .index id => .inr id)
    (fun
      | .inl id => .packfile id
      | .inr id => .index id)
    fun i => by cases i <;> rfl

def EncapsulatedFileBody.codec : Codec EncapsulatedFileBody :=
  (Header.codec.prod (FileInfo.codec.prod (.bytes (.nat 8)))).iso
    (fun b => (b.header, b.fileInfo, b.data)) (fun p => ⟨p.1, p.2.1, p.2.2⟩) fun _ => rfl

def AckBody.codec : Codec AckBody :=
  (Header.codec.prod (.nat 8)).iso (fun b => (b.header, b.acknowledgedSequenceNumber))
    (fun p => ⟨p.1, p.2⟩) fun _ => rfl

/-! ## 3. What a body decodes to -/

theorem Header.codec_ok {h : Header} (hseq : h.sequenceNumber < u64Bound) : Header.codec.ok h :=
  ⟨by simpa [Codec.nat, u64Bound] using hseq, trivial⟩

theorem FileInfo.codec_ok (i : FileInfo) : FileInfo.codec.ok i := by
  cases i with
  | packfile id => exact trivial
  | index id => simp [FileInfo.codec, Codec.iso, Codec.sum, u32Codec, Codec.partialIso, Codec.nat]

theorem RequestType.codec_ok (t : RequestType) : RequestType.codec.ok t := by
  cases t <;> simp [RequestType.codec, Codec.partialIso, Codec.nat, RequestType.tag]

/-- A file body is read back from its bytes. -/
theorem decode_file {b : EncapsulatedFileBody} (hseq : b.header.sequenceNumber < u64Bound)
    (hlen : b.data.length < u64Bound) :
    EncapsulatedFileBody.codec.decodePrefix (EncapsulatedFileBody.codec.enc b) = some b :=
  Codec.decodePrefix_enc _
    ⟨Header.codec_ok hseq, FileInfo.codec_ok _, by simpa [Codec.bytes, Codec.nat, u64Bound]⟩

/-- An acknowledgement is read back from its bytes. -/
theorem decode_ack {b : AckBody} (hseq : b.header.sequenceNumber < u64Bound)
    (hack : b.acknowledgedSequenceNumber < u64Bound) :
    AckBody.codec.decodePrefix (AckBody.codec.enc b) = some b :=
  Codec.decodePrefix_enc _ ⟨Header.codec_ok hseq, by simpa [Codec.nat, u64Bound]⟩

/-- A request is read back from its bytes. -/
theorem decode_request {b : EncapsulateRequestBody} (hseq : b.header.sequenceNumber < u64Bound) :
    EncapsulateRequestBody.codec.decodePrefix (EncapsulateRequestBody.codec.enc b) = some b :=
  Codec.decodePrefix_enc _ ⟨Header.codec_ok hseq, RequestType.codec_ok _⟩

/-- The type of a request does not begin a file. -/
theorem FileInfo.dec_request (t : RequestType) :
    FileInfo.codec.dec (RequestType.codec.enc t) = none := by
  cases t <;> decide

/-- Eight bytes do not hold the name of a packfile, nor the name of an index file and the length
of its content. -/
theorem FileInfo.dec_eight {bs : Bytes} (h : bs.length = 8) :
    (FileInfo.codec.prod (.bytes (.nat 8))).dec bs = none := by
  have hdrop : (bs.drop 4).length = 4 := by simp [h]
  have htag : (Codec.nat 4).dec bs = some (leNat (bs.take 4), bs.drop 4) := by
    simp [Codec.nat, Codec.takeBytes, h]
  simp only [Codec.prod, FileInfo.codec, Codec.iso, Codec.sum, htag, Option.bind_some]
  split
  · simp [FixedBytes.codec, hdrop]
  · split
    · simp only [u32Codec, Codec.partialIso, Codec.nat, Codec.takeBytes, hdrop, le_refl, if_true,
        Option.map_some, Option.bind_some]
      split
      · simp [Codec.bytes, Codec.takeBytes, h]
      · simp
    · simp

/-- What follows a header decides whether a body decodes. -/
theorem decode_header_append {α : Type} (c : Codec α) {h : Header} {rest : Bytes}
    (hseq : h.sequenceNumber < u64Bound) :
    (Header.codec.prod c).dec (Header.codec.enc h ++ rest)
      = (c.dec rest).map fun q => ((h, q.1), q.2) := by
  rw [Codec.prod_dec, Header.codec.dec_enc h rest (Header.codec_ok hseq), Option.bind_some]

/-- The body of a request is four bytes short of an acknowledgement. -/
theorem decode_ack_request {b : EncapsulateRequestBody}
    (hseq : b.header.sequenceNumber < u64Bound) :
    AckBody.codec.decodePrefix (EncapsulateRequestBody.codec.enc b) = none := by
  have henc : EncapsulateRequestBody.codec.enc b
      = Header.codec.enc b.header ++ leBytes 4 b.request.tag := rfl
  rw [Codec.decodePrefix, AckBody.codec, Codec.iso_dec, henc, decode_header_append _ hseq]
  simp [Codec.nat, Codec.takeBytes]

/-- The body of a request is too short for a file. -/
theorem decode_file_request {b : EncapsulateRequestBody}
    (hseq : b.header.sequenceNumber < u64Bound) :
    EncapsulatedFileBody.codec.decodePrefix (EncapsulateRequestBody.codec.enc b) = none := by
  have henc : EncapsulateRequestBody.codec.enc b
      = Header.codec.enc b.header ++ RequestType.codec.enc b.request := rfl
  rw [Codec.decodePrefix, EncapsulatedFileBody.codec, Codec.iso_dec, henc,
    decode_header_append _ hseq, Codec.prod_dec, FileInfo.dec_request]
  rfl

/-- An acknowledgement is too short for a file. -/
theorem decode_file_ack {b : AckBody} (hseq : b.header.sequenceNumber < u64Bound) :
    EncapsulatedFileBody.codec.decodePrefix (AckBody.codec.enc b) = none := by
  have henc : AckBody.codec.enc b
      = Header.codec.enc b.header ++ leBytes 8 b.acknowledgedSequenceNumber := rfl
  rw [Codec.decodePrefix, EncapsulatedFileBody.codec, Codec.iso_dec, henc,
    decode_header_append _ hseq, FileInfo.dec_eight (leBytes_length 8 _)]
  rfl

/-- The first acknowledgement of a session reads as a request to restore. -/
theorem decode_request_ack {nonce : TransportSessionNonce} :
    EncapsulateRequestBody.codec.decodePrefix (AckBody.codec.enc ⟨⟨0, nonce⟩, 1⟩)
      = some ⟨⟨0, nonce⟩, .restoreAll⟩ := by
  have henc : AckBody.codec.enc ⟨⟨0, nonce⟩, 1⟩
      = Header.codec.enc ⟨0, nonce⟩ ++ leBytes 8 1 := rfl
  have htag : RequestType.codec.dec (leBytes 8 1) = some (.restoreAll, leBytes 4 0) := by decide
  rw [Codec.decodePrefix, EncapsulateRequestBody.codec, Codec.iso_dec, henc,
    decode_header_append _ (by simp [u64Bound]), htag]
  rfl

/-- What begins with a header decodes, if at all, to a request with that header. -/
theorem decode_request_header {h : Header} {rest : Bytes} {b : EncapsulateRequestBody}
    (hseq : h.sequenceNumber < u64Bound)
    (hdec : EncapsulateRequestBody.codec.decodePrefix (Header.codec.enc h ++ rest) = some b) :
    b.header = h := by
  rw [Codec.decodePrefix, EncapsulateRequestBody.codec, Codec.iso_dec,
    decode_header_append _ hseq] at hdec
  simp only [Option.map_map, Option.map_eq_some_iff, Function.comp] at hdec
  obtain ⟨q, -, rfl⟩ := hdec
  rfl

end Backuwup
