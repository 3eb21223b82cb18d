/-
# The packfile format (`client/src/backup/filesystem/packfile/`)

A packfile is the length of its header, the encrypted header, and then for each blob its nonce
and its encrypted data.  A header entry gives the offset of its blob from the start of the data
section, nonce included, and the length of the encrypted data without the nonce.

`PackfileDraft` is the packfile under construction in `write_packfiles`, `serializePackfile`
closes it, and `readBlob` is the part of `get_blob` that reads one blob out of the file.  The
result is that every blob added to a draft is read back from the serialized file
(`readBlob_serialize`); it rests on `Laid`, the relation between header and data that adding a
blob preserves.
-/
import Backuwup.Client.Packfile.BlobIndex

namespace Backuwup.Client

/-! ## 1. Blobs -/

inductive BlobKind
  | fileChunk
  | tree
deriving DecidableEq

inductive CompressionKind
  | none
  | zstd
deriving DecidableEq

structure Blob where
  hash : BlobHash
  kind : BlobKind
  data : Bytes
deriving DecidableEq

structure BlobEncrypted where
  hash : BlobHash
  kind : BlobKind
  data : Bytes
  nonce : BlobNonce
deriving DecidableEq

structure PackfileHeaderBlob where
  hash : BlobHash
  kind : BlobKind
  compression : CompressionKind
  length : ℕ
  offset : ℕ
deriving DecidableEq

/-- `BLOB_MAX_UNCOMPRESSED_SIZE`: 3 MiB. -/
def blobMaxUncompressedSize : ℕ := 3145728

/-- `PACKFILE_TARGET_SIZE`: 3 MiB. -/
def packfileTargetSize : ℕ := 3145728

/-- `PACKFILE_MAX_SIZE`: 16 MiB. -/
def packfileMaxSize : ℕ := 16777216

def packfileMaxBlobs : ℕ := 100000

/-- `KEY_DERIVATION_CONSTANT_HEADER`, the bytes of "header". -/
def headerKeyInfo : Bytes := [104, 101, 97, 100, 101, 114]

def headerKey (P : Primitives) (keys : KeyManager) : SymmetricKey :=
  keys.deriveBackupKey P headerKeyInfo

/-- The key of a blob is derived from its hash. -/
def blobKey (P : Primitives) (keys : KeyManager) (hash : BlobHash) : SymmetricKey :=
  keys.deriveBackupKey P hash.bytes

/-- `compress_encrypt_blob`, given the random nonce. -/
def compressEncryptBlob (P : Primitives) (keys : KeyManager) (blob : Blob) (nonce : BlobNonce) :
    Option BlobEncrypted :=
  (P.encryptInPlace (blobKey P keys blob.hash) nonce (P.compress blob.data)).map fun data =>
    ⟨blob.hash, blob.kind, data, nonce⟩

/-! ## 2. The header encoding -/

def BlobKind.tag : BlobKind → ℕ
  | .fileChunk => 0
  | .tree => 1

def BlobKind.ofTag : ℕ → Option BlobKind
  | 0 => some .fileChunk
  | 1 => some .tree
  | _ => Option.none

def CompressionKind.tag : CompressionKind → ℕ
  | .none => 0
  | .zstd => 1

def CompressionKind.ofTag : ℕ → Option CompressionKind
  | 0 => some .none
  | 1 => some .zstd
  | _ => Option.none

def headerBlobCodec : Codec PackfileHeaderBlob :=
  ((FixedBytes.codec 32).prod
    ((Bincode.varintEnum BlobKind.tag BlobKind.ofTag (by rintro (_ | _) <;> rfl)).prod
      ((Bincode.varintEnum CompressionKind.tag CompressionKind.ofTag
          (by rintro (_ | _) <;> rfl)).prod
        (Bincode.varint.prod Bincode.varint)))).iso
    (fun b => (b.hash, b.kind, b.compression, b.length, b.offset))
    (fun p => ⟨p.1, p.2.1, p.2.2.1, p.2.2.2.1, p.2.2.2.2⟩) fun _ => rfl

/-- `Vec<PackfileHeaderBlob>`. -/
def headerCodec : Codec (List PackfileHeaderBlob) := Bincode.varintVec headerBlobCodec

theorem headerBlobCodec_ok {b : PackfileHeaderBlob} (hl : b.length < 18446744073709551616)
    (ho : b.offset < 18446744073709551616) : headerBlobCodec.ok b := by
  obtain ⟨hash, kind, compression, length, offset⟩ := b
  have hk : kind.tag < 18446744073709551616 := by cases kind <;> decide
  have hc : compression.tag < 18446744073709551616 := by cases compression <;> decide
  exact ⟨trivial, hk, hc, hl, ho⟩

/-! ## 3. Writing -/

/-- The packfile under construction: what `write_packfiles` keeps in `packfile_index`, `data`,
`header`, `blob_count` and `bytes_written`. -/
structure PackfileDraft where
  blobs : List BlobHash
  data : Bytes
  header : List PackfileHeaderBlob
  blobCount : ℕ
  bytesWritten : ℕ
deriving DecidableEq

namespace PackfileDraft

def empty : PackfileDraft := ⟨[], [], [], 0, 0⟩

/-- One blob is added to the header, the buffer and the handle. -/
def add (d : PackfileDraft) (blob : BlobEncrypted) : PackfileDraft where
  blobs := d.blobs ++ [blob.hash]
  data := d.data ++ (blob.nonce.bytes ++ blob.data)
  header := d.header ++ [⟨blob.hash, blob.kind, .zstd, blob.data.length, d.bytesWritten⟩]
  blobCount := d.blobCount + 1
  bytesWritten := d.bytesWritten + (blob.data.length + blobNonceSize)

/-- The packfile has reached its target and is closed. -/
def Full (d : PackfileDraft) : Prop :=
  packfileTargetSize ≤ d.bytesWritten ∨ packfileMaxBlobs ≤ d.blobCount

instance (d : PackfileDraft) : Decidable d.Full := inferInstanceAs (Decidable (_ ∨ _))

end PackfileDraft

/-- `serialize_packfile`, given the random id. -/
def serializePackfile (P : Primitives) (keys : KeyManager) (id : PackfileId)
    (draft : PackfileDraft) : Option Bytes :=
  (P.encryptInPlace (headerKey P keys) id (headerCodec.enc draft.header)).map fun header =>
    leBytes 8 header.length ++ (header ++ draft.data)

/-! ## 4. Reading -/

/-- The reads of one blob: `seek` to it from the start of the data section, the nonce, the data,
and then decryption and decompression. -/
def readEntry (P : Primitives) (keys : KeyManager) (data : Bytes) (entry : PackfileHeaderBlob) :
    Except PackfileError Blob :=
  match (FixedBytes.codec 12).dec (data.drop entry.offset) with
  | none => .error .ioError
  | some (nonce, rest) =>
    match Codec.takeBytes entry.length rest with
    | none => .error .ioError
    | some (buf, _) =>
      match P.decrypt (blobKey P keys entry.hash) nonce buf with
      | none => .error .cryptoError
      | some compressed =>
        match P.decompress compressed blobMaxUncompressedSize with
        | none => .error .ioError
        | some blobData => .ok ⟨entry.hash, entry.kind, blobData⟩

/-- `get_blob` after the packfile has been opened. -/
def readBlob (P : Primitives) (keys : KeyManager) (id : PackfileId) (packfile : Bytes)
    (hash : BlobHash) : Except PackfileError Blob :=
  if packfileMaxSize < packfile.length then .error .packfileTooLarge
  else
    match Codec.takeBytes 8 packfile with
    | none => .error .ioError
    | some (headerSizeBytes, rest) =>
      let headerSize := leNat headerSizeBytes
      if packfile.length < headerSize ∨ headerSize = 0 then .error .invalidHeaderSize
      else
        match Codec.takeBytes headerSize rest with
        | none => .error .ioError
        | some (headerBuf, data) =>
          match P.decrypt (headerKey P keys) id headerBuf with
          | none => .error .cryptoError
          | some plain =>
            match headerCodec.decodeExact plain with
            | none => .error .serializationError
            | some header =>
              match header.find? fun entry => entry.hash = hash with
              | none => .error .indexHeaderMismatch
              | some entry => readEntry P keys data entry

/-! ## 5. Header and data belong together -/

/-- The entry describes a blob that lies where it says in the data section. -/
def Located (data : Bytes) (entry : PackfileHeaderBlob) (blob : BlobEncrypted) : Prop :=
  entry.hash = blob.hash ∧ entry.kind = blob.kind ∧ entry.length = blob.data.length ∧
    ∃ before after, data = before ++ (blob.nonce.bytes ++ (blob.data ++ after)) ∧
      before.length = entry.offset

/-- The draft holds these blobs. -/
structure Laid (d : PackfileDraft) (blobs : List BlobEncrypted) : Prop where
  hashes : d.blobs = blobs.map BlobEncrypted.hash
  count : d.blobCount = blobs.length
  written : d.bytesWritten = d.data.length
  located : List.Forall₂ (Located d.data) d.header blobs

theorem Located.append {data : Bytes} {entry : PackfileHeaderBlob} {blob : BlobEncrypted}
    (h : Located data entry blob) (more : Bytes) : Located (data ++ more) entry blob := by
  obtain ⟨hh, hk, hl, before, after, rfl, hb⟩ := h
  exact ⟨hh, hk, hl, before, after ++ more, by simp only [List.append_assoc], hb⟩

/-- A located blob ends within the data. -/
theorem Located.le_length {data : Bytes} {entry : PackfileHeaderBlob} {blob : BlobEncrypted}
    (h : Located data entry blob) : entry.offset + entry.length ≤ data.length := by
  obtain ⟨-, -, hl, before, after, rfl, hb⟩ := h
  simp only [List.length_append]
  omega

theorem Laid.empty : Laid .empty [] := ⟨rfl, rfl, rfl, .nil⟩

/-- Adding a blob to the draft. -/
theorem Laid.add {d : PackfileDraft} {blobs : List BlobEncrypted} (h : Laid d blobs)
    (blob : BlobEncrypted) : Laid (d.add blob) (blobs ++ [blob]) where
  hashes := by simp [PackfileDraft.add, h.hashes]
  count := by simp [PackfileDraft.add, h.count]
  written := by
    simp only [PackfileDraft.add, List.length_append, h.written, blob.nonce.length_eq,
      blobNonceSize]
    omega
  located := by
    refine List.rel_append (h.located.imp fun _ _ hl => hl.append _) (.cons ?_ .nil)
    exact ⟨rfl, rfl, rfl, d.data, [], by simp [PackfileDraft.add], h.written.symm⟩

/-- The header of a draft can be decoded again. -/
theorem Laid.headerCodec_ok {d : PackfileDraft} {blobs : List BlobEncrypted} (h : Laid d blobs)
    (hdata : d.data.length ≤ packfileMaxSize)
    (hmax : (headerCodec.enc d.header).length ≤ aesGcmMaxPlaintext) : headerCodec.ok d.header := by
  simp only [packfileMaxSize] at hdata
  simp only [aesGcmMaxPlaintext] at hmax
  refine ⟨?_, fun e he => ?_⟩
  · have hle := Codec.length_le_encAll headerBlobCodec d.header fun a _ => by
      simp only [headerBlobCodec, Codec.iso, Codec.prod, FixedBytes.codec,
        List.length_append, a.hash.length_eq]
      omega
    have henc : (headerCodec.enc d.header).length = (Bincode.varintEnc d.header.length).length
        + (headerBlobCodec.encAll d.header).length := List.length_append
    change d.header.length < 18446744073709551616
    omega
  · obtain ⟨b, hb⟩ : ∃ b, Located d.data e b := by
      obtain ⟨i, hi, rfl⟩ := List.mem_iff_getElem.mp he
      exact ⟨_, (List.forall₂_iff_get.mp h.located).2 i hi (h.located.length_eq ▸ hi)⟩
    have hle := hb.le_length
    exact headerBlobCodec_ok (by omega) (by omega)

/-! ## 6. Every blob is read back -/

section

variable {P : Primitives} {keys : KeyManager}

/-- The encrypted blob was made from the plain one. -/
def EncryptedFrom (P : Primitives) (keys : KeyManager) (blob : BlobEncrypted) (plain : Blob) :
    Prop :=
  plain.data.length ≤ blobMaxUncompressedSize ∧
    compressEncryptBlob P keys plain blob.nonce = some blob

/-- Reading at a located entry decrypts and decompresses the blob. -/
theorem readEntry_located (hP : P.Lawful) {data : Bytes} {entry : PackfileHeaderBlob}
    {blob : BlobEncrypted} {plain : Blob} (hl : Located data entry blob)
    (he : EncryptedFrom P keys blob plain) : readEntry P keys data entry = .ok plain := by
  obtain ⟨hsize, henc⟩ := he
  obtain ⟨cipher, hcipher, hblob⟩ := Option.map_eq_some_iff.mp henc
  obtain ⟨hmax, rfl⟩ := Primitives.encryptInPlace_eq_some hcipher
  obtain ⟨hh, hk, hlen, before, after, rfl, hb⟩ := hl
  have hhash : blob.hash = plain.hash := by rw [← hblob]
  have hkind : blob.kind = plain.kind := by rw [← hblob]
  have hdata : blob.data
      = P.encrypt (blobKey P keys plain.hash) blob.nonce (P.compress plain.data) := by
    rw [← hblob]
  have hnonce : (FixedBytes.codec 12).dec (blob.nonce.bytes ++ (blob.data ++ after))
      = some (blob.nonce, blob.data ++ after) :=
    (FixedBytes.codec 12).dec_enc blob.nonce _ trivial
  rw [readEntry, ← hb, List.drop_left, hnonce]
  simp only [hlen, Codec.takeBytes_append _ rfl]
  rw [hdata, hh, hhash, hP.decrypt_encrypt _ _ _ hmax]
  simp only [hP.decompress_compress _ _ hsize, hk, hkind]

/-- The first entry with a hash that some blob has belongs to a blob with that hash. -/
theorem find_located {data : Bytes} {header : List PackfileHeaderBlob}
    {blobs : List BlobEncrypted} (h : List.Forall₂ (Located data) header blobs)
    {hash : BlobHash} (hmem : hash ∈ blobs.map BlobEncrypted.hash) :
    ∃ entry, header.find? (fun entry => entry.hash = hash) = some entry ∧
      ∃ blob ∈ blobs, blob.hash = hash ∧ Located data entry blob := by
  induction h with
  | nil => simp at hmem
  | @cons entry blob header blobs hl _ ih =>
    by_cases heq : entry.hash = hash
    · refine ⟨entry, by simp [heq], blob, List.mem_cons_self, hl.1 ▸ heq, hl⟩
    · rw [List.map_cons, List.mem_cons, ← hl.1] at hmem
      obtain ⟨e, he, b, hb, hrest⟩ := ih (hmem.resolve_left fun h => heq h.symm)
      exact ⟨e, by simp [heq, he], b, List.mem_cons_of_mem _ hb, hrest⟩

/-- A serialized draft is the length of its encrypted header, that header, and the data. -/
theorem Laid.serialized (hP : P.Lawful) {d : PackfileDraft} {blobs : List BlobEncrypted}
    (hd : Laid d blobs) {id : PackfileId} {buffer : Bytes}
    (hser : serializePackfile P keys id d = some buffer) (hsize : buffer.length ≤ packfileMaxSize) :
    ∃ head : Bytes, buffer = leBytes 8 head.length ++ (head ++ d.data) ∧
      0 < head.length ∧ head.length < 256 ^ 8 ∧
      P.decrypt (headerKey P keys) id head = some (headerCodec.enc d.header) ∧
      headerCodec.decodeExact (headerCodec.enc d.header) = some d.header := by
  obtain ⟨cipher, hcipher, rfl⟩ := Option.map_eq_some_iff.mp hser
  obtain ⟨hmax, rfl⟩ := Primitives.encryptInPlace_eq_some hcipher
  have hlen := hP.encrypt_length (headerKey P keys) id _ hmax
  refine ⟨_, rfl, ?_, ?_, hP.decrypt_encrypt _ _ _ hmax, headerCodec.decodeExact_enc ?_⟩
  · omega
  · simp only [aesGcmMaxPlaintext] at hmax
    omega
  · refine hd.headerCodec_ok (le_trans ?_ hsize) hmax
    simp only [List.length_append]
    omega

/-- Every blob of a serialized draft can be read back under its hash, as one of the plain
blobs that were added with that hash. -/
theorem readBlob_serialize (hP : P.Lawful) {d : PackfileDraft} {blobs : List BlobEncrypted}
    (hd : Laid d blobs) {id : PackfileId} {buffer : Bytes}
    (hser : serializePackfile P keys id d = some buffer) (hsize : buffer.length ≤ packfileMaxSize)
    (plains : List Blob) (hplain : ∀ b ∈ blobs, ∃ p ∈ plains, EncryptedFrom P keys b p)
    {hash : BlobHash} (hmem : hash ∈ d.blobs) :
    ∃ p ∈ plains, p.hash = hash ∧ readBlob P keys id buffer hash = .ok p := by
  rw [hd.hashes] at hmem
  obtain ⟨entry, hfind, blob, hblob, hhash, hloc⟩ := find_located hd.located hmem
  obtain ⟨plain, hplainmem, henc⟩ := hplain blob hblob
  refine ⟨plain, hplainmem, ?_, ?_⟩
  · obtain ⟨-, henc⟩ := henc
    obtain ⟨_, -, hb⟩ := Option.map_eq_some_iff.mp henc
    rw [← hhash, ← hb]
  · obtain ⟨head, rfl, hpos, hlen, hdec, hheader⟩ := hd.serialized hP hser hsize
    rw [readBlob, if_neg (not_lt.mpr hsize), Codec.takeBytes_append _ (leBytes_length _ _)]
    simp only [leNat_leBytes 8 _ hlen]
    rw [if_neg (by simp only [List.length_append, leBytes_length]; omega),
      Codec.takeBytes_append _ rfl]
    simp only [hdec, hheader, hfind]
    exact readEntry_located hP hloc henc

end

end Backuwup.Client
