/-
# The size of a packfile in transit (`packfile/pack.rs`, `net_p2p/transport.rs`)

A peer takes messages of up to 8 MiB.  A packfile is closed by the blob that brings its data to
3 MiB, so the data alone stay below the limit, but the header has an entry for each blob, and
100000 small blobs bring it to several MiB.

The size of the message is computed here from the lengths of the blobs (`packfileSize`), and so is
which blobs of the queue come next (`nextPackfile`).  In every run, all packfiles in the folder
can be sent if and only if each round has begun with a queue whose next packfile is small enough
(`packfiles_transportable_iff`).
-/
import Backuwup.Client.Packfile.RoundTrip
import Backuwup.Shared.P2pMessage

namespace Backuwup.Client

open Transition

/-! ## 1. Messages -/

/-- `SIGNATURE_LENGTH` of `ed25519_dalek`. -/
abbrev Signature := FixedBytes 64

def dataMessage (signature : Signature) (msgCounter : ℕ) (sessionNonce : TransportSessionNonce)
    (fileInfo : FileInfo) (data : Bytes) : Bytes :=
  EncapsulatedMsg.codec.enc
    ⟨EncapsulatedFileBody.codec.enc ⟨⟨msgCounter, sessionNonce⟩, fileInfo, data⟩, signature.bytes⟩

/-- What a message adds to the packfile in it. -/
def messageOverhead : ℕ := 128

/-- The message with the packfile does not exceed `max_message_size`, under any name and in any
session. -/
def Transportable (packfile : Bytes) : Prop :=
  ∀ signature msgCounter sessionNonce id,
    (dataMessage signature msgCounter sessionNonce (.packfile id) packfile).length
      ≤ maxEncapsulatedBackupChunkSize

theorem dataMessage_length (signature : Signature) (msgCounter : ℕ)
    (sessionNonce : TransportSessionNonce) (id : PackfileId) (data : Bytes) :
    (dataMessage signature msgCounter sessionNonce (.packfile id) data).length
      = data.length + messageOverhead := by
  have hinfo : (FileInfo.codec.enc (.packfile id)).length = 16 := by
    simp [FileInfo.codec, Codec.iso, Codec.sum, Codec.nat, FixedBytes.codec, id.length_eq]
  have hheader : (Header.codec.enc ⟨msgCounter, sessionNonce⟩).length = 24 := by
    simp [Header.codec, Codec.iso, Codec.prod, Codec.nat, FixedBytes.codec,
      sessionNonce.length_eq]
  have hbody : (EncapsulatedFileBody.codec.enc
      ⟨⟨msgCounter, sessionNonce⟩, .packfile id, data⟩).length = data.length + 48 := by
    have henc : EncapsulatedFileBody.codec.enc ⟨⟨msgCounter, sessionNonce⟩, .packfile id, data⟩
        = Header.codec.enc ⟨msgCounter, sessionNonce⟩ ++ (FileInfo.codec.enc (.packfile id) ++
          (leBytes 8 data.length ++ data)) := rfl
    simp only [henc, List.length_append, hheader, hinfo, leBytes_length]
    omega
  have henc : ∀ body, EncapsulatedMsg.codec.enc ⟨body, signature.bytes⟩
      = leBytes 8 body.length ++ body ++ (leBytes 8 signature.bytes.length ++ signature.bytes) :=
    fun _ => rfl
  simp only [dataMessage, henc, List.length_append, leBytes_length, hbody, signature.length_eq,
    messageOverhead]
  omega

theorem transportable_iff {packfile : Bytes} : Transportable packfile ↔
    packfile.length + messageOverhead ≤ maxEncapsulatedBackupChunkSize := by
  simp only [Transportable, dataMessage_length]
  exact ⟨fun h => h (.fill 0) 0 (.fill 0) (.fill 0), fun h _ _ _ _ => h⟩

/-! ## 2. The size of a packfile -/

/-- The length of an integer in the variable-length encoding. -/
def varintSize (n : ℕ) : ℕ :=
  if n < 251 then 1 else if n < 65536 then 3 else if n < 4294967296 then 5 else 9

theorem varintEnc_length (n : ℕ) : (Bincode.varintEnc n).length = varintSize n := by
  unfold Bincode.varintEnc varintSize
  split_ifs <;> simp

/-- What a blob takes in a packfile, given its offset: the header entry, the nonce and the
data. -/
def blobSize (offset : ℕ) (blob : BlobEncrypted) : ℕ :=
  34 + varintSize blob.data.length + varintSize offset + (blob.data.length + blobNonceSize)

/-- What several blobs take. -/
def blobsSize : ℕ → List BlobEncrypted → ℕ
  | _, [] => 0
  | offset, blob :: blobs =>
    blobSize offset blob + blobsSize (offset + (blob.data.length + blobNonceSize)) blobs

/-- The length of the packfile with these blobs: the length of the header, the tag of its
encryption, the number of its entries, and the blobs. -/
def packfileSize (blobs : List BlobEncrypted) : ℕ :=
  24 + varintSize blobs.length + blobsSize 0 blobs

theorem headerBlobCodec_length (b : PackfileHeaderBlob) : (headerBlobCodec.enc b).length
    = 34 + varintSize b.length + varintSize b.offset := by
  have henc : headerBlobCodec.enc b = b.hash.bytes ++ (Bincode.varintEnc b.kind.tag ++
      (Bincode.varintEnc b.compression.tag ++
        (Bincode.varintEnc b.length ++ Bincode.varintEnc b.offset))) := rfl
  have hkind : varintSize b.kind.tag = 1 := by cases b.kind <;> rfl
  have hcompression : varintSize b.compression.tag = 1 := by cases b.compression <;> rfl
  simp only [henc, List.length_append, b.hash.length_eq, varintEnc_length, hkind, hcompression]
  omega

/-- What the blobs of a draft take so far. -/
def PackfileDraft.size (d : PackfileDraft) : ℕ :=
  (headerBlobCodec.encAll d.header).length + d.data.length

theorem encAll_append {α : Type*} (c : Codec α) (as bs : List α) :
    c.encAll (as ++ bs) = c.encAll as ++ c.encAll bs := by
  induction as with
  | nil => rfl
  | cons a as ih => simp only [List.cons_append, Codec.encAll, ih, List.append_assoc]

theorem PackfileDraft.size_add (d : PackfileDraft) (blob : BlobEncrypted) :
    (d.add blob).size = d.size + blobSize d.bytesWritten blob := by
  simp only [size, add, encAll_append, List.length_append, Codec.encAll, List.length_nil,
    headerBlobCodec_length, blobSize, blob.nonce.length_eq, blobNonceSize]
  omega

/-- The size of a draft after several blobs. -/
theorem PackfileDraft.size_foldl (blobs : List BlobEncrypted) (d : PackfileDraft) :
    (blobs.foldl add d).size = d.size + blobsSize d.bytesWritten blobs ∧
      (blobs.foldl add d).header.length = d.header.length + blobs.length := by
  induction blobs generalizing d with
  | nil => exact ⟨rfl, rfl⟩
  | cons blob blobs ih =>
    obtain ⟨hsize, hlength⟩ := ih (d.add blob)
    have hwritten : (d.add blob).bytesWritten
        = d.bytesWritten + (blob.data.length + blobNonceSize) := rfl
    have hheader : (d.add blob).header.length = d.header.length + 1 := by simp [add]
    rw [List.foldl_cons]
    constructor
    · rw [hsize, size_add, hwritten, blobsSize, Nat.add_assoc]
    · rw [hlength, hheader, List.length_cons]
      omega

section

variable {P : Primitives} {keys : KeyManager}

theorem serializePackfile_length (hP : P.Lawful) {id : PackfileId} {buffer : Bytes}
    {blobs : List BlobEncrypted}
    (h : serializePackfile P keys id (blobs.foldl PackfileDraft.add .empty) = some buffer) :
    buffer.length = packfileSize blobs := by
  obtain ⟨hsize, hlength⟩ := PackfileDraft.size_foldl blobs .empty
  obtain ⟨header, hheader, rfl⟩ := Option.map_eq_some_iff.mp h
  obtain ⟨hmax, rfl⟩ := Primitives.encryptInPlace_eq_some hheader
  have henc : (headerCodec.enc (blobs.foldl PackfileDraft.add .empty).header).length
      = (Bincode.varintEnc (blobs.foldl PackfileDraft.add .empty).header.length).length
        + (headerBlobCodec.encAll (blobs.foldl PackfileDraft.add .empty).header).length :=
    List.length_append
  rw [show PackfileDraft.empty.size = 0 from rfl, Nat.zero_add,
    show PackfileDraft.empty.bytesWritten = 0 from rfl, PackfileDraft.size] at hsize
  rw [show PackfileDraft.empty.header.length = 0 from rfl, Nat.zero_add] at hlength
  simp only [List.length_append, leBytes_length, hP.encrypt_length _ _ _ hmax, henc,
    varintEnc_length, hlength, packfileSize]
  omega

/-! ## 3. The next packfile -/

/-- The blobs of the queue that are not known, each once. -/
def unknown (ix : BlobIndex) : List BlobEncrypted → List BlobEncrypted
  | [] => []
  | blob :: blobs =>
    if ix.isBlobDuplicate blob.hash then unknown ix blobs
    else blob :: (unknown ix blobs).filter fun b => b.hash ≠ blob.hash

/-- The blobs up to the one that fills the packfile, given what it holds already. -/
def untilFull (bytesWritten blobCount : ℕ) : List BlobEncrypted → List BlobEncrypted
  | [] => []
  | blob :: blobs =>
    let written := bytesWritten + (blob.data.length + blobNonceSize)
    blob :: if packfileTargetSize ≤ written ∨ packfileMaxBlobs ≤ blobCount + 1 then []
      else untilFull written (blobCount + 1) blobs

/-- The blobs of the queue that are put into the next packfile. -/
def nextPackfile (ix : BlobIndex) (queue : List BlobEncrypted) : List BlobEncrypted :=
  untilFull 0 0 (unknown ix queue)

/-- A hash that is queued is not put into a packfile again. -/
theorem unknown_queued (ix : BlobIndex) (hash : BlobHash) (blobs : List BlobEncrypted) :
    unknown { ix with blobsQueued := hash :: ix.blobsQueued } blobs
      = (unknown ix blobs).filter fun b => b.hash ≠ hash := by
  induction blobs with
  | nil => rfl
  | cons blob blobs ih =>
    have hdup : BlobIndex.isBlobDuplicate { ix with blobsQueued := hash :: ix.blobsQueued }
        blob.hash = (decide (blob.hash = hash) || ix.isBlobDuplicate blob.hash) := by
      simp [BlobIndex.isBlobDuplicate, BlobIndex.findPackfile, Bool.or_assoc]
    rw [unknown, unknown, hdup, ih]
    by_cases hold : ix.isBlobDuplicate blob.hash = true
    · rw [hold, Bool.or_true, if_pos rfl, if_pos rfl]
    · by_cases heq : blob.hash = hash
      · rw [if_pos (by simp [heq]), if_neg hold, heq, List.filter_cons_of_neg (by simp [heq]),
          List.filter_filter]
        simp
      · rw [if_neg (by simp [heq, hold]), if_neg hold, List.filter_cons_of_pos (by simpa using heq),
          List.filter_filter, List.filter_filter]
        refine congrArg (blob :: ·) (List.filter_congr fun b _ => ?_)
        rw [Bool.and_comm]

/-- What the inner loop of `write_packfiles` puts into the packfile. -/
theorem fillDraft_eq {ix ix' : BlobIndex} {draft draft' : PackfileDraft}
    {blobs rest : List BlobEncrypted} {r : Except PackfileError Unit}
    (h : fillDraft ix draft blobs = (ix', draft', rest, r)) :
    draft' = (untilFull draft.bytesWritten draft.blobCount (unknown ix blobs)).foldl
      PackfileDraft.add draft := by
  induction blobs generalizing ix draft with
  | nil =>
    simp only [fillDraft, Prod.mk.injEq] at h
    exact h.2.1.symm
  | cons blob blobs ih =>
    rw [fillDraft] at h
    rw [unknown]
    split at h
    · rename_i hdup
      rw [if_pos hdup]
      exact ih h
    · rename_i hdup
      have hnew : blob.hash ∉ ix.blobsQueued := by
        intro hmem
        exact hdup (BlobIndex.isBlobDuplicate_iff.mpr (Or.inl hmem))
      have hfull_iff : packfileTargetSize ≤ draft.bytesWritten
          + (blob.data.length + blobNonceSize) ∨ packfileMaxBlobs ≤ draft.blobCount + 1 ↔
          (draft.add blob).Full := Iff.rfl
      rw [if_neg hdup, untilFull, List.foldl_cons]
      simp only [hfull_iff]
      simp only [BlobIndex.addToPackfile, if_neg hnew] at h
      split at h
      · rename_i hfull
        rw [if_pos hfull]
        simp only [Prod.mk.injEq] at h
        exact h.2.1.symm
      · rename_i hfull
        rw [if_neg hfull, ← unknown_queued]
        exact ih h

/-! ## 4. One round -/

/-- So many bytes of a file reach the disk. -/
def FileWrite.written (size : ℕ) : FileWrite → ℕ
  | .ok => size
  | .createFails => 0
  | .writeFails n => min n size

/-- A round leaves the packfiles as they are, or puts the next one there as far as it is
written. -/
theorem writePackfile_put (hP : P.Lawful) {m m' : Manager} {disk disk' : Disk} {io : PackfileIo}
    {r : Except PackfileError Bool} (hqueue : ∀ b ∈ m.blobs, b.data.length ≤ maxEncryptedBlob)
    (hwrite : m.writePackfile P keys disk io = some (m', disk', r)) :
    m'.blobs ⊆ m.blobs ∧
    ((disk'.packfiles = disk.packfiles ∧ (nextPackfile m.index m.blobs = [] ∨
        disk.packfiles io.id ≠ none ∨ io.file = .createFails)) ∨
      (disk.packfiles io.id = none ∧ ∃ content : Bytes,
        content.length = io.file.written (packfileSize (nextPackfile m.index m.blobs)) ∧
        disk'.packfiles = (disk.put io.id content).packfiles)) := by
  obtain ⟨ix, draft, rest, taken, hfill, hfilled, hround⟩ := round_of_writePackfile hwrite
  refine ⟨hround.blobs ▸ hfilled.rest_subset, ?_⟩
  have hnext : draft = (nextPackfile m.index m.blobs).foldl PackfileDraft.add .empty :=
    fillDraft_eq hfill
  have hlength : ∀ {buffer}, serializePackfile P keys io.id draft = some buffer →
      buffer.length = packfileSize (nextPackfile m.index m.blobs) :=
    fun hser => serializePackfile_length hP (hnext ▸ hser)
  cases hround with
  | nothing hzero =>
    have hlaid := hfilled.laid [] .empty
    have hheader := (PackfileDraft.size_foldl (nextPackfile m.index m.blobs) .empty).2
    rw [← hnext, hlaid.located.length_eq, ← hlaid.count, hzero] at hheader
    exact Or.inl ⟨rfl, Or.inl (List.length_eq_zero_iff.mp
      (by simpa [PackfileDraft.empty] using hheader.symm))⟩
  | notEncrypted _ hnone =>
    have hbounds := fillDraft_bounds hfill (by decide) hqueue
    obtain ⟨buffer, hser, -⟩ :=
      serializePackfile_fits hP keys (hfilled.laid [] .empty) io.id hbounds.1 hbounds.2
    cases hnone.symm.trans hser
  | notCreated buffer _ _ _ hfail => exact Or.inl ⟨rfl, Or.inr hfail⟩
  | torn buffer n _ hser _ hnone hio =>
    refine Or.inr ⟨hnone, buffer.take n, ?_, rfl⟩
    rw [hio, ← hlength hser]
    exact List.length_take
  | notRecorded buffer ix' folder e _ hser _ hnone hio
  | written buffer ix' folder _ hser _ hnone hio =>
    refine Or.inr ⟨hnone, buffer, ?_, rfl⟩
    rw [hio, ← hlength hser]
    rfl

/-! ## 5. Every run -/

/-- What is queued or on its way to the queue is not too large. -/
structure Sized (w : World) : Prop where
  queue : ∀ s, w.session = some s → ∀ b ∈ s.manager.blobs, b.data.length ≤ maxEncryptedBlob
  called : ∀ c ∈ w.calls, c.pc = .called → c.blob.data.length ≤ blobMaxUncompressedSize
  encrypted : ∀ c ∈ w.calls, ∀ b, c.pc = .encrypted b → b.data.length ≤ maxEncryptedBlob

/-- All packfiles in the folder can be sent. -/
def AllTransportable (w : World) : Prop :=
  ∀ id content, w.disk.packfiles id = some content → Transportable content

/-- The next packfile of the queue, as far as it is written, fits into a message. -/
def NextFits (w : World) : ManagerAction → Prop
  | .write _ io | .flushWrite io => ∀ s, w.session = some s → w.disk.packfiles io.id = none →
      io.file.written (packfileSize (nextPackfile s.manager.index s.manager.blobs))
        + messageOverhead ≤ maxEncapsulatedBackupChunkSize
  | _ => True

variable {w w' : World} {a : ManagerAction}

theorem sized_start : Sized .start := ⟨by simp [World.start], by simp [World.start],
  by simp [World.start]⟩

theorem Sized.setPc (h : Sized w) {t : ℕ} {c : AddCall} {pc : AddPc} (hcalled : pc ≠ .called)
    (hencrypted : ∀ b, pc = .encrypted b → b.data.length ≤ maxEncryptedBlob) :
    Sized (w.setPc t c pc) := by
  refine ⟨h.queue, fun c' hc' hpc => ?_, fun c' hc' b hpc => ?_⟩
  · rcases mem_setPc hc' with hc' | rfl
    · exact h.called c' hc' hpc
    · exact absurd hpc hcalled
  · rcases mem_setPc hc' with hc' | rfl
    · exact h.encrypted c' hc' b hpc
    · exact hencrypted b hpc

theorem Sized.setManager (h : Sized w) {s : Session} {m : Manager} {disk : Disk}
    (hm : ∀ b ∈ m.blobs, b.data.length ≤ maxEncryptedBlob) :
    Sized ({ w with disk := disk }.setManager s m) := by
  refine ⟨fun s' hs' => ?_, h.called, h.encrypted⟩
  obtain rfl := Option.some.inj hs'
  exact hm

theorem sized_step (hP : P.Lawful) (h : Sized w) (hstep : managerStep P keys w a = some w') :
    Sized w' := by
  cases stepped_of_managerStep hstep with
  | opened names files size ix hs hn hf hnew =>
    refine ⟨fun s hs => ?_, by simp, by simp⟩
    obtain rfl := Option.some.inj hs
    simp
  | notOpened => exact ⟨by simp, by simp, by simp⟩
  | added s blob pc hs hflush hpc =>
    refine ⟨h.queue, fun c hc hcalled => ?_, fun c hc b hb => ?_⟩
    · rcases List.mem_append.mp hc with hc | hc
      · exact h.called c hc hcalled
      · obtain rfl := List.mem_singleton.mp hc
        exact hpc.elim (fun hpc => by cases hpc.1.symm.trans hcalled) And.right
    · rcases List.mem_append.mp hc with hc | hc
      · exact h.encrypted c hc b hb
      · obtain rfl := List.mem_singleton.mp hc
        rcases hpc with ⟨hpc, -⟩ | ⟨hpc, -⟩ <;> cases hpc.symm.trans hb
  | moved s t c a pc hs hc hmove =>
    have hmem := List.mem_of_getElem? hc
    generalize hold : c.pc = old at hmove
    refine h.setPc (by cases hmove <;> simp) fun b hb => ?_
    cases hmove with
    | encrypts t nonce b' henc =>
      obtain rfl := AddPc.encrypted.inj hb
      obtain ⟨cipher, hcipher, rfl⟩ := Option.map_eq_some_iff.mp henc
      have hfrom : EncryptedFrom P keys ⟨c.blob.hash, c.blob.kind, cipher, nonce⟩ c.blob :=
        ⟨h.called c hmem hold, henc⟩
      exact hfrom.length_le hP
    | _ => cases hb
  | enqueued s t c blob hs hc hpc =>
    have hset : Sized (w.setManager s { s.manager with blobs := s.manager.blobs ++ [blob] }) := by
      refine h.setManager fun b hb => ?_
      rcases List.mem_append.mp hb with hb | hb
      · exact h.queue s hs b hb
      · obtain rfl := List.mem_singleton.mp hb
        exact h.encrypted c (List.mem_of_getElem? hc) b hpc
    exact hset.setPc (by simp) (by simp)
  | wrote s t c exceeded io m disk r pc hs hc hpc hwrite hr =>
    obtain ⟨hsub, -⟩ := writePackfile_put hP (h.queue s hs) hwrite
    have hset : Sized ({ w with disk := disk }.setManager s m) :=
      h.setManager fun b hb => h.queue s hs b (hsub hb)
    obtain ⟨e, -, rfl⟩ | ⟨e, -, rfl⟩ := hr <;> exact hset.setPc (by simp) (by simp)
  | flushes s hs hflush hall =>
    refine ⟨fun s' hs' => ?_, h.called, h.encrypted⟩
    obtain rfl := Option.some.inj hs'
    exact h.queue s hs
  | flushWrote s io m disk e hs hflush hwrite =>
    obtain ⟨hsub, -⟩ := writePackfile_put hP (h.queue s hs) hwrite
    exact h.setManager fun b hb => h.queue s hs b (hsub hb)
  | flushFailed | flushedIndex => exact ⟨fun _ hs => (by cases hs), h.called, h.encrypted⟩
  | killed s hs =>
    refine ⟨fun _ hs => (by cases hs), fun c hc hpc => ?_, fun c hc b hpc => ?_⟩ <;>
    · obtain ⟨c, -, rfl⟩ := List.mem_map.mp hc
      obtain ⟨r, -, hr⟩ | hr := c.pc.kill_cases <;> cases hr.symm.trans hpc

/-- A round keeps the folder transportable exactly if the next packfile fits. -/
theorem transportable_write_iff (hP : P.Lawful) {s : Session} {io : PackfileIo} {m : Manager}
    {disk : Disk} {r : Except PackfileError Bool} (h : Sized w) (hs : w.session = some s)
    (hwrite : s.manager.writePackfile P keys w.disk io = some (m, disk, r)) :
    (∀ id content, disk.packfiles id = some content → Transportable content) ↔
      AllTransportable w ∧ NextFits w (.flushWrite io) := by
  obtain ⟨-, ⟨hkeep, hnone⟩ | ⟨hfresh, content, hlen, hput⟩⟩ :=
    writePackfile_put hP (h.queue s hs) hwrite
  · rw [hkeep]
    refine (and_iff_left fun s' hs' hfresh => ?_).symm
    obtain rfl := Option.some.inj (hs.symm.trans hs')
    have hwritten : io.file.written (packfileSize (nextPackfile s.manager.index s.manager.blobs))
        ≤ 25 := by
      obtain hnil | htaken | hfails := hnone
      · rw [hnil]
        cases io.file with
        | ok => decide
        | createFails => decide
        | writeFails n => exact min_le_right _ _
      · exact absurd hfresh htaken
      · rw [hfails]
        exact Nat.zero_le _
    simp only [messageOverhead, maxEncapsulatedBackupChunkSize]
    omega
  · rw [hput]
    constructor
    · intro hall
      refine ⟨fun id content' hcontent' => hall id content' (Disk.put_packfiles hfresh hcontent'),
        fun s' hs' _ => ?_⟩
      obtain rfl := Option.some.inj (hs.symm.trans hs')
      rw [← hlen]
      exact transportable_iff.mp (hall io.id content (Function.update_self _ _ _))
    · rintro ⟨hall, hfits⟩ id content' hcontent'
      by_cases hid : id = io.id
      · subst hid
        simp only [Disk.put, Function.update_self, Option.some.injEq] at hcontent'
        subst hcontent'
        exact transportable_iff.mpr (hlen ▸ hfits s hs hfresh)
      · simp only [Disk.put, Function.update_of_ne hid] at hcontent'
        exact hall id content' hcontent'

theorem transportable_step_iff (hP : P.Lawful) (h : Sized w)
    (hstep : managerStep P keys w a = some w') :
    AllTransportable w' ↔ AllTransportable w ∧ NextFits w a := by
  cases stepped_of_managerStep hstep with
  | wrote s t c exceeded io m disk r pc hs hc hpc hwrite hr =>
    exact transportable_write_iff hP h hs hwrite
  | flushWrote s io m disk e hs hflush hwrite => exact transportable_write_iff hP h hs hwrite
  | flushFailed s io m disk e hs hflush hwrite => exact transportable_write_iff hP h hs hwrite
  | moved s t c a pc hs hc hmove =>
    refine (and_iff_left ?_).symm
    obtain ⟨t', ⟨nonce, rfl⟩ | rfl | rfl | rfl⟩ := hmove.of_call <;> trivial
  | opened | notOpened | added | enqueued | flushes | flushedIndex | killed =>
    exact (and_iff_left trivial).symm

/-- In every run, with any sequence of blobs and however the calls interleave and the I/O ends,
all packfiles in the folder can be sent if and only if every round began with a queue whose next
packfile fits. -/
theorem packfiles_transportable_iff (hP : P.Lawful) {as : List ManagerAction}
    (h : run (managerStep P keys) .start as = some w) :
    AllTransportable w ↔ Meets (managerStep P keys) NextFits .start as := by
  refine (run_iff_meets (I := Sized) (P := AllTransportable) sized_start ?_ ?_ h).trans
    (and_iff_right ?_)
  · exact fun s a s' hs hst => sized_step hP hs hst
  · exact fun s a s' hs hst => transportable_step_iff hP hs hst
  · intro id content hcontent
    simp [World.start, Disk.empty] at hcontent

end

/-- A decidable condition that is enough for `NextFits`. -/
def nextFits (w : World) : ManagerAction → Bool
  | .write _ io | .flushWrite io => (w.session).all fun s => decide (io.file.written
      (packfileSize (nextPackfile s.manager.index s.manager.blobs)) + messageOverhead
        ≤ maxEncapsulatedBackupChunkSize)
  | _ => true

theorem nextFits_ok (w : World) (a : ManagerAction) (h : nextFits w a = true) : NextFits w a := by
  unfold NextFits
  split
  · intro s hs _
    simpa [nextFits, hs] using h
  · intro s hs _
    simpa [nextFits, hs] using h
  · trivial

/-- Two sessions leave two packfiles, and both can be sent. -/
theorem packfiles_transportable_two : ∃ w : World,
    (∀ id ∈ [FixedBytes.fill 9, FixedBytes.fill 10], (w.disk.packfiles id).isSome) ∧
    AllTransportable w := by
  obtain ⟨w, hw, hfiles⟩ : ∃ w, runWhen (managerStep .transparent sampleKeys) nextFits
      .start (firstSession ++ secondSession) = some w ∧
      ∀ id ∈ [FixedBytes.fill 9, FixedBytes.fill 10], (w.disk.packfiles id).isSome := by
    decide +kernel
  obtain ⟨hrun, hmeets⟩ := meets_of_runWhen nextFits_ok hw
  exact ⟨w, hfiles, (packfiles_transportable_iff Primitives.transparent_lawful hrun).mpr hmeets⟩

/-! ## 6. Many small blobs and a large one -/

/-- The `i`-th small blob, of three bytes. -/
def smallBlob (i : ℕ) : Blob :=
  ⟨Primitives.transparent.hash (leBytes 3 i), .fileChunk, leBytes 3 i⟩

def queuedBlob (blob : Blob) : BlobEncrypted :=
  ⟨blob.hash, blob.kind, Primitives.transparent.encrypt
    (blobKey .transparent sampleKeys blob.hash) (.fill 0) blob.data, .fill 0⟩

/-- The index of an empty folder. -/
def newIndex : BlobIndex := ⟨[], [], [], 0, false⟩

/-- A session on an empty folder, with these calls and this queue. -/
def adding (calls : List AddCall) (queue : List BlobEncrypted) : World :=
  ⟨.empty, [], calls, some ⟨⟨queue, newIndex, 0⟩, false⟩, false⟩

section

variable {blob : Blob} {calls : List AddCall} {queue : List BlobEncrypted}

theorem length_queuedBlob (h : blob.data.length ≤ blobMaxUncompressedSize) :
    (queuedBlob blob).data.length = blob.data.length + 16 :=
  Primitives.transparent_lawful.encrypt_length (blobKey .transparent sampleKeys blob.hash) (.fill 0)
    blob.data (h.trans (by decide))

theorem newIndex_unknown (hash : BlobHash) : newIndex.isBlobDuplicate hash = false := rfl

theorem compressEncryptBlob_queued (h : blob.data.length ≤ blobMaxUncompressedSize) :
    compressEncryptBlob .transparent sampleKeys blob (.fill 0) = some (queuedBlob blob) := by
  have hmax : blob.data.length ≤ aesGcmMaxPlaintext := h.trans (by decide)
  have hcompress : Primitives.transparent.compress blob.data = blob.data := rfl
  rw [compressEncryptBlob, hcompress, Primitives.encryptInPlace, if_pos hmax]
  rfl

/-- A call adds its blob to the queue. -/
theorem queue_reached (queue : List BlobEncrypted)
    (h : blob.data.length ≤ blobMaxUncompressedSize)
    (hcalls : ∀ c ∈ calls, c.pc.isWriting = false) :
    Reach (managerStep .transparent sampleKeys) (fun _ _ => True) (adding calls queue)
      (adding (calls ++ [⟨blob, if Manager.overTarget ⟨queue ++ [queuedBlob blob], newIndex, 0⟩
        then .overTarget else .returned (.ok none)⟩]) (queue ++ [queuedBlob blob])) := by
  have hadd : managerStep .transparent sampleKeys (adding calls queue) (.addBlob blob)
      = some (adding (calls ++ [⟨blob, .called⟩]) queue) := by
    simp [managerStep, adding, not_lt.mpr h]
  have hcheck : managerStep .transparent sampleKeys (adding (calls ++ [⟨blob, .called⟩]) queue)
      (.check calls.length (some (.fill 0)))
        = some (adding (calls ++ [⟨blob, .encrypted (queuedBlob blob)⟩]) queue) := by
    simpa [managerStep, adding, World.inCall, World.unlocked, World.setPc,
      compressEncryptBlob_queued h, newIndex_unknown,
      show AddPc.called.isWriting = false from rfl] using hcalls
  have henqueue : managerStep .transparent sampleKeys
      (adding (calls ++ [⟨blob, .encrypted (queuedBlob blob)⟩]) queue) (.enqueue calls.length)
        = some (adding (calls ++ [⟨blob, .queued⟩]) (queue ++ [queuedBlob blob])) := by
    simpa [managerStep, adding, World.inCall, World.unlocked, World.setPc, World.setManager,
      show (AddPc.encrypted (queuedBlob blob)).isWriting = false from rfl] using hcalls
  have htrigger : managerStep .transparent sampleKeys
      (adding (calls ++ [⟨blob, .queued⟩]) (queue ++ [queuedBlob blob])) (.trigger calls.length)
        = some (adding (calls ++ [⟨blob,
          if Manager.overTarget ⟨queue ++ [queuedBlob blob], newIndex, 0⟩ then .overTarget
            else .returned (.ok none)⟩]) (queue ++ [queuedBlob blob])) := by
    simpa [managerStep, adding, World.inCall, World.unlocked, World.setPc,
      show AddPc.queued.isWriting = false from rfl] using hcalls
  exact (((Reach.refl.tail _ trivial hadd).tail _ trivial hcheck).tail _ trivial henqueue).tail _
    trivial htrigger

/-- Several calls add theirs. -/
theorem queue_reached_all (queue : List BlobEncrypted) {blobs : List Blob}
    (h : ∀ blob ∈ blobs, blob.data.length ≤ blobMaxUncompressedSize)
    (hcalls : ∀ c ∈ calls, c.pc.isWriting = false) :
    ∃ calls', (∀ c ∈ calls', c.pc.isWriting = false) ∧
      Reach (managerStep .transparent sampleKeys) (fun _ _ => True) (adding calls queue)
        (adding calls' (queue ++ blobs.map queuedBlob)) := by
  induction blobs generalizing calls queue with
  | nil => exact ⟨calls, hcalls, by simpa using Reach.refl⟩
  | cons blob blobs ih =>
    have hreach := queue_reached queue (h blob List.mem_cons_self) hcalls
    have hnext : ∀ c ∈ calls ++ [⟨blob,
        if Manager.overTarget ⟨queue ++ [queuedBlob blob], newIndex, 0⟩ then .overTarget
          else .returned (.ok none)⟩], c.pc.isWriting = false := by
      intro c hc
      rcases List.mem_append.mp hc with hc | hc
      · exact hcalls c hc
      · rw [List.mem_singleton.mp hc]
        split <;> rfl
    obtain ⟨calls', hcalls', hrest⟩ := ih (queue ++ [queuedBlob blob])
      (fun b hb => h b (List.mem_cons_of_mem _ hb)) hnext
    exact ⟨calls', hcalls', by simpa using hreach.trans hrest⟩

/-- Blobs with different hashes are all unknown to a new index. -/
theorem unknown_newIndex (h : (queue.map BlobEncrypted.hash).Nodup) :
    unknown newIndex queue = queue := by
  induction queue with
  | nil => rfl
  | cons blob blobs ih =>
    rw [List.map_cons, List.nodup_cons] at h
    rw [unknown, newIndex_unknown, if_neg (by simp), ih h.2]
    refine congrArg (blob :: ·) (List.filter_eq_self.mpr fun b hb => ?_)
    have hne : b.hash ≠ blob.hash := fun heq => h.1 (heq ▸ List.mem_map.mpr ⟨b, hb, rfl⟩)
    simpa using hne

/-- What several blobs take of the data section. -/
def dataSize (blobs : List BlobEncrypted) : ℕ :=
  (blobs.map fun b => b.data.length + blobNonceSize).sum

/-- Blobs that leave room, and one more. -/
theorem untilFull_append {written count : ℕ} {last : BlobEncrypted}
    (hdata : written + dataSize queue < packfileTargetSize)
    (hcount : count + queue.length < packfileMaxBlobs) :
    untilFull written count (queue ++ [last]) = queue ++ [last] := by
  induction queue generalizing written count with
  | nil => simp [untilFull]
  | cons blob blobs ih =>
    simp only [dataSize, List.map_cons, List.sum_cons] at hdata
    simp only [List.length_cons] at hcount
    rw [List.cons_append, untilFull, if_neg (by omega), ih (by simp only [dataSize]; omega)
      (by omega)]

/-- A lower bound of the size of a packfile. -/
theorem le_blobsSize (queue : List BlobEncrypted) (offset : ℕ) :
    36 * queue.length + dataSize queue ≤ blobsSize offset queue := by
  induction queue generalizing offset with
  | nil => exact Nat.zero_le _
  | cons blob blobs ih =>
    have hvarint : ∀ n, 1 ≤ varintSize n := by
      intro n
      unfold varintSize
      split_ifs <;> decide
    have hrest := ih (offset + (blob.data.length + blobNonceSize))
    have hlength := hvarint blob.data.length
    have hoffset := hvarint offset
    simp only [dataSize, List.map_cons, List.sum_cons, List.length_cons, blobsSize, blobSize]
      at hrest ⊢
    omega

/-- An entry that is recorded uses up at most one number. -/
theorem BlobIndex.push_lastFileNum {P : Primitives} {keys : KeyManager} {ix ix' : BlobIndex}
    {folder folder' : Folder} {entry : IndexEntry} {io : FileWrite}
    {r : Except PackfileError Unit} (h : ix.push P keys folder entry io = some (ix', folder', r)) :
    ix'.lastFileNum ≤ ix.lastFileNum + 1 := by
  unfold BlobIndex.push at h
  split at h
  · obtain ⟨-, ⟨-, -, rfl, -⟩ | ⟨-, rfl, -⟩⟩ := BlobIndex.flush_cases h
    · exact Nat.le_refl _
    · exact Nat.le_succ _
  · simp only [Option.some.injEq, Prod.mk.injEq] at h
    obtain ⟨rfl, -, -⟩ := h
    exact Nat.le_succ _

/-- There is a number left for it. -/
theorem BlobIndex.push_isSome {P : Primitives} {keys : KeyManager} {ix : BlobIndex}
    {folder : Folder} {entry : IndexEntry} {io : FileWrite} (h : ix.lastFileNum < u32Max) :
    ∃ x, ix.push P keys folder entry io = some x := by
  have hlt : ¬ u32Max ≤ (ix.buffer entry).lastFileNum := not_le.mpr h
  unfold BlobIndex.push
  split
  · simp only [BlobIndex.flush, if_neg hlt]
    split
    · exact ⟨_, rfl⟩
    · split <;> exact ⟨_, rfl⟩
  · exact ⟨_, rfl⟩

/-- An index with few files does not run out of numbers. -/
theorem finalizePackfile_isSome {P : Primitives} {keys : KeyManager} {id : PackfileId}
    {io : ℕ → FileWrite} {hashes : List BlobHash} {ix : BlobIndex} {folder : Folder}
    (h : ix.lastFileNum + hashes.length ≤ u32Max) :
    finalizePackfile P keys id io ix folder hashes ≠ none := by
  induction hashes generalizing ix folder with
  | nil => simp [finalizePackfile]
  | cons hash hashes ih =>
    simp only [List.length_cons] at h
    obtain ⟨⟨ix₁, folder₁, r⟩, hpush⟩ : ∃ x, ix.push P keys folder (hash, id)
        (io hashes.length) = some x := BlobIndex.push_isSome (by omega)
    have hnum := BlobIndex.push_lastFileNum hpush
    simp only [finalizePackfile, hpush]
    cases r with
    | error e => simp
    | ok _ => exact ih (by omega)

/-- A round does not panic. -/
theorem writePackfile_isSome {P : Primitives} {keys : KeyManager} (hP : P.Lawful) {m : Manager}
    {disk : Disk} {io : PackfileIo} (hqueue : ∀ b ∈ m.blobs, b.data.length ≤ maxEncryptedBlob)
    (hnum : m.index.lastFileNum + min m.blobs.length packfileMaxBlobs ≤ u32Max) :
    ∃ x, m.writePackfile P keys disk io = some x := by
  unfold Manager.writePackfile
  split
  · exact ⟨_, rfl⟩
  · rename_i ix draft rest hfill
    obtain ⟨-, taken, hfilled⟩ := fillDraft_filled hfill
    have hlaid := hfilled.laid [] .empty
    have hbounds := fillDraft_bounds hfill (by decide) hqueue
    obtain ⟨buffer, hser, hsize⟩ :=
      serializePackfile_fits hP keys hlaid io.id hbounds.1 hbounds.2
    have hcount : draft.blobCount ≤ min m.blobs.length packfileMaxBlobs := by
      obtain ⟨popped, hpopped, hcount, -⟩ := fillDraft_popped hfill
      have hle : m.blobs.length = popped.length + rest.length := by
        rw [hpopped, List.length_append]
      simp only [PackfileDraft.empty] at hcount
      exact le_min (by omega) hbounds.1
    have hlast : ix.lastFileNum + draft.blobs.length ≤ u32Max := by
      rw [hfilled.index, hlaid.hashes, List.length_map, ← hlaid.count]
      exact (Nat.add_le_add_left hcount _).trans hnum
    simp only [hser, if_neg (not_lt.mpr hsize)]
    split
    · exact ⟨_, rfl⟩
    · split
      · exact ⟨_, rfl⟩
      · split
        · rename_i hfin
          exact absurd hfin (finalizePackfile_isSome hlast)
        · exact ⟨_, rfl⟩
        · exact ⟨_, rfl⟩

end

theorem smallBlob_hash_inj {i j : ℕ} (hi : i < 16777216) (hj : j < 16777216)
    (h : (smallBlob i).hash = (smallBlob j).hash) : i = j := by
  have hbytes : (leBytes 3 i ++ List.replicate 32 0).take 32
      = (leBytes 3 j ++ List.replicate 32 0).take 32 := congrArg FixedBytes.bytes h
  have htake := congrArg (List.take 3) hbytes
  rw [List.take_take, List.take_take, show min 3 32 = 3 from rfl, List.take_left' (by simp),
    List.take_left' (by simp)] at htake
  rw [← leNat_leBytes 3 i (by omega), htake, leNat_leBytes 3 j (by omega)]

/-- A blob of the maximal size, whose hash no small blob has. -/
theorem exists_largeBlob : ∃ blob : Blob, blob.data.length = blobMaxUncompressedSize ∧
    blob.hash = Primitives.transparent.hash blob.data ∧
    ∀ i, (smallBlob i).hash ≠ blob.hash := by
  obtain ⟨data, hdata⟩ : ∃ data : Bytes, data = List.replicate blobMaxUncompressedSize 255 :=
    ⟨_, rfl⟩
  have hhash : Primitives.transparent.hash data = .fill 255 := by
    refine FixedBytes.ext' ?_
    simp only [Primitives.transparent, hdata, FixedBytes.fill]
    rw [List.take_append_of_le_length (by rw [List.length_replicate]; decide), List.take_replicate]
    rfl
  refine ⟨⟨Primitives.transparent.hash data, .fileChunk, data⟩,
    by rw [hdata, List.length_replicate], rfl, fun i heq => ?_⟩
  have hbytes : (leBytes 3 i ++ List.replicate 32 0).take 32 = List.replicate 32 255 :=
    congrArg FixedBytes.bytes (heq.trans hhash)
  have hdrop := congrArg (List.drop 3) hbytes
  rw [List.drop_take, List.drop_left' (by simp)] at hdrop
  exact absurd (congrArg List.head? hdrop) (by decide)

theorem smallQueue {n : ℕ} (hn : n < 16777216) : ∃ blobs : List Blob,
    (∀ blob ∈ blobs, ∃ i, blob = smallBlob i) ∧ blobs.length = n ∧
      (blobs.map Blob.hash).Nodup := by
  refine ⟨(List.range n).map smallBlob, fun blob hblob => ?_, by simp, ?_⟩
  · obtain ⟨i, -, rfl⟩ := List.mem_map.mp hblob
    exact ⟨i, rfl⟩
  · rw [List.map_map]
    refine List.Nodup.map_on (fun i hi j hj h => ?_) List.nodup_range
    exact smallBlob_hash_inj ((List.mem_range.mp hi).trans hn) ((List.mem_range.mp hj).trans hn) h

/-- The data of small blobs, encrypted, with their nonces. -/
theorem dataSize_small {blobs : List Blob} (h : ∀ blob ∈ blobs, ∃ i, blob = smallBlob i) :
    dataSize (blobs.map queuedBlob) = 31 * blobs.length := by
  induction blobs with
  | nil => rfl
  | cons blob blobs ih =>
    obtain ⟨i, rfl⟩ := h _ List.mem_cons_self
    have hlen : (queuedBlob (smallBlob i)).data.length = 19 := by
      rw [length_queuedBlob (by simp [smallBlob, blobMaxUncompressedSize])]
      simp [smallBlob]
    have hrest := ih fun b hb => h b (List.mem_cons_of_mem _ hb)
    simp only [dataSize, List.map_cons, List.sum_cons, hlen, blobNonceSize, List.length_cons]
      at hrest ⊢
    omega

/-- The small blobs and the large one have different hashes. -/
theorem nodup_hashes_small {blobs : List Blob} {large : Blob}
    (h : ∀ blob ∈ blobs, ∃ i, blob = smallBlob i) (hnodup : (blobs.map Blob.hash).Nodup)
    (hne : ∀ i, (smallBlob i).hash ≠ large.hash) :
    ((blobs.map queuedBlob ++ [queuedBlob large]).map BlobEncrypted.hash).Nodup := by
  have hmap : (blobs.map queuedBlob).map BlobEncrypted.hash = blobs.map Blob.hash := by
    rw [List.map_map]
    rfl
  rw [List.map_append, hmap]
  refine List.nodup_append.mpr ⟨hnodup, List.nodup_singleton _, ?_⟩
  intro hash hmem other hother
  obtain ⟨blob, hblob, rfl⟩ := List.mem_map.mp hmem
  obtain ⟨i, rfl⟩ := h blob hblob
  rw [List.mem_singleton.mp hother]
  exact hne i

/-- None of them is too large for a packfile. -/
theorem bounded_small {blobs : List Blob} {large : Blob}
    (h : ∀ blob ∈ blobs, ∃ i, blob = smallBlob i)
    (hlarge : large.data.length = blobMaxUncompressedSize) :
    ∀ b ∈ blobs.map queuedBlob ++ [queuedBlob large], b.data.length ≤ maxEncryptedBlob := by
  refine List.forall_mem_append.mpr ⟨List.forall_mem_map.mpr fun blob hblob => ?_,
    List.forall_mem_singleton.mpr ?_⟩
  · obtain ⟨i, rfl⟩ := h blob hblob
    rw [length_queuedBlob (by simp [smallBlob, blobMaxUncompressedSize])]
    simp [smallBlob, maxEncryptedBlob]
  · rw [length_queuedBlob hlarge.le, hlarge]
    decide

/-- Eighty thousand blobs of three bytes and one of 3 MiB make a packfile that no peer takes. -/
theorem packfile_not_transportable : ∃ w : World,
    Reach (managerStep .transparent sampleKeys) (fun _ _ => True) .start w ∧
      ¬ AllTransportable w := by
  obtain ⟨large, hlarge, -, hne⟩ := exists_largeBlob
  obtain ⟨n, hn⟩ : ∃ n, n = 80000 := ⟨_, rfl⟩
  obtain ⟨blobs, hsmall, hlength, hnodup⟩ := smallQueue (n := n) (by omega)
  obtain ⟨queue, hqueue⟩ : ∃ queue, queue = blobs.map queuedBlob := ⟨_, rfl⟩
  have hdata : dataSize queue = 31 * n := by rw [hqueue, dataSize_small hsmall, hlength]
  have hcount : queue.length = n := by rw [hqueue, List.length_map, hlength]
  have hlast : (queuedBlob large).data.length = 3145744 := by
    rw [length_queuedBlob hlarge.le, hlarge]
    rfl
  -- all of them are queued
  have hsizes : ∀ blob ∈ blobs, blob.data.length ≤ blobMaxUncompressedSize := by
    intro blob hblob
    obtain ⟨i, rfl⟩ := hsmall blob hblob
    simp [smallBlob, blobMaxUncompressedSize]
  obtain ⟨calls, hcalls, hreach⟩ := queue_reached_all [] hsizes (List.forall_mem_nil _)
  have hreach' := queue_reached queue hlarge.le hcalls
  have hover : Manager.overTarget ⟨queue ++ [queuedBlob large], newIndex, 0⟩ = true := by
    simp only [Manager.overTarget, newIndex_unknown, Bool.not_false, List.filter_true,
      List.map_append, List.sum_append, List.map_cons, List.map_nil, List.sum_cons, List.sum_nil,
      hlast, decide_eq_true_eq, packfileTargetSize]
    omega
  rw [hover, if_pos rfl] at hreach'
  -- and make one packfile
  have hhashes : ((queue ++ [queuedBlob large]).map BlobEncrypted.hash).Nodup :=
    hqueue ▸ nodup_hashes_small hsmall hnodup hne
  have hnext : nextPackfile newIndex (queue ++ [queuedBlob large])
      = queue ++ [queuedBlob large] := by
    rw [nextPackfile, unknown_newIndex hhashes]
    refine untilFull_append ?_ ?_
    · simp only [hdata, packfileTargetSize]
      omega
    · simp only [hcount, packfileMaxBlobs]
      omega
  have hbounded : ∀ b ∈ queue ++ [queuedBlob large], b.data.length ≤ maxEncryptedBlob :=
    hqueue ▸ bounded_small hsmall hlarge
  have hcan : ∃ x, Manager.writePackfile .transparent sampleKeys
      ⟨queue ++ [queuedBlob large], newIndex, 0⟩ .empty ⟨.fill 9, .ok, fun _ => .ok⟩ = some x :=
    writePackfile_isSome Primitives.transparent_lawful hbounded
      ((Nat.add_le_add_left (min_le_right _ _) _).trans
        (show 0 + packfileMaxBlobs ≤ u32Max by decide))
  obtain ⟨⟨m, disk, r⟩, hwrite⟩ := hcan
  have hlock : managerStep .transparent sampleKeys
      (adding (calls ++ [⟨large, .overTarget⟩]) (queue ++ [queuedBlob large]))
      (.lock calls.length)
        = some (adding (calls ++ [⟨large, .writing false⟩]) (queue ++ [queuedBlob large])) := by
    simpa [managerStep, adding, World.inCall, World.unlocked, World.setPc,
      show AddPc.overTarget.isWriting = false from rfl] using hcalls
  obtain ⟨w, hround, hdisk⟩ : ∃ w, managerStep .transparent sampleKeys
      (adding (calls ++ [⟨large, .writing false⟩]) (queue ++ [queuedBlob large]))
      (.write calls.length ⟨.fill 9, .ok, fun _ => .ok⟩) = some w ∧ w.disk = disk := by
    simp [managerStep, adding, World.inCall, World.setPc, World.setManager, hwrite]
  have hopen : managerStep .transparent sampleKeys .start (.openManager [] [] 0)
      = some (adding [] []) := rfl
  rw [List.nil_append, ← hqueue] at hreach
  refine ⟨w, .tail _ (.tail _ (.head _ trivial hopen (hreach.trans hreach')) trivial hlock)
    trivial hround, fun hall => ?_⟩
  -- which is too large
  obtain ⟨-, ⟨-, hnone⟩ | ⟨-, content, hlen, hput⟩⟩ :=
    writePackfile_put Primitives.transparent_lawful hbounded hwrite
  · rw [hnext] at hnone
    simp [Disk.empty] at hnone
  · have hcontent : w.disk.packfiles (.fill 9) = some content := by
      rw [hdisk, hput]
      simp only [Disk.put, Function.update_self]
    have hfits := transportable_iff.mp (hall _ _ hcontent)
    have hsum : dataSize (queue ++ [queuedBlob large]) = dataSize queue + 3145756 := by
      simp [dataSize, hlast, blobNonceSize]
    have hle := le_blobsSize (queue ++ [queuedBlob large]) 0
    rw [hsum, hdata, List.length_append, hcount, List.length_singleton] at hle
    rw [hlen, hnext] at hfits
    simp only [FileWrite.written, packfileSize, messageOverhead, maxEncapsulatedBackupChunkSize]
      at hfits
    omega

end Backuwup.Client
