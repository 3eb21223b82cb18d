/-
# What a written packfile holds

`ManagerOk` is the invariant of an open manager and its folder: every entry of the index belongs
to a packfile that is complete and gives back a blob that was added (`Stored`), and the queue
holds such blobs encrypted.  It survives a round of `write_packfiles` however the I/O of that
round ends (`ManagerOk.writePackfile`).

What a failed round can break is that known hashes have an entry, since it has taken its blobs
off the queue already.  `Kept` says that they do; it survives the rounds in which no blob is
lost (`Kept.writePackfile`), and in those no hash that could be found is lost either.

The sizes add up: no packfile exceeds `PACKFILE_MAX_SIZE` (`serializePackfile_fits`).
-/
import Backuwup.Client.Packfile.Entries

namespace Backuwup.Client

variable {P : Primitives} {keys : KeyManager}

/-! ## 1. Filling a packfile -/

/-- The largest encrypted blob: the bound of the compressor on 3 MiB, and the tag. -/
def maxEncryptedBlob : ℕ := 3158096

theorem BlobIndex.isBlobDuplicate_iff {ix : BlobIndex} {hash : BlobHash} :
    ix.isBlobDuplicate hash = true ↔
      hash ∈ ix.blobsQueued ∨ ∃ id, ix.findPackfile hash = some id := by
  simp [BlobIndex.isBlobDuplicate, Option.isSome_iff_exists]

/-- The packfile has taken some blobs off the queue and passed over others that are known. -/
structure Filled (ix : BlobIndex) (draft : PackfileDraft) (blobs : List BlobEncrypted)
    (ix' : BlobIndex) (draft' : PackfileDraft) (rest taken : List BlobEncrypted) : Prop where
  queue : ∃ passed, blobs = passed ++ rest ∧ taken ⊆ passed ∧
    ∀ b ∈ passed, ix'.isBlobDuplicate b.hash = true
  laid : ∀ laid, Laid draft laid → Laid draft' (laid ++ taken)
  index : ix' = { ix with blobsQueued := (taken.map BlobEncrypted.hash).reverse ++ ix.blobsQueued }

section

variable {blobs rest : List BlobEncrypted} {ix ix' : BlobIndex} {draft draft' : PackfileDraft}
  {r : Except PackfileError Unit}

/-- A known blob is passed over.  The index never refuses a blob that is not known; the packfile
takes it, and is closed or goes on. -/
theorem fillDraft_cons {blob : BlobEncrypted}
    (h : fillDraft ix draft (blob :: blobs) = (ix', draft', rest, r)) :
    (ix.isBlobDuplicate blob.hash = true ∧ fillDraft ix draft blobs = (ix', draft', rest, r)) ∨
    (ix' = { ix with blobsQueued := blob.hash :: ix.blobsQueued } ∧ draft' = draft.add blob ∧
      rest = blobs ∧ r = .ok ()) ∨
    (¬ (draft.add blob).Full ∧
      fillDraft { ix with blobsQueued := blob.hash :: ix.blobsQueued } (draft.add blob) blobs
        = (ix', draft', rest, r)) := by
  rw [fillDraft] at h
  split at h
  · rename_i hdup
    exact Or.inl ⟨hdup, h⟩
  · rename_i hdup
    have hnew : blob.hash ∉ ix.blobsQueued := by
      intro hmem
      exact hdup (BlobIndex.isBlobDuplicate_iff.mpr (Or.inl hmem))
    simp only [BlobIndex.addToPackfile, if_neg hnew] at h
    split at h
    · simp only [Prod.mk.injEq] at h
      obtain ⟨rfl, rfl, rfl, rfl⟩ := h
      exact Or.inr (Or.inl ⟨rfl, rfl, rfl, rfl⟩)
    · rename_i hfull
      exact Or.inr (Or.inr ⟨hfull, h⟩)

theorem fillDraft_filled (h : fillDraft ix draft blobs = (ix', draft', rest, r)) :
    r = .ok () ∧ ∃ taken, Filled ix draft blobs ix' draft' rest taken := by
  induction blobs generalizing ix draft with
  | nil =>
    simp only [fillDraft, Prod.mk.injEq] at h
    obtain ⟨rfl, rfl, rfl, rfl⟩ := h
    exact ⟨rfl, [], ⟨[], rfl, List.Subset.refl _, by simp⟩, by simp, rfl⟩
  | cons blob blobs ih =>
    obtain ⟨hdup, h⟩ | ⟨rfl, rfl, rfl, rfl⟩ | ⟨-, h⟩ := fillDraft_cons h
    · obtain ⟨hr, taken, ⟨passed, rfl, hsub, hknown⟩, hlaid, rfl⟩ := ih h
      refine ⟨hr, taken, ⟨blob :: passed, rfl, List.subset_cons_of_subset _ hsub, ?_⟩, hlaid, rfl⟩
      intro b hb
      rcases List.mem_cons.mp hb with rfl | hb
      · exact BlobIndex.isBlobDuplicate_iff.mpr <|
          (BlobIndex.isBlobDuplicate_iff.mp hdup).imp_left fun h => List.mem_append_right _ h
      · exact hknown b hb
    · refine ⟨rfl, [blob], ⟨[blob], rfl, List.Subset.refl _, ?_⟩, fun laid hl => hl.add blob, rfl⟩
      intro b hb
      rw [List.mem_singleton.mp hb]
      exact BlobIndex.isBlobDuplicate_iff.mpr (Or.inl List.mem_cons_self)
    · obtain ⟨hr, taken, ⟨passed, rfl, hsub, hknown⟩, hlaid, rfl⟩ := ih h
      refine ⟨hr, blob :: taken, ⟨blob :: passed, rfl, List.cons_subset_cons _ hsub, ?_⟩, ?_, ?_⟩
      · intro b hb
        rcases List.mem_cons.mp hb with rfl | hb
        · exact BlobIndex.isBlobDuplicate_iff.mpr (Or.inl (by simp))
        · exact hknown b hb
      · intro laid hl
        have := hlaid _ (hl.add blob)
        rwa [List.append_assoc, List.singleton_append] at this
      · simp

/-- What the inner loop leaves is the end of the queue.  It has popped at least one blob, and no
fewer than it has put into the packfile. -/
theorem fillDraft_popped (h : fillDraft ix draft blobs = (ix', draft', rest, r)) :
    ∃ popped, blobs = popped ++ rest ∧ draft'.blobCount ≤ draft.blobCount + popped.length ∧
      (blobs ≠ [] → popped ≠ []) := by
  induction blobs generalizing ix draft with
  | nil =>
    simp only [fillDraft, Prod.mk.injEq] at h
    obtain ⟨-, rfl, rfl, -⟩ := h
    exact ⟨[], rfl, Nat.le_refl _, absurd rfl⟩
  | cons blob blobs ih =>
    obtain ⟨-, h⟩ | ⟨-, rfl, rfl, -⟩ | ⟨-, h⟩ := fillDraft_cons h
    · obtain ⟨popped, rfl, hcount, -⟩ := ih h
      exact ⟨blob :: popped, rfl, by simp only [List.length_cons]; omega, by simp⟩
    · exact ⟨[blob], rfl, Nat.le_refl _, by simp⟩
    · obtain ⟨popped, rfl, hcount, -⟩ := ih h
      refine ⟨blob :: popped, rfl, ?_, by simp⟩
      simp only [PackfileDraft.add] at hcount
      simp only [List.length_cons]
      omega

/-- The packfile is full as soon as it has reached its target, so it goes over it by one blob
at most. -/
theorem fillDraft_bounds (h : fillDraft ix draft blobs = (ix', draft', rest, r))
    (hfull : ¬ draft.Full) (hlen : ∀ b ∈ blobs, b.data.length ≤ maxEncryptedBlob) :
    draft'.blobCount ≤ packfileMaxBlobs ∧
      draft'.bytesWritten ≤ packfileTargetSize + maxEncryptedBlob + blobNonceSize := by
  induction blobs generalizing ix draft with
  | nil =>
    simp only [fillDraft, Prod.mk.injEq] at h
    obtain ⟨-, rfl, -, -⟩ := h
    simp only [PackfileDraft.Full] at hfull
    omega
  | cons blob blobs ih =>
    have hblobs := fun b hb => hlen b (List.mem_cons_of_mem _ hb)
    obtain ⟨-, h⟩ | ⟨-, rfl, -, -⟩ | ⟨hfull', h⟩ := fillDraft_cons h
    · exact ih h hfull hblobs
    · have := hlen blob List.mem_cons_self
      simp only [PackfileDraft.Full] at hfull
      simp only [PackfileDraft.add]
      omega
    · exact ih h hfull' hblobs

end

theorem headerBlobCodec_length_le (b : PackfileHeaderBlob) :
    (headerBlobCodec.enc b).length ≤ 68 := by
  have h1 := Bincode.varintEnc_length_le b.kind.tag
  have h2 := Bincode.varintEnc_length_le b.compression.tag
  have h3 := Bincode.varintEnc_length_le b.length
  have h4 := Bincode.varintEnc_length_le b.offset
  have henc : headerBlobCodec.enc b = b.hash.bytes ++ (Bincode.varintEnc b.kind.tag ++
      (Bincode.varintEnc b.compression.tag ++
        (Bincode.varintEnc b.length ++ Bincode.varintEnc b.offset))) := rfl
  simp only [henc, List.length_append, b.hash.length_eq]
  omega

/-- A packfile that holds no more than a draft does can be encrypted and stays within
`PACKFILE_MAX_SIZE`. -/
theorem serializePackfile_fits (hP : P.Lawful) (keys : KeyManager) {draft : PackfileDraft}
    {blobs : List BlobEncrypted} (hlaid : Laid draft blobs) (id : PackfileId)
    (hcount : draft.blobCount ≤ packfileMaxBlobs)
    (hbytes : draft.bytesWritten ≤ packfileTargetSize + maxEncryptedBlob + blobNonceSize) :
    ∃ buffer, serializePackfile P keys id draft = some buffer ∧
      buffer.length ≤ packfileMaxSize := by
  have hheader : draft.header.length = draft.blobCount := by
    rw [hlaid.located.length_eq, hlaid.count]
  have hle := Codec.encAll_length_le headerBlobCodec (m := 68) draft.header
    fun b _ => headerBlobCodec_length_le b
  have hv := Bincode.varintEnc_length_le draft.header.length
  have henc : (headerCodec.enc draft.header).length
      = (Bincode.varintEnc draft.header.length).length
        + (headerBlobCodec.encAll draft.header).length := List.length_append
  simp only [packfileMaxBlobs, packfileTargetSize, maxEncryptedBlob, blobNonceSize]
    at hcount hbytes
  have hmax : (headerCodec.enc draft.header).length ≤ aesGcmMaxPlaintext := by
    simp only [aesGcmMaxPlaintext]
    omega
  refine ⟨_, by rw [serializePackfile, Primitives.encryptInPlace, if_pos hmax]; rfl, ?_⟩
  have hdata := hlaid.written
  simp only [List.length_append, leBytes_length, hP.encrypt_length _ _ _ hmax, packfileMaxSize]
  omega

/-! ## 2. Creating the file -/

theorem Disk.create_cases (disk : Disk) (id : PackfileId) (buffer : Bytes) (io : FileWrite) :
    (disk.packfiles id = none ∧ io = .ok ∧
      disk.create id buffer io = (disk.put id buffer, .ok ())) ∨
    ((disk.packfiles id ≠ none ∨ io = .createFails) ∧
      disk.create id buffer io = (disk, .error .ioError)) ∨
    ∃ n, disk.packfiles id = none ∧ io = .writeFails n ∧
      disk.create id buffer io = (disk.put id (buffer.take n), .error .ioError) := by
  unfold Disk.create
  cases hid : disk.packfiles id with
  | some content => exact Or.inr (Or.inl ⟨Or.inl (by simp), rfl⟩)
  | none =>
    cases io with
    | ok => exact Or.inl ⟨rfl, rfl, rfl⟩
    | createFails => exact Or.inr (Or.inl ⟨Or.inr rfl, rfl⟩)
    | writeFails n => exact Or.inr (Or.inr ⟨n, rfl, rfl, rfl⟩)

/-- Packfiles are never overwritten. -/
theorem Disk.put_packfiles {disk : Disk} {id id' : PackfileId} {content content' : Bytes}
    (hnew : disk.packfiles id = none) (h : disk.packfiles id' = some content') :
    (disk.put id content).packfiles id' = some content' := by
  have hne : id' ≠ id := by
    rintro rfl
    rw [hnew] at h
    cases h
  simp only [Disk.put, Function.update_of_ne hne, h]

/-! ## 3. The invariant of a manager -/

/-- The packfile of the entry is complete and gives back, under the hash of the entry, a blob
that was added. -/
def Stored (P : Primitives) (keys : KeyManager) (added : List Blob) (disk : Disk)
    (e : IndexEntry) : Prop :=
  ∃ draft buffer, disk.packfiles e.2 = some buffer ∧
    serializePackfile P keys e.2 draft = some buffer ∧ e.1 ∈ draft.blobs ∧
    ∃ p ∈ added, p.data.length ≤ blobMaxUncompressedSize ∧ p.hash = e.1 ∧
      readBlob P keys e.2 buffer e.1 = .ok p

structure ManagerOk (P : Primitives) (keys : KeyManager) (added : List Blob) (m : Manager)
    (disk : Disk) : Prop where
  files : FilesOk P keys m.index disk.index
  stored : ∀ e, Recorded P keys m.index disk.index e → Stored P keys added disk e
  queue : ∀ b ∈ m.blobs, ∃ p ∈ added, EncryptedFrom P keys b p

/-- Every known hash has an entry. -/
structure Kept (P : Primitives) (keys : KeyManager) (m : Manager) (disk : Disk) : Prop where
  items : ∀ e ∈ m.index.items, Recorded P keys m.index disk.index e
  queued : ∀ hash ∈ m.index.blobsQueued, ∃ id, Recorded P keys m.index disk.index (hash, id)

/-- The hash has an entry or is in the queue. -/
def Findable (P : Primitives) (keys : KeyManager) (m : Manager) (disk : Disk)
    (hash : BlobHash) : Prop :=
  (∃ id, Recorded P keys m.index disk.index (hash, id)) ∨ ∃ b ∈ m.blobs, b.hash = hash

theorem Kept.of_isBlobDuplicate {m : Manager} {disk : Disk} (h : Kept P keys m disk)
    {hash : BlobHash} (hdup : m.index.isBlobDuplicate hash = true) :
    ∃ id, Recorded P keys m.index disk.index (hash, id) := by
  rcases BlobIndex.isBlobDuplicate_iff.mp hdup with hq | ⟨id, hfind⟩
  · exact h.queued hash hq
  · exact ⟨id, h.items _ (Search.lookup_eq_some_mem hfind)⟩

theorem EncryptedFrom.length_le (hP : P.Lawful) {b : BlobEncrypted} {p : Blob}
    (h : EncryptedFrom P keys b p) : b.data.length ≤ maxEncryptedBlob := by
  obtain ⟨hsize, henc⟩ := h
  obtain ⟨cipher, hcipher, hb⟩ := Option.map_eq_some_iff.mp henc
  obtain ⟨hmax, rfl⟩ := Primitives.encryptInPlace_eq_some hcipher
  have hc := hP.compress_length p.data
  rw [← hb]
  simp only [blobMaxUncompressedSize] at hsize
  simp only [hP.encrypt_length _ _ _ hmax, maxEncryptedBlob]
  omega

/-- The stored blobs stay when the disk grows and more blobs are added. -/
theorem Stored.mono {added added' : List Blob} {disk disk' : Disk} {e : IndexEntry}
    (hadd : added ⊆ added')
    (hdisk : ∀ id content, disk.packfiles id = some content → disk'.packfiles id = some content)
    (h : Stored P keys added disk e) : Stored P keys added' disk' e := by
  obtain ⟨draft, buffer, hfile, hser, hmem, p, hp, hrest⟩ := h
  exact ⟨draft, buffer, hdisk _ _ hfile, hser, hmem, p, hadd hp, hrest⟩

/-! ## 4. One round of `write_packfiles` -/

section

variable {added : List Blob} {m m' : Manager} {disk disk' : Disk} {io : PackfileIo}
  {r : Except PackfileError Bool}

/-- What a round does with the draft that it has filled. -/
inductive WriteRound (P : Primitives) (keys : KeyManager) (m : Manager) (disk : Disk)
    (io : PackfileIo) (ix : BlobIndex) (draft : PackfileDraft) (rest : List BlobEncrypted) :
    Manager → Disk → Except PackfileError Bool → Prop
  | nothing : draft.blobCount = 0 → WriteRound P keys m disk io ix draft rest
      { m with index := ix, blobs := rest } disk (.ok false)
  | notEncrypted : draft.blobCount ≠ 0 → serializePackfile P keys io.id draft = none →
      WriteRound P keys m disk io ix draft rest
        { m with index := ix, blobs := rest } disk (.error .cryptoError)
  | notCreated (buffer : Bytes) : draft.blobCount ≠ 0 →
      serializePackfile P keys io.id draft = some buffer → buffer.length ≤ packfileMaxSize →
      (disk.packfiles io.id ≠ none ∨ io.file = .createFails) →
      WriteRound P keys m disk io ix draft rest
        { m with index := ix, blobs := rest } disk (.error .ioError)
  | torn (buffer : Bytes) (n : ℕ) : draft.blobCount ≠ 0 →
      serializePackfile P keys io.id draft = some buffer → buffer.length ≤ packfileMaxSize →
      disk.packfiles io.id = none → io.file = .writeFails n →
      WriteRound P keys m disk io ix draft rest
        { m with index := ix, blobs := rest } (disk.put io.id (buffer.take n)) (.error .ioError)
  | notRecorded (buffer : Bytes) (ix' : BlobIndex) (folder : Folder) (e : PackfileError) :
      draft.blobCount ≠ 0 → serializePackfile P keys io.id draft = some buffer →
      buffer.length ≤ packfileMaxSize → disk.packfiles io.id = none → io.file = .ok →
      finalizePackfile P keys io.id io.flush ix disk.index draft.blobs
        = some (ix', folder, .error e) →
      WriteRound P keys m disk io ix draft rest { m with index := ix', blobs := rest }
        { disk.put io.id buffer with index := folder } (.error e)
  | written (buffer : Bytes) (ix' : BlobIndex) (folder : Folder) :
      draft.blobCount ≠ 0 → serializePackfile P keys io.id draft = some buffer →
      buffer.length ≤ packfileMaxSize → disk.packfiles io.id = none → io.file = .ok →
      finalizePackfile P keys io.id io.flush ix disk.index draft.blobs
        = some (ix', folder, .ok ()) →
      WriteRound P keys m disk io ix draft rest
        ⟨rest, ix', m.packfilesSize + buffer.length⟩ { disk.put io.id buffer with index := folder }
        (.ok (decide (maxPackfileLocalBufferSize < m.packfilesSize)))

theorem round_of_writePackfile (hwrite : m.writePackfile P keys disk io = some (m', disk', r)) :
    ∃ ix draft rest taken, fillDraft m.index .empty m.blobs = (ix, draft, rest, .ok ()) ∧
      Filled m.index .empty m.blobs ix draft rest taken ∧
      WriteRound P keys m disk io ix draft rest m' disk' r := by
  unfold Manager.writePackfile at hwrite
  split at hwrite
  · -- the inner loop does not fail
    rename_i hfill
    cases (fillDraft_filled hfill).1
  · rename_i ix draft rest hfill
    obtain ⟨-, taken, hfilled⟩ := fillDraft_filled hfill
    refine ⟨ix, draft, rest, taken, hfill, hfilled, ?_⟩
    split at hwrite
    · rename_i hzero
      simp only [Option.some.injEq, Prod.mk.injEq] at hwrite
      obtain ⟨rfl, rfl, rfl⟩ := hwrite
      exact .nothing hzero
    · rename_i hcount
      split at hwrite
      · rename_i hser
        simp only [Option.some.injEq, Prod.mk.injEq] at hwrite
        obtain ⟨rfl, rfl, rfl⟩ := hwrite
        exact .notEncrypted hcount hser
      · rename_i buffer hser
        obtain ⟨hsize, hwrite⟩ := Option.ite_none_left_eq_some.mp hwrite
        have hlen : buffer.length ≤ packfileMaxSize := not_lt.mp hsize
        obtain ⟨hnone, hio, hcreate⟩ | ⟨hfail, hcreate⟩ | ⟨n, hnone, hio, hcreate⟩ :=
          disk.create_cases io.id buffer io.file
        · simp only [hcreate] at hwrite
          split at hwrite
          · cases hwrite
          · rename_i hfin
            simp only [Option.some.injEq, Prod.mk.injEq] at hwrite
            obtain ⟨rfl, rfl, rfl⟩ := hwrite
            exact .notRecorded buffer _ _ _ hcount hser hlen hnone hio hfin
          · rename_i hfin
            simp only [Option.some.injEq, Prod.mk.injEq] at hwrite
            obtain ⟨rfl, rfl, rfl⟩ := hwrite
            exact .written buffer _ _ hcount hser hlen hnone hio hfin
        · simp only [hcreate, Option.some.injEq, Prod.mk.injEq] at hwrite
          obtain ⟨rfl, rfl, rfl⟩ := hwrite
          exact .notCreated buffer hcount hser hlen hfail
        · simp only [hcreate, Option.some.injEq, Prod.mk.injEq] at hwrite
          obtain ⟨rfl, rfl, rfl⟩ := hwrite
          exact .torn buffer n hcount hser hlen hnone hio

/-- Whatever a round does, the queue after it is what the draft has left. -/
theorem WriteRound.blobs {ix : BlobIndex} {draft : PackfileDraft} {rest : List BlobEncrypted}
    (h : WriteRound P keys m disk io ix draft rest m' disk' r) : m'.blobs = rest := by
  cases h <;> rfl

/-- The blobs in the queue of a manager in order are not too large for a packfile. -/
theorem ManagerOk.queue_le (hP : P.Lawful) (h : ManagerOk P keys added m disk) :
    ∀ b ∈ m.blobs, b.data.length ≤ maxEncryptedBlob := by
  intro b hb
  obtain ⟨p, -, hp⟩ := h.queue b hb
  exact hp.length_le hP

/-- What a round of a manager in order does: it takes blobs off the queue, and then has nothing to
write, fails to write the packfile, or writes it and records it as far as the index flushes
succeed. -/
theorem writePackfile_cases (hP : P.Lawful)
    (hqueue : ∀ b ∈ m.blobs, b.data.length ≤ maxEncryptedBlob)
    (hwrite : m.writePackfile P keys disk io = some (m', disk', r)) :
    ∃ ix draft taken, Filled m.index .empty m.blobs ix draft m'.blobs taken ∧
      (fillDraft m.index .empty m.blobs = (ix, draft, m'.blobs, .ok ()) ∧
        taken.length ≤ packfileMaxBlobs) ∧
      ((taken = [] ∧ m'.index = ix ∧ disk' = disk ∧ r = .ok false) ∨
       (m'.index = ix ∧ (∃ e, r = .error e) ∧ (disk.packfiles io.id ≠ none ∨ io.file ≠ .ok) ∧
          (disk' = disk ∨
            disk.packfiles io.id = none ∧ ∃ content, disk' = disk.put io.id content)) ∨
       (∃ buffer folder r', disk.packfiles io.id = none ∧ io.file = .ok ∧
          serializePackfile P keys io.id draft = some buffer ∧ buffer.length ≤ packfileMaxSize ∧
          finalizePackfile P keys io.id io.flush ix disk.index draft.blobs
            = some (m'.index, folder, r') ∧
          disk' = { disk.put io.id buffer with index := folder } ∧
          ((r' = .ok () ∧ ∃ e, r = .ok e) ∨ (r' ≠ .ok () ∧ ∃ e, r = .error e)))) := by
  obtain ⟨ix, draft, rest, taken, hfill, hfilled, hround⟩ := round_of_writePackfile hwrite
  have hlaid := hfilled.laid [] .empty
  have hbounds := fillDraft_bounds hfill (by decide) hqueue
  have hcount : taken.length ≤ packfileMaxBlobs := hlaid.count ▸ hbounds.1
  refine ⟨ix, draft, taken, hround.blobs ▸ hfilled, ⟨hround.blobs ▸ hfill, hcount⟩, ?_⟩
  cases hround with
  | nothing hzero =>
    rw [hlaid.count, List.nil_append] at hzero
    exact Or.inl ⟨List.length_eq_zero_iff.mp hzero, rfl, rfl, rfl⟩
  | notEncrypted _ hnone =>
    obtain ⟨buffer, hser, -⟩ := serializePackfile_fits hP keys hlaid io.id hbounds.1 hbounds.2
    cases hnone.symm.trans hser
  | notCreated buffer _ _ _ hfail =>
    exact Or.inr (Or.inl ⟨rfl, ⟨_, rfl⟩, hfail.imp_right fun hio => by simp [hio], Or.inl rfl⟩)
  | torn buffer n _ _ _ hnone hio =>
    exact Or.inr (Or.inl ⟨rfl, ⟨_, rfl⟩, Or.inr (by simp [hio]), Or.inr ⟨hnone, _, rfl⟩⟩)
  | notRecorded buffer ix' folder e _ hser hsize hnone hio hfin =>
    exact Or.inr (Or.inr ⟨buffer, folder, _, hnone, hio, hser, hsize, hfin, rfl,
      Or.inr ⟨by simp, _, rfl⟩⟩)
  | written buffer ix' folder _ hser hsize hnone hio hfin =>
    exact Or.inr (Or.inr ⟨buffer, folder, _, hnone, hio, hser, hsize, hfin, rfl,
      Or.inl ⟨rfl, _, rfl⟩⟩)

/-- The queue after a round is a part of the queue before it. -/
theorem Filled.rest_subset {ix ix' : BlobIndex} {draft draft' : PackfileDraft}
    {blobs rest taken : List BlobEncrypted} (h : Filled ix draft blobs ix' draft' rest taken) :
    rest ⊆ blobs := by
  obtain ⟨passed, rfl, -⟩ := h.queue
  exact List.subset_append_right _ _

theorem Filled.taken_subset {ix ix' : BlobIndex} {draft draft' : PackfileDraft}
    {blobs rest taken : List BlobEncrypted} (h : Filled ix draft blobs ix' draft' rest taken) :
    taken ⊆ blobs := by
  obtain ⟨passed, rfl, hsub, -⟩ := h.queue
  exact List.Subset.trans hsub (List.subset_append_left _ _)

/-- A round never replaces a packfile. -/
theorem writePackfile_packfiles (hP : P.Lawful) (h : ManagerOk P keys added m disk)
    (hwrite : m.writePackfile P keys disk io = some (m', disk', r)) {id : PackfileId}
    {content : Bytes} (hid : disk.packfiles id = some content) :
    disk'.packfiles id = some content := by
  obtain ⟨ix, draft, taken, -, -, ⟨-, -, rfl, -⟩ | ⟨-, -, -, rfl | ⟨hnone, buffer, rfl⟩⟩ |
    ⟨buffer, folder, r', hnone, -, -, -, -, rfl, -⟩⟩ :=
      writePackfile_cases hP (h.queue_le hP) hwrite
  · exact hid
  · exact hid
  · exact Disk.put_packfiles hnone hid
  · have hput : (disk.put io.id buffer).packfiles id = some content :=
      Disk.put_packfiles hnone hid
    exact hput

/-- The invariant survives a round, however its I/O ends. -/
theorem ManagerOk.writePackfile (hP : P.Lawful)
    (hrej : ∀ k, io.flush k ≠ .ok → P.RejectsTruncated) (h : ManagerOk P keys added m disk)
    (hwrite : m.writePackfile P keys disk io = some (m', disk', r)) :
    ManagerOk P keys added m' disk' := by
  have hgrow : ∀ id content, disk.packfiles id = some content →
      disk'.packfiles id = some content := fun _ _ => writePackfile_packfiles hP h hwrite
  obtain ⟨ix, draft, taken, hfilled, -, hcase⟩ := writePackfile_cases hP (h.queue_le hP) hwrite
  have hqueue : ∀ b ∈ m'.blobs, ∃ p ∈ added, EncryptedFrom P keys b p :=
    fun b hb => h.queue b (hfilled.rest_subset hb)
  have hstored : ∀ e, Recorded P keys m.index disk.index e → Stored P keys added disk' e :=
    fun e he => (h.stored e he).mono (List.Subset.refl _) hgrow
  have hix := hfilled.index
  obtain ⟨-, hm, rfl, -⟩ | ⟨hm, -, -, hdisk⟩ |
    ⟨buffer, folder, r', hnone, -, hser, hsize, hfin, rfl, -⟩ := hcase
  · rw [hix] at hm
    exact ⟨hm ▸ h.files, fun e he => hstored e (by rw [hm] at he; exact he), hqueue⟩
  · rw [hix] at hm
    have hidx : disk'.index = disk.index := by
      rcases hdisk with rfl | ⟨-, buffer, rfl⟩ <;> rfl
    exact ⟨hidx ▸ hm ▸ h.files, fun e he => hstored e (by rw [hm, hidx] at he; exact he), hqueue⟩
  · have hfiles : FilesOk P keys ix disk.index := hix ▸ h.files
    obtain ⟨hfiles', -, -, done, hdone, hrec, -⟩ := finalizePackfile_recorded hP hrej hfiles hfin
    refine ⟨hfiles', ?_, hqueue⟩
    intro e he
    rcases (hrec e).mp he with he | ⟨hash, hmem, rfl⟩
    · exact hstored e (by rw [hix] at he; exact he)
    · -- a blob of the new packfile
      obtain ⟨p, hp, hhash, hread⟩ := readBlob_serialize hP
        (hfilled.laid [] .empty) hser hsize
        (added.filter fun p => p.data.length ≤ blobMaxUncompressedSize)
        (fun b hb => by
          obtain ⟨p, hp, henc⟩ := h.queue b (hfilled.taken_subset hb)
          exact ⟨p, List.mem_filter.mpr ⟨hp, by simpa using henc.1⟩, henc⟩)
        (hdone hmem)
      obtain ⟨hp, hplen⟩ := List.mem_filter.mp hp
      exact ⟨draft, buffer, Function.update_self _ _ _, hser, hdone hmem, p, hp,
        by simpa using hplen, hhash, hread⟩

/-- The I/O of a round in which no blob is lost: the packfile is written, and no index flush
fails before the last of its blobs is recorded. -/
def PackfileIo.LosesNone (io : PackfileIo) (m : Manager) (disk : Disk) : Prop :=
  disk.packfiles io.id = none ∧ io.file = .ok ∧ (∀ k, 0 < k → io.flush k = .ok) ∧
    m.index.itemsBuf.length + packfileMaxBlobs ≤ maxEncryptableEntries

/-- A round that loses no blob, or returns `Ok`, keeps an entry for every known hash, and every
hash that can be found. -/
theorem Kept.writePackfile (hP : P.Lawful) (hrej : ∀ k, io.flush k ≠ .ok → P.RejectsTruncated)
    (h : ManagerOk P keys added m disk) (hk : Kept P keys m disk)
    (hio : io.LosesNone m disk ∨ ∃ e, r = .ok e)
    (hwrite : m.writePackfile P keys disk io = some (m', disk', r)) :
    Kept P keys m' disk' ∧
      ∀ hash, Findable P keys m disk hash → Findable P keys m' disk' hash := by
  obtain ⟨ix, draft, taken, hfilled, ⟨-, hcount⟩, hcase⟩ :=
    writePackfile_cases hP (h.queue_le hP) hwrite
  have hix := hfilled.index
  -- in every case the known hashes are those of the filled index, and all have an entry
  have hkept : Kept P keys m' disk' ∧ m'.index.items = ix.items ∧
      m'.index.blobsQueued = ix.blobsQueued ∧
      ∀ e, Recorded P keys m.index disk.index e → Recorded P keys m'.index disk'.index e := by
    obtain ⟨rfl, hm, rfl, -⟩ | ⟨-, ⟨e, hr⟩, hfail, -⟩ |
      ⟨buffer, folder, r', -, -, -, -, hfin, rfl, hr⟩ := hcase
    · rw [hix] at hm
      refine ⟨⟨?_, ?_⟩, by rw [hm, hix], by rw [hm, hix], ?_⟩
      · intro e he
        rw [hm] at he ⊢
        exact hk.items e he
      · intro hash hq
        rw [hm] at hq ⊢
        exact hk.queued hash hq
      · intro e he
        rw [hm]
        exact he
    · obtain ⟨hnone, hfile, -⟩ | ⟨e', hr'⟩ := hio
      · exact absurd hfail (by simp [hnone, hfile])
      · cases hr.symm.trans hr'
    · have hfiles : FilesOk P keys ix disk.index := hix ▸ h.files
      obtain ⟨-, hitems, hqueued, done, -, hrec, hdone⟩ :=
        finalizePackfile_recorded hP hrej hfiles hfin
      have hall : ∀ hash ∈ draft.blobs, Recorded P keys m'.index folder (hash, io.id) := by
        obtain ⟨-, -, hflush, hbuf⟩ | ⟨e, rfl⟩ := hio
        · have hlen : ix.itemsBuf.length + draft.blobs.length ≤ maxEncryptableEntries := by
            have hhashes := (hfilled.laid [] .empty).hashes
            rw [hhashes, hix, List.length_map, List.nil_append]
            exact le_trans (Nat.add_le_add_left hcount _) hbuf
          exact finalizePackfile_all hP hrej hflush hfiles hlen hfin
        · have hr' : r' = .ok () := hr.elim (fun h => h.1) fun h => by simp at h
          intro hash hmem
          exact (hrec _).mpr (Or.inr ⟨hash, hdone hr' ▸ hmem, rfl⟩)
      have hold : ∀ e, Recorded P keys m.index disk.index e →
          Recorded P keys m'.index folder e := by
        intro e he
        refine (hrec e).mpr (Or.inl ?_)
        rw [hix]
        exact he
      refine ⟨⟨?_, ?_⟩, hitems, hqueued, hold⟩
      · intro e he
        rw [hitems, hix] at he
        exact hold e (hk.items e he)
      · intro hash hq
        rw [hqueued, hix] at hq
        rcases List.mem_append.mp hq with hq | hq
        · rw [List.mem_reverse] at hq
          refine ⟨io.id, hall hash ?_⟩
          rw [(hfilled.laid [] .empty).hashes]
          exact hq
        · obtain ⟨id, hid⟩ := hk.queued hash hq
          exact ⟨id, hold _ hid⟩
  obtain ⟨hk', hitems, hqueued, hold⟩ := hkept
  refine ⟨hk', ?_⟩
  rintro hash (⟨id, hid⟩ | ⟨b, hb, rfl⟩)
  · exact Or.inl ⟨id, hold _ hid⟩
  · obtain ⟨passed, hblobs, -, hknown⟩ := hfilled.queue
    rw [hblobs] at hb
    rcases List.mem_append.mp hb with hb | hb
    · refine Or.inl (hk'.of_isBlobDuplicate ?_)
      have := hknown b hb
      rw [BlobIndex.isBlobDuplicate_iff] at this ⊢
      rwa [BlobIndex.findPackfile, hitems, hqueued]
    · exact Or.inr ⟨b, hb, rfl⟩

/-- A round whose I/O succeeds succeeds. -/
theorem writePackfile_ok (hP : P.Lawful)
    (hqueue : ∀ b ∈ m.blobs, b.data.length ≤ maxEncryptedBlob)
    (hnone : disk.packfiles io.id = none) (hfile : io.file = .ok) (hflush : ∀ k, io.flush k = .ok)
    (hbuf : m.index.itemsBuf.length < maxFileEntries)
    (hwrite : m.writePackfile P keys disk io = some (m', disk', r)) :
    (∃ e, r = .ok e) ∧ m'.index.itemsBuf.length < maxFileEntries := by
  obtain ⟨ix, draft, taken, hfilled, -, hcase⟩ := writePackfile_cases hP hqueue hwrite
  have hix := hfilled.index
  obtain ⟨-, hm, -, rfl⟩ | ⟨-, -, hfail, -⟩ | ⟨buffer, folder, r', -, -, -, -, hfin, -, hr⟩ := hcase
  · refine ⟨⟨_, rfl⟩, ?_⟩
    rw [hm, hix]
    exact hbuf
  · exact absurd hfail (by simp [hnone, hfile])
  · have hlt : ix.itemsBuf.length < maxFileEntries := by
      rw [hix]
      exact hbuf
    obtain ⟨hr', hlen⟩ := finalizePackfile_ok hflush (hlt.trans (by decide)) hfin
    exact ⟨hr.elim (fun h => h.2) fun h => absurd hr' h.1, hlen hlt⟩

end

end Backuwup.Client
