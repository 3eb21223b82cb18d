/-
# What the index records

An entry is recorded when it is in an index file that loads or in the buffer of the manager that
has the folder open (`Recorded`).  A flush moves entries from the buffer to a file and records
nothing new and forgets nothing, whether it succeeds or not (`flush_recorded`); this is so
because the one file it can overwrite is what a failed flush of the same manager left behind
(`FilesOk`).  From this follows what `finalize_packfile` records (`finalizePackfile_recorded`)
and what a new manager loads (`new_items`, `filesOk_new`).
-/
import Backuwup.Client.Packfile.Pack

namespace Backuwup.Client

variable {P : Primitives} {keys : KeyManager}

/-! ## 1. Entries on disk and in the buffer -/

/-- The entry is in an index file of the folder that loads. -/
def InFolder (P : Primitives) (keys : KeyManager) (folder : Folder) (e : IndexEntry) : Prop :=
  ∃ f ∈ folder, ∃ items, loadFile P keys f.1 f.2 = .ok items ∧ e ∈ items

/-- The entry is on disk or waits in the buffer. -/
def Recorded (P : Primitives) (keys : KeyManager) (ix : BlobIndex) (folder : Folder)
    (e : IndexEntry) : Prop :=
  InFolder P keys folder e ∨ e ∈ ix.itemsBuf

/-- The files of the folder are numbered. -/
def Numbered (folder : Folder) : Prop :=
  ∀ f ∈ folder, ∃ num ≤ u32Max, f.1 = indexFileName num

/-- The files up to the last number load, and a file of the next number, which a failed flush
has left, holds nothing that the buffer does not hold. -/
def FilesOk (P : Primitives) (keys : KeyManager) (ix : BlobIndex) (folder : Folder) : Prop :=
  ∀ f ∈ folder,
    (∃ num ≤ u32Max, num ≤ ix.lastFileNum ∧ f.1 = indexFileName num ∧
      ∃ items, loadFile P keys f.1 f.2 = .ok items) ∨
    (ix.lastFileNum < u32Max ∧ f.1 = indexFileName (ix.lastFileNum + 1) ∧
      ∀ items, loadFile P keys f.1 f.2 = .ok items → ∀ e ∈ items, e ∈ ix.itemsBuf)

theorem FilesOk.numbered {ix : BlobIndex} {folder : Folder} (h : FilesOk P keys ix folder) :
    Numbered folder := by
  intro f hf
  obtain ⟨num, hnum, -, hname, -⟩ | ⟨hlt, hname, -⟩ := h f hf
  · exact ⟨num, hnum, hname⟩
  · exact ⟨_, hlt, hname⟩

/-- A part of a file that still loads is the whole of it. -/
theorem loadFile_take (hP : P.Lawful) (hrej : P.RejectsTruncated) {num written : ℕ}
    (hnum : num ≤ u32Max) {items items' : List IndexEntry}
    (hlen : (entriesCodec.enc items).length ≤ aesGcmMaxPlaintext)
    (h : loadFile P keys (indexFileName num) ((sealedEntries P keys num items).take written)
      = .ok items') : items' = items := by
  by_cases hn : written < (sealedEntries P keys num items).length
  · have hname : parseU32 (indexFileName num) = some num :=
      parseIndexPathIntoId_indexFileName hnum
    have hdec : P.decrypt (indexKey P keys) (counterToNonce num)
        ((sealedEntries P keys num items).take written) = none := hrej _ _ _ _ hlen hn
    rw [loadFile, hname] at h
    simp only [hdec] at h
    cases h
  · rw [List.take_of_length_le (not_lt.mp hn), loadFile_sealed hP keys hnum hlen] at h
    exact (Except.ok.inj h).symm

/-! ## 2. Flushing -/

section

variable {ix ix' : BlobIndex} {folder folder' : Folder} {r : Except PackfileError Unit}

/-- The file that a flush writes, as far as it loads, holds the buffer. -/
theorem filesOk_write (h : FilesOk P keys ix folder) (hlt : ix.lastFileNum < u32Max)
    {content : Bytes}
    (hload : ∀ items, loadFile P keys (indexFileName (ix.lastFileNum + 1)) content = .ok items →
      items = ix.itemsBuf) :
    FilesOk P keys ix (folder.write (indexFileName (ix.lastFileNum + 1)) content) ∧
    (∀ f ∈ folder.write (indexFileName (ix.lastFileNum + 1)) content,
      f = (indexFileName (ix.lastFileNum + 1), content) ∨
      ∃ num ≤ u32Max, num ≤ ix.lastFileNum ∧ f.1 = indexFileName num ∧
        ∃ items, loadFile P keys f.1 f.2 = .ok items) ∧
    ∀ e, Recorded P keys ix (folder.write (indexFileName (ix.lastFileNum + 1)) content) e ↔
      Recorded P keys ix folder e := by
  have hfiles : ∀ f ∈ folder.write (indexFileName (ix.lastFileNum + 1)) content,
      f = (indexFileName (ix.lastFileNum + 1), content) ∨
      ∃ num ≤ u32Max, num ≤ ix.lastFileNum ∧ f.1 = indexFileName num ∧
        ∃ items, loadFile P keys f.1 f.2 = .ok items := by
    intro f hf
    rcases Folder.mem_write hf with rfl | ⟨hf, hne⟩
    · exact Or.inl rfl
    · obtain hold | ⟨-, hname, -⟩ := h f hf
      · exact Or.inr hold
      · exact absurd hname hne
  refine ⟨fun f hf => ?_, hfiles, fun e => ⟨?_, ?_⟩⟩
  · rcases hfiles f hf with rfl | hold
    · exact Or.inr ⟨hlt, rfl, fun items hitems e he => hload items hitems ▸ he⟩
    · exact Or.inl hold
  · rintro (⟨f, hf, items, hitems, he⟩ | he)
    · rcases Folder.mem_write hf with rfl | ⟨hf, -⟩
      · exact Or.inr (hload items hitems ▸ he)
      · exact Or.inl ⟨f, hf, items, hitems, he⟩
    · exact Or.inr he
  · rintro (⟨f, hf, items, hitems, he⟩ | he)
    · obtain ⟨num, hnum, hle, hname, -⟩ | ⟨-, -, hbuf⟩ := h f hf
      · -- a file of a smaller number is not overwritten
        have hne : f.1 ≠ indexFileName (ix.lastFileNum + 1) := by
          rw [hname]
          intro heq
          have := indexFileName_inj hnum hlt heq
          omega
        exact Or.inl ⟨f, List.mem_append_left _ (List.mem_filter.mpr ⟨hf, by simpa using hne⟩),
          items, hitems, he⟩
      · exact Or.inr (hbuf items hitems e he)
    · exact Or.inr he

/-- A flush forgets nothing and records nothing new. -/
theorem flush_recorded (hP : P.Lawful) {io : FileWrite} (hrej : io ≠ .ok → P.RejectsTruncated)
    (h : FilesOk P keys ix folder) (hflush : ix.flush P keys folder io = some (ix', folder', r)) :
    FilesOk P keys ix' folder' ∧
    (∀ e, Recorded P keys ix' folder' e ↔ Recorded P keys ix folder e) ∧
    ix'.items = ix.items ∧ ix'.blobsQueued = ix.blobsQueued ∧ (r = .ok () → ix'.itemsBuf = []) ∧
    ix'.itemsBuf.length ≤ ix.itemsBuf.length := by
  obtain ⟨hlt, ⟨hr, henc, rfl, rfl⟩ | ⟨hr, rfl, rfl | ⟨henc, n, rfl, rfl⟩⟩⟩ :=
    BlobIndex.flush_cases hflush
  · have hsealed := loadFile_sealed hP keys hlt henc
    obtain ⟨-, hfiles, hrec⟩ := filesOk_write h hlt fun items hitems =>
      (Except.ok.inj (hsealed.symm.trans hitems)).symm
    refine ⟨?_, ?_, rfl, rfl, fun _ => rfl, Nat.zero_le _⟩
    · intro f hf
      refine Or.inl ?_
      rcases hfiles f hf with rfl | ⟨num, hnum, hle, hname, hitems⟩
      · exact ⟨_, hlt, le_refl _, rfl, _, hsealed⟩
      · exact ⟨num, hnum, Nat.le_succ_of_le hle, hname, hitems⟩
    · intro e
      rw [← hrec e]
      constructor
      · rintro (he | he)
        · exact Or.inl he
        · simp at he
      · rintro (he | he)
        · exact Or.inl he
        · exact Or.inl ⟨_, List.mem_append_right _ List.mem_cons_self, _, hsealed, he⟩
  · exact ⟨h, fun _ => Iff.rfl, rfl, rfl, fun h => absurd h hr, le_refl _⟩
  · obtain ⟨hok, -, hrec⟩ := filesOk_write h hlt fun items hitems =>
      loadFile_take hP (hrej (by simp)) hlt henc hitems
    exact ⟨hok, hrec, rfl, rfl, fun h => absurd h hr, le_refl _⟩

/-- A flush whose I/O succeeds returns `Ok`. -/
theorem flush_ok (henc : ix.Encryptable)
    (hflush : ix.flush P keys folder .ok = some (ix', folder', r)) : r = .ok () := by
  unfold BlobIndex.flush at hflush
  split at hflush
  · cases hflush
  · simp only [Primitives.encryptInPlace, if_pos (show (entriesCodec.enc ix.itemsBuf).length
      ≤ aesGcmMaxPlaintext from henc), Option.some.injEq, Prod.mk.injEq] at hflush
    exact hflush.2.2.symm

/-- So many entries fit into one encryption: 2 ^ 30. -/
def maxEncryptableEntries : ℕ := 1073741824

theorem encryptable_of_length (h : ix.itemsBuf.length ≤ maxEncryptableEntries) :
    ix.Encryptable := by
  have hle := Codec.encAll_length_le ((FixedBytes.codec 32).prod (FixedBytes.codec 12))
    (m := 44) ix.itemsBuf fun a _ => by
      simp [Codec.prod, FixedBytes.codec, a.1.length_eq, a.2.length_eq]
  have hv := Bincode.varintEnc_length_le ix.itemsBuf.length
  have henc : (entriesCodec.enc ix.itemsBuf).length
      = (Bincode.varintEnc ix.itemsBuf.length).length
        + (((FixedBytes.codec 32).prod (FixedBytes.codec 12)).encAll ix.itemsBuf).length :=
    List.length_append
  simp only [BlobIndex.Encryptable, maxEncryptableEntries, aesGcmMaxPlaintext] at h ⊢
  omega

/-! ## 3. Recording a packfile -/

/-- Entries that go into the buffer. -/
theorem filesOk_buffer (h : FilesOk P keys ix folder) (entry : IndexEntry) :
    FilesOk P keys (ix.buffer entry) folder := by
  intro f hf
  obtain hold | ⟨hlt, hname, hbuf⟩ := h f hf
  · exact Or.inl hold
  · exact Or.inr ⟨hlt, hname, fun items hitems e he =>
      List.mem_append_left _ (hbuf items hitems e he)⟩

theorem recorded_buffer (entry e : IndexEntry) :
    Recorded P keys (ix.buffer entry) folder e ↔ Recorded P keys ix folder e ∨ e = entry := by
  simp only [Recorded, BlobIndex.buffer, List.mem_append, List.mem_singleton]
  exact or_assoc.symm

/-- `push` records its entry, also when the flush in it fails. -/
theorem push_recorded (hP : P.Lawful) {io : FileWrite} (hrej : io ≠ .ok → P.RejectsTruncated)
    {entry : IndexEntry} (h : FilesOk P keys ix folder)
    (hpush : ix.push P keys folder entry io = some (ix', folder', r)) :
    FilesOk P keys ix' folder' ∧
    (∀ e, Recorded P keys ix' folder' e ↔ Recorded P keys ix folder e ∨ e = entry) ∧
    ix'.items = ix.items ∧ ix'.blobsQueued = ix.blobsQueued ∧
    ix'.itemsBuf.length ≤ ix.itemsBuf.length + 1 := by
  unfold BlobIndex.push at hpush
  split at hpush
  · obtain ⟨hok, hrec, hitems, hqueued, -, hlen⟩ :=
      flush_recorded hP hrej (filesOk_buffer h entry) hpush
    exact ⟨hok, fun e => (hrec e).trans (recorded_buffer entry e), hitems, hqueued,
      by simpa [BlobIndex.buffer] using hlen⟩
  · simp only [Option.some.injEq, Prod.mk.injEq] at hpush
    obtain ⟨rfl, rfl, -⟩ := hpush
    exact ⟨filesOk_buffer h entry, recorded_buffer entry, rfl, rfl, by simp [BlobIndex.buffer]⟩

/-- `push` succeeds when its I/O does, and then the buffer stays below its limit. -/
theorem push_ok {entry : IndexEntry} (hlen : ix.itemsBuf.length < maxEncryptableEntries)
    (hpush : ix.push P keys folder entry .ok = some (ix', folder', r)) :
    r = .ok () ∧ ix'.itemsBuf.length < maxFileEntries := by
  unfold BlobIndex.push at hpush
  split at hpush
  · have henc : (ix.buffer entry).Encryptable := encryptable_of_length <| by
      simp only [BlobIndex.buffer, List.length_append, List.length_singleton]
      omega
    have hr := flush_ok henc hpush
    obtain ⟨-, ⟨-, -, rfl, -⟩ | ⟨hne, -⟩⟩ := BlobIndex.flush_cases hpush
    · exact ⟨hr, by simp [maxFileEntries]⟩
    · exact absurd hr hne
  · rename_i hfull
    simp only [Option.some.injEq, Prod.mk.injEq] at hpush
    obtain ⟨rfl, -, rfl⟩ := hpush
    exact ⟨rfl, not_le.mp hfull⟩

/-- `finalize_packfile` pushes the entry of the first blob, and goes on with the others if that
succeeds. -/
theorem finalizePackfile_cons {id : PackfileId} {io : ℕ → FileWrite} {hash : BlobHash}
    {hashes : List BlobHash}
    (hfin : finalizePackfile P keys id io ix folder (hash :: hashes) = some (ix', folder', r)) :
    (∃ e, ix.push P keys folder (hash, id) (io hashes.length) = some (ix', folder', .error e) ∧
      r = .error e) ∨
    ∃ ix₁ folder₁, ix.push P keys folder (hash, id) (io hashes.length)
        = some (ix₁, folder₁, .ok ()) ∧
      finalizePackfile P keys id io ix₁ folder₁ hashes = some (ix', folder', r) := by
  simp only [finalizePackfile] at hfin
  split at hfin
  · cases hfin
  · rename_i ix₁ folder₁ e hpush
    simp only [Option.some.injEq, Prod.mk.injEq] at hfin
    obtain ⟨rfl, rfl, rfl⟩ := hfin
    exact Or.inl ⟨e, hpush, rfl⟩
  · rename_i ix₁ folder₁ hpush
    exact Or.inr ⟨ix₁, folder₁, hpush, hfin⟩

/-- `finalize_packfile` records the blobs of the packfile up to the first flush that fails. -/
theorem finalizePackfile_recorded (hP : P.Lawful) {id : PackfileId} {io : ℕ → FileWrite}
    (hrej : ∀ k, io k ≠ .ok → P.RejectsTruncated) {hashes : List BlobHash}
    (h : FilesOk P keys ix folder)
    (hfin : finalizePackfile P keys id io ix folder hashes = some (ix', folder', r)) :
    FilesOk P keys ix' folder' ∧ ix'.items = ix.items ∧ ix'.blobsQueued = ix.blobsQueued ∧
    ∃ done ⊆ hashes, (∀ e, Recorded P keys ix' folder' e ↔
        Recorded P keys ix folder e ∨ ∃ hash ∈ done, e = (hash, id)) ∧
      (r = .ok () → done = hashes) := by
  induction hashes generalizing ix folder with
  | nil =>
    simp only [finalizePackfile, Option.some.injEq, Prod.mk.injEq] at hfin
    obtain ⟨rfl, rfl, -⟩ := hfin
    exact ⟨h, rfl, rfl, [], List.Subset.refl _, by simp, fun _ => rfl⟩
  | cons hash hashes ih =>
    obtain ⟨e, hpush, rfl⟩ | ⟨ix₁, folder₁, hpush, hrest⟩ := finalizePackfile_cons hfin
    · obtain ⟨hok, hrec, hitems, hqueued, -⟩ := push_recorded hP (hrej _) h hpush
      exact ⟨hok, hitems, hqueued, [hash], by simp, by simpa using hrec, fun h => by cases h⟩
    · obtain ⟨hok, hrec, hitems, hqueued, -⟩ := push_recorded hP (hrej _) h hpush
      obtain ⟨hok', hitems', hqueued', done, hsub, hrec', hdone⟩ := ih hok hrest
      refine ⟨hok', hitems'.trans hitems, hqueued'.trans hqueued, hash :: done,
        List.cons_subset_cons _ hsub, ?_, ?_⟩
      · intro e
        rw [hrec' e, hrec e, or_assoc]
        simp only [List.mem_cons, exists_eq_or_imp]
      · intro hr
        rw [hdone hr]

/-- Unless a flush fails before the last blob, every blob of the packfile is recorded. -/
theorem finalizePackfile_all (hP : P.Lawful) {id : PackfileId} {io : ℕ → FileWrite}
    (hrej : ∀ k, io k ≠ .ok → P.RejectsTruncated) (hio : ∀ k, 0 < k → io k = .ok)
    {hashes : List BlobHash} (h : FilesOk P keys ix folder)
    (hlen : ix.itemsBuf.length + hashes.length ≤ maxEncryptableEntries)
    (hfin : finalizePackfile P keys id io ix folder hashes = some (ix', folder', r)) :
    ∀ hash ∈ hashes, Recorded P keys ix' folder' (hash, id) := by
  induction hashes generalizing ix folder with
  | nil => simp
  | cons hash hashes ih =>
    simp only [List.length_cons] at hlen
    intro hash' hmem
    obtain ⟨e, hpush, rfl⟩ | ⟨ix₁, folder₁, hpush, hrest⟩ := finalizePackfile_cons hfin
    · obtain ⟨-, hrec, -⟩ := push_recorded hP (hrej _) h hpush
      -- the failed flush is the last, so no blob is left
      rcases Nat.eq_zero_or_pos hashes.length with hnil | hpos
      · rw [List.length_eq_zero_iff.mp hnil, List.mem_singleton] at hmem
        exact (hrec _).mpr (Or.inr (by rw [hmem]))
      · rw [hio _ hpos] at hpush
        cases (push_ok (by omega) hpush).1
    · obtain ⟨hok, hrec, -, -, hlen₁⟩ := push_recorded hP (hrej _) h hpush
      rcases List.mem_cons.mp hmem with rfl | hmem
      · obtain ⟨-, -, -, done, -, hrec', -⟩ := finalizePackfile_recorded hP hrej hok hrest
        exact (hrec' _).mpr (Or.inl ((hrec _).mpr (Or.inr rfl)))
      · exact ih hok (by omega) hrest hash' hmem

/-- `finalize_packfile` succeeds when its I/O does. -/
theorem finalizePackfile_ok {id : PackfileId} {io : ℕ → FileWrite} (hio : ∀ k, io k = .ok)
    {hashes : List BlobHash} (hlen : ix.itemsBuf.length < maxEncryptableEntries)
    (hfin : finalizePackfile P keys id io ix folder hashes = some (ix', folder', r)) :
    r = .ok () ∧
      (ix.itemsBuf.length < maxFileEntries → ix'.itemsBuf.length < maxFileEntries) := by
  induction hashes generalizing ix folder with
  | nil =>
    simp only [finalizePackfile, Option.some.injEq, Prod.mk.injEq] at hfin
    obtain ⟨rfl, -, rfl⟩ := hfin
    exact ⟨rfl, fun h => h⟩
  | cons hash hashes ih =>
    obtain ⟨e, hpush, rfl⟩ | ⟨ix₁, folder₁, hpush, hrest⟩ := finalizePackfile_cons hfin
    · rw [hio] at hpush
      cases (push_ok hlen hpush).1
    · rw [hio] at hpush
      have hlen₁ := (push_ok hlen hpush).2
      obtain ⟨hr, hkeep⟩ := ih (hlen₁.trans (by decide)) hrest
      exact ⟨hr, fun _ => hkeep hlen₁⟩

end

/-! ## 4. A new manager -/

/-- A load yields the entries of the folder. -/
theorem mem_loadFiles {files : Folder} {items : List IndexEntry}
    (h : loadFiles P keys files = .ok items) (e : IndexEntry) :
    e ∈ items ↔ InFolder P keys files e := by
  induction files generalizing items with
  | nil =>
    obtain rfl := Except.ok.inj h
    simp [InFolder]
  | cons file rest ih =>
    obtain ⟨first, more, hfirst, hmore, rfl⟩ := loadFiles_cons h
    rw [List.mem_append, ih hmore]
    simp only [InFolder, List.mem_cons, exists_eq_or_imp, hfirst, Except.ok.injEq]
    refine or_congr_left ?_
    constructor
    · intro he
      exact ⟨first, rfl, he⟩
    · rintro ⟨its, rfl, he⟩
      exact he

/-- A folder whose files all load is loaded. -/
theorem loadFiles_ok {files : Folder}
    (h : ∀ f ∈ files, ∃ its, loadFile P keys f.1 f.2 = .ok its) :
    ∃ items, loadFiles P keys files = .ok items := by
  induction files with
  | nil => exact ⟨[], rfl⟩
  | cons file rest ih =>
    obtain ⟨first, hfirst⟩ := h _ List.mem_cons_self
    obtain ⟨more, hmore⟩ := ih fun f hf => h f (List.mem_cons_of_mem _ hf)
    exact ⟨first ++ more, by simp only [loadFiles, hfirst, hmore]⟩

theorem inFolder_perm {files folder : Folder} (h : files.Perm folder) (e : IndexEntry) :
    InFolder P keys files e ↔ InFolder P keys folder e := by
  simp only [InFolder, h.mem_iff]

section

variable {names : List FileName} {files folder : Folder} {ix : BlobIndex}

/-- What a new index holds is what is on disk. -/
theorem new_items (hf : files.Perm folder) (h : BlobIndex.new P keys names files = .ok ix)
    (e : IndexEntry) : e ∈ ix.items ↔ InFolder P keys folder e := by
  obtain ⟨items, hload, rfl⟩ := BlobIndex.new_ok h
  rw [Search.mem_sortByKey, mem_loadFiles hload e, inFolder_perm hf]

/-- A new index is in order. -/
theorem filesOk_new (hnum : Numbered folder) (hn : names.Perm (folder.map Prod.fst))
    (hf : files.Perm folder) (h : BlobIndex.new P keys names files = .ok ix) :
    FilesOk P keys ix folder := by
  obtain ⟨items, hload, rfl⟩ := BlobIndex.new_ok h
  intro f hmem
  obtain ⟨num, hle, hname⟩ := hnum f hmem
  refine Or.inl ⟨num, hle, le_maxFileNum hle (hn.mem_iff.mpr ?_), hname,
    loadFile_of_loadFiles hload f (hf.mem_iff.mpr hmem)⟩
  exact List.mem_map.mpr ⟨f, hmem, hname⟩

/-- The index finds a packfile for exactly the hashes that have an entry. -/
theorem findPackfile_new (hf : files.Perm folder)
    (h : BlobIndex.new P keys names files = .ok ix) (hash : BlobHash) :
    (∃ id, ix.findPackfile hash = some id ∧ InFolder P keys folder (hash, id)) ∨
    (ix.findPackfile hash = none ∧ ∀ id, ¬ InFolder P keys folder (hash, id)) := by
  have hitems := new_items hf h
  cases hfind : ix.findPackfile hash with
  | some id => exact Or.inl ⟨id, rfl, (hitems _).mp (Search.lookup_eq_some_mem hfind)⟩
  | none =>
    refine Or.inr ⟨rfl, fun id hin => ?_⟩
    obtain ⟨items, hload, rfl⟩ := BlobIndex.new_ok h
    have hmem := (hitems _).mpr hin
    have hsome := Search.lookup_sortByKey_isSome (Search.mem_sortByKey.mp hmem)
    rw [BlobIndex.findPackfile] at hfind
    rw [hfind] at hsome
    cases hsome

end

end Backuwup.Client
