/-
# Deduplication

Whether a blob is known is decided from the entries that were on disk when the manager was opened
and from the hashes it has taken since, first in `add_blob` and again in `write_packfiles`, under
both mutexes.  Calls that pass the first check at the same time queue the same blob several
times; the second check passes over all but one of them.

While no I/O fails, all entries, on disk and in the buffer, form one list without repeated hashes
that the open index knows and that agrees with the headers of the packfiles (`Unique`).
`deduplicated` says what follows for the folder after any number of sessions and at any moment of
one.
-/
import Backuwup.Client.Packfile.RoundTrip

namespace Backuwup.Client

variable {P : Primitives} {keys : KeyManager}

/-! ## 1. Headers and entries -/

/-- The header of a packfile, as `get_blob` reads it. -/
def readHeader (P : Primitives) (keys : KeyManager) (id : PackfileId) (packfile : Bytes) :
    Option (List PackfileHeaderBlob) :=
  (Codec.takeBytes 8 packfile).bind fun (headerSize, rest) =>
    (Codec.takeBytes (leNat headerSize) rest).bind fun (headerBuf, _) =>
      (P.decrypt (headerKey P keys) id headerBuf).bind headerCodec.decodeExact

/-- The hash is in the header of the packfile of this name. -/
def InHeader (P : Primitives) (keys : KeyManager) (disk : Disk) (id : PackfileId)
    (hash : BlobHash) : Prop :=
  ∃ content header, disk.packfiles id = some content ∧
    readHeader P keys id content = some header ∧ ∃ b ∈ header, b.hash = hash

/-- Every hash is in one header and in one entry of the index at most, and the entry names its
packfile; `add_to_packfile` does not refuse a blob of the queue. -/
structure Deduplicated (P : Primitives) (keys : KeyManager) (w : World) : Prop where
  header : ∀ id id' hash, InHeader P keys w.disk id hash → InHeader P keys w.disk id' hash →
    id = id'
  once : ∀ id content, w.disk.packfiles id = some content →
    ∃ header, readHeader P keys id content = some header ∧
      (header.map PackfileHeaderBlob.hash).Nodup
  entry : ∃ entries, loadFiles P keys w.disk.index = .ok entries ∧
    (entries.map Prod.fst).Nodup ∧ ∀ e ∈ entries, InHeader P keys w.disk e.2 e.1
  accepted : ∀ s, w.session = some s →
    (fillDraft s.manager.index .empty s.manager.blobs).2.2.2 ≠ .error .duplicateBlob

/-- The header of a packfile that has been written is that of the draft. -/
theorem readHeader_serialize (hP : P.Lawful) {d : PackfileDraft} {blobs : List BlobEncrypted}
    (hd : Laid d blobs) {id : PackfileId} {buffer : Bytes}
    (hser : serializePackfile P keys id d = some buffer)
    (hsize : buffer.length ≤ packfileMaxSize) : readHeader P keys id buffer = some d.header := by
  obtain ⟨head, rfl, -, hlen, hdec, hheader⟩ := hd.serialized hP hser hsize
  simp only [readHeader, Codec.takeBytes_append _ (leBytes_length _ _), Option.bind_some,
    leNat_leBytes 8 _ hlen, Codec.takeBytes_append _ rfl, hdec, hheader]

/-- The hashes of its entries are those of the blobs. -/
theorem Laid.header_hashes {d : PackfileDraft} {blobs : List BlobEncrypted} (h : Laid d blobs) :
    d.header.map PackfileHeaderBlob.hash = blobs.map BlobEncrypted.hash := by
  obtain ⟨-, -, -, hlocated⟩ := h
  generalize d.header = header at hlocated ⊢
  induction hlocated with
  | nil => rfl
  | cons hl _ ih => rw [List.map_cons, List.map_cons, hl.1, ih]

/-! ## 2. The list of all entries -/

/-- The entries of the folder, followed by those of the buffer. -/
structure Listed (P : Primitives) (keys : KeyManager) (ix : BlobIndex) (folder : Folder)
    (l : List IndexEntry) : Prop where
  loads : ∃ entries, loadFiles P keys folder = .ok entries ∧ l = entries ++ ix.itemsBuf
  numbered : ∀ f ∈ folder, ∃ num ≤ u32Max, num ≤ ix.lastFileNum ∧ f.1 = indexFileName num

section

variable {ix ix' : BlobIndex} {folder folder' : Folder} {r : Except PackfileError Unit}
variable {l : List IndexEntry}

theorem loadFiles_append {files more : Folder} {items items' : List IndexEntry}
    (h : loadFiles P keys files = .ok items) (h' : loadFiles P keys more = .ok items') :
    loadFiles P keys (files ++ more) = .ok (items ++ items') := by
  induction files generalizing items with
  | nil =>
    obtain rfl := Except.ok.inj h
    exact h'
  | cons file rest ih =>
    obtain ⟨first, later, hfirst, hlater, rfl⟩ := loadFiles_cons h
    simp only [List.cons_append, loadFiles, hfirst, ih hlater, List.append_assoc]

/-- A flush appends a file with the entries of the buffer. -/
theorem Listed.flush (hP : P.Lawful) (h : Listed P keys ix folder l) (henc : ix.Encryptable)
    (hflush : ix.flush P keys folder .ok = some (ix', folder', r)) :
    Listed P keys ix' folder' l := by
  have hr := flush_ok henc hflush
  obtain ⟨hlt, ⟨-, -, rfl, rfl⟩ | ⟨hne, -⟩⟩ := BlobIndex.flush_cases hflush
  · obtain ⟨entries, hload, rfl⟩ := h.loads
    have hnew : ∀ f ∈ folder, f.1 ≠ indexFileName (ix.lastFileNum + 1) := by
      intro f hf hname
      obtain ⟨num, hnum, hle, hname'⟩ := h.numbered f hf
      have := indexFileName_inj hnum hlt (hname'.symm.trans hname)
      omega
    have hfilter : folder.filter (fun f => f.1 ≠ indexFileName (ix.lastFileNum + 1)) = folder :=
      List.filter_eq_self.mpr fun f hf => by simpa using hnew f hf
    constructor
    · refine ⟨entries ++ ix.itemsBuf, ?_, (List.append_nil _).symm⟩
      rw [Folder.write, hfilter]
      refine loadFiles_append hload ?_
      simp only [loadFiles, loadFile_sealed hP keys hlt henc, List.append_nil]
    · intro f hf
      rcases Folder.mem_write hf with rfl | ⟨hf, -⟩
      · exact ⟨_, hlt, le_refl _, rfl⟩
      · obtain ⟨num, hnum, hle, hname⟩ := h.numbered f hf
        exact ⟨num, hnum, Nat.le_succ_of_le hle, hname⟩
  · exact absurd hr hne

theorem Listed.buffer (h : Listed P keys ix folder l) (entry : IndexEntry) :
    Listed P keys (ix.buffer entry) folder (l ++ [entry]) := by
  obtain ⟨⟨entries, hload, rfl⟩, hnumbered⟩ := h
  exact ⟨⟨entries, hload, by simp [BlobIndex.buffer]⟩, hnumbered⟩

theorem Listed.push (hP : P.Lawful) {entry : IndexEntry} (h : Listed P keys ix folder l)
    (hlen : ix.itemsBuf.length < maxEncryptableEntries)
    (hpush : ix.push P keys folder entry .ok = some (ix', folder', r)) :
    Listed P keys ix' folder' (l ++ [entry]) := by
  unfold BlobIndex.push at hpush
  split at hpush
  · refine (h.buffer entry).flush hP (encryptable_of_length ?_) hpush
    simp only [BlobIndex.buffer, List.length_append, List.length_singleton]
    omega
  · simp only [Option.some.injEq, Prod.mk.injEq] at hpush
    obtain ⟨rfl, rfl, -⟩ := hpush
    exact h.buffer entry

/-- A packfile that is finalized appends its entries. -/
theorem Listed.finalize (hP : P.Lawful) {id : PackfileId} {io : ℕ → FileWrite}
    (hio : ∀ k, io k = .ok) {hashes : List BlobHash} (h : Listed P keys ix folder l)
    (hlen : ix.itemsBuf.length < maxEncryptableEntries)
    (hfin : finalizePackfile P keys id io ix folder hashes = some (ix', folder', r)) :
    Listed P keys ix' folder' (l ++ hashes.map fun hash => (hash, id)) := by
  induction hashes generalizing ix folder l with
  | nil =>
    simp only [finalizePackfile, Option.some.injEq, Prod.mk.injEq] at hfin
    obtain ⟨rfl, rfl, -⟩ := hfin
    simpa using h
  | cons hash hashes ih =>
    obtain ⟨e, hpush, -⟩ | ⟨ix₁, folder₁, hpush, hrest⟩ := finalizePackfile_cons hfin
    · rw [hio] at hpush
      cases (push_ok hlen hpush).1
    · rw [hio] at hpush
      have hlen₁ := (push_ok hlen hpush).2
      have hlisted := ih (h.push hP hlen hpush) (hlen₁.trans (by decide)) hrest
      rwa [List.append_assoc, List.singleton_append] at hlisted

/-- A new index lists what the folder holds, and knows it. -/
theorem listed_new {names : List FileName} {files : Folder} (hnum : Numbered folder)
    (hn : names.Perm (folder.map Prod.fst)) (hf : files.Perm folder)
    (hload : loadFiles P keys folder = .ok l) (hnew : BlobIndex.new P keys names files = .ok ix) :
    Listed P keys ix folder l ∧ ix.itemsBuf = [] ∧ ∀ e ∈ l, ix.isBlobDuplicate e.1 = true := by
  have hitems := new_items hf hnew
  obtain ⟨items, -, rfl⟩ := BlobIndex.new_ok hnew
  refine ⟨⟨⟨l, hload, (List.append_nil l).symm⟩, ?_⟩, rfl, ?_⟩
  · intro f hmem
    obtain ⟨num, hle, hname⟩ := hnum f hmem
    refine ⟨num, hle, le_maxFileNum hle (hn.mem_iff.mpr ?_), hname⟩
    exact List.mem_map.mpr ⟨f, hmem, hname⟩
  · intro e he
    have hmem := (hitems e).mpr ((mem_loadFiles hload e).mp he)
    rw [BlobIndex.isBlobDuplicate, BlobIndex.findPackfile,
      Search.lookup_sortByKey_isSome (Search.mem_sortByKey.mp hmem), Bool.or_true]

/-! ## 3. The second check -/

/-- What `write_packfiles` takes was not known before, and it takes no hash twice. -/
theorem fillDraft_fresh {draft draft' : PackfileDraft} {blobs rest : List BlobEncrypted}
    (h : fillDraft ix draft blobs = (ix', draft', rest, r)) :
    ∃ fresh, ix'.blobsQueued = fresh ++ ix.blobsQueued ∧ fresh.Nodup ∧
      ∀ hash ∈ fresh, ix.isBlobDuplicate hash = false := by
  induction blobs generalizing ix draft with
  | nil =>
    simp only [fillDraft, Prod.mk.injEq] at h
    obtain ⟨rfl, -⟩ := h
    exact ⟨[], rfl, .nil, by simp⟩
  | cons blob blobs ih =>
    by_cases hdup : ix.isBlobDuplicate blob.hash = true
    · rw [fillDraft, if_pos hdup] at h
      exact ih h
    · obtain ⟨hdup', -⟩ | ⟨rfl, -⟩ | ⟨-, h⟩ := fillDraft_cons h
      · exact absurd hdup' hdup
      · refine ⟨[blob.hash], rfl, List.nodup_singleton _, fun hash hmem => ?_⟩
        rw [List.mem_singleton.mp hmem]
        exact eq_false_of_ne_true hdup
      · obtain ⟨fresh, hqueued, hnodup, hnew⟩ := ih h
        -- a hash that was taken later is not the first one
        have hsplit : ∀ hash ∈ fresh, hash ≠ blob.hash ∧ ix.isBlobDuplicate hash = false := by
          intro hash hmem
          have hfalse := hnew hash hmem
          simp only [BlobIndex.isBlobDuplicate, BlobIndex.findPackfile, List.mem_cons,
            Bool.or_eq_false_iff, decide_eq_false_iff_not, not_or] at hfalse ⊢
          exact ⟨hfalse.1.1, hfalse.1.2, hfalse.2⟩
        refine ⟨fresh ++ [blob.hash], by simp [hqueued], ?_, fun hash hmem => ?_⟩
        · refine List.nodup_append.mpr ⟨hnodup, List.nodup_singleton _, ?_⟩
          intro hash hmem other hother
          rw [List.mem_singleton.mp hother]
          exact (hsplit hash hmem).1
        · rcases List.mem_append.mp hmem with hmem | hmem
          · exact (hsplit hash hmem).2
          · rw [List.mem_singleton.mp hmem]
            exact eq_false_of_ne_true hdup

/-! ## 4. The invariant -/

/-- The entries have different hashes and are those of the headers. -/
structure Unique (P : Primitives) (keys : KeyManager) (l : List IndexEntry) (disk : Disk) :
    Prop where
  nodup : (l.map Prod.fst).Nodup
  headers : ∀ id content, disk.packfiles id = some content →
    ∃ header, readHeader P keys id content = some header ∧
      (header.map PackfileHeaderBlob.hash).Nodup ∧ ∀ b ∈ header, (b.hash, id) ∈ l
  entries : ∀ e ∈ l, InHeader P keys disk e.2 e.1

/-- What an open manager keeps of them. -/
structure Knows (P : Primitives) (keys : KeyManager) (ix : BlobIndex) (folder : Folder)
    (l : List IndexEntry) : Prop where
  listed : Listed P keys ix folder l
  known : ∀ e ∈ l, ix.isBlobDuplicate e.1 = true
  buffer : ix.itemsBuf.length < maxFileEntries

end

/-- No I/O fails, and every session ends with a flush. -/
def NoIoErrors (w : World) : ManagerAction → Prop
  | .write _ io => io.Succeeds w.disk
  | .flushWrite io => io.Succeeds w.disk
  | .flushIndex io => io = .ok
  | .kill => False
  | _ => True

/-- The index lists every stored blob once, at the packfile that holds it. -/
structure Catalogued (P : Primitives) (keys : KeyManager) (w : World) : Prop where
  sound : Sound P keys w
  unique : ∃ l, Unique P keys l w.disk ∧
    (w.session = none → loadFiles P keys w.disk.index = .ok l) ∧
    ∀ s, w.session = some s → Knows P keys s.manager.index w.disk.index l

theorem NoIoErrors.untorn {w : World} {a : ManagerAction} (h : NoIoErrors w a) : Untorn P a := by
  cases a with
  | write t io => exact fun k hk => absurd (h.flush k) hk
  | flushWrite io => exact fun k hk => absurd (h.flush k) hk
  | flushIndex io => exact fun hio => absurd h hio
  | _ => trivial

section

variable {m m' : Manager} {disk disk' : Disk} {io : PackfileIo} {added : List Blob}
variable {r : Except PackfileError Bool} {l : List IndexEntry} {w w' : World}

/-- Entries that are taken over do not repeat a known hash. -/
theorem Unique.append (h : Unique P keys l disk) {ix : BlobIndex}
    (hknown : ∀ e ∈ l, ix.isBlobDuplicate e.1 = true) {taken : List BlobEncrypted}
    {id : PackfileId} {buffer : Bytes} {header : List PackfileHeaderBlob} {folder : Folder}
    (hid : disk.packfiles id = none) (hread : readHeader P keys id buffer = some header)
    (hheader : header.map PackfileHeaderBlob.hash = taken.map BlobEncrypted.hash)
    (hnodup : (taken.map BlobEncrypted.hash).Nodup)
    (hnew : ∀ hash ∈ taken.map BlobEncrypted.hash, ix.isBlobDuplicate hash = false) :
    Unique P keys (l ++ (taken.map BlobEncrypted.hash).map fun hash => (hash, id))
      { disk.put id buffer with index := folder } := by
  have hfst : ((taken.map BlobEncrypted.hash).map fun hash => ((hash, id) : IndexEntry)).map
      Prod.fst = taken.map BlobEncrypted.hash := by
    rw [List.map_map]
    exact List.map_id _
  have hput : ∀ id' content, disk.packfiles id' = some content →
      (disk.put id buffer).packfiles id' = some content :=
    fun _ _ => Disk.put_packfiles hid
  have hself : (disk.put id buffer).packfiles id = some buffer := Function.update_self _ _ _
  refine ⟨?_, fun id' content hcontent => ?_, fun e he => ?_⟩
  · rw [List.map_append, hfst]
    refine List.nodup_append.mpr ⟨h.nodup, hnodup, ?_⟩
    rintro a ha b hb rfl
    obtain ⟨e, he, rfl⟩ := List.mem_map.mp ha
    exact absurd (hknown e he) (by simp [hnew _ hb])
  · by_cases hid' : id' = id
    · subst hid'
      obtain rfl := Option.some.inj (hself.symm.trans hcontent)
      refine ⟨header, hread, hheader ▸ hnodup, fun b hb => List.mem_append_right _ ?_⟩
      rw [← hheader]
      exact List.mem_map.mpr ⟨b.hash, List.mem_map.mpr ⟨b, hb, rfl⟩, rfl⟩
    · simp only [Disk.put, Function.update_of_ne hid'] at hcontent
      obtain ⟨header', hread', hnodup', hmem⟩ := h.headers id' content hcontent
      exact ⟨header', hread', hnodup', fun b hb => List.mem_append_left _ (hmem b hb)⟩
  · rcases List.mem_append.mp he with he | he
    · obtain ⟨content, header', hcontent, hrest⟩ := h.entries e he
      exact ⟨content, header', hput _ _ hcontent, hrest⟩
    · obtain ⟨hash, hmem, rfl⟩ := List.mem_map.mp he
      rw [← hheader] at hmem
      obtain ⟨b, hb, rfl⟩ := List.mem_map.mp hmem
      exact ⟨buffer, header, hself, hread, b, hb, rfl⟩

theorem Knows.writePackfile (hP : P.Lawful) (hok : ManagerOk P keys added m disk)
    (hk : Knows P keys m.index disk.index l) (hu : Unique P keys l disk)
    (hio : io.Succeeds disk) (hwrite : m.writePackfile P keys disk io = some (m', disk', r)) :
    ∃ l', Unique P keys l' disk' ∧ Knows P keys m'.index disk'.index l' := by
  have hqueue := hok.queue_le hP
  obtain ⟨-, hbuf⟩ := writePackfile_ok hP hqueue hio.fresh hio.file hio.flush hk.buffer hwrite
  obtain ⟨ix, draft, taken, hfilled, ⟨hfill, -⟩, hcase⟩ := writePackfile_cases hP hqueue hwrite
  have hix := hfilled.index
  have hlaid := hfilled.laid [] .empty
  rw [List.nil_append] at hlaid
  obtain ⟨rfl, hm, rfl, -⟩ | ⟨-, -, hfail, -⟩ | ⟨buffer, folder, r', -, -, hser, hsize, hfin, rfl,
    -⟩ := hcase
  · -- all blobs of the queue were known
    rw [hix] at hm
    refine ⟨l, hu, ?_, ?_, hbuf⟩
    · rw [hm]
      exact ⟨hk.listed.loads, hk.listed.numbered⟩
    · rw [hm]
      exact hk.known
  · exact absurd hfail (by simp [hio.fresh, hio.file])
  · have hfiles : FilesOk P keys ix disk.index := hix ▸ hok.files
    obtain ⟨-, hitems, hqueued, -⟩ :=
      finalizePackfile_recorded hP (fun k hne => absurd (hio.flush k) hne) hfiles hfin
    -- the hashes that were taken are the fresh ones
    obtain ⟨fresh, hfresh, hnodup, hnew⟩ := fillDraft_fresh hfill
    rw [hix] at hfresh
    obtain rfl := List.append_cancel_right hfresh
    have hlisted : Listed P keys ix disk.index l := by
      rw [hix]
      exact ⟨hk.listed.loads, hk.listed.numbered⟩
    have hlen : ix.itemsBuf.length < maxEncryptableEntries := by
      rw [hix]
      exact hk.buffer.trans (by decide)
    have hfinal := hlisted.finalize hP hio.flush hlen hfin
    rw [hlaid.hashes] at hfinal
    refine ⟨_, hu.append hk.known hio.fresh (readHeader_serialize hP hlaid hser hsize)
      hlaid.header_hashes (List.nodup_reverse.mp hnodup)
      fun hash hmem => hnew hash (List.mem_reverse.mpr hmem), hfinal, ?_, hbuf⟩
    intro e he
    rw [BlobIndex.isBlobDuplicate_iff, hqueued, BlobIndex.findPackfile, hitems, hix]
    rcases List.mem_append.mp he with he | he
    · exact (BlobIndex.isBlobDuplicate_iff.mp (hk.known e he)).imp_left
        fun hq => List.mem_append_right _ hq
    · obtain ⟨hash, hmem, rfl⟩ := List.mem_map.mp he
      exact Or.inl (List.mem_append_left _ (List.mem_reverse.mpr hmem))

/-- The manager of the open session has changed, or the folder. -/
theorem catalogued_open (hsound : Sound P keys w) {s : Session} (hs : w.session = some s)
    (hu : Unique P keys l w.disk) (hk : Knows P keys s.manager.index w.disk.index l) :
    Catalogued P keys w := by
  refine ⟨hsound, l, hu, fun hnone => ?_, fun s' hs' => ?_⟩
  · cases hs.symm.trans hnone
  · cases hs.symm.trans hs'
    exact hk

theorem catalogued_start : Catalogued P keys .start := by
  refine ⟨.start, [], ⟨.nil, ?_, by simp⟩, fun _ => rfl, ?_⟩
  · simp [World.start, Disk.empty]
  · simp [World.start]

theorem catalogued_step (hP : P.Lawful) {a : ManagerAction} (h : Catalogued P keys w)
    (ha : NoIoErrors w a) (hstep : managerStep P keys w a = some w') : Catalogued P keys w' := by
  have hsound := sound_step hP h.sound ha.untorn hstep
  obtain ⟨l, hu, hclosed, hopen⟩ := h.unique
  cases stepped_of_managerStep hstep with
  | opened names files size ix hs hn hf hnew =>
    obtain ⟨hlisted, hbuf, hknown⟩ := listed_new h.sound.numbered hn hf (hclosed hs) hnew
    exact catalogued_open hsound rfl hu ⟨hlisted, hknown, by simp [hbuf, maxFileEntries]⟩
  | notOpened names files size e hs hf hnew =>
    exact ⟨hsound, l, hu, fun _ => hclosed hs, fun _ hs => by cases hs⟩
  | added s blob pc hs hflush hpc => exact ⟨hsound, l, hu, hclosed, hopen⟩
  | moved s t c a pc hs hc hmove => exact ⟨hsound, l, hu, hclosed, hopen⟩
  | enqueued s t c blob hs hc hpc => exact catalogued_open hsound rfl hu (hopen s hs)
  | wrote s t c exceeded io m disk r pc hs hc hpc hwrite hr =>
    obtain ⟨l', hu', hk'⟩ :=
      (hopen s hs).writePackfile hP (h.sound.manager s hs) hu ha hwrite
    exact catalogued_open hsound rfl hu' hk'
  | flushes s hs hflush hall => exact catalogued_open hsound rfl hu (hopen s hs)
  | flushWrote s io m disk e hs hflush hwrite =>
    obtain ⟨l', hu', hk'⟩ :=
      (hopen s hs).writePackfile hP (h.sound.manager s hs) hu ha hwrite
    exact catalogued_open hsound rfl hu' hk'
  | flushFailed s io m disk e hs hflush hwrite =>
    obtain ⟨⟨e', he'⟩, -⟩ := writePackfile_ok hP ((h.sound.manager s hs).queue_le hP) ha.fresh
      ha.file ha.flush (hopen s hs).buffer hwrite
    cases he'
  | flushedIndex s io ix folder r hs hflush hnil hfl =>
    obtain rfl : io = .ok := ha
    have henc : s.manager.index.Encryptable :=
      encryptable_of_length ((hopen s hs).buffer.le.trans (by decide))
    obtain ⟨-, -, -, -, hbuf, -⟩ := flush_recorded hP (fun h => absurd rfl h)
      (h.sound.manager s hs).files hfl
    obtain ⟨⟨entries, hload, hl⟩, -⟩ := (hopen s hs).listed.flush hP henc hfl
    rw [hbuf (flush_ok henc hfl), List.append_nil] at hl
    exact ⟨hsound, l, ⟨hu.nodup, hu.headers, hu.entries⟩, fun _ => hl ▸ hload,
      fun _ hs => by cases hs⟩
  | killed s hs => exact ha.elim

/-- What the invariant says about the folder. -/
theorem Catalogued.listed_once (h : Catalogued P keys w) : Deduplicated P keys w := by
  obtain ⟨l, hu, hclosed, hopen⟩ := h.unique
  have hmem : ∀ id hash, InHeader P keys w.disk id hash → (hash, id) ∈ l := by
    rintro id hash ⟨content, header, hcontent, hread, b, hb, rfl⟩
    obtain ⟨header', hread', -, hall⟩ := hu.headers id content hcontent
    obtain rfl := Option.some.inj (hread.symm.trans hread')
    exact hall b hb
  have hload : ∃ entries, loadFiles P keys w.disk.index = .ok entries ∧ entries <+: l := by
    cases hs : w.session with
    | none => exact ⟨l, hclosed hs, List.prefix_refl _⟩
    | some s =>
      obtain ⟨entries, hload, rfl⟩ := (hopen s hs).listed.loads
      exact ⟨entries, hload, List.prefix_append _ _⟩
  refine ⟨fun id id' hash hid hid' => ?_, fun id content hcontent => ?_, ?_, fun s hs => ?_⟩
  · exact congrArg Prod.snd (List.inj_on_of_nodup_map hu.nodup (hmem id hash hid)
      (hmem id' hash hid') rfl)
  · obtain ⟨header, hread, hnodup, -⟩ := hu.headers id content hcontent
    exact ⟨header, hread, hnodup⟩
  · obtain ⟨entries, hload, hpre⟩ := hload
    exact ⟨entries, hload, hu.nodup.sublist (hpre.sublist.map Prod.fst),
      fun e he => hu.entries e (hpre.subset he)⟩
  · have hok := (fillDraft_filled (rfl :
      fillDraft s.manager.index .empty s.manager.blobs = (_, _, _, _))).1
    rw [hok]
    simp

/-- However many sessions are opened and flushed and however the calls of `add_blob` interleave,
as long as no I/O fails every hash is in one packfile and one index entry at most. -/
theorem deduplicated (hP : P.Lawful)
    (h : Transition.Reach (managerStep P keys) NoIoErrors .start w) : Deduplicated P keys w :=
  (h.invariant catalogued_start fun _ _ _ hs hok hst => catalogued_step hP hs hok hst).listed_once

end

/-- Two calls add the same blob at once, and both get past the first check. -/
theorem deduplicated_two : ∃ w : World, w.added = [sampleBlob, sampleBlob] ∧
    w.flushed = true ∧ Deduplicated .transparent sampleKeys w :=
  ⟨_, rfl, rfl, deduplicated Primitives.transparent_lawful <|
    .head (.openManager [] [] 0) trivial rfl <|
    .head (.addBlob sampleBlob) trivial rfl <|
    .head (.addBlob sampleBlob) trivial rfl <|
    .head (.check 0 (some (FixedBytes.fill 7))) trivial rfl <|
    .head (.check 1 (some (FixedBytes.fill 8))) trivial rfl <|
    .head (.enqueue 0) trivial rfl <|
    .head (.enqueue 1) trivial rfl <|
    .head (.trigger 0) trivial rfl <|
    .head (.trigger 1) trivial rfl <|
    .head .flush trivial rfl <|
    .head (.flushWrite ⟨FixedBytes.fill 9, .ok, fun _ => .ok⟩) ⟨rfl, rfl, fun _ => rfl⟩ rfl <|
    .head (.flushIndex .ok) rfl rfl .refl⟩

end Backuwup.Client
