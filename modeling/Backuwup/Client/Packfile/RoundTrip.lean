/-
# Packfiles and index round trip

`packfile_round_trip`: after any number of sessions in which nothing fails, a manager that is
opened anew gives back every blob that a call of `add_blob` has accepted, and no other.

Soundness of the folder (`Backuwup.Client.Packfile.Runs`) gives that what is found is right.
That every accepted blob is found needs, beyond `Accounted`, that the folder only grows
(`Grows`) and that every index file loads; both hold while no I/O fails (`Clean`).
-/
import Backuwup.Client.Packfile.Runs
import Mathlib.Data.Set.Function

namespace Backuwup.Client

variable {P : Primitives} {keys : KeyManager}

/-! ## 1. The folder grows -/

/-- If all files load, they still do, and no entry is lost. -/
structure Grows (P : Primitives) (keys : KeyManager) (folder folder' : Folder) : Prop where
  loads : (∀ f ∈ folder, ∃ items, loadFile P keys f.1 f.2 = .ok items) →
    ∀ f ∈ folder', ∃ items, loadFile P keys f.1 f.2 = .ok items
  entries : ∀ e, InFolder P keys folder e → InFolder P keys folder' e

theorem Grows.refl (folder : Folder) : Grows P keys folder folder :=
  ⟨fun h => h, fun _ h => h⟩

theorem Grows.trans {f₁ f₂ f₃ : Folder} (h : Grows P keys f₁ f₂) (h' : Grows P keys f₂ f₃) :
    Grows P keys f₁ f₃ :=
  ⟨fun hf => h'.loads (h.loads hf), fun e he => h'.entries e (h.entries e he)⟩

section

variable {ix ix' : BlobIndex} {folder folder' : Folder} {r : Except PackfileError Unit}

theorem flush_grows (hP : P.Lawful) (h : FilesOk P keys ix folder)
    (hflush : ix.flush P keys folder .ok = some (ix', folder', r)) :
    Grows P keys folder folder' := by
  obtain ⟨-, hrec, -, -, hbuf, -⟩ := flush_recorded hP (fun h => absurd rfl h) h hflush
  obtain ⟨hlt, ⟨hr, henc, -, hfolder⟩ | ⟨-, -, rfl | ⟨-, n, hio, -⟩⟩⟩ :=
    BlobIndex.flush_cases hflush
  · constructor
    · intro hall f hf
      rw [hfolder] at hf
      rcases Folder.mem_write hf with rfl | ⟨hf, -⟩
      · exact ⟨_, loadFile_sealed hP keys hlt henc⟩
      · exact hall f hf
    · intro e he
      refine ((hrec e).mpr (Or.inl he)).resolve_right ?_
      simp [hbuf hr]
  · exact .refl _
  · cases hio

theorem push_grows (hP : P.Lawful) (h : FilesOk P keys ix folder) {entry : IndexEntry}
    (hpush : ix.push P keys folder entry .ok = some (ix', folder', r)) :
    Grows P keys folder folder' := by
  unfold BlobIndex.push at hpush
  split at hpush
  · exact flush_grows hP (filesOk_buffer h entry) hpush
  · simp only [Option.some.injEq, Prod.mk.injEq] at hpush
    exact hpush.2.1 ▸ .refl _

theorem finalizePackfile_grows (hP : P.Lawful) {id : PackfileId} {io : ℕ → FileWrite}
    (hio : ∀ k, io k = .ok) {hashes : List BlobHash} (h : FilesOk P keys ix folder)
    (hfin : finalizePackfile P keys id io ix folder hashes = some (ix', folder', r)) :
    Grows P keys folder folder' := by
  induction hashes generalizing ix folder with
  | nil =>
    simp only [finalizePackfile, Option.some.injEq, Prod.mk.injEq] at hfin
    exact hfin.2.1 ▸ .refl _
  | cons hash hashes ih =>
    obtain ⟨e, hpush, -⟩ | ⟨ix₁, folder₁, hpush, hrest⟩ := finalizePackfile_cons hfin
    · rw [hio] at hpush
      exact push_grows hP h hpush
    · rw [hio] at hpush
      have hok := (push_recorded hP (fun h => absurd rfl h) h hpush).1
      exact (push_grows hP h hpush).trans (ih hok hrest)

end

theorem writePackfile_grows (hP : P.Lawful) {added : List Blob} {m m' : Manager}
    {disk disk' : Disk} {io : PackfileIo} {r : Except PackfileError Bool}
    (hio : ∀ k, io.flush k = .ok) (h : ManagerOk P keys added m disk)
    (hwrite : m.writePackfile P keys disk io = some (m', disk', r)) :
    Grows P keys disk.index disk'.index := by
  obtain ⟨ix, draft, taken, hfilled, -, ⟨-, -, rfl, -⟩ | ⟨-, -, -, rfl | ⟨-, content, rfl⟩⟩ |
    ⟨buffer, folder, r', -, -, -, -, hfin, rfl, -⟩⟩ := writePackfile_cases hP (h.queue_le hP) hwrite
  · exact .refl _
  · exact .refl _
  · exact .refl _
  · have hfiles : FilesOk P keys ix disk.index := hfilled.index ▸ h.files
    exact finalizePackfile_grows hP hio hfiles hfin

/-! ## 2. Runs without errors -/

/-- No I/O fails, the random id is not taken. -/
structure PackfileIo.Succeeds (io : PackfileIo) (disk : Disk) : Prop where
  fresh : disk.packfiles io.id = none
  file : io.file = .ok
  flush : ∀ k, io.flush k = .ok

/-- Blobs come with the hash of their data, and nothing fails. -/
def Undisturbed (P : Primitives) (w : World) : ManagerAction → Prop
  | .addBlob blob => blob.hash = P.hash blob.data
  | .check _ nonce => nonce ≠ none
  | .write _ io => io.Succeeds w.disk
  | .flushWrite io => io.Succeeds w.disk
  | .flushIndex io => io = .ok
  | .kill => False
  | _ => True

/-- A call that has returned has accepted its blob, or refused it for its size. -/
structure AddCall.Settled (c : AddCall) : Prop where
  alive : c.pc ≠ .killed
  returned : ∀ r, c.pc = .returned r →
    c.pc.Accepts ∨ blobMaxUncompressedSize < c.blob.data.length
  sized : c.pc.Accepts → c.blob.data.length ≤ blobMaxUncompressedSize

/-- What holds in addition while nothing fails. -/
structure Clean (P : Primitives) (keys : KeyManager) (w : World) : Prop where
  loads : ∀ f ∈ w.disk.index, ∃ items, loadFile P keys f.1 f.2 = .ok items
  buffer : ∀ s, w.session = some s → s.manager.index.itemsBuf.length < maxFileEntries
  settled : ∀ c ∈ w.past ++ w.calls, c.Settled
  past : ∀ c ∈ w.past, c.pc.isFinished = true ∧
    (c.pc.Accepts → ∃ id, InFolder P keys w.disk.index (c.blob.hash, id))
  flushing : ∀ s, w.session = some s → s.flushing = true → ∀ c ∈ w.calls, c.pc.isFinished = true
  closed : w.session = none → w.calls = [] ∨
    w.flushed = true ∧ ∀ c ∈ w.calls, c.pc.isFinished = true
  hashes : ∀ b ∈ w.added, b.hash = P.hash b.data

/-- An undisturbed step tears no file and loses no blob. -/
theorem Undisturbed.untorn {w : World} {a : ManagerAction} (h : Undisturbed P w a) :
    Untorn P a := by
  cases a with
  | write t io => exact fun k hk => absurd (h.flush k) hk
  | flushWrite io => exact fun k hk => absurd (h.flush k) hk
  | flushIndex io => exact fun hio => absurd h hio
  | _ => trivial

theorem Undisturbed.keepsPopped {w : World} {a : ManagerAction} (hc : Clean P keys w)
    (h : Undisturbed P w a) : KeepsPopped w a := by
  cases a with
  | write t io =>
    intro s hs
    have hbuf := hc.buffer s hs
    refine ⟨h.fresh, h.file, fun k _ => h.flush k, ?_⟩
    simp only [maxFileEntries, packfileMaxBlobs, maxEncryptableEntries] at hbuf ⊢
    omega
  | _ => trivial

section

variable {w w' : World}

theorem Clean.start : Clean P keys .start where
  loads _ hf := by simp [World.start, Disk.empty] at hf
  buffer _ hs := by simp [World.start] at hs
  settled _ hc := by simp [World.start] at hc
  past _ hc := by simp [World.start] at hc
  flushing _ hs := by simp [World.start] at hs
  closed _ := Or.inl rfl
  hashes _ hb := by simp [World.start, World.added] at hb

/-- A move that fails only where the blob does not come with a nonce or cannot be encrypted. -/
theorem PcMove.settled (hP : P.Lawful) {m : Manager} {blob : Blob} {a : ManagerAction}
    {pc pc' : AddPc} (h : PcMove P keys m blob a pc pc') (ha : Undisturbed P w a)
    (hold : (⟨blob, pc⟩ : AddCall).Settled)
    (hsize : pc = .called → blob.data.length ≤ blobMaxUncompressedSize) :
    (⟨blob, pc'⟩ : AddCall).Settled := by
  cases h with
  | noNonce => exact absurd rfl ha
  | encryptFails t nonce hnone =>
    -- a compressed blob is far below the limit of the cipher
    have hlen := hP.compress_length blob.data
    have hle := hsize rfl
    simp only [blobMaxUncompressedSize] at hle
    rw [compressEncryptBlob, Primitives.encryptInPlace, if_pos (by
      simp only [aesGcmMaxPlaintext]
      omega)] at hnone
    cases hnone
  | duplicate => exact ⟨by simp, fun _ _ => Or.inl trivial, fun _ => hsize rfl⟩
  | rests | unlocks => exact ⟨by simp, fun _ _ => Or.inl trivial, fun _ => hold.sized trivial⟩
  | exceeds => exact ⟨by simp, fun _ _ => Or.inl rfl, fun _ => hold.sized trivial⟩
  | encrypts => exact ⟨by simp, fun r hr => (by cases hr), False.elim⟩
  | triggers | locks => exact ⟨by simp, fun r hr => (by cases hr), fun _ => hold.sized trivial⟩

/-- A call of an open session moves on. -/
theorem Clean.setPc (h : Clean P keys w) {s : Session} (hs : w.session = some s) {t : ℕ}
    {c : AddCall} (hc : w.calls[t]? = some c) {pc : AddPc} (hnot : c.pc.isFinished = false)
    (hset : (⟨c.blob, pc⟩ : AddCall).Settled) : Clean P keys (w.setPc t c pc) where
  loads := h.loads
  buffer := h.buffer
  settled c' hc' := by
    rcases List.mem_append.mp hc' with hc' | hc'
    · exact h.settled c' (List.mem_append_left _ hc')
    · rcases mem_setPc hc' with hc' | rfl
      · exact h.settled c' (List.mem_append_right _ hc')
      · exact hset
  past := h.past
  flushing s' hs' hfl := by
    have := h.flushing s' hs' hfl c (List.mem_of_getElem? hc)
    rw [hnot] at this
    cases this
  closed hnone := by cases hs.symm.trans hnone
  hashes := by
    rw [added_setPc hc]
    exact h.hashes

/-- A manager writes to the folder. -/
theorem Clean.setManager (h : Clean P keys w) {s : Session} (hs : w.session = some s) {m : Manager}
    (disk : Disk) (hgrow : Grows P keys w.disk.index disk.index)
    (hbuf : m.index.itemsBuf.length < maxFileEntries) :
    Clean P keys ({ w with disk := disk }.setManager s m) where
  loads := hgrow.loads h.loads
  buffer s' hs' := by
    obtain rfl := Option.some.inj hs'
    exact hbuf
  settled := h.settled
  past c hc := (h.past c hc).imp_right fun hin hca => by
    obtain ⟨id, hid⟩ := hin hca
    exact ⟨id, hgrow.entries _ hid⟩
  flushing s' hs' hfl := by
    obtain rfl := Option.some.inj hs'
    exact h.flushing s hs hfl
  closed hnone := by cases hnone
  hashes := h.hashes

/-- Between sessions every call has returned, and what was accepted is on disk. -/
theorem Clean.finished (h : Clean P keys w) (hacc : Accounted P keys w)
    (hclosed : w.session = none) : ∀ c ∈ w.past ++ w.calls, c.pc.isFinished = true ∧
      (c.pc.Accepts → ∃ id, InFolder P keys w.disk.index (c.blob.hash, id)) := by
  intro c hc
  rcases List.mem_append.mp hc with hc | hc
  · exact h.past c hc
  · rcases h.closed hclosed with hnil | ⟨hfl, hall⟩
    · simp [hnil] at hc
    · exact ⟨hall c hc, hacc.flushed hfl c hc⟩

/-- Every undisturbed step keeps a run clean. -/
theorem clean_step (hP : P.Lawful) {a : ManagerAction} (hsound : Sound P keys w)
    (hacc : Accounted P keys w) (h : Clean P keys w) (ha : Undisturbed P w a)
    (hstep : managerStep P keys w a = some w') : Clean P keys w' := by
  cases stepped_of_managerStep hstep with
  | opened names files size ix hs hn hf hnew =>
    refine ⟨h.loads, ?_, by simpa using h.settled, h.finished hacc hs, by simp, by simp,
      by simpa [World.added] using h.hashes⟩
    intro s hs
    obtain rfl := Option.some.inj hs
    obtain ⟨items, -, rfl⟩ := BlobIndex.new_ok hnew
    simp [maxFileEntries]
  | notOpened names files size e hs hf hnew =>
    exact ⟨h.loads, by simp, by simpa using h.settled, h.finished hacc hs, by simp,
      fun _ => Or.inl rfl, by simpa [World.added] using h.hashes⟩
  | added s blob pc hs hflush hpc =>
    refine ⟨h.loads, h.buffer, ?_, h.past, ?_, ?_, ?_⟩
    · intro c hc
      rw [← List.append_assoc] at hc
      rcases List.mem_append.mp hc with hc | hc
      · exact h.settled c hc
      · obtain rfl := List.mem_singleton.mp hc
        rcases hpc with ⟨rfl, hsize⟩ | ⟨rfl, -⟩
        · exact ⟨by simp, fun _ _ => Or.inr hsize, fun hca => by cases hca⟩
        · exact ⟨by simp, fun _ hr => (by cases hr), False.elim⟩
    · intro s' hs' hfl
      obtain rfl := Option.some.inj (hs.symm.trans hs')
      cases hflush.symm.trans hfl
    · intro hnone
      cases hs.symm.trans hnone
    · intro b hb
      simp only [World.added, ← List.append_assoc, List.map_append, List.mem_append, List.map_cons,
        List.map_nil, List.mem_singleton] at hb
      rcases hb with hb | rfl
      · exact h.hashes b (by simpa [World.added] using hb)
      · exact ha
  | moved s t c a pc hs hc hmove =>
    have hmem := List.mem_of_getElem? hc
    exact h.setPc hs hc hmove.not_finished (hmove.settled hP ha
      (h.settled c (List.mem_append_right _ hmem)) (hsound.called c hmem))
  | enqueued s t c blob hs hc hpc =>
    have hset : Clean P keys
        (w.setManager s { s.manager with blobs := s.manager.blobs ++ [blob] }) :=
      h.setManager hs w.disk (.refl _) (h.buffer s hs)
    have hsize := (hsound.encrypted c (List.mem_of_getElem? hc) blob hpc).1
    exact hset.setPc rfl hc (by rw [hpc]; rfl)
      ⟨by simp, fun r hr => (by cases hr), fun _ => hsize⟩
  | wrote s t c exceeded io m disk r pc hs hc hpc hwrite hr =>
    have hM := hsound.manager s hs
    obtain ⟨⟨e, rfl⟩, hbuf⟩ :=
      writePackfile_ok hP (hM.queue_le hP) ha.fresh ha.file ha.flush (h.buffer s hs) hwrite
    have hset := h.setManager hs _ (writePackfile_grows hP ha.flush hM hwrite) hbuf
    have hsize := (h.settled c (List.mem_append_right _ (List.mem_of_getElem? hc))).sized
      (by rw [hpc]; trivial)
    refine hset.setPc rfl hc (by rw [hpc]; rfl) ?_
    obtain ⟨e', -, rfl⟩ | ⟨e', he', -⟩ := hr
    · exact ⟨by simp, fun r hr => (by cases hr), fun _ => hsize⟩
    · cases he'
  | flushes s hs hflush hall =>
    refine { h with
      buffer := ?_
      flushing := fun _ _ _ => hall
      closed := fun hnone => (by cases hnone) }
    intro s' hs'
    obtain rfl := Option.some.inj hs'
    exact h.buffer s hs
  | flushWrote s io m disk e hs hflush hwrite =>
    have hM := hsound.manager s hs
    exact h.setManager hs _ (writePackfile_grows hP ha.flush hM hwrite)
      (writePackfile_ok hP (hM.queue_le hP) ha.fresh ha.file ha.flush (h.buffer s hs) hwrite).2
  | flushFailed s io m disk e hs hflush hwrite =>
    obtain ⟨⟨e', he'⟩, -⟩ := writePackfile_ok hP ((hsound.manager s hs).queue_le hP) ha.fresh
      ha.file ha.flush (h.buffer s hs) hwrite
    cases he'
  | flushedIndex s io ix folder r hs hflush hnil hfl =>
    obtain rfl : io = .ok := ha
    have hgrow := flush_grows hP (hsound.manager s hs).files hfl
    have hr : r = .ok () := flush_ok (encryptable_of_length (by
      have := h.buffer s hs
      simp only [maxFileEntries, maxEncryptableEntries] at this ⊢
      omega)) hfl
    refine ⟨hgrow.loads h.loads, by simp [World.close], h.settled, ?_, by simp [World.close],
      fun _ => Or.inr ⟨by simp [World.close, hr], h.flushing s hs hflush⟩, h.hashes⟩
    intro c hc
    refine (h.past c hc).imp_right fun hin hca => ?_
    obtain ⟨id, hid⟩ := hin hca
    exact ⟨id, hgrow.entries _ hid⟩
  | killed s hs => exact ha.elim

/-! ## 3. The round trip -/

/-- The blobs accepted in any session. -/
def World.accepted (w : World) : List Blob :=
  ((w.past ++ w.calls).filter fun c => c.pc.accepted).map AddCall.blob

/-- The three invariants of an undisturbed run. -/
theorem clean_run (hP : P.Lawful)
    (h : Transition.Reach (managerStep P keys) (Undisturbed P) .start w) :
    Sound P keys w ∧ Unflushed w ∧ Accounted P keys w ∧ Clean P keys w := by
  refine h.invariant (I := fun w => Sound P keys w ∧ Unflushed w ∧ Accounted P keys w ∧
    Clean P keys w) ⟨.start, ?_, ?_, .start⟩ ?_
  · intro s hs
    simp [World.start] at hs
  · exact ⟨by simp [World.start], by simp [World.start], by simp [World.start]⟩
  · rintro w a w' ⟨hs, hu, hacc, hc⟩ ha hst
    exact ⟨sound_step hP hs ha.untorn hst, unflushed_step hu hst,
      accounted_step hP hs hu hacc ha.untorn (ha.keepsPopped hc) hst,
      clean_step hP hs hacc hc ha hst⟩

/-- Between sessions, the accepted blobs are those that were added and are not too large. -/
theorem mem_accepted_iff (h : Clean P keys w) (hacc : Accounted P keys w)
    (hclosed : w.session = none) {b : Blob} :
    b ∈ w.accepted ↔ b ∈ w.added ∧ b.data.length ≤ blobMaxUncompressedSize := by
  constructor
  · intro hb
    obtain ⟨c, hc, rfl⟩ := List.mem_map.mp hb
    obtain ⟨hc, hca⟩ := List.mem_filter.mp hc
    exact ⟨List.mem_map.mpr ⟨c, hc, rfl⟩, (h.settled c hc).sized (AddPc.accepted_iff.mp hca).1⟩
  · rintro ⟨hb, hsize⟩
    obtain ⟨c, hc, rfl⟩ := List.mem_map.mp hb
    have hfin := (h.finished hacc hclosed c hc).1
    have hca : c.pc.Accepts := by
      have hset := h.settled c hc
      cases hpc : c.pc with
      | returned r => exact hpc ▸ (hset.returned r hpc).resolve_right (not_lt.mpr hsize)
      | killed => exact absurd hpc hset.alive
      | _ =>
        rw [hpc] at hfin
        cases hfin
    exact List.mem_map.mpr ⟨c, List.mem_filter.mpr ⟨hc, AddPc.accepted_iff.mpr ⟨hca, hfin⟩⟩, rfl⟩

/-- What a new manager answers: an accepted blob with the hash asked for, or that there is
none. -/
theorem getBlob_new (hP : P.Lawful)
    (h : Transition.Reach (managerStep P keys) (Undisturbed P) .start w)
    (hclosed : w.session = none) (names : List FileName) {files : Folder}
    (hf : files.Perm w.disk.index) :
    ∃ ix, BlobIndex.new P keys names files = .ok ix ∧ ∀ hash,
      (∃ p ∈ w.accepted, p.hash = hash ∧
        Manager.getBlob P keys ix w.disk hash = .ok (some p)) ∨
      (Manager.getBlob P keys ix w.disk hash = .ok none ∧ ∀ b ∈ w.accepted, b.hash ≠ hash) := by
  obtain ⟨hsound, -, hacc, hclean⟩ := clean_run hP h
  obtain ⟨items, hload⟩ := loadFiles_ok fun f hf' => hclean.loads f (hf.mem_iff.mp hf')
  have hnew : BlobIndex.new P keys names files
      = .ok ⟨Search.sortByKey Prod.fst items, [], [], maxFileNum names, false⟩ := by
    simp only [BlobIndex.new, hload]
  refine ⟨_, hnew, ?_⟩
  intro hash
  rcases findPackfile_new hf hnew hash with ⟨id, hfind, hin⟩ | ⟨hfind, hnone⟩
  · obtain ⟨draft, buffer, hfile, -, -, p, hp, hsize, hhash, hread⟩ := hsound.stored _ hin
    refine Or.inl ⟨p, (mem_accepted_iff hclean hacc hclosed).mpr ⟨hp, hsize⟩, hhash, ?_⟩
    simp only at hfile hread
    simp only [Manager.getBlob, hfind, hfile, hread, Except.map]
  · refine Or.inr ⟨by simp only [Manager.getBlob, hfind], ?_⟩
    intro b hb hhash
    obtain ⟨c, hc, rfl⟩ := List.mem_map.mp hb
    obtain ⟨hc, hca⟩ := List.mem_filter.mp hc
    obtain ⟨id, hid⟩ := (hclean.finished hacc hclosed c hc).2 (AddPc.accepted_iff.mp hca).1
    exact hnone id (hhash ▸ hid)

/-- After any number of sessions in which nothing fails, a manager opened anew answers `get_blob`
with the data that was added under the hash, for every hash accepted, and with `None` for every
other hash. -/
theorem packfile_round_trip (hP : P.Lawful)
    (h : Transition.Reach (managerStep P keys) (Undisturbed P) .start w)
    (hclosed : w.session = none)
    (hinj : Set.InjOn P.hash {data | ∃ b ∈ w.accepted, b.data = data})
    {names : List FileName} {files : Folder} (hf : files.Perm w.disk.index) :
    ∃ ix, BlobIndex.new P keys names files = .ok ix ∧
      (∀ b ∈ w.accepted, ∃ b', Manager.getBlob P keys ix w.disk b.hash = .ok (some b') ∧
        b'.hash = b.hash ∧ b'.data = b.data) ∧
      ∀ hash, (∀ b ∈ w.accepted, b.hash ≠ hash) →
        Manager.getBlob P keys ix w.disk hash = .ok none := by
  obtain ⟨-, -, hacc, hclean⟩ := clean_run hP h
  have hhash : ∀ b ∈ w.accepted, b.hash = P.hash b.data := fun b hb =>
    hclean.hashes b ((mem_accepted_iff hclean hacc hclosed).mp hb).1
  obtain ⟨ix, hnew, hget⟩ := getBlob_new hP h hclosed names hf
  refine ⟨ix, hnew, ?_, ?_⟩
  · intro b hb
    rcases hget b.hash with ⟨p, hp, heq, hres⟩ | ⟨-, hnone⟩
    · refine ⟨p, hres, heq, hinj ⟨p, hp, rfl⟩ ⟨b, hb, rfl⟩ ?_⟩
      rw [← hhash p hp, ← hhash b hb, heq]
    · exact absurd rfl (hnone b hb)
  · intro hash hother
    rcases hget hash with ⟨p, hp, heq, -⟩ | ⟨hres, -⟩
    · exact absurd heq (hother p hp)
    · exact hres

end

/-- Pseudo-random bytes, for data that a compressor does not make shorter: the first bytes of the
states of a linear congruential generator. -/
def noise : ℕ → ℕ → Bytes
  | _, 0 => []
  | state, n + 1 => Fin.ofNat 256 (state / 2 ^ 56) ::
      noise ((state * 6364136223846793005 + 1442695040888963407) % 2 ^ 64) n

@[simp] theorem length_noise (state n : ℕ) : (noise state n).length = n := by
  induction n generalizing state with
  | zero => rfl
  | succ n ih => rw [noise, List.length_cons, ih]

theorem take_noise {state m n : ℕ} (h : m ≤ n) : (noise state n).take m = noise state m := by
  induction m generalizing state n with
  | zero => rfl
  | succ m ih =>
    obtain ⟨n, rfl⟩ : ∃ n', n = n' + 1 := ⟨n - 1, by omega⟩
    rw [noise, List.take_succ_cons, ih (by omega), noise]

/-- The keys and the blob of the run below. -/
def sampleKeys : KeyManager := .fromSecret .transparent (FixedBytes.fill 5)

def sampleBlob : Blob := ⟨Primitives.transparent.hash [1, 2, 3], .fileChunk, [1, 2, 3]⟩

def sampleTreeBlob : Blob := ⟨Primitives.transparent.hash [4, 5], .tree, [4, 5]⟩

def otherBlob : Blob := ⟨Primitives.transparent.hash [6], .fileChunk, [6]⟩

/-- A chunk and a tree are added at once. -/
def firstSession : List ManagerAction :=
  [.openManager [] [] 0, .addBlob sampleBlob, .addBlob sampleTreeBlob,
    .check 1 (some (FixedBytes.fill 7)), .check 0 (some (FixedBytes.fill 8)), .enqueue 0,
    .trigger 0, .enqueue 1, .trigger 1, .flush,
    .flushWrite ⟨FixedBytes.fill 9, .ok, fun _ => .ok⟩, .flushIndex .ok]

def firstWorld : World :=
  (Transition.run (managerStep .transparent sampleKeys) .start firstSession).getD .start

/-- In a second session the first chunk is added again. -/
def secondSession : List ManagerAction :=
  [.openManager (firstWorld.disk.index.map Prod.fst) firstWorld.disk.index 0,
    .addBlob otherBlob, .addBlob sampleBlob, .check 0 (some (FixedBytes.fill 7)),
    .check 1 (some (FixedBytes.fill 8)), .enqueue 0, .trigger 0, .flush,
    .flushWrite ⟨FixedBytes.fill 10, .ok, fun _ => .ok⟩, .flushIndex .ok]

def namesNew (w : World) : ManagerAction → Bool
  | .flushWrite io => (w.disk.packfiles io.id).isNone
  | _ => true

/-- The blobs of both sessions. -/
def sampleBlobs : List Blob := [sampleBlob, sampleTreeBlob, otherBlob, sampleBlob]

theorem sampleBlobs_accepted : ∃ w : World,
    Transition.Reach (managerStep .transparent sampleKeys) (Undisturbed .transparent) .start w ∧
    w.session = none ∧ w.accepted = sampleBlobs ∧ w.added = sampleBlobs := by
  obtain ⟨w, hw, hrest⟩ : ∃ w, Transition.runWhen (managerStep .transparent sampleKeys) namesNew
      .start (firstSession ++ secondSession) = some w ∧ w.session = none ∧
      w.accepted = sampleBlobs ∧ w.added = sampleBlobs := by
    decide +kernel
  have hnew : ∀ (id : PackfileId) (w : World), w.disk.packfiles id = none →
      (⟨id, .ok, fun _ => .ok⟩ : PackfileIo).Succeeds w.disk := fun id w h => ⟨h, rfl, fun _ => rfl⟩
  refine ⟨w, Transition.reach_of_runWhen_of_mem ?_ hw, hrest⟩
  simpa [firstSession, secondSession, Undisturbed, namesNew, sampleBlob, sampleTreeBlob, otherBlob]
    using ⟨hnew (FixedBytes.fill 9), hnew (FixedBytes.fill 10)⟩

/-- All three are read back, and nothing else. -/
theorem packfile_round_trip_three : ∃ (w : World) (ix : BlobIndex), w.accepted = sampleBlobs ∧
    BlobIndex.new .transparent sampleKeys [] w.disk.index = .ok ix ∧
    (∀ b ∈ sampleBlobs, ∃ b', Manager.getBlob .transparent sampleKeys ix w.disk b.hash
      = .ok (some b') ∧ b'.data = b.data) ∧
    Manager.getBlob .transparent sampleKeys ix w.disk (FixedBytes.fill 1) = .ok none := by
  obtain ⟨w, hreach, hclosed, hacc, -⟩ := sampleBlobs_accepted
  have hinj : Set.InjOn Primitives.transparent.hash {data | ∃ b ∈ w.accepted, b.data = data} := by
    have hpairs : ∀ a ∈ sampleBlobs, ∀ b ∈ sampleBlobs,
        Primitives.transparent.hash a.data = Primitives.transparent.hash b.data →
          a.data = b.data := by decide
    rw [hacc]
    rintro _ ⟨a, ha, rfl⟩ _ ⟨b, hb, rfl⟩ heq
    exact hpairs a ha b hb heq
  obtain ⟨ix, hnew, hall, hnone⟩ := @packfile_round_trip .transparent sampleKeys _
    Primitives.transparent_lawful hreach hclosed hinj [] _ (List.Perm.refl _)
  rw [hacc] at hall hnone
  refine ⟨w, ix, hacc, hnew, fun b hb => ?_, hnone _ (by decide)⟩
  obtain ⟨b', hget, -, hdata⟩ := hall b hb
  exact ⟨b', hget, hdata⟩

end Backuwup.Client
