/-
# The index folder only grows (`blob_index.rs`, `pack.rs`)

A manager numbers its index files upwards from the largest number that it has found in the folder.
What it writes is a file of a larger number than any it knows, so the files up to that number stay
as they are while it is open (`ExtendsFolder`), and once it has been flushed every file of the
folder loads (`loads_step`).
-/
import Backuwup.Client.Packfile.RoundTrip

namespace Backuwup.Client

variable {P : Primitives} {keys : KeyManager}

/-! ## 1. What a manager does to the folder -/

/-- No two files of the folder have the same name. -/
def Folder.Distinct (folder : Folder) : Prop := (folder.map Prod.fst).Nodup

namespace Folder.Distinct

variable {folder : Folder}

theorem filter (h : folder.Distinct) (keep : FileName × Bytes → Bool) :
    Distinct (folder.filter keep) :=
  h.sublist (List.filter_sublist.map Prod.fst)

/-- A file that is written replaces the one of its name. -/
theorem write (h : folder.Distinct) (name : FileName) (content : Bytes) :
    (folder.write name content).Distinct := by
  unfold Distinct Folder.write
  rw [List.map_append, List.nodup_append]
  refine ⟨h.filter _, by simp, ?_⟩
  intro name' hname' last hlast heq
  obtain ⟨f, hf, rfl⟩ := List.mem_map.mp hname'
  have hne : f.1 ≠ name := by simpa using (List.mem_filter.mp hf).2
  exact hne (heq.trans (by simpa using hlast))

theorem unique (h : folder.Distinct) {f g : FileName × Bytes} (hf : f ∈ folder) (hg : g ∈ folder)
    (hname : f.1 = g.1) : f = g := List.inj_on_of_nodup_map h hf hg hname

end Folder.Distinct

/-- The files up to the last number are kept, and every other file has a larger number. -/
structure ExtendsFolder (ix : BlobIndex) (folder : Folder) (ix' : BlobIndex) (folder' : Folder) :
    Prop where
  number : ix.lastFileNum ≤ ix'.lastFileNum
  kept : ∀ f ∈ folder, ∀ num ≤ ix.lastFileNum, num ≤ u32Max → f.1 = indexFileName num →
    f ∈ folder'
  added : ∀ f ∈ folder', f ∈ folder ∨
    ∃ num, ix.lastFileNum < num ∧ num ≤ u32Max ∧ f.1 = indexFileName num
  distinct : folder.Distinct → folder'.Distinct

namespace ExtendsFolder

variable {ix ix₁ ix₂ : BlobIndex} {folder folder₁ folder₂ : Folder}

/-- The folder stays, and so does the number. -/
theorem of_eq (hnum : ix₁.lastFileNum = ix.lastFileNum) : ExtendsFolder ix folder ix₁ folder where
  number := hnum.ge
  kept _ hf _ _ _ _ := hf
  added _ hf := Or.inl hf
  distinct := id

theorem trans (h : ExtendsFolder ix folder ix₁ folder₁)
    (h' : ExtendsFolder ix₁ folder₁ ix₂ folder₂) :
    ExtendsFolder ix folder ix₂ folder₂ where
  number := h.number.trans h'.number
  kept f hf num hnum hmax hname :=
    h'.kept f (h.kept f hf num hnum hmax hname) num (hnum.trans h.number) hmax hname
  added f hf := by
    rcases h'.added f hf with hf | ⟨num, hnum, hmax, hname⟩
    · exact h.added f hf
    · exact Or.inr ⟨num, h.number.trans_lt hnum, hmax, hname⟩
  distinct hd := h'.distinct (h.distinct hd)

/-- The file of the next number is written. -/
theorem write (hlt : ix.lastFileNum < u32Max) (content : Bytes)
    (hnum : ix.lastFileNum ≤ ix₁.lastFileNum) :
    ExtendsFolder ix folder ix₁ (folder.write (indexFileName (ix.lastFileNum + 1)) content) where
  number := hnum
  kept f hf num hle hmax hname := by
    have hne : f.1 ≠ indexFileName (ix.lastFileNum + 1) := by
      rw [hname]
      intro heq
      have := indexFileName_inj hmax hlt heq
      omega
    exact List.mem_append_left _ (List.mem_filter.mpr ⟨hf, by simpa using hne⟩)
  added f hf := by
    rcases Folder.mem_write hf with rfl | ⟨hf, -⟩
    · exact Or.inr ⟨_, Nat.lt_succ_self _, hlt, rfl⟩
    · exact Or.inl hf
  distinct hd := hd.write _ content

end ExtendsFolder

section

variable {ix ix' : BlobIndex} {folder folder' : Folder} {r : Except PackfileError Unit}

theorem flush_extends {io : FileWrite}
    (h : ix.flush P keys folder io = some (ix', folder', r)) :
    ExtendsFolder ix folder ix' folder' := by
  obtain ⟨hlt, ⟨-, -, rfl, rfl⟩ | ⟨-, rfl, rfl | ⟨-, written, -, rfl⟩⟩⟩ :=
    BlobIndex.flush_cases h
  · exact .write hlt _ (Nat.le_succ _)
  · exact .of_eq rfl
  · exact .write hlt _ (le_refl _)

theorem push_extends {entry : IndexEntry} {io : FileWrite}
    (h : ix.push P keys folder entry io = some (ix', folder', r)) :
    ExtendsFolder ix folder ix' folder' := by
  unfold BlobIndex.push at h
  have hbuffer : ExtendsFolder ix folder (ix.buffer entry) folder := .of_eq rfl
  split at h
  · exact hbuffer.trans (flush_extends h)
  · simp only [Option.some.injEq, Prod.mk.injEq] at h
    obtain ⟨rfl, rfl, -⟩ := h
    exact hbuffer

theorem finalizePackfile_extends {id : PackfileId} {io : ℕ → FileWrite} {hashes : List BlobHash}
    (h : finalizePackfile P keys id io ix folder hashes = some (ix', folder', r)) :
    ExtendsFolder ix folder ix' folder' := by
  induction hashes generalizing ix folder with
  | nil =>
    simp only [finalizePackfile, Option.some.injEq, Prod.mk.injEq] at h
    obtain ⟨rfl, rfl, -⟩ := h
    exact .of_eq rfl
  | cons hash hashes ih =>
    obtain ⟨e, hpush, -⟩ | ⟨ix₁, folder₁, hpush, hrest⟩ := finalizePackfile_cons h
    · exact push_extends hpush
    · exact (push_extends hpush).trans (ih hrest)

/-- After a flush that returns `Ok` every file of the folder loads. -/
theorem flush_loads (hP : P.Lawful) {io : FileWrite} (h : FilesOk P keys ix folder)
    (hflush : ix.flush P keys folder io = some (ix', folder', .ok ())) :
    ∀ f ∈ folder', ∃ items, loadFile P keys f.1 f.2 = .ok items := by
  obtain ⟨hlt, ⟨-, henc, -, rfl⟩ | ⟨hr, -⟩⟩ := BlobIndex.flush_cases hflush
  · intro f hf
    rcases Folder.mem_write hf with rfl | ⟨hf, hne⟩
    · exact ⟨_, loadFile_sealed hP keys hlt henc⟩
    · obtain ⟨_, -, -, -, hitems⟩ | ⟨-, hname, -⟩ := h f hf
      · exact hitems
      · exact absurd hname hne
  · exact absurd rfl hr

end

theorem writePackfile_extends {m m' : Manager} {disk disk' : Disk} {io : PackfileIo}
    {r : Except PackfileError Bool} (h : m.writePackfile P keys disk io = some (m', disk', r)) :
    ExtendsFolder m.index disk.index m'.index disk'.index := by
  obtain ⟨ix, draft, rest, taken, -, hfilled, hround⟩ := round_of_writePackfile h
  have hfill : ExtendsFolder m.index disk.index ix disk.index := .of_eq (by rw [hfilled.index])
  cases hround with
  | nothing | notEncrypted | notCreated | torn => exact hfill
  | notRecorded buffer ix' folder e _ _ _ _ _ hfin
  | written buffer ix' folder _ _ _ _ _ hfin => exact hfill.trans (finalizePackfile_extends hfin)

/-! ## 2. Steps of the manager -/

section

variable {w w' : World}

/-- What a step leaves in the folder: nothing happens to it without a session, and an open manager
extends it. -/
theorem Stepped.extends {a : ManagerAction} (h : Stepped P keys w a w') :
    (w.session = none ∧ w'.disk = w.disk ∧ ∀ s, w'.session = some s →
      ∀ f ∈ w.disk.index, ∀ num ≤ u32Max, f.1 = indexFileName num →
        num ≤ s.manager.index.lastFileNum) ∨
    ∃ s ix, w.session = some s ∧ ExtendsFolder s.manager.index w.disk.index ix w'.disk.index ∧
      ∀ s', w'.session = some s' → s'.manager.index.lastFileNum = ix.lastFileNum := by
  cases h with
  | opened names files size ix hs hn hf hnew =>
    refine Or.inl ⟨hs, rfl, ?_⟩
    intro s hsession f hmem num hmax hname
    obtain rfl := Option.some.inj hsession
    obtain ⟨items, -, rfl⟩ := BlobIndex.new_ok hnew
    exact le_maxFileNum hmax (hn.mem_iff.mpr (List.mem_map.mpr ⟨f, hmem, hname⟩))
  | notOpened names files size e hs => exact Or.inl ⟨hs, rfl, fun _ h => by cases h⟩
  | added s blob pc hs | moved s t c _ pc hs =>
    refine Or.inr ⟨s, s.manager.index, hs, .of_eq rfl, ?_⟩
    intro s' hs'
    obtain rfl := Option.some.inj (hs.symm.trans hs')
    rfl
  | enqueued s t c blob hs | flushes s hs =>
    refine Or.inr ⟨s, s.manager.index, hs, .of_eq rfl, ?_⟩
    intro s' hs'
    obtain rfl := Option.some.inj hs'
    rfl
  | wrote s t c exceeded io m disk r pc hs hc hpc hwrite =>
    refine Or.inr ⟨s, m.index, hs, writePackfile_extends hwrite, ?_⟩
    intro s' hs'
    obtain rfl := Option.some.inj hs'
    rfl
  | flushWrote s io m disk e hs hflush hwrite =>
    refine Or.inr ⟨s, m.index, hs, writePackfile_extends hwrite, ?_⟩
    intro s' hs'
    obtain rfl := Option.some.inj hs'
    rfl
  | flushFailed s io m disk e hs hflush hwrite =>
    exact Or.inr ⟨s, m.index, hs, writePackfile_extends hwrite, fun _ h => by cases h⟩
  | flushedIndex s io ix folder r hs hflush hnil hfl =>
    exact Or.inr ⟨s, ix, hs, flush_extends hfl, fun _ h => by cases h⟩
  | killed s hs => exact Or.inr ⟨s, s.manager.index, hs, .of_eq rfl, fun _ h => by cases h⟩

/-- No step gives two files of the folder the same name. -/
theorem Stepped.distinct {a : ManagerAction} (h : Stepped P keys w a w')
    (hd : w.disk.index.Distinct) : w'.disk.index.Distinct := by
  obtain ⟨-, hdisk, -⟩ | ⟨s, ix, -, hext, -⟩ := h.extends
  · rw [hdisk]
    exact hd
  · exact hext.distinct hd

/-- No step replaces a packfile. -/
theorem Stepped.keepsPackfiles (hP : P.Lawful) {c : ManagerAction}
    (hsound : Sound P keys w) (h : Stepped P keys w c w') {id : PackfileId} {content : Bytes}
    (hid : w.disk.packfiles id = some content) : w'.disk.packfiles id = some content := by
  cases h with
  | wrote s t c exceeded io m disk r pc hs hc hpc hwrite =>
    exact writePackfile_packfiles hP (hsound.manager s hs) hwrite hid
  | flushWrote s io m disk e hs hflush hwrite =>
    exact writePackfile_packfiles hP (hsound.manager s hs) hwrite hid
  | flushFailed s io m disk e hs hflush hwrite =>
    exact writePackfile_packfiles hP (hsound.manager s hs) hwrite hid
  | _ => exact hid

/-- A flushed folder loads. -/
def Loads (P : Primitives) (keys : KeyManager) (w : World) : Prop :=
  w.flushed = true → ∀ f ∈ w.disk.index, ∃ items, loadFile P keys f.1 f.2 = .ok items

theorem loads_step (hP : P.Lawful) {a : ManagerAction} (hsound : Sound P keys w)
    (hu : Unflushed w) (hst : managerStep P keys w a = some w') : Loads P keys w' := by
  intro hfl
  cases stepped_of_managerStep hst with
  | opened | notOpened | flushFailed | killed => cases hfl
  | added s _ _ hs | moved s _ _ _ _ hs | enqueued s _ _ _ hs | wrote s _ _ _ _ _ _ _ _ hs
  | flushes s hs | flushWrote s _ _ _ _ hs => cases (hu s hs).symm.trans hfl
  | flushedIndex s io ix folder r hs hflush hnil hflush' =>
    obtain rfl : r = .ok () := of_decide_eq_true hfl
    exact flush_loads hP (hsound.manager s hs).files hflush'

end

end Backuwup.Client
