/-
# What `pack` has stored when it returns

`pack_ok_stored` is what holds of every run, after any earlier life of the folder, in which no
triggered write loses blobs: a known hash is stored, and after `pack` has returned `Ok` with a
root hash, so is every hash reachable from it.  Two facts make this up.  Every blob that the
session has accepted is accounted for (`Backuwup.Client.Packfile.Runs`); and the root is the
hash of a tree of which the session has accepted every part (`Whole`), which the loop of
`pack_files_in_directory` keeps up for each directory it seals (`PackOk`).

A write that fails in the call of one file loses the blobs of another
(`lost_file_packed`).
-/
import Backuwup.Client.DirPacker.Session
import Backuwup.Client.Packfile.RoundTrip
import Mathlib.Data.Set.Function

namespace Backuwup.Client

/-! ## 1. The calls of a session -/

section

variable {P : Primitives} {keys : KeyManager} {w w' : World}

/-- The session has accepted the blob. -/
def Taken (w : World) (b : Blob) : Prop := ∃ c ∈ w.calls, c.blob = b ∧ c.pc.accepted = true

/-- Every call is still there, with its blob and its result. -/
def CallsKept (calls calls' : List AddCall) : Prop :=
  ∀ (t : ℕ) (c : AddCall), calls[t]? = some c → ∃ c' : AddCall, calls'[t]? = some c' ∧
    c'.blob = c.blob ∧ ∀ r, c.pc = .returned r → c'.pc = .returned r

theorem CallsKept.refl (calls : List AddCall) : CallsKept calls calls :=
  fun _ c hc => ⟨c, hc, rfl, fun _ h => h⟩

theorem AddPc.returned_of_accepted {pc : AddPc} (h : pc.accepted = true) :
    ∃ r, pc = .returned r := by
  cases pc with
  | returned r => exact ⟨r, rfl⟩
  | _ => cases h

theorem Taken.mono (hk : CallsKept w.calls w'.calls) {b : Blob} (h : Taken w b) : Taken w' b := by
  obtain ⟨c, hc, rfl, hacc⟩ := h
  obtain ⟨t, ht⟩ := List.mem_iff_getElem?.mp hc
  obtain ⟨c', hc', hblob, hres⟩ := hk t c ht
  obtain ⟨r, hr⟩ := AddPc.returned_of_accepted hacc
  refine ⟨c', List.mem_of_getElem? hc', hblob, ?_⟩
  rw [hres r hr, ← hr]
  exact hacc

/-- A call that has not returned moves on. -/
theorem callsKept_set {calls : List AddCall} {t : ℕ} {c : AddCall} (hc : calls[t]? = some c)
    {pc : AddPc} (hnot : c.pc.isFinished = false) :
    CallsKept calls (calls.set t { c with pc := pc }) := by
  intro t' c' hc'
  by_cases ht : t' = t
  · subst ht
    obtain rfl := Option.some.inj (hc.symm.trans hc')
    obtain ⟨hlt, -⟩ := List.getElem?_eq_some_iff.mp hc
    refine ⟨{ c with pc := pc }, by simp [hlt], rfl, ?_⟩
    intro r hr
    rw [hr] at hnot
    cases hnot
  · exact ⟨c', by rw [List.getElem?_set_ne (Ne.symm ht), hc'], rfl, fun _ h => h⟩

/-- Only a new session forgets the calls. -/
theorem Stepped.callsKept {a : ManagerAction} (h : Stepped P keys w a w')
    (hne : ∀ names files size, a ≠ .openManager names files size) :
    CallsKept w.calls w'.calls := by
  cases h with
  | opened names files size => exact absurd rfl (hne names files size)
  | notOpened names files size => exact absurd rfl (hne names files size)
  | added s blob pc hs =>
    intro t c hc
    obtain ⟨hlt, -⟩ := List.getElem?_eq_some_iff.mp hc
    exact ⟨c, by rw [List.getElem?_append_left hlt, hc], rfl, fun _ h => h⟩
  | moved s t c a pc hs hc hmove => exact callsKept_set hc hmove.not_finished
  | enqueued s t c blob hs hc hpc => exact callsKept_set hc (by rw [hpc]; rfl)
  | wrote s t c exceeded io m disk r pc hs hc hpc => exact callsKept_set hc (by rw [hpc]; rfl)
  | flushes | flushWrote | flushFailed | flushedIndex => exact .refl _
  | killed s hs =>
    intro t c hc
    refine ⟨{ c with pc := c.pc.kill }, by simp [hc], rfl, fun r hr => ?_⟩
    simp only [hr, AddPc.kill]

/-- Blobs come in through `add_blob` alone. -/
theorem Stepped.added_subset {a : ManagerAction} (h : Stepped P keys w a w') :
    ∀ b ∈ w'.added, b ∈ w.added ∨ a = .addBlob b := by
  intro b hb
  cases h with
  | opened | notOpened => exact Or.inl (by simpa [World.added] using hb)
  | added s blob pc hs =>
    simp only [World.added, ← List.append_assoc, List.map_append, List.mem_append, List.map_cons,
      List.map_nil, List.mem_singleton] at hb
    rcases hb with hb | rfl
    · exact Or.inl (by simpa [World.added] using hb)
    · exact Or.inr rfl
  | moved s t c a pc hs hc => exact Or.inl (by rwa [added_setPc hc] at hb)
  | enqueued s t c blob hs hc | wrote s t c exceeded io m disk r pc hs hc =>
    simp only [World.added, World.setPc, World.setManager, List.map_append, map_blob_set hc] at hb
    exact Or.inl (by simpa [World.added] using hb)
  | flushes | flushWrote | flushFailed | flushedIndex => exact Or.inl hb
  | killed => exact Or.inl (by simpa [World.added, World.close] using hb)

/-! ## 2. Whole trees -/

/-- The hash is that of a tree of which everything has been taken: its own blobs, and the chunks
of the file or the trees of the directory. -/
inductive Whole (P : Primitives) (taken : Blob → Prop) : BlobHash → Prop
  | file (t : Tree) : t.kind = .file → t.nextSibling = none → t.Encodable →
      (∀ b ∈ splitSerializeTree P t, taken b) →
      (∀ h ∈ t.children, ∃ b, taken b ∧ b.hash = h) → Whole P taken (treeHash P t)
  | dir (t : Tree) : t.kind = .dir → t.nextSibling = none → t.Encodable →
      (∀ b ∈ splitSerializeTree P t, taken b) →
      (∀ h ∈ t.children, Whole P taken h) → Whole P taken (treeHash P t)

theorem Whole.mono {taken taken' : Blob → Prop} {hash : BlobHash} (hsub : ∀ b, taken b → taken' b)
    (h : Whole P taken hash) : Whole P taken' hash := by
  induction h with
  | file t hk hs he hb hc =>
    exact .file t hk hs he (fun b hb' => hsub b (hb b hb')) fun h hh => by
      obtain ⟨b, hb', heq⟩ := hc h hh
      exact ⟨b, hsub b hb', heq⟩
  | dir t hk hs he hb _ ih => exact .dir t hk hs he (fun b hb' => hsub b (hb b hb')) ih

/-- What a task returns when all its blobs have been taken is the hash of a whole tree. -/
def TaskForm (P : Primitives) (taken : Blob → Prop) (task : AddTask) : Prop :=
  ∃ t : Tree, t.nextSibling = none ∧ t.Encodable ∧ task.hash = treeHash P t ∧
    (∀ b ∈ splitSerializeTree P t, b ∈ task.blobs) ∧
    ((t.kind = .file ∧ ∀ h ∈ t.children, ∃ b ∈ task.blobs, b.hash = h) ∨
      (t.kind = .dir ∧ ∀ h ∈ t.children, Whole P taken h))

/-- How far a task has come. -/
def TaskProgress (w : World) (task : AddTask) : Prop :=
  match task.pc with
  | .next count => ∀ b ∈ task.blobs.take count, Taken w b
  | .adding count call => (∀ b ∈ task.blobs.take count, Taken w b) ∧
      ∃ c, w.calls[call]? = some c ∧ task.blobs[count]? = some c.blob
  | .done true => ∀ b ∈ task.blobs, Taken w b
  | .done false => True

structure TaskOk (P : Primitives) (w : World) (task : AddTask) : Prop where
  form : task.pc ≠ .done false → TaskForm P (Taken w) task
  progress : TaskProgress w task
  hashes : ∀ b ∈ task.blobs, b.hash = P.hash b.data

theorem TaskForm.mono {taken taken' : Blob → Prop} {task : AddTask}
    (hsub : ∀ b, taken b → taken' b) (h : TaskForm P taken task) : TaskForm P taken' task := by
  obtain ⟨t, hs, he, hh, hb, hc⟩ := h
  exact ⟨t, hs, he, hh, hb, hc.imp_right fun ⟨hk, hc⟩ => ⟨hk, fun h hh => (hc h hh).mono hsub⟩⟩

theorem TaskOk.mono {task : AddTask} (hk : CallsKept w.calls w'.calls) (h : TaskOk P w task) :
    TaskOk P w' task where
  form hne := (h.form hne).mono fun _ => Taken.mono hk
  progress := by
    have hp := h.progress
    unfold TaskProgress at hp ⊢
    cases hpc : task.pc with
    | next count =>
      simp only [hpc] at hp ⊢
      exact fun b hb => (hp b hb).mono hk
    | adding count call =>
      simp only [hpc] at hp ⊢
      obtain ⟨htaken, c, hc, hblob⟩ := hp
      obtain ⟨c', hc', heq, -⟩ := hk _ c hc
      exact ⟨fun b hb => (htaken b hb).mono hk, c', hc', heq ▸ hblob⟩
    | done ok =>
      cases ok with
      | true =>
        simp only [hpc] at hp ⊢
        exact fun b hb => (hp b hb).mono hk
      | false => trivial
  hashes := h.hashes

/-- A task that is done returns the hash of a whole tree. -/
theorem TaskOk.whole {task : AddTask} (h : TaskOk P w task) (hdone : task.pc = .done true) :
    Whole P (Taken w) task.hash := by
  obtain ⟨t, hs, he, hh, hb, hc⟩ := h.form (by simp [hdone])
  have htaken : ∀ b ∈ task.blobs, Taken w b := by
    have hp := h.progress
    unfold TaskProgress at hp
    rw [hdone] at hp
    exact hp
  rw [hh]
  rcases hc with ⟨hk, hc⟩ | ⟨hk, hc⟩
  · refine .file t hk hs he (fun b hb' => htaken b (hb b hb')) fun h hh => ?_
    obtain ⟨b, hb', heq⟩ := hc h hh
    exact ⟨b, htaken b hb', heq⟩
  · exact .dir t hk hs he (fun b hb' => htaken b (hb b hb')) hc

/-- A step of a task keeps it in order; what it does to the folder is a call of `add_blob`. -/
theorem TaskOk.step {task task' : AddTask} (h : TaskOk P w task)
    (hstep : task.step P keys w = some (w', task')) :
    TaskOk P w' task' ∧
      (w' = w ∨ ∃ b ∈ task.blobs, managerStep P keys w (.addBlob b) = some w') := by
  have hp := h.progress
  unfold TaskProgress at hp
  unfold AddTask.step at hstep
  split at hstep
  · rename_i count hpc
    simp only [hpc] at hp
    split at hstep
    · -- all blobs have been taken
      rename_i hnone
      simp only [Option.some.injEq, Prod.mk.injEq] at hstep
      obtain ⟨rfl, rfl⟩ := hstep
      rw [List.take_of_length_le (List.getElem?_eq_none_iff.mp hnone)] at hp
      exact ⟨⟨fun _ => h.form (by simp [hpc]), hp, h.hashes⟩, Or.inl rfl⟩
    · rename_i blob hblob
      obtain ⟨w₁, hadd, heq⟩ := Option.map_eq_some_iff.mp hstep
      simp only [Prod.mk.injEq] at heq
      obtain ⟨rfl, rfl⟩ := heq
      have hst := stepped_of_managerStep hadd
      have hmono := h.mono (hst.callsKept (by simp))
      refine ⟨⟨fun _ => hmono.form (by simp [hpc]), ?_, h.hashes⟩,
        Or.inr ⟨blob, List.mem_of_getElem? hblob, hadd⟩⟩
      have hp' := hmono.progress
      unfold TaskProgress at hp' ⊢
      simp only [hpc] at hp' ⊢
      refine ⟨hp', ?_⟩
      cases hst with
      | added s _ pc => exact ⟨⟨blob, pc⟩, by simp, hblob⟩
      | moved s t c _ pc hs hc hmove => cases hmove
  · rename_i count call hpc
    simp only [hpc] at hp
    obtain ⟨htaken, c, hc, hblob⟩ := hp
    rw [hc] at hstep
    obtain ⟨hfin, hstep⟩ := Option.ite_none_right_eq_some.mp hstep
    simp only [Option.some.injEq, Prod.mk.injEq] at hstep
    obtain ⟨rfl, rfl⟩ := hstep
    refine ⟨⟨fun _ => h.form (by simp [hpc]), ?_, h.hashes⟩, Or.inl rfl⟩
    unfold TaskProgress
    by_cases hacc : c.pc.accepted = true
    · -- the blob of the call is the next one
      simp only [hacc, if_true]
      intro b hb
      rw [List.take_add_one, hblob] at hb
      rcases List.mem_append.mp hb with hb | hb
      · exact htaken b hb
      · obtain rfl := List.mem_singleton.mp hb
        exact ⟨c, List.mem_of_getElem? hc, rfl, hacc⟩
    · simp only [hacc, Bool.false_eq_true, if_false]
  · cases hstep

theorem TaskOk.start {blobs : List Blob} {hash : BlobHash}
    (hform : TaskForm P (Taken w) ⟨blobs, hash, .next 0⟩)
    (hhash : ∀ b ∈ blobs, b.hash = P.hash b.data) : TaskOk P w ⟨blobs, hash, .next 0⟩ where
  form _ := hform
  progress := by
    unfold TaskProgress
    simp
  hashes := hhash

theorem hash_splitSerializeTree {t : Tree} (hsib : t.nextSibling = none) :
    ∀ b ∈ splitSerializeTree P t, b.hash = P.hash b.data := by
  intro b hb
  obtain ⟨t', rfl, -⟩ := mem_splitSerializeTree hsib b hb
  rfl

theorem taskOk_file (name : FileName) (metadata : TreeMetadata) (chunks : List Bytes)
    (he : (fileTree P name metadata chunks).Encodable) :
    TaskOk P w ⟨fileBlobs P name metadata chunks, treeHash P (fileTree P name metadata chunks),
      .next 0⟩ := by
  refine .start ⟨fileTree P name metadata chunks, rfl, he, rfl,
    fun b hb => List.mem_append_right _ hb, Or.inl ⟨rfl, fun h hh => ?_⟩⟩ fun b hb => ?_
  · obtain ⟨data, hdata, rfl⟩ := List.mem_map.mp hh
    exact ⟨chunkBlob P data, List.mem_append_left _ (List.mem_map.mpr ⟨data, hdata, rfl⟩), rfl⟩
  · rcases List.mem_append.mp hb with hb | hb
    · obtain ⟨data, -, rfl⟩ := List.mem_map.mp hb
      rfl
    · exact hash_splitSerializeTree rfl b hb

/-- The task of a directory whose children are whole. -/
theorem taskOk_dir (name : FileName) (metadata : TreeMetadata) {children : List BlobHash}
    (he : (dirTree name metadata children).Encodable) (hc : ∀ h ∈ children, Whole P (Taken w) h) :
    TaskOk P w ⟨splitSerializeTree P (dirTree name metadata children),
      treeHash P (dirTree name metadata children), .next 0⟩ :=
  .start ⟨dirTree name metadata children, rfl, he, rfl, fun _ hb => hb,
    Or.inr ⟨rfl, hc⟩⟩ (hash_splitSerializeTree rfl)

/-! ## 3. The invariant of `pack` -/

/-- The directory that is being packed. -/
def PackPc.node : PackPc → Option FsNode
  | .files node _ => some node
  | .sealing node _ => some node
  | _ => none

/-- Children that have been handed to a node are whole, and so is the root once it is packed. -/
structure PackOk (P : Primitives) (p : Packing) : Prop where
  children : ∀ k, ∀ h ∈ p.children k, Whole P (Taken p.world) h
  files : ∀ node tasks, p.pc = .files node tasks → ∀ task ∈ tasks, TaskOk P p.world task
  sealing : ∀ node task, p.pc = .sealing node task → TaskOk P p.world task
  rooted : p.pc ≠ .idle → p.pc ≠ .ended false →
    .root ∈ p.queue ∨ p.pc.node = some .root ∨ Whole P (Taken p.world) p.rootHash
  ended : p.pc = .ended true → p.queue = []
  result : ∀ root, p.result = some root → p.pc = .idle ∧ p.world.session = none ∧
    p.world.flushed = true ∧ Whole P (Taken p.world) root
  hashes : ∀ b ∈ p.world.added, b.hash = P.hash b.data

/-- A step of the folder that is not a call of `add_blob`. -/
theorem Stepped.hashes {a : ManagerAction} (h : Stepped P keys w a w')
    (hadd : ∀ b, a = .addBlob b → b.hash = P.hash b.data)
    (hh : ∀ b ∈ w.added, b.hash = P.hash b.data) : ∀ b ∈ w'.added, b.hash = P.hash b.data := by
  intro b hb
  rcases h.added_subset b hb with hb | ha
  · exact hh b hb
  · exact hadd b ha

/-- Without a session the only step is to open one. -/
theorem Stepped.session {a : ManagerAction} (h : Stepped P keys w a w') (hnone : w.session = none) :
    ∃ names files size, a = .openManager names files size := by
  cases h with
  | opened names files size | notOpened names files size => exact ⟨names, files, size, rfl⟩
  | added s _ _ hs | moved s _ _ _ _ hs | enqueued s _ _ _ hs | wrote s _ _ _ _ _ _ _ _ hs
  | flushes s hs | flushWrote s _ _ _ _ hs | flushFailed s _ _ _ _ hs | flushedIndex s _ _ _ _ hs
  | killed s hs => cases hs.symm.trans hnone

variable {p p' : Packing}

theorem PackOk.result_none (h : PackOk P p) (hpc : p.pc ≠ .idle) : p.result = none := by
  cases hr : p.result with
  | none => rfl
  | some root => exact absurd (h.result root hr).1 hpc

/-- The folder makes a step while `pack` stays where it is. -/
theorem PackOk.setWorld (h : PackOk P p) (hk : CallsKept p.world.calls w'.calls)
    (hh : ∀ b ∈ w'.added, b.hash = P.hash b.data) (hres : p.result = none) :
    PackOk P { p with world := w' } where
  children k c hc := (h.children k c hc).mono fun _ => Taken.mono hk
  files node tasks hpc task ht := (h.files node tasks hpc task ht).mono hk
  sealing node task hpc := (h.sealing node task hpc).mono hk
  rooted hidle hend := (h.rooted hidle hend).imp_right fun hr => hr.imp_right fun hw =>
    hw.mono fun _ => Taken.mono hk
  ended := h.ended
  result root hr := by cases hres.symm.trans hr
  hashes := hh

/-- A step of a task leaves the rest of `pack` in order. -/
theorem PackOk.taskStep (h : PackOk P p) (hpc : p.pc ≠ .idle) {task task' : AddTask}
    (ht : TaskOk P p.world task) (hstep : task.step P keys p.world = some (w', task')) :
    PackOk P { p with world := w' } ∧ TaskOk P w' task' ∧ CallsKept p.world.calls w'.calls ∧
      (w' = p.world ∨ ∃ b, managerStep P keys p.world (.addBlob b) = some w') := by
  obtain ⟨hok, rfl | ⟨b, hb, hadd⟩⟩ := ht.step hstep
  · exact ⟨h, hok, .refl _, Or.inl rfl⟩
  · have hst := stepped_of_managerStep hadd
    have hk := hst.callsKept (by simp)
    refine ⟨h.setWorld hk (hst.hashes ?_ h.hashes) (h.result_none hpc), hok, hk, Or.inr ⟨b, hadd⟩⟩
    rintro b' heq
    obtain rfl := ManagerAction.addBlob.inj heq
    exact ht.hashes b hb

/-- `pack` moves on while the folder stays as it is. -/
theorem PackOk.setPc (h : PackOk P p) (queue : List FsNode) {pc : PackPc}
    (hfiles : ∀ node tasks, pc = .files node tasks → ∀ task ∈ tasks, TaskOk P p.world task)
    (hseal : ∀ node task, pc = .sealing node task → TaskOk P p.world task)
    (hroot : pc ≠ .ended false → .root ∈ queue ∨ pc.node = some .root ∨
      Whole P (Taken p.world) p.rootHash)
    (hended : pc = .ended true → queue = []) (hres : p.result = none) :
    PackOk P { p with queue := queue, pc := pc } where
  children := h.children
  files := hfiles
  sealing := hseal
  rooted _ := hroot
  ended := hended
  result root hr := by cases hres.symm.trans hr
  hashes := h.hashes

def FolderStep (P : Primitives) (keys : KeyManager) (p : Packing) (a : PackAction) (w' : World) :
    Prop :=
  w' = p.world ∨ ∃ a', managerStep P keys p.world a' = some w' ∧
    (LosesNone p a → KeepsPopped p.world a')

/-- The next directory is taken off the queue. -/
theorem PackOk.enter (h : PackOk P p) {node : FsNode} {queue : List FsNode}
    (hpc : p.pc = .between) (hqueue : p.queue = node :: queue) :
    PackOk P { p with queue := queue, pc := .files node [] } := by
  have hroot := h.rooted (by simp [hpc]) (by simp [hpc])
  refine h.setPc queue (fun _ _ hf task ht => ?_) (by simp) (fun _ => ?_) (by simp)
    (h.result_none (by simp [hpc]))
  · obtain ⟨rfl, rfl⟩ := PackPc.files.inj hf
    cases ht
  · rw [hqueue, List.mem_cons, hpc] at hroot
    rcases hroot with (rfl | hq) | hn | hw
    · exact Or.inr (Or.inl rfl)
    · exact Or.inl hq
    · cases hn
    · exact Or.inr (Or.inr hw)

/-- An error ends the loop over the directories. -/
theorem PackOk.abandon (h : PackOk P p) (hpc : p.pc ≠ .idle) :
    PackOk P { p with pc := .ended false } :=
  h.setPc p.queue (by simp) (by simp) (by simp) (by simp) (h.result_none hpc)

/-- The queue is empty. -/
theorem PackOk.finish (h : PackOk P p) (hpc : p.pc = .between) (hqueue : p.queue = []) :
    PackOk P { p with pc := .ended true } := by
  have hroot := h.rooted (by simp [hpc]) (by simp [hpc])
  refine h.setPc p.queue (by simp) (by simp) (fun _ => ?_) (fun _ => hqueue)
    (h.result_none (by simp [hpc]))
  simpa [hpc, PackPc.node] using hroot

/-- A call of `add_blob` takes a step of its own. -/
theorem PackOk.call (h : PackOk P p) {a : ManagerAction} (hcall : a.isCall = true)
    (hm : managerStep P keys p.world a = some w') : PackOk P { p with world := w' } := by
  have hst := stepped_of_managerStep hm
  have hopen : ∀ names files size, a ≠ .openManager names files size := by
    rintro _ _ _ rfl
    cases hcall
  have hres : p.result = none := by
    cases hr : p.result with
    | none => rfl
    | some root =>
      obtain ⟨names, files, size, heq⟩ := hst.session (h.result root hr).2.1
      exact absurd heq (hopen names files size)
  refine h.setWorld (hst.callsKept hopen) (hst.hashes ?_ h.hashes) hres
  rintro b rfl
  cases hcall

/-- The task of one more file is started. -/
theorem PackOk.spawn (h : PackOk P p) {node : FsNode} {tasks : List AddTask} {task : AddTask}
    (hpc : p.pc = .files node tasks) (ht : TaskOk P p.world task) :
    PackOk P { p with pc := .files node (tasks ++ [task]) } := by
  have hroot := h.rooted (by simp [hpc]) (by simp [hpc])
  refine h.setPc p.queue (fun _ _ hf t hmem => ?_) (by simp)
    (fun _ => by simpa [hpc, PackPc.node] using hroot) (by simp) (h.result_none (by simp [hpc]))
  obtain ⟨rfl, rfl⟩ := PackPc.files.inj hf
  rcases List.mem_append.mp hmem with hmem | hmem
  · exact h.files _ _ hpc t hmem
  · rw [List.mem_singleton.mp hmem]
    exact ht

/-- The task of a file takes a step. -/
theorem PackOk.fileStep (h : PackOk P p) {node : FsNode} {tasks : List AddTask}
    {task task' : AddTask} {i : ℕ} {w : World} (hpc : p.pc = .files node tasks)
    (hi : tasks[i]? = some task) (hstep : task.step P keys p.world = some (w, task')) :
    PackOk P { p with world := w, pc := .files node (tasks.set i task') } ∧
      (w = p.world ∨ ∃ b, managerStep P keys p.world (.addBlob b) = some w) := by
  have hmem := List.mem_of_getElem? hi
  obtain ⟨hpack, hok, hk, hw⟩ := h.taskStep (by simp [hpc]) (h.files _ _ hpc task hmem) hstep
  refine ⟨hpack.setPc p.queue (fun _ _ hf t ht => ?_) (by simp) (fun _ => ?_)
    (by simp) (h.result_none (by simp [hpc])), hw⟩
  · obtain ⟨rfl, rfl⟩ := PackPc.files.inj hf
    rcases List.mem_or_eq_of_mem_set ht with ht | rfl
    · exact (h.files _ _ hpc t ht).mono hk
    · exact hok
  · have := hpack.rooted (by simp [hpc]) (by simp [hpc])
    simpa [hpc, PackPc.node] using this

/-- The task of a directory takes a step. -/
theorem PackOk.sealStep (h : PackOk P p) {node : FsNode} {task task' : AddTask} {w : World}
    (hpc : p.pc = .sealing node task) (hstep : task.step P keys p.world = some (w, task')) :
    PackOk P { p with world := w, pc := .sealing node task' } ∧
      (w = p.world ∨ ∃ b, managerStep P keys p.world (.addBlob b) = some w) := by
  obtain ⟨hpack, hok, hk, hw⟩ := h.taskStep (by simp [hpc]) (h.sealing _ _ hpc) hstep
  refine ⟨hpack.setPc p.queue (by simp) (fun _ _ hs => ?_) (fun _ => ?_)
    (by simp) (h.result_none (by simp [hpc])), hw⟩
  · obtain ⟨rfl, rfl⟩ := PackPc.sealing.inj hs
    exact hok
  · have := hpack.rooted (by simp [hpc]) (by simp [hpc])
    simpa [hpc, PackPc.node] using this

/-- The files of a directory are done, and its tree is made. -/
theorem PackOk.join (h : PackOk P p) {node : FsNode} {tasks : List AddTask} {name : FileName}
    {metadata : TreeMetadata} {tree : Tree} (hpc : p.pc = .files node tasks)
    (htree : tree = dirTree name metadata (p.children node.id ++ fileHashes tasks))
    (henc : tree.Encodable) :
    PackOk P { p with
      pc := .sealing node ⟨splitSerializeTree P tree, treeHash P tree, .next 0⟩ } := by
  subst htree
  have hroot := h.rooted (by simp [hpc]) (by simp [hpc])
  refine h.setPc p.queue (by simp) (fun _ _ hs => ?_)
    (fun _ => by simpa [hpc, PackPc.node] using hroot) (by simp) (h.result_none (by simp [hpc]))
  obtain ⟨rfl, rfl⟩ := PackPc.sealing.inj hs
  refine taskOk_dir name metadata henc fun c hc => ?_
  rcases List.mem_append.mp hc with hc | hc
  · exact h.children _ c hc
  · obtain ⟨task, ht, rfl⟩ := List.mem_map.mp hc
    obtain ⟨ht, hok⟩ := List.mem_filter.mp ht
    exact (h.files _ _ hpc task ht).whole (by simpa using hok)

/-- The tree of a directory that is done goes to its parent. -/
theorem PackOk.sealedChild (h : PackOk P p) {node parent : FsNode} {task : AddTask}
    (hpc : p.pc = .sealing node task) (hdone : task.pc = .done true)
    (hparent : node.parent = some parent) :
    PackOk P { p with
      children := Function.update p.children parent.id (p.children parent.id ++ [task.hash])
      pc := .between } := by
  have hroot := h.rooted (by simp [hpc]) (by simp [hpc])
  have hres := h.result_none (by simp [hpc])
  refine ⟨fun k c hc => ?_, by simp, by simp, fun _ _ => ?_, by simp,
    fun root hr => (by cases hres.symm.trans hr), h.hashes⟩
  · by_cases hk : k = parent.id
    · subst hk
      simp only [Function.update_self] at hc
      rcases List.mem_append.mp hc with hc | hc
      · exact h.children _ c hc
      · rw [List.mem_singleton.mp hc]
        exact (h.sealing _ _ hpc).whole hdone
    · simp only [Function.update_of_ne hk] at hc
      exact h.children k c hc
  · rcases hroot with hq | hn | hw
    · exact Or.inl hq
    · rw [hpc] at hn
      rw [Option.some.inj hn] at hparent
      cases hparent
    · exact Or.inr (Or.inr hw)

/-- The tree of the root is done. -/
theorem PackOk.sealedRoot (h : PackOk P p) {node : FsNode} {task : AddTask}
    (hpc : p.pc = .sealing node task) (hdone : task.pc = .done true) :
    PackOk P { p with rootHash := task.hash, pc := .between } :=
  have hres := h.result_none (by simp [hpc])
  ⟨h.children, by simp, by simp, fun _ _ => Or.inr (Or.inr ((h.sealing _ _ hpc).whole hdone)),
    by simp, fun root hr => (by cases hres.symm.trans hr), h.hashes⟩

/-- The flush takes a step, and `pack` ends when the session does. -/
theorem PackOk.settle (h : PackOk P p) {ok : Bool} {a : ManagerAction} (hpc : p.pc = .ended ok)
    (hflush : a.isFlush = true) (hm : managerStep P keys p.world a = some w') :
    PackOk P (Packing.settle { p with world := w' } ok) := by
  have hst := stepped_of_managerStep hm
  have hk := hst.callsKept (by rintro _ _ _ rfl; cases hflush)
  have hh := hst.hashes (by rintro b rfl; cases hflush) h.hashes
  have hset := h.setWorld hk hh (h.result_none (by simp [hpc]))
  unfold Packing.settle
  split
  · exact hset
  · rename_i hnone
    refine ⟨hset.children, by simp, by simp, by simp, by simp, fun root hr => ?_, hh⟩
    obtain ⟨hok, hr⟩ := Option.ite_none_right_eq_some.mp hr
    obtain rfl := Option.some.inj hr
    obtain ⟨rfl, hfl⟩ := Bool.and_eq_true_iff.mp hok
    refine ⟨rfl, hnone, hfl, ?_⟩
    have hroot := hset.rooted (by simp [hpc]) (by simp [hpc])
    rw [show p.queue = [] from h.ended hpc] at hroot
    simpa [hpc, PackPc.node] using hroot

theorem Packing.settle_world {ok : Bool} : (p.settle ok).world = p.world := by
  unfold Packing.settle
  split <;> rfl

/-- The folder has been opened, or not. -/
theorem PackOk.opened (h : PackOk P p) {names : List FileName} {files : Folder} {size : ℕ}
    {queue : List FsNode} {w : World}
    (hopen : managerStep P keys p.world (.openManager names files size) = some w) {pc : PackPc}
    (hpc : pc = .between ∧ .root ∈ queue ∨ pc = .idle) :
    PackOk P ⟨w, queue, fun _ => [], defaultHash, pc, none⟩ := by
  have hh := (stepped_of_managerStep hopen).hashes (by simp) h.hashes
  rcases hpc with ⟨rfl, hroot⟩ | rfl
  · exact ⟨by simp, by simp, by simp, fun _ _ => Or.inl hroot, by simp, by simp, hh⟩
  · exact ⟨by simp, by simp, by simp, by simp, by simp, by simp, hh⟩

theorem PackOk.kill (h : PackOk P p) {w : World}
    (hm : managerStep P keys p.world .kill = some w) :
    PackOk P { p with world := w, pc := .idle, result := none } := by
  have hst := stepped_of_managerStep hm
  have hk := hst.callsKept (by simp)
  have hh := hst.hashes (by simp) h.hashes
  exact ⟨fun k c hc => (h.children k c hc).mono fun _ => Taken.mono hk, by simp, by simp,
    by simp, by simp, by simp, hh⟩

/-- Every step keeps the invariant. -/
theorem packOk_step {a : PackAction} (h : PackOk P p) (hstep : packStep P keys p a = some p') :
    PackOk P p' ∧ FolderStep P keys p a p'.world := by
  cases packed_of_packStep hstep with
  | opened names files size queue w s hroot hopen =>
    exact ⟨h.opened hopen (Or.inl ⟨rfl, hroot⟩), Or.inr ⟨_, hopen, fun _ => trivial⟩⟩
  | notOpened names files size queue w hopen =>
    exact ⟨h.opened hopen (Or.inr rfl), Or.inr ⟨_, hopen, fun _ => trivial⟩⟩
  | enters node queue hpc hqueue => exact ⟨h.enter hpc hqueue, Or.inl rfl⟩
  | reads node tasks name metadata chunks hpc henc =>
    exact ⟨h.spawn hpc (taskOk_file name metadata chunks henc), Or.inl rfl⟩
  | skips node tasks hpc =>
    exact ⟨h.spawn hpc ⟨fun hne => absurd rfl hne, trivial, by simp⟩, Or.inl rfl⟩
  | adds node tasks i task task' w hpc hi htask =>
    obtain ⟨hok, hw⟩ := h.fileStep hpc hi htask
    exact ⟨hok, hw.imp id fun ⟨b, hb⟩ => ⟨_, hb, fun _ => trivial⟩⟩
  | joins node tasks name metadata tree hpc htree henc => exact ⟨h.join hpc htree henc, Or.inl rfl⟩
  | seals node task task' w hpc htask =>
    obtain ⟨hok, hw⟩ := h.sealStep hpc htask
    exact ⟨hok, hw.imp id fun ⟨b, hb⟩ => ⟨_, hb, fun _ => trivial⟩⟩
  | sealedChild node parent task hpc hdone hparent =>
    exact ⟨h.sealedChild hpc hdone hparent, Or.inl rfl⟩
  | sealedRoot node task hpc hdone => exact ⟨h.sealedRoot hpc hdone, Or.inl rfl⟩
  | notSealed node task hpc => exact ⟨h.abandon (by simp [hpc]), Or.inl rfl⟩
  | fails node tasks hpc => exact ⟨h.abandon (by simp [hpc]), Or.inl rfl⟩
  | finishes hpc hqueue => exact ⟨h.finish hpc hqueue, Or.inl rfl⟩
  | calls a w hcall hm => exact ⟨h.call hcall hm, Or.inr ⟨a, hm, id⟩⟩
  | flushes ok a w hpc hflush hm =>
    refine ⟨h.settle hpc hflush hm, ?_⟩
    rw [Packing.settle_world]
    refine Or.inr ⟨a, hm, fun _ => ?_⟩
    cases a with
    | write => cases hflush
    | _ => trivial
  | killed w hm => exact ⟨h.kill hm, Or.inr ⟨_, hm, fun _ => trivial⟩⟩

/-! ## 4. What is reachable has been taken -/

/-- Everything of the tree has been taken. -/
structure TreeTaken (P : Primitives) (taken : Blob → Prop) (t : Tree) : Prop where
  sibling : t.nextSibling = none
  encodable : t.Encodable
  blobs : ∀ b ∈ splitSerializeTree P t, taken b
  file : t.kind = .file → ∀ h ∈ t.children, ∃ b, taken b ∧ b.hash = h
  dir : t.kind = .dir → ∀ h ∈ t.children, Whole P taken h

theorem Whole.treeTaken {taken : Blob → Prop} {hash : BlobHash} (h : Whole P taken hash) :
    ∃ t, TreeTaken P taken t ∧ ∃ b ∈ splitSerializeTree P t, b.hash = hash := by
  cases h with
  | file t hk hs he hb hc => exact ⟨t, ⟨hs, he, hb, fun _ => hc, by simp [hk]⟩, treeHash_mem P t⟩
  | dir t hk hs he hb hc => exact ⟨t, ⟨hs, he, hb, by simp [hk], fun _ => hc⟩, treeHash_mem P t⟩

/-- What the role of a hash says of a hash that has been taken. -/
def RoleTaken (P : Primitives) (taken : Blob → Prop) : Role → BlobHash → Prop
  | .tree, hash => ∃ t, TreeTaken P taken t ∧ ∃ b ∈ splitSerializeTree P t, b.hash = hash
  | .chunk, hash => ∃ b, taken b ∧ b.hash = hash

theorem RoleTaken.taken {taken : Blob → Prop} {role : Role} {hash : BlobHash}
    (h : RoleTaken P taken role hash) : ∃ b, taken b ∧ b.hash = hash := by
  cases role with
  | tree =>
    obtain ⟨t, ht, b, hb, heq⟩ := h
    exact ⟨b, ht.blobs b hb, heq⟩
  | chunk => exact h

/-- From a whole root, only hashes that have been taken are reachable. -/
theorem Reaches.roleTaken {added : List Blob} {taken : Blob → Prop} {root : BlobHash}
    (hinj : Set.InjOn P.hash {data | ∃ b ∈ added, b.data = data})
    (hhash : ∀ b ∈ added, b.hash = P.hash b.data) (hsub : ∀ b, taken b → b ∈ added)
    (hroot : Whole P taken root) {role : Role} {hash : BlobHash}
    (h : Reaches added root role hash) : RoleTaken P taken role hash := by
  -- under a hash of a taken tree lies the data of its blob, whoever has added it
  have hdecode : ∀ {hash : BlobHash} {b : Blob} {t : Tree}, RoleTaken P taken .tree hash →
      b ∈ added → b.hash = hash → treeCodec.decodePrefix b.data = some t →
      ∃ t₀, TreeTaken P taken t₀ ∧ PieceOf P t₀ t (splitSerializeTree P t₀) := by
    rintro hash b t ⟨t₀, ht, b₀, hb₀, rfl⟩ hb heq hdec
    obtain ⟨t', rfl, hpiece⟩ := mem_splitSerializeTree ht.sibling b₀ hb₀
    have hb₀' := hsub _ (ht.blobs _ hb₀)
    have hdata : b.data = treeCodec.enc t' := hinj ⟨b, hb, rfl⟩ ⟨_, hb₀', rfl⟩ <| by
      rw [← hhash b hb, heq]
      rfl
    rw [hdata, treeCodec.decodePrefix_enc (treeCodec_ok (hpiece.encodable ht.encodable))] at hdec
    exact ⟨t₀, ht, Option.some.inj hdec ▸ hpiece⟩
  induction h with
  | root => exact hroot.treeTaken
  | child _ hb heq hdec hc ih =>
    obtain ⟨t₀, ht, hpiece⟩ := hdecode ih hb heq hdec
    have hc₀ := hpiece.children hc
    rw [hpiece.kind]
    cases hk : t₀.kind with
    | file => exact ht.file hk _ hc₀
    | dir => exact (ht.dir hk _ hc₀).treeTaken
  | sibling _ hb heq hdec hnext ih =>
    obtain ⟨t₀, ht, hpiece⟩ := hdecode ih hb heq hdec
    exact ⟨t₀, ht, hpiece.sibling _ hnext⟩

/-! ## 5. Runs -/

/-- What holds of every run of `pack`, whatever fails. -/
structure PackSound (P : Primitives) (keys : KeyManager) (p : Packing) : Prop where
  sound : Sound P keys p.world
  unflushed : Unflushed p.world
  pack : PackOk P p

theorem PackSound.start : PackSound P keys .start where
  sound := .start
  unflushed _ hs := by cases hs
  pack := ⟨by simp [Packing.start], by simp [Packing.start], by simp [Packing.start],
    by simp [Packing.start], by simp [Packing.start], by simp [Packing.start],
    by simp [Packing.start, World.start, World.added]⟩

theorem Untorn.of_rejects (hrej : P.RejectsTruncated) (a : ManagerAction) : Untorn P a := by
  cases a with
  | write | flushWrite => exact fun _ _ => hrej
  | flushIndex => exact fun _ => hrej
  | _ => trivial

theorem packSound_step (hP : P.Lawful) (hrej : P.RejectsTruncated) {a : PackAction}
    (h : PackSound P keys p) (hstep : packStep P keys p a = some p') : PackSound P keys p' := by
  obtain ⟨hpack, hw | ⟨a', hst, -⟩⟩ := packOk_step h.pack hstep
  · exact ⟨hw ▸ h.sound, hw ▸ h.unflushed, hpack⟩
  · exact ⟨sound_step hP h.sound (.of_rejects hrej a') hst, unflushed_step h.unflushed hst, hpack⟩

/-- A new session accounts for all its blobs, there being none. -/
theorem accounted_open {names : List FileName} {files : Folder} {size : ℕ} {queue : List FsNode}
    (hstep : packStep P keys p (.openManager names files size queue) = some p') :
    Accounted P keys p'.world := by
  cases packed_of_packStep hstep with
  | opened _ _ _ _ w s hroot hopen => exact (stepped_of_managerStep hopen).accounted_open
  | notOpened _ _ _ _ w hopen => exact (stepped_of_managerStep hopen).accounted_open

/-- In every run that starts with a backup, after any earlier life of the folder, and in which no
triggered write loses blobs, `pack` keeps its promise. -/
theorem pack_ok_stored (hP : P.Lawful) (hrej : P.RejectsTruncated) {p₀ p₁ : Packing}
    (h₀ : Transition.Reach (packStep P keys) (fun _ _ => True) .start p₀)
    {names : List FileName} {files : Folder} {size : ℕ} {queue : List FsNode}
    (hopen : packStep P keys p₀ (.openManager names files size queue) = some p₁)
    (h : Transition.Reach (packStep P keys) LosesNone p₁ p)
    (hinj : Set.InjOn P.hash {data | ∃ b ∈ p.world.added, b.data = data}) :
    PackSafe P keys p := by
  have hsound₀ := h₀.invariant PackSound.start fun _ _ _ hi _ hst => packSound_step hP hrej hi hst
  obtain ⟨hs, hacc⟩ := h.invariant (I := fun p => PackSound P keys p ∧ Accounted P keys p.world)
    ⟨packSound_step hP hrej hsound₀ hopen, accounted_open hopen⟩ <| by
      rintro q a q' ⟨hs, hacc⟩ ha hst
      refine ⟨packSound_step hP hrej hs hst, ?_⟩
      obtain ⟨-, hw | ⟨a', hm, hk⟩⟩ := packOk_step hs.pack hst
      · exact hw ▸ hacc
      · exact accounted_step hP hs.sound hs.unflushed hacc (.of_rejects hrej a') (hk ha) hm
  constructor
  · intro root hroot role hash hreach
    obtain ⟨-, -, hfl, hwhole⟩ := hs.pack.result root hroot
    have hsub : ∀ b, Taken p.world b → b ∈ p.world.added := by
      rintro b ⟨c, hc, rfl, -⟩
      exact List.mem_map.mpr ⟨c, List.mem_append_right _ hc, rfl⟩
    obtain ⟨b, ⟨c, hc, rfl, hca⟩, rfl⟩ :=
      (hreach.roleTaken hinj hs.pack.hashes hsub hwhole).taken
    obtain ⟨id, hid⟩ := hacc.flushed hfl c hc (AddPc.accepted_iff.mp hca).1
    exact ⟨id, hid, hs.sound.stored _ hid⟩
  · intro s hsession hash hdup
    obtain ⟨id, hid⟩ := (hacc.kept s hsession).of_isBlobDuplicate hdup
    exact ⟨id, hid, (hs.sound.manager s hsession).stored _ hid⟩

end

/-! ## 6. Runs that return `Ok` -/

section

open Transition

/-- The steps that add one blob, of a task that makes `move` and of its call. -/
def addSteps (move : PackAction) (call : ℕ) : List PackAction :=
  [move, .call (.check call (some (FixedBytes.fill 7))), .call (.enqueue call),
    .call (.trigger call), move]

/-- The root is sealed, and all is flushed. -/
def finishSteps (call : ℕ) : List PackAction :=
  [.join [] .absent] ++ addSteps .sealTree call ++ [.sealTree, .sealed, .finish, .flush .flush,
    .flush (.flushWrite ⟨FixedBytes.fill 9, .ok, fun _ => .ok⟩), .flush (.flushIndex .ok)]

/-- A file of three bytes is packed. -/
def packOneFile : List PackAction :=
  [.enter, .file ['f'] .absent [[1, 2, 3]]] ++ addSteps (.task 0) 0 ++ addSteps (.task 0) 1 ++
    [.task 0] ++ finishSteps 2

theorem packOneFile_ok : (run (packStep .transparent sampleKeys) .start
    (.openManager [] [] 0 [.root] :: packOneFile)).any (fun p => p.result.isSome &&
      decide (∀ a ∈ p.world.added, ∀ b ∈ p.world.added,
        Primitives.transparent.hash a.data = Primitives.transparent.hash b.data →
          a.data = b.data)) = true := by
  decide +kernel

/-- What is reachable from its root is on disk. -/
theorem pack_ok_stored_one : ∃ (p : Packing) (root : BlobHash), p.result = some root ∧
    ∀ role hash, Reaches p.world.added root role hash →
      OnDisk .transparent sampleKeys p.world hash := by
  obtain ⟨p, hrun, hp⟩ := (Option.any_eq_true _ _).mp packOneFile_ok
  obtain ⟨p₁, hopen, hrun⟩ := Option.bind_eq_some_iff.mp (run_cons _ _ _ _ ▸ hrun)
  obtain ⟨hres, hinj⟩ := Bool.and_eq_true_iff.mp hp
  obtain ⟨root, hroot⟩ := Option.isSome_iff_exists.mp hres
  have hreach : Reach (packStep .transparent sampleKeys) LosesNone p₁ p :=
    reach_of_run (by simp [packOneFile, addSteps, finishSteps, LosesNone, KeepsPopped]) hrun
  have hsafe := pack_ok_stored Primitives.transparent_lawful
    Primitives.transparent_rejectsTruncated .refl hopen hreach <| by
      rintro _ ⟨a, ha, rfl⟩ _ ⟨b, hb, rfl⟩ h
      exact of_decide_eq_true hinj a ha b hb h
  exact ⟨p, root, hroot, hsafe.reachable root hroot⟩

def chunkTask (data : Bytes) (name : FileName) (pc : AddTaskPc) : AddTask :=
  ⟨fileBlobs .transparent name .absent [data],
    treeHash .transparent (fileTree .transparent name .absent [data]), pc⟩

/-- The root is packed, and its files `b` and `c` have the same chunk. -/
def twoFiles (data : Bytes) (calls : List AddPc) (blobs : List BlobEncrypted)
    (queued : List BlobHash) (pcB pcC : AddTaskPc) : Packing :=
  ⟨⟨.empty, [], calls.map (AddCall.mk (chunkBlob .transparent data)),
      some ⟨⟨blobs, ⟨[], [], queued, 0, false⟩, 0⟩, false⟩, false⟩,
    [], fun _ => [], defaultHash,
    .files .root [chunkTask data ['b'] pcB, chunkTask data ['c'] pcC], none⟩

def chunkEncrypted (data : Bytes) : BlobEncrypted :=
  ⟨Primitives.transparent.hash data, .fileChunk, Primitives.transparent.encrypt
    (blobKey .transparent sampleKeys (Primitives.transparent.hash data)) (FixedBytes.fill 7) data,
    FixedBytes.fill 7⟩

/-- The packfile cannot be created. -/
def brokenIo : PackfileIo := ⟨FixedBytes.fill 9, .createFails, fun _ => .ok⟩

section

variable {data : Bytes} (hlen : data.length = blobMaxUncompressedSize)
include hlen

theorem compressEncryptBlob_chunk : compressEncryptBlob .transparent sampleKeys
    (chunkBlob .transparent data) (FixedBytes.fill 7) = some (chunkEncrypted data) := by
  have hsize : data.length ≤ aesGcmMaxPlaintext := by
    rw [hlen]
    decide
  have henc : ∀ key nonce, Primitives.transparent.encryptInPlace key nonce data
      = some (Primitives.transparent.encrypt key nonce data) := fun _ _ => if_pos hsize
  simp only [compressEncryptBlob, chunkBlob, show Primitives.transparent.compress data = data from
    rfl, henc]
  rfl

theorem length_chunkEncrypted : (chunkEncrypted data).data.length = 3145744 := by
  have h := Primitives.transparent_lawful.encrypt_length
    (blobKey .transparent sampleKeys (Primitives.transparent.hash data)) (FixedBytes.fill 7) data
    (by rw [hlen]; decide)
  rwa [hlen] at h

/-- The chunk alone makes a packfile; when that cannot be created, the chunk is known and gone. -/
theorem writePackfile_chunk : Manager.writePackfile .transparent sampleKeys
    ⟨[chunkEncrypted data], ⟨[], [], [], 0, false⟩, 0⟩ .empty brokenIo
      = some (⟨[], ⟨[], [], [Primitives.transparent.hash data], 0, false⟩, 0⟩, .empty,
        .error .ioError) := by
  have hwritten : (PackfileDraft.add .empty (chunkEncrypted data)).bytesWritten = 3145756 := by
    simp only [PackfileDraft.add, length_chunkEncrypted hlen]
    rfl
  have hfull : (PackfileDraft.add .empty (chunkEncrypted data)).Full := by
    refine Or.inl ?_
    rw [hwritten]
    decide
  have hfill : fillDraft ⟨[], [], [], 0, false⟩ .empty [chunkEncrypted data]
      = (⟨[], [], [Primitives.transparent.hash data], 0, false⟩,
        .add .empty (chunkEncrypted data), [], .ok ()) := by
    simp only [fillDraft, BlobIndex.addToPackfile, List.not_mem_nil, if_false, if_pos hfull]
    rfl
  obtain ⟨buffer, hser, hsize⟩ := serializePackfile_fits
    Primitives.transparent_lawful sampleKeys (Laid.empty.add (chunkEncrypted data)) brokenIo.id
    (by simp only [PackfileDraft.add]; decide) (by rw [hwritten]; decide)
  simp only [Manager.writePackfile, hfill, hser, if_neg (not_lt.mpr hsize)]
  rfl

/-- The first file fails with its chunk lost; the chunk of the second counts as a duplicate. -/
theorem twoFiles_lost : Reach (packStep .transparent sampleKeys) (fun _ _ => True) .start
    (twoFiles data [.returned (.error .ioError), .returned (.ok none)] []
      [Primitives.transparent.hash data] (.done false) (.adding 0 1)) := by
  have hstart : run (packStep .transparent sampleKeys) .start [.openManager [] [] 0 [.root],
      .enter, .file ['b'] .absent [data], .file ['c'] .absent [data]]
        = some (twoFiles data [] [] [] (.next 0) (.next 0)) := rfl
  have hadd : packStep .transparent sampleKeys (twoFiles data [] [] [] (.next 0) (.next 0))
      (.task 0) = some (twoFiles data [.called] [] [] (.adding 0 0) (.next 0)) := by
    simp [packStep, twoFiles, AddTask.step, managerStep, chunkTask, fileBlobs, chunkBlob, hlen]
  have hcheck : packStep .transparent sampleKeys
      (twoFiles data [.called] [] [] (.adding 0 0) (.next 0))
      (.call (.check 0 (some (FixedBytes.fill 7))))
        = some (twoFiles data [.encrypted (chunkEncrypted data)] [] [] (.adding 0 0)
          (.next 0)) := by
    have hnew : BlobIndex.isBlobDuplicate ⟨[], [], [], 0, false⟩
      (chunkBlob .transparent data).hash = false := rfl
    simp [packStep, twoFiles, managerStep, World.inCall, World.unlocked, AddPc.isWriting,
      World.setPc, ManagerAction.isCall, compressEncryptBlob_chunk hlen, hnew]
  have henqueue : packStep .transparent sampleKeys
      (twoFiles data [.encrypted (chunkEncrypted data)] [] [] (.adding 0 0) (.next 0))
      (.call (.enqueue 0))
        = some (twoFiles data [.queued] [chunkEncrypted data] [] (.adding 0 0) (.next 0)) := rfl
  have htrigger : packStep .transparent sampleKeys
      (twoFiles data [.queued] [chunkEncrypted data] [] (.adding 0 0) (.next 0))
      (.call (.trigger 0))
        = some (twoFiles data [.overTarget] [chunkEncrypted data] [] (.adding 0 0)
          (.next 0)) := by
    have hnew : BlobIndex.isBlobDuplicate ⟨[], [], [], 0, false⟩
      (chunkEncrypted data).hash = false := rfl
    have hover : Manager.overTarget ⟨[chunkEncrypted data], ⟨[], [], [], 0, false⟩, 0⟩
        = true := by
      simp [Manager.overTarget, hnew, length_chunkEncrypted hlen, packfileTargetSize]
    simp [packStep, twoFiles, managerStep, World.inCall, World.unlocked, AddPc.isWriting,
      World.setPc, ManagerAction.isCall, hover]
  have hlock : packStep .transparent sampleKeys
      (twoFiles data [.overTarget] [chunkEncrypted data] [] (.adding 0 0) (.next 0))
      (.call (.lock 0))
        = some (twoFiles data [.writing false] [chunkEncrypted data] [] (.adding 0 0)
          (.next 0)) := rfl
  have hwrite : packStep .transparent sampleKeys
      (twoFiles data [.writing false] [chunkEncrypted data] [] (.adding 0 0) (.next 0))
      (.call (.write 0 brokenIo))
        = some (twoFiles data [.returned (.error .ioError)] []
          [Primitives.transparent.hash data] (.adding 0 0) (.next 0)) := by
    simp [packStep, twoFiles, managerStep, World.inCall, World.setPc, World.setManager,
      ManagerAction.isCall, writePackfile_chunk hlen]
  have hfails : packStep .transparent sampleKeys
      (twoFiles data [.returned (.error .ioError)] [] [Primitives.transparent.hash data]
        (.adding 0 0) (.next 0)) (.task 0)
        = some (twoFiles data [.returned (.error .ioError)] []
          [Primitives.transparent.hash data] (.done false) (.next 0)) := rfl
  have hsecond : packStep .transparent sampleKeys
      (twoFiles data [.returned (.error .ioError)] [] [Primitives.transparent.hash data]
        (.done false) (.next 0)) (.task 1)
        = some (twoFiles data [.returned (.error .ioError), .called] []
          [Primitives.transparent.hash data] (.done false) (.adding 0 1)) := by
    simp [packStep, twoFiles, AddTask.step, managerStep, chunkTask, fileBlobs, chunkBlob, hlen]
  have hknown : packStep .transparent sampleKeys
      (twoFiles data [.returned (.error .ioError), .called] []
        [Primitives.transparent.hash data] (.done false) (.adding 0 1)) (.call (.check 1 none))
        = some (twoFiles data [.returned (.error .ioError), .returned (.ok none)] []
          [Primitives.transparent.hash data] (.done false) (.adding 0 1)) := by
    simp [packStep, twoFiles, managerStep, World.inCall, World.unlocked, AddPc.isWriting,
      World.setPc, ManagerAction.isCall, BlobIndex.isBlobDuplicate, chunkBlob]
  exact (((((((((reach_of_run_true hstart).tail _ trivial hadd).tail _ trivial hcheck).tail _
    trivial henqueue).tail _ trivial htrigger).tail _ trivial hlock).tail _ trivial hwrite).tail _
    trivial hfails).tail _ trivial hsecond).tail _ trivial hknown

end

/-- The chunk of both files, 3 MiB that a compressor does not make shorter, and its hash. -/
def lostChunk : Bytes := noise 9 blobMaxUncompressedSize

def lostHash : BlobHash := ⟨noise 9 32, length_noise 9 32⟩

/-- The tree of the second file and that of the root. -/
def lostFileTree : Tree := fileTree .transparent ['c'] .absent [lostChunk]

def lostRootTree : Tree := dirTree [] .absent [treeHash .transparent lostFileTree]

theorem hash_lostChunk : Primitives.transparent.hash lostChunk = lostHash := by
  have hlen : 32 ≤ blobMaxUncompressedSize := by decide
  refine FixedBytes.ext' ?_
  simp only [Primitives.transparent, lostChunk, lostHash]
  rw [List.take_append_of_le_length (by rwa [length_noise]), take_noise hlen]

/-- The second file and the root are packed, and all is flushed. -/
theorem lostChunk_rest : (run (packStep .transparent sampleKeys)
    (twoFiles lostChunk [.returned (.error .ioError), .returned (.ok none)] []
      [lostHash] (.done false) (.adding 0 1))
    ([.task 1] ++ addSteps (.task 1) 2 ++ [.task 1] ++ finishSteps 3)).any (fun p =>
      decide (p.result = some (treeHash .transparent lostRootTree)) &&
      decide (treeBlob .transparent lostFileTree ∈ p.world.added) &&
      decide (treeBlob .transparent lostRootTree ∈ p.world.added) &&
      p.world.disk.index.all fun f =>
        match loadFile .transparent sampleKeys f.1 f.2 with
        | .ok items => items.all fun e => decide (e.1 ≠ lostHash)
        | .error _ => true) = true := by
  decide +kernel

/-- A chunk is lost in the call of a file that fails; another file of a backup that returns `Ok`
has the same chunk. -/
theorem lost_file_packed : ∃ (p : Packing) (root hash : BlobHash),
    Reach (packStep .transparent sampleKeys) (fun _ _ => True) .start p ∧
    p.result = some root ∧ Reaches p.world.added root .chunk hash ∧
    ¬ OnDisk .transparent sampleKeys p.world hash := by
  have hlost := twoFiles_lost (show lostChunk.length = _ from length_noise _ _)
  rw [hash_lostChunk] at hlost
  obtain ⟨p, hrun, hp⟩ := (Option.any_eq_true _ _).mp lostChunk_rest
  simp only [Bool.and_eq_true, decide_eq_true_eq, List.all_eq_true] at hp
  obtain ⟨⟨⟨hres, hfile⟩, hroot⟩, hindex⟩ := hp
  refine ⟨p, _, lostHash, hlost.trans (reach_of_run_true hrun), hres, ?_, ?_⟩
  · have hfileReached : Reaches p.world.added (treeHash .transparent lostRootTree) .tree
        (treeHash .transparent lostFileTree) :=
      .child (t := lostRootTree) .root hroot rfl
        (treeCodec.decodePrefix_enc (treeCodec_ok (by decide))) List.mem_cons_self
    have hchunk : lostHash ∈ lostFileTree.children :=
      List.mem_singleton.mpr hash_lostChunk.symm
    exact .child (t := lostFileTree) hfileReached hfile rfl
      (treeCodec.decodePrefix_enc (treeCodec_ok (by decide))) hchunk
  · rintro ⟨id, ⟨f, hf, items, hload, hmem⟩, -⟩
    have hother := hindex f hf
    rw [hload] at hother
    exact absurd rfl (of_decide_eq_true (List.all_eq_true.mp hother _ hmem))

end

end Backuwup.Client
