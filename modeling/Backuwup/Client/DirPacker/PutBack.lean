/-
# Packing does not look at packfiles again (`dir_packer.rs`, `pack.rs`)

While a backup packs, `send` deletes packfiles from the folder.  The packer reads the index files
when it opens the folder, and of the packfiles it only asks whether the name of a new one is taken.
So packing takes the same steps in a folder in which the deleted packfiles are still there, as long
as no new packfile gets the id of a deleted one (`packStep_putBack`).  What is known of `pack` in a
folder that nobody else touches carries over.
-/
import Backuwup.Client.DirPacker.Session
import Backuwup.Client.Packfile.Stored

namespace Backuwup.Client

/-! ## 1. The folder with the deleted packfiles -/

/-- The packfiles that are gone are put back. -/
def Disk.putBack (gone : PackfileId → Option Bytes) (disk : Disk) : Disk :=
  { disk with packfiles := fun id => (disk.packfiles id).or (gone id) }

def World.putBack (gone : PackfileId → Option Bytes) (w : World) : World :=
  { w with disk := w.disk.putBack gone }

def Packing.putBack (gone : PackfileId → Option Bytes) (p : Packing) : Packing :=
  { p with world := p.world.putBack gone }

/-- The id of the packfile that a step may create. -/
def PackAction.packfileId : PackAction → Option PackfileId
  | .call a | .flush a => a.packfileId
  | _ => none

variable {P : Primitives} {keys : KeyManager} {gone : PackfileId → Option Bytes}

@[simp] theorem Disk.putBack_index (disk : Disk) : (disk.putBack gone).index = disk.index := rfl

@[simp] theorem World.putBack_session (w : World) : (w.putBack gone).session = w.session := rfl

@[simp] theorem World.putBack_calls (w : World) : (w.putBack gone).calls = w.calls := rfl

@[simp] theorem World.putBack_disk (w : World) : (w.putBack gone).disk = w.disk.putBack gone := rfl

/-- A packfile that is there stays what it is. -/
theorem Disk.putBack_of_some {disk : Disk} {id : PackfileId} {content : Bytes}
    (h : disk.packfiles id = some content) : (disk.putBack gone).packfiles id = some content := by
  simp only [Disk.putBack, h, Option.some_or]

theorem Disk.putBack_put (disk : Disk) (id : PackfileId) (content : Bytes) :
    (disk.put id content).putBack gone = (disk.putBack gone).put id content := by
  simp only [Disk.putBack, Disk.put, Disk.mk.injEq, and_true]
  funext id'
  by_cases h : id' = id
  · subst h
    simp
  · simp [Function.update_of_ne h]

/-- A new packfile is created where no packfile of its name has been deleted. -/
theorem Disk.create_putBack {disk : Disk} {id : PackfileId} (hfresh : gone id = none)
    (buffer : Bytes) (io : FileWrite) : (disk.putBack gone).create id buffer io
      = ((disk.create id buffer io).1.putBack gone, (disk.create id buffer io).2) := by
  have hsame : (disk.putBack gone).packfiles id = disk.packfiles id := by
    simp only [Disk.putBack, hfresh, Option.or_none]
  unfold Disk.create
  rw [hsame]
  cases disk.packfiles id with
  | some content => rfl
  | none =>
    cases io with
    | ok => simp only [Disk.putBack_put]
    | createFails => rfl
    | writeFails written => simp only [Disk.putBack_put]

/-! ## 2. Steps of the manager -/

/-- A round of `write_packfiles` does the same. -/
theorem writePackfile_putBack (m : Manager) (disk : Disk) {io : PackfileIo}
    (hfresh : gone io.id = none) : m.writePackfile P keys (disk.putBack gone) io
      = (m.writePackfile P keys disk io).map fun x => (x.1, x.2.1.putBack gone, x.2.2) := by
  unfold Manager.writePackfile
  rcases fillDraft m.index .empty m.blobs with ⟨ix, draft, blobs, r⟩
  cases r with
  | error e => rfl
  | ok u =>
    simp only
    split
    · rfl
    · cases serializePackfile P keys io.id draft with
      | none => rfl
      | some buffer =>
        simp only
        split
        · rfl
        · rw [Disk.create_putBack hfresh]
          rcases disk.create io.id buffer io.file with ⟨disk', r'⟩
          cases r' with
          | error e => rfl
          | ok u =>
            simp only [Disk.putBack_index]
            rcases finalizePackfile P keys io.id io.flush ix disk'.index draft.blobs with
              _ | ⟨ix', folder, _ | _⟩ <;> rfl

theorem inCall_putBack {w : World} {t : ℕ} {k k' : Session → AddCall → Option World}
    (hk : ∀ s c, k' s c = (k s c).map (World.putBack gone)) :
    (w.putBack gone).inCall t k' = (w.inCall t k).map (World.putBack gone) := by
  unfold World.inCall
  rw [World.putBack_session, World.putBack_calls]
  cases w.session with
  | none => rfl
  | some s =>
    cases w.calls[t]? with
    | none => rfl
    | some c => exact hk s c

theorem managerStep_putBack (w : World) {a : ManagerAction}
    (hfresh : ∀ id ∈ a.packfileId, gone id = none) :
    managerStep P keys (w.putBack gone) a
      = (managerStep P keys w a).map (World.putBack gone) := by
  cases a with
  | openManager names files size =>
    cases hs : w.session with
    | some s => simp [managerStep, hs]
    | none =>
      by_cases hlisted : names.Perm (w.disk.index.map Prod.fst) ∧ files.Perm w.disk.index
      · simp only [managerStep, World.putBack_session, hs, World.putBack_disk,
          Disk.putBack_index, hlisted, and_self, if_true]
        split <;> rfl
      · simp [managerStep, hs, hlisted]
  | addBlob blob =>
    simp only [managerStep, World.putBack_session]
    split
    · rfl
    · split
      · rfl
      · split <;> rfl
  | check t nonce =>
    refine inCall_putBack fun s c => ?_
    have hunlocked : (w.putBack gone).unlocked s = w.unlocked s := rfl
    simp only [hunlocked]
    split
    · split
      · split
        · rfl
        · split
          · rfl
          · split <;> rfl
      · rfl
    · rfl
  | enqueue t =>
    refine inCall_putBack fun s c => ?_
    have hunlocked : (w.putBack gone).unlocked s = w.unlocked s := rfl
    simp only [hunlocked]
    split
    · split <;> rfl
    · rfl
  | trigger t =>
    refine inCall_putBack fun s c => ?_
    have hunlocked : (w.putBack gone).unlocked s = w.unlocked s := rfl
    simp only [hunlocked]
    split
    · split <;> rfl
    · rfl
  | lock t =>
    refine inCall_putBack fun s c => ?_
    have hunlocked : (w.putBack gone).unlocked s = w.unlocked s := rfl
    simp only [hunlocked]
    split
    · split <;> rfl
    · rfl
  | write t io =>
    have hnone : gone io.id = none := hfresh io.id rfl
    refine inCall_putBack fun s c => ?_
    split
    · split
      · rfl
      · simp only [World.putBack_disk, writePackfile_putBack _ _ hnone, Option.map_map]
        rfl
    · rfl
  | unlock t =>
    refine inCall_putBack fun s c => ?_
    split
    · split <;> rfl
    · rfl
  | flush =>
    cases hs : w.session with
    | none => simp [managerStep, hs]
    | some s =>
      by_cases hidle : s.flushing = false ∧ ∀ c ∈ w.calls, c.pc.isFinished = true
      · simp [managerStep, hs, hidle.1, List.all_eq_true.mpr hidle.2, World.putBack]
      · simp [managerStep, hs, hidle]
  | flushWrite io =>
    have hnone : gone io.id = none := hfresh io.id rfl
    simp only [managerStep, World.putBack_session]
    split
    · rfl
    · split
      · simp only [World.putBack_disk, writePackfile_putBack _ _ hnone, Option.map_map]
        refine Option.map_congr fun x _ => ?_
        obtain ⟨m, disk, _ | _⟩ := x <;> rfl
      · rfl
  | flushIndex io =>
    simp only [managerStep, World.putBack_session]
    split
    · rfl
    · split
      · simp only [World.putBack_disk, Disk.putBack_index, Option.map_map]
        rfl
      · rfl
  | kill =>
    simp only [managerStep, World.putBack_session]
    split <;> rfl

/-! ## 3. Steps of `pack` -/

theorem AddTask.step_putBack (w : World) (task : AddTask) :
    task.step P keys (w.putBack gone)
      = (task.step P keys w).map fun x => (x.1.putBack gone, x.2) := by
  unfold AddTask.step
  split
  · split
    · rfl
    · rw [managerStep_putBack w (by simp [ManagerAction.packfileId])]
      simp only [Option.map_map]
      rfl
  · rw [World.putBack_calls]
    split
    · split <;> rfl
    · rfl
  · rfl

theorem packStep_putBack (p : Packing) {a : PackAction}
    (hfresh : ∀ id ∈ a.packfileId, gone id = none) :
    packStep P keys (p.putBack gone) a = (packStep P keys p a).map (Packing.putBack gone) := by
  cases a with
  | openManager names files size queue =>
    have hopen : managerStep P keys (p.world.putBack gone) (.openManager names files size)
        = (managerStep P keys p.world (.openManager names files size)).map (World.putBack gone) :=
      managerStep_putBack p.world (by simp [ManagerAction.packfileId])
    simp only [packStep, Packing.putBack, hopen]
    split
    · split
      · simp only [Option.map_map]
        refine Option.map_congr fun w _ => ?_
        simp only [Function.comp, World.putBack_session]
        split <;> rfl
      · rfl
    · rfl
  | task i =>
    simp only [packStep, Packing.putBack, AddTask.step_putBack]
    split
    · split
      · simp only [Option.map_map]
        rfl
      · rfl
    · rfl
  | sealTree =>
    simp only [packStep, Packing.putBack, AddTask.step_putBack]
    split
    · simp only [Option.map_map]
      rfl
    · rfl
  | call a =>
    simp only [packStep, Packing.putBack, managerStep_putBack p.world hfresh]
    split
    · simp only [Option.map_map]
      rfl
    · rfl
  | flush a =>
    simp only [packStep, Packing.putBack, managerStep_putBack p.world hfresh]
    split
    · split
      · simp only [Option.map_map]
        refine Option.map_congr fun w _ => ?_
        simp only [Function.comp, Packing.settle, World.putBack_session]
        split <;> rfl
      · rfl
    · rfl
  | kill =>
    simp only [packStep, Packing.putBack,
      managerStep_putBack p.world (a := .kill) (by simp [ManagerAction.packfileId])]
    simp only [Option.map_map]
    rfl
  | enter =>
    simp only [packStep, Packing.putBack]
    split <;> rfl
  | file name metadata chunks =>
    simp only [packStep, Packing.putBack]
    split
    · split <;> rfl
    · rfl
  | fileFails =>
    simp only [packStep, Packing.putBack]
    split <;> rfl
  | join name metadata =>
    cases hpc : p.pc with
    | files node tasks =>
      by_cases hjoined : tasks.all AddTask.isDone = true ∧
          (dirTree name metadata (p.children node.id ++ fileHashes tasks)).Encodable
      · simp only [packStep, Packing.putBack, hpc, hjoined, and_self, if_true]
        rfl
      · simp only [packStep, Packing.putBack, hpc, hjoined, if_false]
        rfl
    | _ => simp [packStep, Packing.putBack, hpc]
  | sealed =>
    simp only [packStep, Packing.putBack]
    split
    · split
      · split <;> rfl
      · rfl
      · rfl
    · rfl
  | fail =>
    simp only [packStep, Packing.putBack]
    split
    · split <;> rfl
    · rfl
  | finish =>
    simp only [packStep, Packing.putBack]
    split <;> rfl

/-! ## 4. New packfiles -/

theorem gains_of_taskStep {w w' : World} {task task' : AddTask}
    (h : task.step P keys w = some (w', task')) :
    Gains w.disk.packfiles none w'.disk.packfiles := by
  unfold AddTask.step at h
  split at h
  · split at h
    · obtain ⟨rfl, -⟩ := Prod.mk.inj (Option.some.inj h)
      exact .nothing
    · obtain ⟨w₁, hm, heq⟩ := Option.map_eq_some_iff.mp h
      obtain ⟨rfl, -⟩ := Prod.mk.inj heq
      exact gains_of_managerStep hm
  · split at h
    · obtain ⟨-, h⟩ := Option.ite_none_right_eq_some.mp h
      obtain ⟨rfl, -⟩ := Prod.mk.inj (Option.some.inj h)
      exact .nothing
    · cases h
  · cases h

theorem gains_of_packStep {p p' : Packing} {a : PackAction} (h : packStep P keys p a = some p') :
    Gains p.world.disk.packfiles a.packfileId p'.world.disk.packfiles := by
  cases packed_of_packStep h with
  | opened _ _ _ _ w s _ hm | notOpened _ _ _ _ w hm => exact gains_of_managerStep hm
  | adds node tasks i task task' w _ _ htask | seals node task task' w _ htask =>
    exact gains_of_taskStep htask
  | calls a w _ hm => exact gains_of_managerStep hm
  | flushes ok a w _ _ hm =>
    have hgains := gains_of_managerStep hm
    simp only [Packing.settle]
    split <;> exact hgains
  | killed w hm => exact gains_of_managerStep hm
  | enters | reads | skips | joins | sealedChild | sealedRoot | notSealed | fails | finishes =>
    exact .nothing

end Backuwup.Client
