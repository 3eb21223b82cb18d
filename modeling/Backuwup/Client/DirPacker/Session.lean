/-
# Packing a directory while writes fail (`client/src/backup/filesystem/dir_packer.rs`)

`pack` opens a manager, takes the directories off its queue one by one, starts a task for each
file (`process_file`), waits for all of them, adds the tree of the directory, and flushes at the
end.  A file whose task fails is logged and left out.  The model runs this loop and the calls of
`add_blob` that its tasks make over the manager of `Backuwup.Client.Packfile.Pack`; what the
scan of the directory, the files and the metadata yield is up to the run, and so is every
failure.

A call of `add_blob` whose write fails has taken blobs of other files off the queue, and their
hashes stay known, so `pack` can return `Ok` although they are stored nowhere.  When it keeps its
promise (`PackSafe`) is the subject of `Backuwup.Client.DirPacker.Stored`.
-/
import Backuwup.Client.DirPacker.Nodes
import Backuwup.Client.Packfile.Runs

namespace Backuwup.Client

/-! ## 1. The state -/

/-- Where a task is that adds blobs one after the other. -/
inductive AddTaskPc
  /-- so many blobs have been accepted -/
  | next (count : ℕ)
  /-- the next one is passed to `add_blob` in this call -/
  | adding (count call : ℕ)
  | done (ok : Bool)
deriving DecidableEq

/-- A `process_file` task or an `add_tree_to_blobs`: the blobs to add and the hash to return. -/
structure AddTask where
  blobs : List Blob
  hash : BlobHash
  pc : AddTaskPc
deriving DecidableEq

inductive PackPc
  | idle
  /-- at the head of the loop of `pack_files_in_directory` -/
  | between
  /-- the files of a directory are processed -/
  | files (node : FsNode) (tasks : List AddTask)
  /-- the tree of the directory is added -/
  | sealing (node : FsNode) (task : AddTask)
  /-- `pack_files_in_directory` has returned -/
  | ended (ok : Bool)
deriving DecidableEq

/-- The folder and `pack` with its queue, the children of its nodes, and what it returned. -/
structure Packing where
  world : World
  queue : List FsNode
  children : ℕ → List BlobHash
  rootHash : BlobHash
  pc : PackPc
  result : Option BlobHash

def Packing.start : Packing := ⟨.start, [], fun _ => [], defaultHash, .idle, none⟩

/-! ## 2. The steps -/

/-- A task makes a call, or goes on after its call has returned. -/
def AddTask.step (P : Primitives) (keys : KeyManager) (w : World) (task : AddTask) :
    Option (World × AddTask) :=
  match task.pc with
  | .next count =>
    match task.blobs[count]? with
    | none => some (w, { task with pc := .done true })
    | some blob =>
      (managerStep P keys w (.addBlob blob)).map fun w' =>
        (w', { task with pc := .adding count w.calls.length })
  | .adding count call =>
    match w.calls[call]? with
    | some c =>
      if c.pc.isFinished then
        some (w, { task with pc := if c.pc.accepted then .next (count + 1) else .done false })
      else none
    | none => none
  | .done _ => none

def AddTask.isDone (task : AddTask) : Bool :=
  match task.pc with
  | .done _ => true
  | _ => false

/-- The hashes of the files whose tasks have returned `Ok`. -/
def fileHashes (tasks : List AddTask) : List BlobHash :=
  (tasks.filter fun task => task.pc = .done true).map AddTask.hash

inductive PackAction
  /-- `Manager::new` and `browse_dir_tree`, which leaves this queue -/
  | openManager (names : List FileName) (files : Folder) (size : ℕ) (queue : List FsNode)
  /-- a directory is taken off the queue -/
  | enter
  /-- a file is read as these chunks, and its task is started -/
  | file (name : FileName) (metadata : TreeMetadata) (chunks : List Bytes)
  /-- `process_file` fails before it adds anything -/
  | fileFails
  /-- a step of a file's task -/
  | task (i : ℕ)
  /-- all tasks have been joined -/
  | join (name : FileName) (metadata : TreeMetadata)
  /-- a step of `add_tree_to_blobs` for the directory -/
  | sealTree
  /-- `add_tree_to_blobs` has returned -/
  | sealed
  /-- an error ends `pack_files_in_directory` when no task runs -/
  | fail
  | finish
  /-- a step of an `add_blob` call -/
  | call (a : ManagerAction)
  /-- a step of the final `flush` -/
  | flush (a : ManagerAction)
  | kill

/-- The actions of `add_blob` after it has been called. -/
def ManagerAction.isCall : ManagerAction → Bool
  | .check _ _ => true
  | .enqueue _ => true
  | .trigger _ => true
  | .lock _ => true
  | .write _ _ => true
  | .unlock _ => true
  | _ => false

def ManagerAction.isFlush : ManagerAction → Bool
  | .flush => true
  | .flushWrite _ => true
  | .flushIndex _ => true
  | _ => false

/-- `pack` returns when `flush` has returned. -/
def Packing.settle (p : Packing) (ok : Bool) : Packing :=
  match p.world.session with
  | some _ => p
  | none =>
    { p with pc := .idle, result := if ok && p.world.flushed then some p.rootHash else none }

def packStep (P : Primitives) (keys : KeyManager) (p : Packing) : PackAction → Option Packing
  | .openManager names files size queue =>
    match p.pc with
    | .idle =>
      -- the root is put on the queue first
      if .root ∈ queue then
        (managerStep P keys p.world (.openManager names files size)).map fun w =>
          match w.session with
          | some _ => ⟨w, queue, fun _ => [], defaultHash, .between, none⟩
          | none => ⟨w, [], fun _ => [], defaultHash, .idle, none⟩
      else none
    | _ => none
  | .enter =>
    match p.pc, p.queue with
    | .between, node :: queue => some { p with queue := queue, pc := .files node [] }
    | _, _ => none
  | .file name metadata chunks =>
    match p.pc with
    | .files node tasks =>
      if (fileTree P name metadata chunks).Encodable then
        some { p with pc := .files node (tasks ++
          [⟨fileBlobs P name metadata chunks, treeHash P (fileTree P name metadata chunks),
            .next 0⟩]) }
      else none
    | _ => none
  | .fileFails =>
    match p.pc with
    | .files node tasks =>
      some { p with pc := .files node (tasks ++ [⟨[], P.hash [], .done false⟩]) }
    | _ => none
  | .task i =>
    match p.pc with
    | .files node tasks =>
      match tasks[i]? with
      | some task => (task.step P keys p.world).map fun (w, task) =>
        { p with world := w, pc := .files node (tasks.set i task) }
      | none => none
    | _ => none
  | .join name metadata =>
    match p.pc with
    | .files node tasks =>
      let tree := dirTree name metadata (p.children node.id ++ fileHashes tasks)
      if tasks.all AddTask.isDone ∧ tree.Encodable then
        some { p with pc := .sealing node ⟨splitSerializeTree P tree, treeHash P tree, .next 0⟩ }
      else none
    | _ => none
  | .sealTree =>
    match p.pc with
    | .sealing node task => (task.step P keys p.world).map fun (w, task) =>
      { p with world := w, pc := .sealing node task }
    | _ => none
  | .sealed =>
    match p.pc with
    | .sealing node task =>
      match task.pc with
      | .done true =>
        match node.parent with
        | some parent => some { p with
            children := Function.update p.children parent.id (p.children parent.id ++ [task.hash])
            pc := .between }
        | none => some { p with rootHash := task.hash, pc := .between }
      | .done false => some { p with pc := .ended false }
      | _ => none
    | _ => none
  | .fail =>
    match p.pc with
    | .files _ tasks =>
      if tasks.all AddTask.isDone then some { p with pc := .ended false } else none
    | _ => none
  | .finish =>
    match p.pc, p.queue with
    | .between, [] => some { p with pc := .ended true }
    | _, _ => none
  | .call a =>
    if a.isCall then (managerStep P keys p.world a).map fun w => { p with world := w } else none
  | .flush a =>
    match p.pc with
    | .ended ok =>
      if a.isFlush then
        (managerStep P keys p.world a).map fun w => { p with world := w }.settle ok
      else none
    | _ => none
  | .kill =>
    (managerStep P keys p.world .kill).map fun w =>
      { p with world := w, pc := .idle, result := none }

/-- What each step does. -/
inductive Packed (P : Primitives) (keys : KeyManager) (p : Packing) : PackAction → Packing → Prop
  | opened (names : List FileName) (files : Folder) (size : ℕ) (queue : List FsNode) (w : World)
      (s : Session) : .root ∈ queue →
      managerStep P keys p.world (.openManager names files size) = some w → w.session = some s →
      Packed P keys p (.openManager names files size queue)
        ⟨w, queue, fun _ => [], defaultHash, .between, none⟩
  | notOpened (names : List FileName) (files : Folder) (size : ℕ) (queue : List FsNode)
      (w : World) : managerStep P keys p.world (.openManager names files size) = some w →
      Packed P keys p (.openManager names files size queue)
        ⟨w, [], fun _ => [], defaultHash, .idle, none⟩
  | enters (node : FsNode) (queue : List FsNode) : p.pc = .between → p.queue = node :: queue →
      Packed P keys p .enter { p with queue := queue, pc := .files node [] }
  | reads (node : FsNode) (tasks : List AddTask) (name : FileName) (metadata : TreeMetadata)
      (chunks : List Bytes) : p.pc = .files node tasks →
      (fileTree P name metadata chunks).Encodable →
      Packed P keys p (.file name metadata chunks) { p with pc := .files node (tasks ++
        [⟨fileBlobs P name metadata chunks, treeHash P (fileTree P name metadata chunks),
          .next 0⟩]) }
  | skips (node : FsNode) (tasks : List AddTask) : p.pc = .files node tasks →
      Packed P keys p .fileFails
        { p with pc := .files node (tasks ++ [⟨[], P.hash [], .done false⟩]) }
  | adds (node : FsNode) (tasks : List AddTask) (i : ℕ) (task task' : AddTask) (w : World) :
      p.pc = .files node tasks → tasks[i]? = some task →
      task.step P keys p.world = some (w, task') →
      Packed P keys p (.task i) { p with world := w, pc := .files node (tasks.set i task') }
  | joins (node : FsNode) (tasks : List AddTask) (name : FileName) (metadata : TreeMetadata)
      (tree : Tree) : p.pc = .files node tasks →
      tree = dirTree name metadata (p.children node.id ++ fileHashes tasks) → tree.Encodable →
      Packed P keys p (.join name metadata)
        { p with pc := .sealing node ⟨splitSerializeTree P tree, treeHash P tree, .next 0⟩ }
  | seals (node : FsNode) (task task' : AddTask) (w : World) : p.pc = .sealing node task →
      task.step P keys p.world = some (w, task') →
      Packed P keys p .sealTree { p with world := w, pc := .sealing node task' }
  | sealedChild (node parent : FsNode) (task : AddTask) : p.pc = .sealing node task →
      task.pc = .done true → node.parent = some parent → Packed P keys p .sealed { p with
        children := Function.update p.children parent.id (p.children parent.id ++ [task.hash])
        pc := .between }
  | sealedRoot (node : FsNode) (task : AddTask) : p.pc = .sealing node task →
      task.pc = .done true → node.parent = none →
      Packed P keys p .sealed { p with rootHash := task.hash, pc := .between }
  | notSealed (node : FsNode) (task : AddTask) : p.pc = .sealing node task →
      Packed P keys p .sealed { p with pc := .ended false }
  | fails (node : FsNode) (tasks : List AddTask) : p.pc = .files node tasks →
      Packed P keys p .fail { p with pc := .ended false }
  | finishes : p.pc = .between → p.queue = [] →
      Packed P keys p .finish { p with pc := .ended true }
  | calls (a : ManagerAction) (w : World) : a.isCall = true →
      managerStep P keys p.world a = some w → Packed P keys p (.call a) { p with world := w }
  | flushes (ok : Bool) (a : ManagerAction) (w : World) : p.pc = .ended ok → a.isFlush = true →
      managerStep P keys p.world a = some w →
      Packed P keys p (.flush a) ({ p with world := w }.settle ok)
  | killed (w : World) : managerStep P keys p.world .kill = some w →
      Packed P keys p .kill { p with world := w, pc := .idle, result := none }

section

variable {P : Primitives} {keys : KeyManager} {p p' : Packing}

theorem packed_of_openManager {names : List FileName} {files : Folder} {size : ℕ}
    {queue : List FsNode} (h : packStep P keys p (.openManager names files size queue) = some p') :
    Packed P keys p (.openManager names files size queue) p' := by
  simp only [packStep] at h
  split at h
  · obtain ⟨hroot, h⟩ := Option.ite_none_right_eq_some.mp h
    obtain ⟨w, hopen, rfl⟩ := Option.map_eq_some_iff.mp h
    split
    · rename_i s hs
      exact .opened names files size queue w s hroot hopen hs
    · exact .notOpened names files size queue w hopen
  · cases h

theorem packed_of_sealed (h : packStep P keys p .sealed = some p') :
    Packed P keys p .sealed p' := by
  simp only [packStep] at h
  split at h
  · rename_i node task hpc
    split at h
    · rename_i hdone
      split at h
      · rename_i parent hparent
        exact Option.some.inj h ▸ .sealedChild node parent task hpc hdone hparent
      · rename_i hroot
        exact Option.some.inj h ▸ .sealedRoot node task hpc hdone hroot
    · exact Option.some.inj h ▸ .notSealed node task hpc
    · cases h
  · cases h

theorem packed_of_packStep {a : PackAction} (h : packStep P keys p a = some p') :
    Packed P keys p a p' := by
  cases a with
  | openManager names files size queue => exact packed_of_openManager h
  | sealed => exact packed_of_sealed h
  | enter =>
    simp only [packStep] at h
    split at h
    · rename_i node queue hpc hqueue
      exact Option.some.inj h ▸ .enters node queue hpc hqueue
    · cases h
  | file name metadata chunks =>
    simp only [packStep] at h
    split at h
    · rename_i node tasks hpc
      obtain ⟨henc, h⟩ := Option.ite_none_right_eq_some.mp h
      exact Option.some.inj h ▸ .reads node tasks name metadata chunks hpc henc
    · cases h
  | fileFails =>
    simp only [packStep] at h
    split at h
    · rename_i node tasks hpc
      exact Option.some.inj h ▸ .skips node tasks hpc
    · cases h
  | task i =>
    simp only [packStep] at h
    split at h
    · rename_i node tasks hpc
      split at h
      · rename_i task hi
        obtain ⟨⟨w, task'⟩, htask, rfl⟩ := Option.map_eq_some_iff.mp h
        exact .adds node tasks i task task' w hpc hi htask
      · cases h
    · cases h
  | join name metadata =>
    simp only [packStep] at h
    split at h
    · rename_i node tasks hpc
      obtain ⟨⟨-, henc⟩, h⟩ := Option.ite_none_right_eq_some.mp h
      exact Option.some.inj h ▸ .joins node tasks name metadata _ hpc rfl henc
    · cases h
  | sealTree =>
    simp only [packStep] at h
    split at h
    · rename_i node task hpc
      obtain ⟨⟨w, task'⟩, htask, rfl⟩ := Option.map_eq_some_iff.mp h
      exact .seals node task task' w hpc htask
    · cases h
  | fail =>
    simp only [packStep] at h
    split at h
    · rename_i node tasks hpc
      obtain ⟨-, h⟩ := Option.ite_none_right_eq_some.mp h
      exact Option.some.inj h ▸ .fails node tasks hpc
    · cases h
  | finish =>
    simp only [packStep] at h
    split at h
    · rename_i hpc hqueue
      exact Option.some.inj h ▸ .finishes hpc hqueue
    · cases h
  | call a =>
    obtain ⟨hcall, h⟩ := Option.ite_none_right_eq_some.mp h
    obtain ⟨w, hm, rfl⟩ := Option.map_eq_some_iff.mp h
    exact .calls a w hcall hm
  | flush a =>
    simp only [packStep] at h
    split at h
    · rename_i ok hpc
      obtain ⟨hflush, h⟩ := Option.ite_none_right_eq_some.mp h
      obtain ⟨w, hm, rfl⟩ := Option.map_eq_some_iff.mp h
      exact .flushes ok a w hpc hflush hm
    · cases h
  | kill =>
    obtain ⟨w, hm, rfl⟩ := Option.map_eq_some_iff.mp h
    exact .killed w hm

end

/-! ## 3. The property and its condition -/

/-- What a hash is the hash of. -/
inductive Role
  | tree
  | chunk
deriving DecidableEq

def TreeKind.childRole : TreeKind → Role
  | .dir => .tree
  | .file => .chunk

/-- The hashes reachable from a root: the children of trees and their next siblings.  A tree is
found under its hash among all blobs ever added. -/
inductive Reaches (added : List Blob) (root : BlobHash) : Role → BlobHash → Prop
  | root : Reaches added root .tree root
  | child {hash : BlobHash} {b : Blob} {t : Tree} {c : BlobHash} : Reaches added root .tree hash →
      b ∈ added → b.hash = hash → treeCodec.decodePrefix b.data = some t → c ∈ t.children →
      Reaches added root t.kind.childRole c
  | sibling {hash : BlobHash} {b : Blob} {t : Tree} {c : BlobHash} : Reaches added root .tree hash →
      b ∈ added → b.hash = hash → treeCodec.decodePrefix b.data = some t →
      t.nextSibling = some c → Reaches added root .tree c

/-- The hash has an entry in the index files, and its packfile is completely written. -/
def OnDisk (P : Primitives) (keys : KeyManager) (w : World) (hash : BlobHash) : Prop :=
  ∃ id, InFolder P keys w.disk.index (hash, id) ∧ Stored P keys w.added w.disk (hash, id)

/-- What `pack` promises: after `Ok`, all that is reachable is on disk, and meanwhile a known hash
has an entry, on disk or in the buffer, whose packfile is completely written. -/
structure PackSafe (P : Primitives) (keys : KeyManager) (p : Packing) : Prop where
  reachable : ∀ root, p.result = some root → ∀ role hash, Reaches p.world.added root role hash →
    OnDisk P keys p.world hash
  known : ∀ s, p.world.session = some s → ∀ hash, s.manager.index.isBlobDuplicate hash = true →
    ∃ id, Recorded P keys s.manager.index p.world.disk.index (hash, id) ∧
      Stored P keys p.world.added p.world.disk (hash, id)

/-- No round of `write_packfiles` that a call of `add_blob` has triggered loses blobs. -/
def LosesNone (p : Packing) : PackAction → Prop
  | .call a => KeepsPopped p.world a
  | _ => True

end Backuwup.Client
