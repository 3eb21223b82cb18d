/-
# Packing a directory tree that does not change (`dir_packer.rs`)

The tasks of the files run side by side, and the blobs of all of them go through one manager whose
writes and whose flush interleave with everything.  When the directory tree stays as it is and none
of its files is left out (`Yields`), none of this shows in the result: the directories are sealed
one after the other as `packFilesInDirectory` seals them, and `pack` returns its root hash
(`packing_step`).
-/
import Backuwup.Client.DirPacker.Stored
import Backuwup.Client.DirRoundTrip
import Backuwup.Client.Tampering

namespace Backuwup.Client

/-! ## 1. What the file system yields -/

/-- What is backed up: the directory tree that the process sees, and the path of its root. -/
structure Source where
  host : Host
  root : FsPath

/-- Where a node lies. -/
def Source.path (src : Source) (node : FsNode) : List FileName :=
  node.relPath ++ src.host.base src.root

def Source.fileNames (src : Source) (node : FsNode) : List FileName :=
  src.host.fileNames (src.path node)

/-- What the calls that `pack` makes yield while the directory tree is this one: the scan leaves
its queue, the files of a directory are read in the order of its listing, and all of them have been
packed when the directory is. -/
def Source.Yields (fastCdc : Bytes → List Bytes) (diffPaths : FsPath → FsPath → Option FsPath)
    (src : Source) (p : Packing) : PackAction → Prop
  | .openManager _ _ _ queue => ∃ fuel scan,
    browseDirTree diffPaths src.host src.root fuel = .ok scan ∧ queue = scan.queue
  | .file name metadata chunks => ∀ node tasks, p.pc = .files node tasks →
    (src.fileNames node)[tasks.length]? = some name ∧
      metadata = src.host.metadata (name :: src.path node) ∧
      chunks = fileChunks fastCdc (src.host.fileContent (name :: src.path node))
  | .fileFails => False
  | .join name metadata => ∀ node tasks, p.pc = .files node tasks →
    src.host.node (getNodePath src.root node) = some .dir ∧
      tasks.length = (src.fileNames node).length ∧ (∀ task ∈ tasks, task.pc = .done true) ∧
      name = (getNodePath src.root node).fileName ∧ metadata = src.host.metadata (src.path node)
  | _ => True

section

variable (P : Primitives) (fastCdc : Bytes → List Bytes)
  (diffPaths : FsPath → FsPath → Option FsPath) (src : Source)

/-- The snapshot of the directory tree, with all its blobs among those that were added. -/
def SnapshotOf (added : List Blob) (root : BlobHash) : Prop :=
  ∃ st, Packs P fastCdc diffPaths src.host src.root st ∧ st.rootTreeHash = root ∧
    ∀ b ∈ st.added, b ∈ added

/-- The directories of the queue up to here have been sealed as `packFilesInDirectory` does. -/
structure SealedUpTo (queue : List FsNode) (p : Packing) (done : List (FsNode × Tree))
    (st : PackState) : Prop where
  scanned : ∃ fuel scan, browseDirTree diffPaths src.host src.root fuel = .ok scan ∧
    scan.queue = queue
  fold : (done.map Prod.fst).foldlM (packDirectory P fastCdc src.host src.root)
    ⟨fun _ => [], defaultHash, []⟩ = .ok st
  sealed : Sealed P fastCdc src.host src.root done st
  children : p.children = st.children
  rootHash : p.rootHash = st.rootTreeHash
  added : ∀ b ∈ st.added, b ∈ p.world.added

/-- The tasks are those of the first files of the directory. -/
def TasksOf (node : FsNode) (tasks : List AddTask) : Prop :=
  ∀ (i : ℕ) (task : AddTask), tasks[i]? = some task → ∃ name, (src.fileNames node)[i]? = some name ∧
    task.blobs = fileBlobsAt P fastCdc src.host (name :: src.path node) ∧
    task.hash = treeHash P (fileTreeAt P fastCdc src.host (name :: src.path node))

/-- The files of the directory have been packed, and its tree is being added. -/
structure SealingOf (p : Packing) (done : List (FsNode × Tree)) (node : FsNode) (task : AddTask) :
    Prop where
  dir : src.host.node (getNodePath src.root node) = some .dir
  files : ∀ name ∈ src.fileNames node,
    ∀ b ∈ fileBlobsAt P fastCdc src.host (name :: src.path node), b ∈ p.world.added
  blobs : task.blobs = splitSerializeTree P (sealedTree P fastCdc src.host src.root done node)
  hash : task.hash = treeHash P (sealedTree P fastCdc src.host src.root done node)

/-- What is known of `pack`, wherever it is. -/
def PackingOf (p : Packing) : Prop :=
  match p.pc with
  | .idle => ∀ root, p.result = some root → SnapshotOf P fastCdc diffPaths src p.world.added root
  | .between => ∃ done st,
    SealedUpTo P fastCdc diffPaths src (done.map Prod.fst ++ p.queue) p done st
  | .files node tasks => (∃ done st,
      SealedUpTo P fastCdc diffPaths src (done.map Prod.fst ++ node :: p.queue) p done st) ∧
    TasksOf P fastCdc src node tasks
  | .sealing node task => ∃ done st,
    SealedUpTo P fastCdc diffPaths src (done.map Prod.fst ++ node :: p.queue) p done st ∧
      SealingOf P fastCdc src p done node task
  | .ended true => ∃ done st, SealedUpTo P fastCdc diffPaths src (done.map Prod.fst) p done st
  | .ended false => True

end

section

variable {P : Primitives} {keys : KeyManager} {fastCdc : Bytes → List Bytes}
  {diffPaths : FsPath → FsPath → Option FsPath} {src : Source} {p p' : Packing}
  {queue : List FsNode} {done : List (FsNode × Tree)} {st : PackState} {w w' : World}

/-- What is known between two directories, and in each of the phases of one. -/
theorem PackingOf.between (h : PackingOf P fastCdc diffPaths src p) (hpc : p.pc = .between) :
    ∃ done st, SealedUpTo P fastCdc diffPaths src (done.map Prod.fst ++ p.queue) p done st := by
  simpa only [PackingOf, hpc] using h

theorem PackingOf.files (h : PackingOf P fastCdc diffPaths src p) {node : FsNode}
    {tasks : List AddTask} (hpc : p.pc = .files node tasks) :
    (∃ done st,
      SealedUpTo P fastCdc diffPaths src (done.map Prod.fst ++ node :: p.queue) p done st) ∧
    TasksOf P fastCdc src node tasks := by
  simpa only [PackingOf, hpc] using h

theorem PackingOf.sealing (h : PackingOf P fastCdc diffPaths src p) {node : FsNode}
    {task : AddTask} (hpc : p.pc = .sealing node task) : ∃ done st,
      SealedUpTo P fastCdc diffPaths src (done.map Prod.fst ++ node :: p.queue) p done st ∧
        SealingOf P fastCdc src p done node task := by
  simpa only [PackingOf, hpc] using h

theorem PackingOf.ended (h : PackingOf P fastCdc diffPaths src p) (hpc : p.pc = .ended true) :
    ∃ done st, SealedUpTo P fastCdc diffPaths src (done.map Prod.fst) p done st := by
  simpa only [PackingOf, hpc] using h

/-! ## 2. What the folder does not change -/

theorem Taken.added {b : Blob} (h : Taken w b) : b ∈ w.added := by
  obtain ⟨c, hc, rfl, -⟩ := h
  obtain ⟨t, ht⟩ := List.mem_iff_getElem?.mp hc
  exact mem_added_of_call ht

theorem SealedUpTo.setWorld (h : SealedUpTo P fastCdc diffPaths src queue p done st)
    (hadded : p.world.added ⊆ w.added) (rest : List FsNode) (pc : PackPc)
    (result : Option BlobHash) :
    SealedUpTo P fastCdc diffPaths src queue
      { p with world := w, queue := rest, pc := pc, result := result } done st :=
  { h with added := fun b hb => hadded (h.added b hb) }

/-- The queue is that of a complete scan. -/
theorem SealedUpTo.complete (hdiff : LeadsFrom diffPaths)
    (h : SealedUpTo P fastCdc diffPaths src queue p done st) :
    Scanned src.host.fs (src.host.scanBase src.root) queue := by
  obtain ⟨fuel, scan, hscan, rfl⟩ := h.scanned
  exact browseDirTree_scanned hdiff hscan

/-- More blobs may have been added since. -/
theorem SnapshotOf.mono {added added' : List Blob} {root : BlobHash} (hadded : added ⊆ added')
    (h : SnapshotOf P fastCdc diffPaths src added root) :
    SnapshotOf P fastCdc diffPaths src added' root := by
  obtain ⟨st, hst, hroot, hall⟩ := h
  exact ⟨st, hst, hroot, fun b hb => hadded (hall b hb)⟩

/-- The folder makes a step while `pack` stays where it is. -/
theorem PackingOf.setWorld (h : PackingOf P fastCdc diffPaths src p)
    (hadded : p.world.added ⊆ w.added) :
    PackingOf P fastCdc diffPaths src { p with world := w } := by
  obtain ⟨world, rest, children, rootHash, pc, result⟩ := p
  cases pc with
  | idle =>
    intro root hroot
    obtain ⟨st, hst, hhash, hall⟩ := h root hroot
    exact ⟨st, hst, hhash, fun b hb => hadded (hall b hb)⟩
  | between =>
    obtain ⟨done, st, hs⟩ := h
    exact ⟨done, st, hs.setWorld hadded _ _ _⟩
  | files node tasks =>
    obtain ⟨⟨done, st, hs⟩, htasks⟩ := h
    exact ⟨⟨done, st, hs.setWorld hadded _ _ _⟩, htasks⟩
  | sealing node task =>
    obtain ⟨done, st, hs, hseal⟩ := h
    exact ⟨done, st, hs.setWorld hadded _ _ _, hseal.dir,
      fun name hname b hb => hadded (hseal.files name hname b hb), hseal.blobs, hseal.hash⟩
  | ended ok =>
    cases ok with
    | false => trivial
    | true =>
      obtain ⟨done, st, hs⟩ := h
      exact ⟨done, st, hs.setWorld hadded _ _ _⟩

/-! ## 3. A directory -/

/-- The blobs of a task that is done have been added. -/
theorem TaskOk.added {task : AddTask} (h : TaskOk P w task) (hdone : task.pc = .done true) :
    ∀ b ∈ task.blobs, b ∈ w.added := by
  have hp := h.progress
  unfold TaskProgress at hp
  rw [hdone] at hp
  exact fun b hb => (hp b hb).added

/-- A step of a task adds blobs, and changes neither those it has to add nor its hash. -/
theorem AddTask.step_keeps {task task' : AddTask} (h : task.step P keys w = some (w', task')) :
    task'.blobs = task.blobs ∧ task'.hash = task.hash ∧ w.added ⊆ w'.added := by
  unfold AddTask.step at h
  split at h
  · split at h
    · simp only [Option.some.injEq, Prod.mk.injEq] at h
      obtain ⟨rfl, rfl⟩ := h
      exact ⟨rfl, rfl, List.Subset.refl _⟩
    · obtain ⟨w₁, hadd, heq⟩ := Option.map_eq_some_iff.mp h
      simp only [Prod.mk.injEq] at heq
      obtain ⟨rfl, rfl⟩ := heq
      exact ⟨rfl, rfl, added_subset_managerStep hadd⟩
  · split at h
    · obtain ⟨-, h⟩ := Option.ite_none_right_eq_some.mp h
      simp only [Option.some.injEq, Prod.mk.injEq] at h
      obtain ⟨rfl, rfl⟩ := h
      exact ⟨rfl, rfl, List.Subset.refl _⟩
    · cases h
  · cases h

variable {node : FsNode} {tasks : List AddTask}

theorem TasksOf.nil : TasksOf P fastCdc src node [] := by
  intro i task hi
  cases hi

/-- One more file is read. -/
theorem TasksOf.spawn (h : TasksOf P fastCdc src node tasks) {name : FileName}
    (hname : (src.fileNames node)[tasks.length]? = some name) (pc : AddTaskPc) :
    TasksOf P fastCdc src node (tasks ++
      [⟨fileBlobsAt P fastCdc src.host (name :: src.path node),
        treeHash P (fileTreeAt P fastCdc src.host (name :: src.path node)), pc⟩]) := by
  intro i task hi
  rcases Nat.lt_trichotomy i tasks.length with hlt | rfl | hgt
  · rw [List.getElem?_append_left hlt] at hi
    exact h i task hi
  · simp only [List.getElem?_concat_length, Option.some.injEq] at hi
    subst hi
    exact ⟨name, hname, rfl, rfl⟩
  · have hnone : tasks.length + 1 ≤ i := hgt
    rw [List.getElem?_eq_none (by simpa using hnone)] at hi
    cases hi

theorem TasksOf.set (h : TasksOf P fastCdc src node tasks) {i : ℕ} {task task' : AddTask}
    (hi : tasks[i]? = some task) (hblobs : task'.blobs = task.blobs)
    (hhash : task'.hash = task.hash) : TasksOf P fastCdc src node (tasks.set i task') := by
  intro j t hj
  by_cases hij : i = j
  · subst hij
    obtain ⟨hlt, -⟩ := List.getElem?_eq_some_iff.mp hi
    rw [List.getElem?_set_self hlt, Option.some.injEq] at hj
    subst hj
    rw [hblobs, hhash]
    exact h i task hi
  · rw [List.getElem?_set_ne hij] at hj
    exact h j t hj

/-- Every file of the directory has its task. -/
theorem TasksOf.task (h : TasksOf P fastCdc src node tasks)
    (hlen : tasks.length = (src.fileNames node).length) {name : FileName}
    (hname : name ∈ src.fileNames node) :
    ∃ task ∈ tasks, task.blobs = fileBlobsAt P fastCdc src.host (name :: src.path node) := by
  obtain ⟨i, hi, hget⟩ := List.mem_iff_getElem.mp hname
  have hlt : i < tasks.length := hlen ▸ hi
  obtain ⟨name', hname', hblobs, -⟩ := h i tasks[i] (List.getElem?_eq_getElem hlt)
  rw [List.getElem?_eq_getElem hi, hget, Option.some.injEq] at hname'
  subst hname'
  exact ⟨tasks[i], List.getElem_mem hlt, hblobs⟩

theorem TasksOf.fileHashes (h : TasksOf P fastCdc src node tasks)
    (hlen : tasks.length = (src.fileNames node).length)
    (hdone : ∀ task ∈ tasks, task.pc = .done true) :
    fileHashes tasks = (src.fileNames node).map fun name =>
      treeHash P (fileTreeAt P fastCdc src.host (name :: src.path node)) := by
  have hall : (tasks.filter fun task => task.pc = .done true) = tasks :=
    List.filter_eq_self.mpr fun task ht => decide_eq_true (hdone task ht)
  rw [Client.fileHashes, hall]
  refine List.ext_getElem (by simp [hlen]) ?_
  intro i hi hi'
  rw [List.length_map] at hi hi'
  obtain ⟨name, hname, -, hhash⟩ := h i tasks[i] (List.getElem?_eq_getElem hi)
  rw [List.getElem?_eq_getElem hi', Option.some.injEq] at hname
  simp only [List.getElem_map, hhash, hname]

/-- When the files of the directory have been packed, its tree is the one of the whole walk. -/
theorem SealedUpTo.join (h : SealedUpTo P fastCdc diffPaths src queue p done st)
    (hpack : PackOk P p) (hpc : p.pc = .files node tasks)
    (htasks : TasksOf P fastCdc src node tasks) {name : FileName} {metadata : TreeMetadata}
    (hjoin : src.Yields fastCdc diffPaths p (.join name metadata)) (pc : PackPc) :
    SealingOf P fastCdc src { p with pc := pc } done node
      ⟨splitSerializeTree P (dirTree name metadata (p.children node.id ++ fileHashes tasks)),
        treeHash P (dirTree name metadata (p.children node.id ++ fileHashes tasks)), .next 0⟩ := by
  obtain ⟨hdir, hlen, hdone, rfl, rfl⟩ := hjoin node tasks hpc
  have htree : dirTree (getNodePath src.root node).fileName (src.host.metadata (src.path node))
      (p.children node.id ++ fileHashes tasks)
        = sealedTree P fastCdc src.host src.root done node := by
    rw [htasks.fileHashes hlen hdone, h.children, h.sealed.children]
    rfl
  refine ⟨hdir, ?_, by rw [htree], by rw [htree]⟩
  intro name hname b hb
  obtain ⟨task, ht, hblobs⟩ := htasks.task hlen hname
  exact (hpack.files node tasks hpc task ht).added (hdone task ht) b (hblobs ▸ hb)

theorem PackState.seal_added (st : PackState) (node : FsNode) (tree : Tree) (added : List Blob) :
    (st.seal P node tree added).added = st.added ++ added := by
  unfold PackState.seal
  split <;> rfl

/-- The tree of the directory has been added. -/
theorem SealedUpTo.seal (hcdc : CutsUp fastCdc) (hdiff : LeadsFrom diffPaths) {left : List FsNode}
    (h : SealedUpTo P fastCdc diffPaths src (done.map Prod.fst ++ node :: left) p done st)
    {task : AddTask} (hseal : SealingOf P fastCdc src p done node task)
    (hadded : ∀ b ∈ task.blobs, b ∈ p.world.added) {st' : PackState}
    (hst' : st' = st.seal P node (sealedTree P fastCdc src.host src.root done node)
      ((src.fileNames node).flatMap (fun name =>
        fileBlobsAt P fastCdc src.host (name :: src.path node)) ++ task.blobs)) :
    SealedUpTo P fastCdc diffPaths src
      ((done ++ [(node, sealedTree P fastCdc src.host src.root done node)]).map Prod.fst ++ left)
      { p with children := st'.children, rootHash := st'.rootTreeHash, pc := .between }
      (done ++ [(node, sealedTree P fastCdc src.host src.root done node)]) st' := by
  have hscanned := h.complete hdiff
  have hthere := hscanned.dir node (List.mem_append_right _ List.mem_cons_self)
  have hround := packDirectory_eq P src.root hcdc hthere (h.sealed.children node.id)
  rw [if_pos hseal.dir] at hround
  have hnext := h.sealed.seal hscanned ((node_getNodePath hthere).mp hseal.dir).2
  rw [hseal.blobs] at hst' hadded
  refine ⟨by simpa using h.scanned, ?_, hst' ▸ hnext, rfl, rfl, ?_⟩
  · rw [List.map_append, List.foldlM_append, h.fold, hst']
    change packDirectory P fastCdc src.host src.root st node >>= pure = _
    rw [hround]
    rfl
  · intro b hb
    rw [hst', PackState.seal_added] at hb
    rcases List.mem_append.mp hb with hb | hb
    · exact h.added b hb
    rcases List.mem_append.mp hb with hb | hb
    · obtain ⟨name, hname, hb⟩ := List.mem_flatMap.mp hb
      exact hseal.files name hname b hb
    · exact hadded b hb

/-- Once the queue is empty, the directory tree has been packed. -/
theorem SealedUpTo.snapshot (h : SealedUpTo P fastCdc diffPaths src (done.map Prod.fst) p done st) :
    SnapshotOf P fastCdc diffPaths src p.world.added p.rootHash := by
  obtain ⟨fuel, scan, hscan, hqueue⟩ := h.scanned
  refine ⟨st, ⟨fuel, scan, hscan, ?_⟩, h.rootHash.symm, h.added⟩
  rw [hqueue]
  exact h.fold

/-! ## 4. A step of `pack` -/

/-- The tree of a directory has been added, and is that of the whole walk. -/
theorem SealedUpTo.next (hcdc : CutsUp fastCdc) (hdiff : LeadsFrom diffPaths) {left : List FsNode}
    (h : SealedUpTo P fastCdc diffPaths src (done.map Prod.fst ++ node :: left) p done st)
    {task : AddTask} (hseal : SealingOf P fastCdc src p done node task)
    (hadded : ∀ b ∈ task.blobs, b ∈ p.world.added) {children : ℕ → List BlobHash}
    {rootHash : BlobHash}
    (hparent : (∃ parent, node.parent = some parent ∧ rootHash = p.rootHash ∧ children =
        Function.update p.children parent.id (p.children parent.id ++ [task.hash])) ∨
      node.parent = none ∧ rootHash = task.hash ∧ children = p.children) :
    ∃ done st, SealedUpTo P fastCdc diffPaths src (done.map Prod.fst ++ left)
      { p with children := children, rootHash := rootHash, pc := .between } done st := by
  have hnext := h.seal hcdc hdiff hseal hadded rfl
  rw [h.children, h.rootHash] at hparent
  rcases hparent with ⟨parent, hparent, rfl, rfl⟩ | ⟨hparent, rfl, rfl⟩
  all_goals
    simp only [PackState.seal, hparent, ← hseal.hash] at hnext
    exact ⟨_, _, hnext⟩

/-- `pack` has scanned the directory tree. -/
theorem packing_open {names : List FileName} {files : Folder} {size : ℕ}
    (hyields : src.Yields fastCdc diffPaths p (.openManager names files size queue))
    (hstep : packStep P keys p (.openManager names files size queue) = some p') :
    PackingOf P fastCdc diffPaths src p' := by
  obtain ⟨fuel, scan, hscan, rfl⟩ := hyields
  cases packed_of_packStep hstep with
  | opened =>
    exact ⟨[], ⟨fun _ => [], defaultHash, []⟩, ⟨fuel, scan, hscan, rfl⟩, rfl,
      ⟨by simp, by simp, by simp, by simp, fun _ => rfl, by simp⟩, rfl, rfl, by simp⟩
  | notOpened =>
    intro root hroot
    cases hroot

/-- `pack` packs the directory tree as it is. -/
theorem packing_step (hcdc : CutsUp fastCdc) (hdiff : LeadsFrom diffPaths) {a : PackAction}
    (h : PackingOf P fastCdc diffPaths src p) (hpack : PackOk P p)
    (hyields : src.Yields fastCdc diffPaths p a) (hstep : packStep P keys p a = some p') :
    PackingOf P fastCdc diffPaths src p' := by
  cases packed_of_packStep hstep with
  | opened | notOpened => exact packing_open hyields hstep
  | killed =>
    intro root hroot
    cases hroot
  | enters node queue hpc hqueue =>
    obtain ⟨done, st, hs⟩ := h.between hpc
    exact ⟨⟨done, st, hqueue ▸ hs.setWorld (List.Subset.refl _) _ _ _⟩, .nil⟩
  | reads node tasks name metadata chunks hpc =>
    obtain ⟨⟨done, st, hs⟩, htasks⟩ := h.files hpc
    obtain ⟨hname, rfl, rfl⟩ := hyields node tasks hpc
    exact ⟨⟨done, st, hs.setWorld (List.Subset.refl _) _ _ _⟩, htasks.spawn hname _⟩
  | skips => exact hyields.elim
  | adds node tasks i task task' w hpc hi htask =>
    obtain ⟨hblobs, hhash, hadded⟩ := AddTask.step_keeps htask
    obtain ⟨⟨done, st, hs⟩, htasks⟩ := h.files hpc
    exact ⟨⟨done, st, hs.setWorld hadded _ _ _⟩, htasks.set hi hblobs hhash⟩
  | joins node tasks name metadata tree hpc htree =>
    obtain ⟨⟨done, st, hs⟩, htasks⟩ := h.files hpc
    subst htree
    exact ⟨done, st, hs.setWorld (List.Subset.refl _) _ _ _, hs.join hpack hpc htasks hyields _⟩
  | seals node task task' w hpc htask =>
    obtain ⟨hblobs, hhash, hadded⟩ := AddTask.step_keeps htask
    obtain ⟨done, st, hs, hseal⟩ := h.sealing hpc
    exact ⟨done, st, hs.setWorld hadded _ _ _, hseal.dir,
      fun name hname b hb => hadded (hseal.files name hname b hb),
      hblobs.trans hseal.blobs, hhash.trans hseal.hash⟩
  | sealedChild node parent task hpc hdone hparent =>
    obtain ⟨done, st, hs, hseal⟩ := h.sealing hpc
    exact hs.next hcdc hdiff hseal ((hpack.sealing node task hpc).added hdone)
      (Or.inl ⟨parent, hparent, rfl, rfl⟩)
  | sealedRoot node task hpc hdone hparent =>
    obtain ⟨done, st, hs, hseal⟩ := h.sealing hpc
    exact hs.next hcdc hdiff hseal ((hpack.sealing node task hpc).added hdone)
      (Or.inr ⟨hparent, rfl, rfl⟩)
  | notSealed | fails => trivial
  | finishes hpc hqueue =>
    obtain ⟨done, st, hs⟩ := h.between hpc
    rw [hqueue, List.append_nil] at hs
    exact ⟨done, st, hs.setWorld (List.Subset.refl _) _ _ _⟩
  | calls a w _ hm => exact h.setWorld (added_subset_managerStep hm)
  | flushes ok a w hpc _ hm =>
    have hset := h.setWorld (added_subset_managerStep hm)
    unfold Packing.settle
    split
    · exact hset
    · intro root hroot
      obtain ⟨hok, hroot⟩ := Option.ite_none_right_eq_some.mp hroot
      obtain rfl := Option.some.inj hroot
      obtain ⟨rfl, -⟩ := Bool.and_eq_true_iff.mp hok
      obtain ⟨done, st, hs⟩ := hset.ended hpc
      exact hs.snapshot

/-- What `pack` has returned is the snapshot of the directory tree. -/
theorem PackingOf.snapshot (h : PackingOf P fastCdc diffPaths src p) (hpack : PackOk P p)
    {root : BlobHash} (hroot : p.result = some root) :
    SnapshotOf P fastCdc diffPaths src p.world.added root := by
  obtain ⟨hpc, -⟩ := hpack.result root hroot
  unfold PackingOf at h
  rw [hpc] at h
  exact h root hroot

end

end Backuwup.Client
