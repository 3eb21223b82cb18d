/-
# Scanning the directories (`browse_dir_tree`)

The scan walks the directories from the backup root and puts each one it finds at the front of
the processing queue, so that a directory stands before its parent.  The first directory it
reads is `root_path.join(root_path)`.  For an absolute root that is the root; a relative root
is followed twice, and may lead elsewhere (`scanBase`).

`browseDirTree_spec`: the scan leaves a queue of all directories below the place it has started
from, each once and before its parent (`Scanned`), whatever the order of the listings.
-/
import Backuwup.Client.DirPacker.Nodes
import Backuwup.Client.FileSystem

namespace Backuwup.Client

/-! ## 1. The scan -/

inductive ScanError
  | ioError
  /-- the loop has not ended within the given number of rounds -/
  | outOfFuel
deriving DecidableEq

/-- `browsing_queue`, `processing_queue`, the number of the next node, `total_file_count`. -/
structure Scan where
  browsing : List (FsNode × FsPath)
  queue : List FsNode
  nextId : ℕ
  totalFileCount : ℕ
deriving DecidableEq

section

variable (diffPaths : FsPath → FsPath → Option FsPath) (host : Host) (root : FsPath)

def scanEntry (node : FsNode) (dir : FsPath) (st : Scan) (name : FileName) : Scan :=
  let path := dir.push name
  match host.node path with
  | some .dir =>
    let child := FsNode.dir st.nextId path.fileName node
    { st with
      browsing := (child, (diffPaths path root).getD path) :: st.browsing
      queue := child :: st.queue
      nextId := st.nextId + 1 }
  | some (.file _) => { st with totalFileCount := st.totalFileCount + 1 }
  | none => st

def browseLoop : ℕ → Scan → Except ScanError Scan
  | fuel, st =>
    match st.browsing with
    | [] => .ok st
    | (node, path) :: browsing =>
      match fuel with
      | 0 => .error .outOfFuel
      | fuel + 1 =>
        match host.readDir host.scanned (root.join path) with
        | none => .error .ioError
        | some names => browseLoop fuel <|
          names.foldl (scanEntry diffPaths host root node (root.join path))
            { st with browsing := browsing }

/-- `browse_dir_tree`, with the root on both queues. -/
def browseDirTree (fuel : ℕ) : Except ScanError Scan :=
  browseLoop diffPaths host root fuel ⟨[(.root, root)], [.root], 1, 0⟩

/-- `diff_paths` leads from the base to the path. -/
def LeadsFrom : Prop :=
  ∀ base rel : FsPath, rel.absolute = false → diffPaths (base.join rel) base = some rel

end

/-! ## 2. The queue it leaves -/

namespace FsNode

/-- The path of a node below the root. -/
def relPath : FsNode → List FileName
  | .root => []
  | .dir _ name parent => name :: parent.relPath

end FsNode

theorem FsNode.parent_eq_none {node : FsNode} : node.parent = none ↔ node = .root := by
  cases node <;> simp [FsNode.parent]

/-- Every node stands before its parent. -/
def ParentsLast : List FsNode → Prop
  | [] => True
  | node :: nodes => (∀ p, node.parent = some p → p ∈ nodes) ∧ ParentsLast nodes

/-- What a relative root adds to the paths of the scan. -/
def FsPath.twice (root : FsPath) : List FileName := if root.absolute then [] else root.comps

/-- Where the scan starts. -/
def Host.scanBase (host : Host) (root : FsPath) : List FileName := host.base (root.join root)

/-- The queue holds the directories below `base`, each once and before its parent. -/
structure Scanned (fs : FileSystem) (base : List FileName) (queue : List FsNode) : Prop where
  ids : (queue.map FsNode.id).Nodup
  paths : (queue.map FsNode.relPath).Nodup
  parentsLast : ParentsLast queue
  rooted : .root ∈ queue
  dir : ∀ node ∈ queue, fs.node (node.relPath ++ base) = some .dir
  complete : ∀ q, fs.node (q ++ base) = some .dir → ∃ node ∈ queue, node.relPath = q

theorem ParentsLast.mem_of_parent {queue : List FsNode} (h : ParentsLast queue) {node p : FsNode}
    (hnode : node ∈ queue) (hp : node.parent = some p) : p ∈ queue := by
  induction queue with
  | nil => cases hnode
  | cons n nodes ih =>
    rcases List.mem_cons.mp hnode with rfl | hnode
    · exact List.mem_cons_of_mem _ (h.1 p hp)
    · exact List.mem_cons_of_mem _ (ih h.2 hnode)

theorem ParentsLast.append {new queue : List FsNode} (h : ParentsLast queue)
    (hnew : ∀ node ∈ new, ∀ p, node.parent = some p → p ∈ queue) : ParentsLast (new ++ queue) := by
  induction new with
  | nil => exact h
  | cons n nodes ih =>
    exact ⟨fun p hp => List.mem_append_right _ (hnew n List.mem_cons_self p hp),
      ih fun node hnode => hnew node (List.mem_cons_of_mem _ hnode)⟩

/-! ## 3. One directory -/

section

variable {diffPaths : FsPath → FsPath → Option FsPath} {host : Host} {root : FsPath}

/-- The directory that the scan reads for a node. -/
def scanPath (root : FsPath) (node : FsNode) : FsPath :=
  root.join ⟨false, node.relPath ++ root.twice⟩

/-- It lies below the first one, which is the root joined to itself. -/
theorem scanPath_eq (root : FsPath) (node : FsNode) : scanPath root node
    = ⟨(root.join root).absolute, node.relPath ++ (root.join root).comps⟩ := by
  unfold scanPath FsPath.twice FsPath.join
  obtain ⟨absolute, comps⟩ := root
  cases absolute <;> simp

theorem join_self : root.join root = scanPath root .root := (scanPath_eq root .root).symm

/-- A node whose directory is there has valid names. -/
theorem names_of_node {base : List FileName} {node : FsNode} {n : Node}
    (h : host.fs.node (node.relPath ++ base) = some n) :
    ∀ name ∈ node.relPath, name ≠ FsPath.dotDot :=
  fun name hname => (FileSystem.validNames h name hname).notDotDot

theorem scanPath_resolve {node : FsNode}
    (hnames : ∀ name ∈ node.relPath, name ≠ FsPath.dotDot) :
    (scanPath root node).resolve host.cwd = node.relPath ++ host.scanBase root := by
  rw [scanPath_eq, Host.resolve_append hnames, Host.scanBase]

theorem node_scanPath {node : FsNode} (hnames : ∀ name ∈ node.relPath, name ≠ FsPath.dotDot)
    {n : Node} : host.node (scanPath root node) = some n ↔
      host.reaches (root.join root) = true ∧
        host.fs.node (node.relPath ++ host.scanBase root) = some n := by
  rw [scanPath_eq, Host.node_append hnames, Host.scanBase]

/-- The directories among the names. -/
def Host.subdirs (host : Host) (p : List FileName) (names : List FileName) : List FileName :=
  names.filter fun name => host.fs.node (name :: p) = some .dir

/-- The nodes that the entries of a directory add. -/
structure NewNodes (host : Host) (root : FsPath) (node : FsNode) (names : List FileName)
    (st st' : Scan) (new : List FsNode) : Prop where
  browsing : st'.browsing = new.map (fun c => (c, ⟨false, c.relPath ++ root.twice⟩)) ++ st.browsing
  queue : st'.queue = new ++ st.queue
  paths : new.map FsNode.relPath
    = ((host.subdirs (node.relPath ++ host.scanBase root) names).map (· :: node.relPath)).reverse
  parent : ∀ c ∈ new, c.parent = some node
  ids : (new.map FsNode.id).Nodup
  fresh : ∀ c ∈ new, st.nextId ≤ c.id ∧ c.id < st'.nextId
  nextId_le : st.nextId ≤ st'.nextId

/-- One entry adds a node or none. -/
theorem scanEntry_new (hdiff : LeadsFrom diffPaths) {node : FsNode}
    (hread : host.node (scanPath root node) = some .dir)
    (hnames : ∀ name ∈ node.relPath, name ≠ FsPath.dotDot) (st : Scan) {name : FileName}
    (hname : ValidName name) : ∃ new, NewNodes host root node [name] st
      (scanEntry diffPaths host root node (scanPath root node) st name) new := by
  have hpush : (scanPath root node).push name
      = root.join ⟨false, (name :: node.relPath) ++ root.twice⟩ := by
    rw [FsPath.push_validName hname]
    rfl
  have hfile : ((scanPath root node).push name).fileName = name := by
    rw [FsPath.push_validName hname]
    exact FsPath.fileName_cons hname.notDotDot _ _
  have hnode : host.node ((scanPath root node).push name)
      = host.fs.node (name :: (node.relPath ++ host.scanBase root)) := by
    have hchild : (scanPath root node).push name = scanPath root (.dir st.nextId name node) := by
      rw [FsPath.push_validName hname]
      rfl
    have hnames' : ∀ n ∈ (FsNode.dir st.nextId name node).relPath, n ≠ FsPath.dotDot :=
      List.forall_mem_cons.mpr ⟨hname.notDotDot, hnames⟩
    have hreaches := ((node_scanPath hnames).mp hread).1
    refine Option.ext fun n => ?_
    rw [hchild]
    exact (node_scanPath hnames').trans (and_iff_right hreaches)
  simp only [scanEntry, hnode, hfile]
  split
  · rename_i hdir
    refine ⟨[.dir st.nextId name node], ?_⟩
    rw [hpush, hdiff _ _ rfl]
    exact ⟨rfl, rfl, by simp [Host.subdirs, hdir, FsNode.relPath], by simp [FsNode.parent],
      by simp, by simp [FsNode.id], by simp⟩
  all_goals
    rename_i hother
    exact ⟨[], ⟨rfl, rfl, by simp [Host.subdirs, hother], by simp, by simp, by simp, le_refl _⟩⟩

theorem scanEntries_new (hdiff : LeadsFrom diffPaths) {node : FsNode}
    (hread : host.node (scanPath root node) = some .dir)
    (hnames : ∀ name ∈ node.relPath, name ≠ FsPath.dotDot) {names : List FileName}
    (st : Scan) (hvalid : ∀ name ∈ names, ValidName name) : ∃ new, NewNodes host root node names st
      (names.foldl (scanEntry diffPaths host root node (scanPath root node)) st) new := by
  induction names generalizing st with
  | nil => exact ⟨[], ⟨rfl, rfl, rfl, by simp, by simp, by simp, le_refl _⟩⟩
  | cons name names ih =>
    obtain ⟨one, h1⟩ := scanEntry_new hdiff hread hnames st (hvalid name List.mem_cons_self)
    obtain ⟨new, h2⟩ := ih (scanEntry diffPaths host root node (scanPath root node) st name)
      fun n hn => hvalid n (List.mem_cons_of_mem _ hn)
    refine ⟨new ++ one, ?_, ?_, ?_, ?_, ?_, ?_, h1.nextId_le.trans h2.nextId_le⟩
    · rw [List.foldl_cons, h2.browsing, h1.browsing, List.map_append, List.append_assoc]
    · rw [List.foldl_cons, h2.queue, h1.queue, List.append_assoc]
    · rw [List.map_append, h1.paths, h2.paths, ← List.reverse_append, ← List.map_append]
      simp only [Host.subdirs, ← List.filter_append, List.singleton_append]
    · intro c hc
      rcases List.mem_append.mp hc with hc | hc
      · exact h2.parent c hc
      · exact h1.parent c hc
    · rw [List.map_append]
      refine List.nodup_append.mpr ⟨h2.ids, h1.ids, ?_⟩
      rintro i hi j hj rfl
      obtain ⟨c, hc, rfl⟩ := List.mem_map.mp hi
      obtain ⟨d, hd, heq⟩ := List.mem_map.mp hj
      have := (h2.fresh c hc).1
      have := (h1.fresh d hd).2
      omega
    · intro c hc
      rcases List.mem_append.mp hc with hc | hc
      · exact ⟨h1.nextId_le.trans (h2.fresh c hc).1, (h2.fresh c hc).2⟩
      · exact ⟨(h1.fresh c hc).1, (h1.fresh c hc).2.trans_le h2.nextId_le⟩

/-! ## 4. The loop -/

theorem FsNode.relPath_of_parent {node p : FsNode} (h : node.parent = some p) :
    ∃ name, node.relPath = name :: p.relPath := by
  cases node with
  | root => cases h
  | dir id name parent =>
    obtain rfl := Option.some.inj h
    exact ⟨name, rfl⟩

theorem FsNode.parent_of_relPath {node : FsNode} {name : FileName} {q : List FileName}
    (h : node.relPath = name :: q) : ∃ p, node.parent = some p ∧ p.relPath = q := by
  cases node with
  | root => cases h
  | dir id name' parent =>
    obtain ⟨rfl, rfl⟩ := List.cons.inj h
    exact ⟨parent, rfl, rfl⟩

theorem NewNodes.mem_paths {node : FsNode} {names : List FileName} {st st' : Scan}
    {new : List FsNode} (hnew : NewNodes host root node names st st' new)
    (hmem : ∀ name, name ∈ names ↔
      ∃ n, host.fs.node (name :: (node.relPath ++ host.scanBase root)) = some n)
    {q : List FileName} : q ∈ new.map FsNode.relPath ↔
      ∃ name, host.fs.node (name :: (node.relPath ++ host.scanBase root)) = some .dir ∧
        name :: node.relPath = q := by
  rw [hnew.paths]
  simp only [Host.subdirs, List.mem_reverse, List.mem_map, List.mem_filter, decide_eq_true_eq]
  constructor
  · rintro ⟨name, ⟨-, hname⟩, rfl⟩
    exact ⟨name, hname, rfl⟩
  · rintro ⟨name, hname, rfl⟩
    exact ⟨name, ⟨(hmem name).mpr ⟨_, hname⟩, hname⟩, rfl⟩

theorem NewNodes.nodup_paths {node : FsNode} {names : List FileName} {st st' : Scan}
    {new : List FsNode} (hnew : NewNodes host root node names st st' new) (hnames : names.Nodup) :
    (new.map FsNode.relPath).Nodup := by
  rw [hnew.paths]
  refine List.nodup_reverse.mpr (List.Nodup.map ?_ (hnames.filter _))
  intro a b hab
  exact (List.cons.inj hab).1

/-- The node that was read is visited, and the new ones are browsed next. -/
theorem NewNodes.perm {node : FsNode} {names : List FileName} {st st' : Scan} {new : List FsNode}
    (hnew : NewNodes host root node names st st' new) {visited : List FsNode}
    (hperm : st.queue.Perm (visited ++ node :: st.browsing.map Prod.fst)) :
    st'.queue.Perm (node :: visited ++ st'.browsing.map Prod.fst) := by
  have hid : new.map (Prod.fst ∘ fun c => (c, (⟨false, c.relPath ++ root.twice⟩ : FsPath)))
      = new := by simp [Function.comp_def]
  rw [hnew.queue, hnew.browsing, List.map_append, List.map_map, hid]
  calc new ++ st.queue
    _ |>.Perm (new ++ (visited ++ node :: st.browsing.map Prod.fst)) := hperm.append_left new
    _ |>.Perm (new ++ (node :: visited ++ st.browsing.map Prod.fst)) :=
      .append_left _ List.perm_middle
    _ |>.Perm (node :: visited ++ (new ++ st.browsing.map Prod.fst)) := by
      rw [← List.append_assoc, ← List.append_assoc]
      exact .append_right _ List.perm_append_comm

/-- The state of the scan once these nodes have been visited. -/
structure ScanOk (host : Host) (root : FsPath) (st : Scan) (visited : List FsNode) : Prop where
  perm : st.queue.Perm (visited ++ st.browsing.map Prod.fst)
  ids : (st.queue.map FsNode.id).Nodup
  fresh : ∀ node ∈ st.queue, node.id < st.nextId
  paths : (st.queue.map FsNode.relPath).Nodup
  parentsLast : ParentsLast st.queue
  browsing : ∀ e ∈ st.browsing, root.join e.2 = scanPath root e.1
  rooted : .root ∈ st.queue
  parents : ∀ node ∈ st.queue, ∀ p, node.parent = some p → p ∈ visited
  reached : ∀ node ∈ visited, host.reaches (root.join root) = true
  dir : ∀ node ∈ st.queue, node ≠ .root →
    host.fs.node (node.relPath ++ host.scanBase root) = some .dir
  visited : ∀ node ∈ visited, host.fs.node (node.relPath ++ host.scanBase root) = some .dir ∧
    ∀ name, host.fs.node (name :: (node.relPath ++ host.scanBase root)) = some .dir →
      ∃ c ∈ st.queue, c.relPath = name :: node.relPath

theorem scanOk_start : ScanOk host root ⟨[(.root, root)], [.root], 1, 0⟩ [] where
  perm := .refl _
  ids := by simp
  fresh := by simp [FsNode.id]
  paths := by simp
  parentsLast := ⟨by simp [FsNode.parent], trivial⟩
  browsing := by simp [join_self]
  rooted := List.mem_cons_self
  parents := by simp [FsNode.parent]
  reached := by simp
  dir := by simp
  visited := by simp

variable {st st' : Scan} {visited : List FsNode}

/-- A node on the queue is determined by its path. -/
theorem ScanOk.eq_of_relPath (h : ScanOk host root st visited) {n n' : FsNode}
    (hn : n ∈ st.queue) (hn' : n' ∈ st.queue) (heq : n.relPath = n'.relPath) : n = n' :=
  List.inj_on_of_nodup_map h.paths hn hn' heq

/-- Reading one directory. -/
theorem ScanOk.visit (h : ScanOk host root st visited) {node : FsNode} {path : FsPath}
    {browsing : List (FsNode × FsPath)} (hst : st.browsing = (node, path) :: browsing)
    (hreached : host.reaches (root.join root) = true)
    (hdir : host.fs.node (node.relPath ++ host.scanBase root) = some .dir)
    {names : List FileName} (hnames : names.Nodup)
    (hmem : ∀ name, name ∈ names ↔
      ∃ n, host.fs.node (name :: (node.relPath ++ host.scanBase root)) = some n)
    {new : List FsNode}
    (hnew : NewNodes host root node names { st with browsing := browsing } st' new) :
    ScanOk host root st' (node :: visited) := by
  have hqueue : st'.queue = new ++ st.queue := hnew.queue
  have hperm := h.perm
  rw [hst, List.map_cons] at hperm
  have hnodeMem : node ∈ st.queue := hperm.mem_iff.mpr (by simp)
  have hsub : ∀ n ∈ visited, n ∈ st.queue := by
    intro n hn
    exact hperm.mem_iff.mpr (List.mem_append_left _ hn)
  have hnot : node ∉ visited := by
    have hnodup := (hperm.nodup_iff).mp h.paths.of_map
    intro hmem
    exact (List.nodup_append.mp hnodup).2.2 _ hmem _ List.mem_cons_self rfl
  have hpaths (q : List FileName) := hnew.mem_paths hmem (q := q)
  refine ⟨hnew.perm hperm, ?_, ?_, ?_, ?_, ?_, ?_, ?_, fun _ _ => hreached, ?_, ?_⟩
  · rw [hqueue, List.map_append]
    refine List.nodup_append.mpr ⟨hnew.ids, h.ids, ?_⟩
    rintro i hi j hj rfl
    obtain ⟨c, hc, rfl⟩ := List.mem_map.mp hi
    obtain ⟨d, hd, heq⟩ := List.mem_map.mp hj
    have := (hnew.fresh c hc).1
    have := h.fresh d hd
    simp only at *
    omega
  · intro n hn
    rcases List.mem_append.mp (hqueue ▸ hn) with hn | hn
    · exact (hnew.fresh n hn).2
    · exact (h.fresh n hn).trans_le hnew.nextId_le
  · rw [hqueue, List.map_append]
    refine List.nodup_append.mpr ⟨hnew.nodup_paths hnames, h.paths, ?_⟩
    -- a node with the path of a new one would have this directory as its parent
    rintro q hq q' hq' rfl
    obtain ⟨name, -, rfl⟩ := (hpaths q).mp hq
    obtain ⟨d, hd, heq⟩ := List.mem_map.mp hq'
    obtain ⟨p, hp, hrel⟩ := FsNode.parent_of_relPath heq
    have hpv := h.parents d hd p hp
    rw [h.eq_of_relPath (hsub p hpv) hnodeMem hrel] at hpv
    exact hnot hpv
  · rw [hqueue]
    refine h.parentsLast.append ?_
    intro n hn p hp
    rw [hnew.parent n hn] at hp
    exact Option.some.inj hp ▸ hnodeMem
  · intro e he
    rw [hnew.browsing] at he
    rcases List.mem_append.mp he with he | he
    · obtain ⟨c, -, rfl⟩ := List.mem_map.mp he
      rfl
    · exact h.browsing e (hst ▸ List.mem_cons_of_mem _ he)
  · exact hqueue ▸ List.mem_append_right _ h.rooted
  · intro n hn p hp
    rcases List.mem_append.mp (hqueue ▸ hn) with hn | hn
    · rw [hnew.parent n hn] at hp
      exact Option.some.inj hp ▸ List.mem_cons_self
    · exact List.mem_cons_of_mem _ (h.parents n hn p hp)
  · intro n hn hne
    rcases List.mem_append.mp (hqueue ▸ hn) with hn | hn
    · obtain ⟨name, hname, heq⟩ := (hpaths n.relPath).mp (List.mem_map.mpr ⟨n, hn, rfl⟩)
      rw [← heq]
      exact hname
    · exact h.dir n hn hne
  · intro n hn
    rcases List.mem_cons.mp hn with rfl | hn
    · refine ⟨hdir, ?_⟩
      intro name hname
      obtain ⟨c, hc, heq⟩ := List.mem_map.mp ((hpaths _).mpr ⟨name, hname, rfl⟩)
      exact ⟨c, hqueue ▸ List.mem_append_left _ hc, heq⟩
    · obtain ⟨hd, hc⟩ := h.visited n hn
      refine ⟨hd, ?_⟩
      intro name hname
      obtain ⟨c, hc, heq⟩ := hc name hname
      exact ⟨c, hqueue ▸ List.mem_append_right _ hc, heq⟩

/-- When nothing is left to browse, the queue is complete. -/
theorem ScanOk.scanned (h : ScanOk host root st visited) (hnil : st.browsing = []) :
    Scanned host.fs (host.scanBase root) st.queue := by
  have hvisited : ∀ n ∈ st.queue, n ∈ visited := by
    intro n hn
    simpa [hnil] using h.perm.mem_iff.mp hn
  refine ⟨h.ids, h.paths, h.parentsLast, h.rooted,
    fun n hn => (h.visited n (hvisited n hn)).1, ?_⟩
  intro q hq
  induction q with
  | nil => exact ⟨.root, h.rooted, rfl⟩
  | cons name q ih =>
    obtain ⟨n, hn, rfl⟩ := ih (FileSystem.parent hq)
    exact (h.visited n (hvisited n hn)).2 name hq

/-- The visited nodes are directories, each of them once. -/
theorem ScanOk.length_visited_le (h : ScanOk host root st visited) :
    visited.length ≤ host.fs.entries.length := by
  have hpaths : (visited.map FsNode.relPath).Nodup := by
    have hperm := (h.perm.map FsNode.relPath).nodup_iff.mp h.paths
    rw [List.map_append] at hperm
    exact (List.nodup_append.mp hperm).1
  have hnodup : (visited.map fun n => n.relPath ++ host.scanBase root).Nodup := by
    rw [show (fun n : FsNode => n.relPath ++ host.scanBase root)
      = (· ++ host.scanBase root) ∘ FsNode.relPath from rfl, ← List.map_map]
    exact hpaths.map fun a b hab => List.append_cancel_right hab
  have hle := host.fs.length_le_of_nodup hnodup fun p hp => by
    obtain ⟨n, hn, rfl⟩ := List.mem_map.mp hp
    exact ⟨_, (h.visited n hn).1⟩
  rwa [List.length_map] at hle

/-- A directory is read and its node visited, or it is the one that the scan starts from and cannot
be read. -/
theorem ScanOk.round (hdiff : LeadsFrom diffPaths) (h : ScanOk host root st visited)
    {node : FsNode} {path : FsPath} {browsing : List (FsNode × FsPath)}
    (hst : st.browsing = (node, path) :: browsing) :
    (∃ names, host.readDir host.scanned (root.join path) = some names ∧
        ScanOk host root (names.foldl (scanEntry diffPaths host root node (root.join path))
          { st with browsing := browsing }) (node :: visited)) ∨
      (host.readDir host.scanned (root.join path) = none ∧
        host.node (root.join root) ≠ some .dir) := by
  have hpath : root.join path = scanPath root node :=
    h.browsing (node, path) (hst ▸ List.mem_cons_self)
  -- only the first directory has not been seen before
  have hseen : node ≠ .root → host.reaches (root.join root) = true ∧
      host.fs.node (node.relPath ++ host.scanBase root) = some .dir := by
    intro hne
    have hmem : node ∈ st.queue := h.perm.mem_iff.mpr (by simp [hst])
    obtain ⟨p, hp⟩ := Option.ne_none_iff_exists'.mp (mt FsNode.parent_eq_none.mp hne)
    exact ⟨h.reached p (h.parents node hmem p hp), h.dir node hmem hne⟩
  have hnames : ∀ name ∈ node.relPath, name ≠ FsPath.dotDot := by
    by_cases hroot : node = .root
    · subst hroot
      simp [FsNode.relPath]
    · exact names_of_node (hseen hroot).2
  by_cases hnode : host.node (scanPath root node) = some .dir
  · obtain ⟨hreached, hdir⟩ := (node_scanPath hnames).mp hnode
    have hread : host.readDir host.scanned (scanPath root node)
        = some (host.scanned.names (node.relPath ++ host.scanBase root)) := by
      simp only [Host.readDir, hnode, scanPath_resolve hnames]
    have hvalid : ∀ name ∈ host.scanned.names (node.relPath ++ host.scanBase root),
        ValidName name := by
      intro name hname
      obtain ⟨n, hn⟩ := (host.scanned.mem _ _).mp hname
      exact FileSystem.validName hn
    obtain ⟨new, hnew⟩ :=
      scanEntries_new hdiff hnode hnames { st with browsing := browsing } hvalid
    rw [hpath]
    exact Or.inl ⟨_, hread,
      h.visit hst hreached hdir (host.scanned.nodup _) (host.scanned.mem _) hnew⟩
  · have hroot : node = .root := by
      by_contra hne
      exact hnode ((node_scanPath hnames).mpr (hseen hne))
    subst hroot
    rw [hpath]
    refine Or.inr ⟨?_, join_self ▸ hnode⟩
    unfold Host.readDir
    split
    · rename_i hdir
      exact absurd hdir hnode
    · rfl

/-- One round visits a node, or cannot read the directory that the scan starts from. -/
theorem browseLoop_round (hdiff : LeadsFrom diffPaths) (h : ScanOk host root st visited)
    {node : FsNode} {path : FsPath} {browsing : List (FsNode × FsPath)}
    (hst : st.browsing = (node, path) :: browsing) :
    (∃ st', ScanOk host root st' (node :: visited) ∧ ∀ fuel,
        browseLoop diffPaths host root (fuel + 1) st = browseLoop diffPaths host root fuel st') ∨
      ((∀ fuel, browseLoop diffPaths host root (fuel + 1) st = .error .ioError) ∧
        host.node (root.join root) ≠ some .dir) := by
  rcases h.round hdiff hst with ⟨names, hread, h'⟩ | ⟨hread, hdir⟩
  · refine Or.inl ⟨_, h', fun fuel => ?_⟩
    rw [browseLoop]
    simp only [hst, hread]
  · refine Or.inr ⟨fun fuel => ?_, hdir⟩
    rw [browseLoop]
    simp only [hst, hread]

/-- With nothing left to browse the loop is at its end. -/
theorem browseLoop_nil (hst : st.browsing = []) (fuel : ℕ) :
    browseLoop diffPaths host root fuel st = .ok st := by
  unfold browseLoop
  rw [hst]

/-- The loop ends with a complete queue, or cannot read the directory that it starts from. -/
theorem browseLoop_spec (hdiff : LeadsFrom diffPaths) {fuel : ℕ}
    (h : ScanOk host root st visited) (hfuel : host.fs.entries.length < visited.length + fuel) :
    (∃ st', browseLoop diffPaths host root fuel st = .ok st' ∧
        Scanned host.fs (host.scanBase root) st'.queue) ∨
      (browseLoop diffPaths host root fuel st = .error .ioError ∧
        host.node (root.join root) ≠ some .dir) := by
  induction fuel generalizing st visited with
  | zero =>
    have := h.length_visited_le
    omega
  | succ fuel ih =>
    cases hst : st.browsing with
    | nil => exact Or.inl ⟨st, browseLoop_nil hst _, h.scanned hst⟩
    | cons e browsing =>
      obtain ⟨st', h', hround⟩ | ⟨herr, hdir⟩ := browseLoop_round hdiff h hst
      · rw [hround]
        refine ih h' ?_
        rw [List.length_cons]
        omega
      · exact Or.inr ⟨herr fuel, hdir⟩

/-- More fuel changes nothing. -/
theorem browseLoop_mono {fuel fuel' : ℕ} (hle : fuel ≤ fuel')
    (h : browseLoop diffPaths host root fuel st = .ok st') :
    browseLoop diffPaths host root fuel' st = .ok st' := by
  induction fuel generalizing fuel' st with
  | zero =>
    cases hst : st.browsing with
    | nil =>
      rw [browseLoop_nil hst] at h ⊢
      exact h
    | cons e browsing =>
      unfold browseLoop at h
      simp only [hst, reduceCtorEq] at h
  | succ fuel ih =>
    obtain ⟨fuel', rfl⟩ := Nat.exists_eq_add_of_lt (Nat.lt_of_succ_le hle)
    cases hst : st.browsing with
    | nil =>
      rw [browseLoop_nil hst] at h ⊢
      exact h
    | cons e browsing =>
      unfold browseLoop at h ⊢
      simp only [hst] at h ⊢
      split at h
      · cases h
      · exact ih (by omega) h

variable (root) in
/-- `browse_dir_tree` leaves a complete queue if its first directory can be read, and fails if
not. -/
theorem browseDirTree_spec (hdiff : LeadsFrom diffPaths) {fuel : ℕ}
    (hfuel : host.fs.entries.length < fuel) :
    (∃ st, browseDirTree diffPaths host root fuel = .ok st ∧
        Scanned host.fs (host.scanBase root) st.queue) ∨
      (browseDirTree diffPaths host root fuel = .error .ioError ∧
        host.node (root.join root) ≠ some .dir) :=
  browseLoop_spec hdiff scanOk_start (by simpa using hfuel)

/-- A scan that ends has read its first directory. -/
theorem node_join_self_of_browse {fuel : ℕ}
    (h : browseDirTree diffPaths host root fuel = .ok st) :
    host.node (root.join root) = some .dir := by
  cases fuel with
  | zero =>
    unfold browseDirTree browseLoop at h
    simp only [reduceCtorEq] at h
  | succ fuel =>
    by_contra hnode
    have hread : host.readDir host.scanned (root.join root) = none := by
      unfold Host.readDir
      split
      · exact absurd ‹_› hnode
      · rfl
    unfold browseDirTree browseLoop at h
    simp only [hread, reduceCtorEq] at h

/-- A scan that ends has left a complete queue. -/
theorem browseDirTree_scanned (hdiff : LeadsFrom diffPaths) {fuel : ℕ}
    (h : browseDirTree diffPaths host root fuel = .ok st) :
    Scanned host.fs (host.scanBase root) st.queue := by
  have hmax := browseLoop_mono (le_max_left fuel (host.fs.entries.length + 1)) h
  rcases browseDirTree_spec root hdiff
    (lt_of_lt_of_le (Nat.lt_succ_self _) (le_max_right fuel (host.fs.entries.length + 1))) with
    ⟨st', hst', hscan⟩ | ⟨herr, -⟩
  · obtain rfl := Except.ok.inj (hmax.symm.trans hst')
    exact hscan
  · cases hmax.symm.trans herr

end

end Backuwup.Client
