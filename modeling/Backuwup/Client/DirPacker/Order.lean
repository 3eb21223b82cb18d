/-
# Children first (`browse_dir_tree`, `pack_files_in_directory`)

A directory is sealed with the hashes that its subdirectories have left in its node, so they have
to be packed before it.  The scan sees to this by the order of the processing queue (`InOrder`), and
the packing then finds in each node the hash of every subdirectory, once (`Gathered`).

The queue is that of the directories below the place where the scan has started, and a relative root
is followed twice; `children_first_iff` says for which roots it is the queue of the directory tree.
-/
import Backuwup.Client.DirRoundTrip
import Mathlib.Data.List.Induction

namespace Backuwup.Client

section

variable (P : Primitives) (fastCdc : Bytes → List Bytes)
  (diffPaths : FsPath → FsPath → Option FsPath) (host : Host) (root : FsPath)

/-! ## 1. The order of the queue -/

/-- The queue has every directory of the tree once, each before its parent and the root last. -/
structure InOrder (queue : List FsNode) : Prop where
  paths : (queue.map FsNode.relPath).Nodup
  complete : ∀ q, q ∈ queue.map FsNode.relPath ↔ host.fs.node (q ++ host.base root) = some .dir
  parentAfter : ∀ done node left, queue = done ++ node :: left →
    ∀ p, node.parent = some p → p ∈ left
  rootLast : queue.getLast? = some .root

/-- The trees with which the rounds of `pack_files_in_directory` have sealed their directories.  The
tree of a directory begins with the hashes in its node. -/
inductive Seals : List (FsNode × Tree) → PackState → Prop
  | nil : Seals [] ⟨fun _ => [], defaultHash, []⟩
  | snoc {es : List (FsNode × Tree)} {st : PackState} {node : FsNode} {tree : Tree}
      {added : List Blob} : Seals es st →
      packDirectory P fastCdc host root st node = .ok (st.seal P node tree added) →
      st.children node.id <+: tree.children →
      Seals (es ++ [(node, tree)]) (st.seal P node tree added)

/-- The node holds the hash of each of its subdirectories once, and no root hash is set. -/
structure Gathered (es : List (FsNode × Tree)) (st : PackState) (node : FsNode) : Prop where
  once : ((es.filter fun e => e.1.parent = some node).map fun e => e.1.relPath).Nodup
  subdirs : ∀ q, q ∈ (es.filter fun e => e.1.parent = some node).map (fun e => e.1.relPath) ↔
    ∃ name, q = name :: node.relPath ∧ host.fs.node (q ++ host.base root) = some .dir
  children : st.children node.id
    = (es.filter fun e => e.1.parent = some node).map fun e => treeHash P e.2
  unset : st.rootTreeHash = defaultHash

/-- The scan ends with a queue in order, every directory has gathered its subdirectories when its
turn comes, and the root hash that is returned is that of the root. -/
def ChildrenFirst : Prop :=
  ∃ n, ∀ fuel, n ≤ fuel → ∃ scan, browseDirTree diffPaths host root fuel = .ok scan ∧
    InOrder host root scan.queue ∧
    (∀ done node left, scan.queue = done ++ node :: left →
      ∃ es st, Seals P fastCdc host root es st ∧ es.map Prod.fst = done ∧
        Gathered P host root es st node) ∧
    ∃ es st, packFilesInDirectory P fastCdc host root scan.queue = .ok st ∧
      Seals P fastCdc host root es st ∧ es.map Prod.fst = scan.queue ∧
      ∀ e ∈ es, e.1 = .root → st.rootTreeHash = treeHash P e.2

end

section

variable {P : Primitives} {fastCdc : Bytes → List Bytes}
  {diffPaths : FsPath → FsPath → Option FsPath} {host : Host} {root : FsPath}
  {queue done left : List FsNode} {node : FsNode} {es : List (FsNode × Tree)} {st : PackState}

/-- A queue that the scan has left is in order. -/
theorem Scanned.inOrder (h : Scanned host.fs (host.base root) queue) : InOrder host root queue := by
  refine ⟨h.paths, fun q => ?_, ?_, ?_⟩
  · constructor
    · intro hq
      obtain ⟨node, hnode, rfl⟩ := List.mem_map.mp hq
      exact h.dir node hnode
    · intro hq
      obtain ⟨node, hnode, rfl⟩ := h.complete q hq
      exact List.mem_map.mpr ⟨node, hnode, rfl⟩
  · rintro done node left rfl p hp
    exact h.parentsLast.of_append.1 p hp
  · have hne : queue ≠ [] := List.ne_nil_of_mem h.rooted
    have hlast : ParentsLast [queue.getLast hne] := by
      have hall := h.parentsLast
      rw [← List.dropLast_append_getLast hne] at hall
      exact hall.of_append
    have hnone : (queue.getLast hne).parent = none := by
      rw [Option.eq_none_iff_forall_not_mem]
      intro p hp
      exact List.not_mem_nil (hlast.1 p hp)
    rw [List.getLast?_eq_getLast_of_ne_nil hne, FsNode.parent_eq_none.mp hnone]

/-! ## 2. The rounds -/

variable (P fastCdc) in
/-- A directory that can be read is sealed, with what is in its node in front. -/
theorem packDirectory_seal (st : PackState) (hreaches : host.reaches root = true)
    (hdir : host.fs.node (node.relPath ++ host.base root) = some .dir) :
    ∃ tree added, packDirectory P fastCdc host root st node = .ok (st.seal P node tree added) ∧
      st.children node.id <+: tree.children := by
  have hres : (getNodePath root node).resolve host.cwd = node.relPath ++ host.base root :=
    resolve_getNodePath hdir
  have hnode : host.node (getNodePath root node) = some .dir :=
    (node_getNodePath hdir).mpr ⟨hreaches, hdir⟩
  have hread : host.readDir host.packed (getNodePath root node)
      = some (host.packed.names (node.relPath ++ host.base root)) := by
    simp only [Host.readDir, hnode, hres]
  unfold packDirectory
  simp only [hread]
  rw [if_pos]
  · unfold PackState.seal
    cases node.parent <;> exact ⟨_, _, rfl, List.prefix_append _ _⟩
  · exact List.all_eq_true.mpr fun b hb => decide_eq_true
      (fits_splitSerializeTree rfl (fileName_short (Host.node_eq_some.mp hnode).2) b hb)

/-- The rounds that seal are those of the loop. -/
theorem Seals.foldlM_eq (h : Seals P fastCdc host root es st) :
    packFilesInDirectory P fastCdc host root (es.map Prod.fst) = .ok st := by
  induction h with
  | nil => rfl
  | snoc _ hpack _ ih =>
    unfold packFilesInDirectory at ih ⊢
    rw [List.map_append, List.foldlM_append, ih]
    simp only [List.map_cons, List.map_nil, List.foldlM_cons, List.foldlM_nil]
    change (packDirectory P fastCdc host root _ _).bind _ = _
    rw [hpack]
    rfl

/-- The hashes in the nodes are those of the directories that have been sealed. -/
theorem Seals.children (h : Seals P fastCdc host root es st) (id : ℕ) :
    st.children id = childHashes P es id := by
  induction h with
  | nil => rfl
  | snoc _ _ _ ih => rw [PackState.seal_children, childHashes_append, ih]

/-- Before the root is sealed the root hash is not set. -/
theorem Seals.unset (h : Seals P fastCdc host root es st) (hroot : .root ∉ es.map Prod.fst) :
    st.rootTreeHash = defaultHash := by
  induction h with
  | nil => rfl
  | snoc _ _ _ ih =>
    rw [List.map_append, List.mem_append, not_or] at hroot
    rw [PackState.seal_rootTreeHash, if_neg (fun heq => hroot.2 (by simp [heq])), ih hroot.1]

theorem Seals.rootTreeHash (h : Seals P fastCdc host root es st)
    (hnodup : (es.map Prod.fst).Nodup) {e : FsNode × Tree} (he : e ∈ es) (hroot : e.1 = .root) :
    st.rootTreeHash = treeHash P e.2 := by
  induction h with
  | nil => cases he
  | snoc _ _ _ ih =>
    rw [List.map_append] at hnodup
    obtain ⟨hold, -, hdisj⟩ := List.nodup_append.mp hnodup
    rw [PackState.seal_rootTreeHash]
    rcases List.mem_append.mp he with he | he
    · rw [if_neg, ih hold he]
      intro heq
      exact hdisj _ (List.mem_map.mpr ⟨e, he, rfl⟩) _ (List.mem_singleton.mpr rfl)
        (hroot.trans heq.symm)
    · obtain rfl := List.mem_singleton.mp he
      rw [if_pos hroot]

variable (P fastCdc) in
/-- All rounds of a complete queue seal. -/
theorem Scanned.seals (h : Scanned host.fs (host.base root) (done ++ left))
    (hreaches : host.reaches root = true) :
    ∃ es st, Seals P fastCdc host root es st ∧ es.map Prod.fst = done := by
  induction done using List.reverseRecOn generalizing left with
  | nil => exact ⟨[], _, .nil, rfl⟩
  | append_singleton done node ih =>
    rw [List.append_assoc] at h
    obtain ⟨es, st, hseals, rfl⟩ := ih h
    have hdir := h.dir node (by simp)
    obtain ⟨tree, added, hpack, hprefix⟩ := packDirectory_seal P fastCdc st hreaches hdir
    exact ⟨_, _, hseals.snoc hpack hprefix, by simp⟩

/-! ## 3. The subdirectories of a node -/

/-- The nodes with this node as their parent are those of its subdirectories, and they have all been
sealed before. -/
theorem Scanned.gathered (h : Scanned host.fs (host.base root) (es.map Prod.fst ++ node :: left))
    (hseals : Seals P fastCdc host root es st) : Gathered P host root es st node := by
  have hnodeMem : node ∈ es.map Prod.fst ++ node :: left := by simp
  have hesMem : ∀ e ∈ es, e.1 ∈ es.map Prod.fst ++ node :: left := fun e he =>
    List.mem_append_left _ (List.mem_map.mpr ⟨e, he, rfl⟩)
  have hpaths := h.paths
  rw [List.map_append, List.map_map] at hpaths
  refine ⟨?_, fun q => ⟨?_, ?_⟩, ?_, ?_⟩
  · exact (List.nodup_append.mp hpaths).1.sublist (List.filter_sublist.map _)
  · intro hq
    obtain ⟨e, he, rfl⟩ := List.mem_map.mp hq
    obtain ⟨he, hparent⟩ := List.mem_filter.mp he
    obtain ⟨name, hname⟩ := FsNode.relPath_of_parent (of_decide_eq_true hparent)
    exact ⟨name, hname, h.dir e.1 (hesMem e he)⟩
  · rintro ⟨name, rfl, hdir⟩
    obtain ⟨n, hn, hrel⟩ := h.complete _ hdir
    obtain ⟨p, hp, hpath⟩ := FsNode.parent_of_relPath hrel
    obtain rfl : p = node := List.inj_on_of_nodup_map h.paths
      (h.parentsLast.mem_of_parent hn hp) hnodeMem hpath
    -- the node of the subdirectory stands before this one
    have hdone : n ∈ es.map Prod.fst := by
      rcases List.mem_append.mp hn with hn | hn
      · exact hn
      · exfalso
        have hleft : ParentsLast left := h.parentsLast.of_append.2
        have hne : n ≠ p := by
          rintro rfl
          exact List.cons_ne_self _ _ hrel.symm
        have hagain : p ∈ left :=
          hleft.mem_of_parent ((List.mem_cons.mp hn).resolve_left hne) hp
        have hnodup := (List.nodup_append.mp h.ids.of_map).2.1
        exact (List.nodup_cons.mp hnodup).1 hagain
    obtain ⟨e, he, rfl⟩ := List.mem_map.mp hdone
    exact List.mem_map.mpr ⟨e, List.mem_filter.mpr ⟨he, decide_eq_true hp⟩, hrel⟩
  · rw [hseals.children, childHashes]
    congr 1
    refine List.filter_congr fun e he => decide_eq_decide.mpr ?_
    rw [Option.map_eq_some_iff]
    constructor
    · rintro ⟨p, hp, hid⟩
      rw [hp, List.inj_on_of_nodup_map h.ids (h.parentsLast.mem_of_parent (hesMem e he) hp)
        hnodeMem hid]
    · intro hp
      exact ⟨node, hp, rfl⟩
  · refine hseals.unset fun hroot => ?_
    -- the root is the last of the queue
    have hlast := h.inOrder.rootLast
    rw [List.getLast?_append_of_ne_nil _ (List.cons_ne_nil node left)] at hlast
    have hmem : FsNode.root ∈ node :: left := List.mem_of_getLast? hlast
    exact (List.nodup_append.mp h.ids.of_map).2.2 _ hroot _ hmem rfl

/-! ## 4. For which roots -/

/-- The directories are processed children first if and only if the root, joined to itself, leads to
a directory with the same directories below it. -/
theorem children_first_iff (hdiff : LeadsFrom diffPaths) (hroot : host.node root = some .dir) :
    ChildrenFirst P fastCdc diffPaths host root ↔ SameBelow host root := by
  constructor
  · rintro ⟨n, horder⟩
    obtain ⟨scan, hscan, hin, -⟩ := horder n (le_refl n)
    exact (browseDirTree_scanned hdiff hscan).sameBelow (node_join_self_of_browse hscan)
      hin.complete
  · intro hsame
    obtain ⟨hreaches, -⟩ := Host.node_eq_some.mp hroot
    refine ⟨host.fs.entries.length + 1, fun fuel hfuel => ?_⟩
    rcases browseDirTree_spec root hdiff hfuel with ⟨scan, hscan, hfound⟩ | ⟨-, hnot⟩
    · have hscanned := hfound.of_sameBelow hsame
      refine ⟨scan, hscan, hscanned.inOrder, ?_, ?_⟩
      · intro done node left hqueue
        rw [hqueue] at hscanned
        obtain ⟨es, st, hseals, rfl⟩ := hscanned.seals P fastCdc hreaches
        exact ⟨es, st, hseals, rfl, hscanned.gathered hseals⟩
      · have hall : Scanned host.fs (host.base root) (scan.queue ++ []) := by
          rwa [List.append_nil]
        obtain ⟨es, st, hseals, hes⟩ := hall.seals P fastCdc hreaches
        refine ⟨es, st, hes ▸ hseals.foldlM_eq, hseals, hes, fun e he heq => ?_⟩
        exact hseals.rootTreeHash (hes ▸ hscanned.ids.of_map) he heq
    · exact absurd hsame.there hnot

end

/-- The directory `/a` of a process in `/`, as `../a`. -/
theorem children_first_small : ChildrenFirst .transparent cutAtMax stripBase (hostOf smallTree)
    ⟨false, [['a'], FsPath.dotDot]⟩ := by
  have hroot : (hostOf smallTree).node ⟨false, [['a'], FsPath.dotDot]⟩ = some .dir := by decide
  exact (children_first_iff leadsFrom_stripBase hroot).mpr
    (LeadsBack.sameBelow ⟨by decide, by decide⟩ hroot)

/-- Of the relative root `a` the directory `a` is not in the queue. -/
theorem relative_root_skips_directory :
    ¬ ChildrenFirst .transparent cutAtMax stripBase (hostOf nestedTree) ⟨false, [['a']]⟩ := by
  rintro ⟨n, horder⟩
  obtain ⟨scan, hscan, hin, -⟩ := horder (max n 9) (le_max_left _ _)
  have hskipped : (browseDirTree stripBase (hostOf nestedTree) ⟨false, [['a']]⟩ 9).toOption.any
      (fun scan => decide ([['a']] ∉ scan.queue.map FsNode.relPath)) = true := by decide +kernel
  cases hnine : browseDirTree stripBase (hostOf nestedTree) ⟨false, [['a']]⟩ 9 with
  | error e =>
    rw [hnine] at hskipped
    cases hskipped
  | ok scan' =>
    rw [hnine] at hskipped
    obtain rfl := Except.ok.inj ((browseLoop_mono (le_max_right n 9) hnine).symm.trans hscan)
    exact of_decide_eq_true hskipped ((hin.complete [['a']]).mpr (by decide))

end Backuwup.Client
