/-
# Two ways to a directory (`browse_dir_tree`, `get_node_path`)

The scan reaches a directory by a path relative to the backup root, which it joins to that root;
the packing climbs from the node to the root node and pushes the names that it has passed.  The
scan puts the backup root itself on its queue, not the empty path, so for the root node it joins
the root to itself.

`browseReads` is the log of the scan: each node with the path that was read for it.
`same_directories_iff` says for which roots the log has the directories of the tree, and for each
node the directory of `get_node_path`.
-/
import Backuwup.Client.DirPacker.Order

namespace Backuwup.Client

section

variable (diffPaths : FsPath → FsPath → Option FsPath) (host : Host) (root : FsPath)

/-! ## 1. The log of the scan -/

/-- The directories that `browseLoop` reads, each with the node that it reads it for. -/
def browseReads : ℕ → Scan → List (FsNode × FsPath)
  | fuel, st =>
    match st.browsing with
    | [] => []
    | (node, path) :: browsing =>
      match fuel with
      | 0 => []
      | fuel + 1 =>
        match host.readDir host.scanned (root.join path) with
        | none => []
        | some names => (node, root.join path) :: (browseReads fuel <|
          names.foldl (scanEntry diffPaths host root node (root.join path))
            { st with browsing := browsing })

/-- The scan has read the directories of the tree, and for each node of its queue the directory
that the packing finds there. -/
structure SameDirectories (queue : List FsNode) (reads : List (FsNode × FsPath)) : Prop where
  tree : ∀ p, p ∈ reads.map (fun e => e.2.resolve host.cwd) ↔
    (∃ q, p = q ++ host.base root) ∧ host.fs.node p = some .dir
  read : ∀ node ∈ queue, ∃ path, (node, path) ∈ reads
  same : ∀ node path, (node, path) ∈ reads →
    (getNodePath root node).resolve host.cwd = path.resolve host.cwd

/-- The scan ends, and the packing sees what it has seen. -/
def SeesSame : Prop :=
  ∃ n, ∀ fuel, n ≤ fuel → ∃ scan, browseDirTree diffPaths host root fuel = .ok scan ∧
    SameDirectories host root scan.queue
      (browseReads diffPaths host root fuel ⟨[(.root, root)], [.root], 1, 0⟩)

end

section

variable {diffPaths : FsPath → FsPath → Option FsPath} {host : Host} {root : FsPath}

/-! ## 2. What is in the log -/

theorem browseReads_nil {st : Scan} (hst : st.browsing = []) (fuel : ℕ) :
    browseReads diffPaths host root fuel st = [] := by
  unfold browseReads
  rw [hst]

/-- The log of a scan that ends has the nodes that were left to visit, each under its path. -/
theorem browseReads_spec (hdiff : LeadsFrom diffPaths) {fuel : ℕ} {st st' : Scan}
    {visited : List FsNode} (h : ScanOk host root st visited)
    (hrun : browseLoop diffPaths host root fuel st = .ok st') :
    (∀ e ∈ browseReads diffPaths host root fuel st, e.2 = scanPath root e.1) ∧
      st'.queue.Perm (visited ++ (browseReads diffPaths host root fuel st).map Prod.fst) := by
  have hempty : ∀ {fuel st visited}, ScanOk host root st visited → st.browsing = [] →
      browseLoop diffPaths host root fuel st = .ok st' →
      (∀ e ∈ browseReads diffPaths host root fuel st, e.2 = scanPath root e.1) ∧
        st'.queue.Perm (visited ++ (browseReads diffPaths host root fuel st).map Prod.fst) := by
    intro fuel st visited h hst hrun
    rw [browseLoop_nil hst] at hrun
    obtain rfl := Except.ok.inj hrun
    rw [browseReads_nil hst]
    exact ⟨by simp, by simpa [hst] using h.perm⟩
  induction fuel generalizing st visited with
  | zero =>
    cases hst : st.browsing with
    | nil => exact hempty h hst hrun
    | cons e browsing =>
      unfold browseLoop at hrun
      simp only [hst, reduceCtorEq] at hrun
  | succ fuel ih =>
    cases hst : st.browsing with
    | nil => exact hempty h hst hrun
    | cons e browsing =>
      obtain ⟨node, path⟩ := e
      have hpath : root.join path = scanPath root node :=
        h.browsing (node, path) (hst ▸ List.mem_cons_self)
      unfold browseLoop at hrun
      rcases h.round hdiff hst with ⟨names, hread, h'⟩ | ⟨hread, -⟩
      · unfold browseReads
        simp only [hst, hread] at hrun ⊢
        obtain ⟨hpaths, hperm⟩ := ih h' hrun
        refine ⟨List.forall_mem_cons.mpr ⟨hpath, hpaths⟩, hperm.trans ?_⟩
        rw [List.map_cons, List.cons_append]
        exact List.perm_middle.symm
      · simp only [hst, hread, reduceCtorEq] at hrun

/-- The whole log: the nodes of the queue. -/
theorem browseDirTree_reads (hdiff : LeadsFrom diffPaths) {fuel : ℕ} {scan : Scan}
    (h : browseDirTree diffPaths host root fuel = .ok scan) (node : FsNode) (path : FsPath) :
    (node, path) ∈ browseReads diffPaths host root fuel ⟨[(.root, root)], [.root], 1, 0⟩ ↔
      node ∈ scan.queue ∧ path = scanPath root node := by
  obtain ⟨hpaths, hperm⟩ := browseReads_spec hdiff scanOk_start h
  rw [List.nil_append] at hperm
  constructor
  · intro he
    exact ⟨hperm.mem_iff.mpr (List.mem_map.mpr ⟨_, he, rfl⟩), hpaths _ he⟩
  · rintro ⟨hnode, rfl⟩
    obtain ⟨e, he, rfl⟩ := List.mem_map.mp (hperm.mem_iff.mp hnode)
    have heq : e = (e.1, scanPath root e.1) := by rw [← hpaths e he]
    exact heq ▸ he

/-! ## 3. For which roots -/

/-- The scan reads the directories of the tree, and those of `get_node_path`, if and only if the
root, joined to itself, leads to the root. -/
theorem same_directories_iff (hdiff : LeadsFrom diffPaths) (hroot : host.node root = some .dir) :
    SeesSame diffPaths host root ↔ LeadsBack host root := by
  constructor
  · rintro ⟨n, hsees⟩
    obtain ⟨scan, hscan, hsame⟩ := hsees n (le_refl n)
    have hscanned := browseDirTree_scanned hdiff hscan
    -- for the root node the scan has read the place that it starts from
    have hread := (browseDirTree_reads hdiff hscan .root _).mpr ⟨hscanned.rooted, rfl⟩
    have heq := hsame.same _ _ hread
    have hthere := hscanned.dir .root hscanned.rooted
    rw [scanPath_resolve (names_of_node hthere), resolve_getNodePath hthere] at heq
    exact ⟨(Host.node_eq_some.mp (node_join_self_of_browse hscan)).1, heq.symm⟩
  · intro hback
    have hbase : host.scanBase root = host.base root := hback.same
    refine ⟨host.fs.entries.length + 1, fun fuel hfuel => ?_⟩
    rcases browseDirTree_spec root hdiff hfuel with ⟨scan, hscan, hscanned⟩ | ⟨-, hnot⟩
    · rw [hbase] at hscanned
      have hlog := browseDirTree_reads hdiff hscan
      refine ⟨scan, hscan, fun p => ?_, fun node hnode => ?_, fun node path he => ?_⟩
      · rw [List.mem_map]
        constructor
        · rintro ⟨⟨node, path⟩, he, rfl⟩
          obtain ⟨hnode, rfl⟩ := (hlog node path).mp he
          have hdir := hscanned.dir node hnode
          simp only [scanPath_resolve (names_of_node hdir), hbase]
          exact ⟨⟨_, rfl⟩, hdir⟩
        · rintro ⟨⟨q, rfl⟩, hdir⟩
          obtain ⟨node, hnode, rfl⟩ := hscanned.complete q hdir
          refine ⟨(node, scanPath root node), (hlog _ _).mpr ⟨hnode, rfl⟩, ?_⟩
          simp only [scanPath_resolve (names_of_node hdir), hbase]
      · exact ⟨_, (hlog _ _).mpr ⟨hnode, rfl⟩⟩
      · obtain ⟨hnode, rfl⟩ := (hlog node path).mp he
        have hdir := hscanned.dir node hnode
        rw [resolve_getNodePath hdir, scanPath_resolve (names_of_node hdir), hbase]
    · exact absurd (hback.sameBelow hroot).there hnot

end

/-- The directory `/a` of a process in `/`, as `../a/`. -/
theorem same_directories_small :
    SeesSame stripBase (hostOf smallTree) (.parse ['.', '.', '/', 'a', '/']) :=
  (same_directories_iff leadsFrom_stripBase (by decide)).mpr ⟨by decide, by decide⟩

/-- For the relative root `a` the scan reads `a/a`, and the packing then packs `a`. -/
theorem relative_root_reads_other :
    browseReads stripBase (hostOf nestedTree) (.parse ['a']) 9
        ⟨[(.root, .parse ['a'])], [.root], 1, 0⟩ = [(.root, ⟨false, [['a'], ['a']]⟩)] ∧
      getNodePath (.parse ['a']) .root = ⟨false, [['a']]⟩ ∧
      ¬ SeesSame stripBase (hostOf nestedTree) (.parse ['a']) := by
  refine ⟨by decide +kernel, by decide, ?_⟩
  rintro ⟨n, hsees⟩
  obtain ⟨scan, hscan, hsame⟩ := hsees n (le_refl n)
  have hscanned := browseDirTree_scanned leadsFrom_stripBase hscan
  have hread := (browseDirTree_reads leadsFrom_stripBase hscan .root _).mpr ⟨hscanned.rooted, rfl⟩
  exact absurd (hsame.same _ _ hread) (by decide)

end Backuwup.Client
