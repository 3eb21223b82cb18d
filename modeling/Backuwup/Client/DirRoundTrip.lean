/-
# The round trip of a directory tree

What `pack` has stored of a directory tree is what `unpack` restores.  `unpack_spec` says this
of every backup that packs at all: the destination holds the directories that the scan has
found, and the files that the packer has found in them (`restoredNode`).  When the scan starts
in the backup root these are all the files and directories.  A relative root is followed twice by
the scan, and then the two agree if it has found the same directories (`round_trip_iff`): as for
`../data`, which leads back to itself, but never without `..` (`sameBelow_iff_of_names`).
-/
import Backuwup.Client.DirUnpacked

namespace Backuwup.Client

section

variable {P : Primitives} {fastCdc : Bytes → List Bytes} {host : Host} {root : FsPath}
  {base : List FileName} {done : List (FsNode × Tree)} {st : PackState} {get : GetBlob}
  {fuel : ℕ}

/-! ## 1. What is restored -/

/-- What the unpacker is given: the sealed directories, a store that has their blobs, and enough
fuel for their siblings and for all directories. -/
structure Backup (P : Primitives) (fastCdc : Bytes → List Bytes) (host : Host) (root : FsPath)
    (base : List FileName) (done : List (FsNode × Tree)) (st : PackState) (get : GetBlob)
    (fuel : ℕ) : Prop where
  cuts : CutsUp fastCdc
  scanned : Scanned host.fs base (done.map Prod.fst)
  sealed : Sealed P fastCdc host root done st
  store : ∀ b ∈ st.added, get b.hash = .ok (some b)
  dirs : ∀ e ∈ done, e.2.children.length ≤ fuel
  files : ∀ e ∈ done, ∀ name ∈ host.fileNames (e.1.relPath ++ host.base root),
    (fileTreeAt P fastCdc host (name :: (e.1.relPath ++ host.base root))).children.length ≤ fuel
  count : done.length ≤ fuel

/-- What is restored in a directory: the directories of the scan and the files of the packer. -/
def fullNode (host : Host) (root : FsPath) (done : List (FsNode × Tree)) (q : List FileName) :
    Option Node :=
  if q ∈ donePaths done then some .dir
  else
    match host.fs.node (q ++ host.base root) with
    | some (.file content) => some (.file content)
    | _ => none

/-- What the destination holds once these directories have been visited. -/
def restoredNode (host : Host) (root : FsPath) (done visited : List (FsNode × Tree)) :
    List FileName → Option Node
  | [] => some .dir
  | name :: q => if q ∈ donePaths visited then fullNode host root done (name :: q) else none

/-- The chunks of a file are found one after the other. -/
theorem readChunks_map {chunks : List Bytes}
    (h : ∀ c ∈ chunks, get (P.hash c) = .ok (some (chunkBlob P c))) :
    readChunks get (chunks.map P.hash) = (chunks.flatten, true) := by
  induction chunks with
  | nil => rfl
  | cons c chunks ih =>
    have hrest := ih fun c hc => h c (List.mem_cons_of_mem _ hc)
    simp only [List.map_cons, readChunks, h c List.mem_cons_self, hrest, List.flatten_cons]
    rfl

namespace Backup

variable (h : Backup P fastCdc host root base done st get fuel)
include h

theorem snapshot : Snapshot P fastCdc host root base done st := ⟨h.cuts, h.scanned, h.sealed⟩

theorem enough : Enough P fastCdc host root done fuel := ⟨h.dirs, h.files, h.count⟩

theorem sameData : ∀ b ∈ st.added, SameData get b := by
  intro b hb blob hblob
  rw [h.store b hb] at hblob
  obtain rfl := Option.some.inj (Except.ok.inj hblob)
  exact ⟨rfl, rfl⟩

theorem readChunks_file {e : FsNode × Tree} (he : e ∈ done) {name : FileName}
    (hname : name ∈ host.fileNames (e.1.relPath ++ host.base root)) :
    readChunks get (fileTreeAt P fastCdc host
        (name :: (e.1.relPath ++ host.base root))).children
      = (host.fileContent (name :: (e.1.relPath ++ host.base root)), true) := by
  have hblobs := h.sealed.files e he name hname
  simp only [fileTreeAt, fileTree]
  rw [readChunks_map, flatten_fileChunks h.cuts]
  intro c hc
  exact h.store _ (hblobs _ (List.mem_append_left _ (List.mem_map.mpr ⟨c, hc, rfl⟩)))

/-- With the whole store, an empty destination and no failures, no directory is lost. -/
theorem restoresDirs :
    (⟨get, .empty, .noFault⟩ : Attempt).RestoresDirs P fastCdc host root done := by
  refine ⟨fun e he => ⟨fun b hb => h.store b (h.sealed.blobs e he b hb), rfl, ?_, fun _ _ => rfl⟩,
    fun e he name hname b hb => h.store b (h.sealed.files e he name hname b
      (List.mem_append_right _ hb))⟩
  intro content
  change Dest.empty.nodeAt _ ≠ _
  rw [Dest.nodeAt_empty]
  split <;> simp

/-- Nor is a file. -/
theorem leftNode_eq (q : List FileName) :
    (⟨get, .empty, .noFault⟩ : Attempt).leftNode P fastCdc host root done done q
      = restoredNode host root done done q := by
  have hempty : ∀ name q, Dest.empty.nodeAt (name :: q) = none := fun name q =>
    (Dest.nodeAt_empty _).trans (if_neg (by simp))
  cases q with
  | nil => rfl
  | cons name q =>
    rw [Attempt.leftNode, restoredNode]
    refine ite_congr rfl (fun hq => ?_) fun _ => hempty name q
    rw [Attempt.leftIn, fullNode]
    refine ite_congr rfl (fun _ => rfl) fun _ => ?_
    cases hnode : host.fs.node (name :: q ++ host.base root) with
    | none => exact hempty name q
    | some node =>
      cases node with
      | dir => exact hempty name q
      | file content =>
        obtain ⟨e, he, rfl⟩ := List.mem_map.mp hq
        have hread : writeChunks get (fun _ => none) ((fileChunks fastCdc content).map P.hash)
            = (content, true) := by
          have hfile := h.readChunks_file he (mem_fileNames.mpr ⟨content, hnode⟩)
          simp only [fileTreeAt, fileTree, Host.fileContent, ← List.cons_append, hnode] at hfile
          rw [writeChunks_noFault, hfile]
        simp only [Attempt.leftFile, IoFaults.noFault, hread]
        rw [if_neg]
        simp [Destination.empty, hempty]

/-- What has been packed is restored, whatever the order of the tasks. -/
theorem unpack_spec {schedule : List (Tree × FsPath) → List (Tree × FsPath)}
    (hsched : ∀ l, (schedule l).Perm l) :
    ∃ d, unpack get schedule fuel st.rootTreeHash = .ok d ∧
      ∀ q, d.nodeAt q = restoredNode host root done done q := by
  rw [← unpack_noFault]
  rcases h.snapshot.unpack_spec (a := ⟨get, .empty, .noFault⟩) h.enough h.sameData hsched with
    ⟨-, d, hd, hnodes⟩ | ⟨hnot, -⟩
  · exact ⟨d, hd, fun q => (hnodes q).trans (h.leftNode_eq q)⟩
  · exact absurd h.restoresDirs hnot

end Backup

end

/-! ## 2. The round trip -/

section

variable (P : Primitives) (fastCdc : Bytes → List Bytes)
  (diffPaths : FsPath → FsPath → Option FsPath) (host : Host) (root : FsPath) (get : GetBlob)

/-- The scan and the packing succeed and leave this state. -/
def Packs (st : PackState) : Prop :=
  ∃ fuel scan, browseDirTree diffPaths host root fuel = .ok scan ∧
    packFilesInDirectory P fastCdc host root scan.queue = .ok st

/-- The directory tree can be packed, and unpacking the root hash yields exactly its paths, kinds
and contents. -/
def RoundTrip : Prop :=
  ∃ n, ∀ fuel, n ≤ fuel → ∃ scan st, browseDirTree diffPaths host root fuel = .ok scan ∧
    packFilesInDirectory P fastCdc host root scan.queue = .ok st ∧
    ∀ schedule : List (Tree × FsPath) → List (Tree × FsPath), (∀ l, (schedule l).Perm l) →
      ∃ d, unpack get schedule fuel st.rootTreeHash = .ok d ∧
        ∀ q, d.nodeAt q = host.fs.node (q ++ host.base root)

end

section

variable {P : Primitives} {fastCdc : Bytes → List Bytes}
  {diffPaths : FsPath → FsPath → Option FsPath} {host : Host} {root : FsPath} {get : GetBlob}

theorem exists_bound {α : Type*} (f : α → ℕ) (l : List α) : ∃ n, ∀ a ∈ l, f a ≤ n := by
  induction l with
  | nil => exact ⟨0, by simp⟩
  | cons a l ih =>
    obtain ⟨n, hn⟩ := ih
    refine ⟨max (f a) n, ?_⟩
    intro b hb
    rcases List.mem_cons.mp hb with rfl | hb
    · exact le_max_left _ _
    · exact (hn b hb).trans (le_max_right _ _)

/-- Some fuel suffices, and all fuel above it. -/
theorem exists_enough (P : Primitives) (fastCdc : Bytes → List Bytes) (host : Host) (root : FsPath)
    (done : List (FsNode × Tree)) :
    ∃ n, ∀ fuel, n ≤ fuel → Enough P fastCdc host root done fuel := by
  obtain ⟨n₁, hn₁⟩ := exists_bound (fun e : FsNode × Tree => e.2.children.length) done
  obtain ⟨n₂, hn₂⟩ := exists_bound
    (fun p => (fileTreeAt P fastCdc host p).children.length)
    (done.flatMap fun e => (host.fileNames (e.1.relPath ++ host.base root)).map
      (· :: (e.1.relPath ++ host.base root)))
  refine ⟨n₁ + n₂ + done.length, fun fuel hfuel => ⟨fun e he => (hn₁ e he).trans (by omega),
    fun e he name hname => (hn₂ _ ?_).trans (by omega), by omega⟩⟩
  exact List.mem_flatMap.mpr ⟨e, he, List.mem_map.mpr ⟨name, hname, rfl⟩⟩

theorem snapshot_of_packs (hdiff : LeadsFrom diffPaths) (hcdc : CutsUp fastCdc) {fuel₀ : ℕ}
    {scan : Scan} {st : PackState} (hscan : browseDirTree diffPaths host root fuel₀ = .ok scan)
    (hpack : packFilesInDirectory P fastCdc host root scan.queue = .ok st) :
    ∃ done, Snapshot P fastCdc host root (host.scanBase root) done st := by
  have hscanned := browseDirTree_scanned hdiff hscan
  rcases packFilesInDirectory_spec P root hcdc hscanned with
    ⟨done, st', hst', hdone, hsealed⟩ | ⟨herr, -⟩
  · obtain rfl := Except.ok.inj (hpack.symm.trans hst')
    exact ⟨done, hcdc, hdone ▸ hscanned, hsealed⟩
  · cases hpack.symm.trans herr

/-- With enough fuel, what has been packed is restored. -/
theorem restored_of_packs (hdiff : LeadsFrom diffPaths) (hcdc : CutsUp fastCdc) {fuel₀ : ℕ}
    {scan : Scan} {st : PackState} (hscan : browseDirTree diffPaths host root fuel₀ = .ok scan)
    (hpack : packFilesInDirectory P fastCdc host root scan.queue = .ok st)
    (hstore : ∀ b ∈ st.added, get b.hash = .ok (some b)) :
    ∃ done, Scanned host.fs (host.scanBase root) (done.map Prod.fst) ∧
      (∀ e ∈ done, host.fs.node (e.1.relPath ++ host.base root) = some .dir) ∧
      ∃ n, ∀ fuel, n ≤ fuel → browseDirTree diffPaths host root fuel = .ok scan ∧
        ∀ schedule : List (Tree × FsPath) → List (Tree × FsPath), (∀ l, (schedule l).Perm l) →
          ∃ d, unpack get schedule fuel st.rootTreeHash = .ok d ∧
            ∀ q, d.nodeAt q = restoredNode host root done done q := by
  obtain ⟨done, hsnap⟩ := snapshot_of_packs hdiff hcdc hscan hpack
  obtain ⟨n, hn⟩ := exists_enough P fastCdc host root done
  refine ⟨done, hsnap.scanned, hsnap.sealed.dir, fuel₀ + n, fun fuel hfuel =>
    ⟨browseLoop_mono (by omega) hscan, fun schedule hsched => ?_⟩⟩
  have henough := hn fuel (by omega)
  have hbackup : Backup P fastCdc host root (host.scanBase root) done st get fuel :=
    ⟨hcdc, hsnap.scanned, hsnap.sealed, hstore, henough.dirs, henough.files, henough.count⟩
  exact hbackup.unpack_spec hsched

/-- When the scan starts in the backup root, what is restored is the directory tree. -/
theorem restoredNode_eq {done : List (FsNode × Tree)}
    (hscan : Scanned host.fs (host.base root) (done.map Prod.fst)) (q : List FileName) :
    restoredNode host root done done q = host.fs.node (q ++ host.base root) := by
  have hdirs : ∀ q, q ∈ donePaths done ↔ host.fs.node (q ++ host.base root) = some .dir := by
    intro q
    constructor
    · intro hq
      obtain ⟨e, he, rfl⟩ := List.mem_map.mp hq
      exact hscan.dir e.1 (List.mem_map.mpr ⟨e, he, rfl⟩)
    · intro hq
      obtain ⟨node, hnode, rfl⟩ := hscan.complete q hq
      obtain ⟨e, he, rfl⟩ := List.mem_map.mp hnode
      exact List.mem_map.mpr ⟨e, he, rfl⟩
  cases q with
  | nil => exact (hscan.dir .root hscan.rooted).symm
  | cons name q =>
    rw [restoredNode]
    cases hnode : host.fs.node (name :: q ++ host.base root) with
    | none =>
      have hnot : name :: q ∉ donePaths done := by
        intro hq
        cases hnode.symm.trans ((hdirs _).mp hq)
      rw [fullNode, if_neg hnot, hnode]
      simp
    | some node =>
      rw [if_pos ((hdirs q).mpr (FileSystem.parent hnode)), fullNode]
      cases node with
      | dir => rw [if_pos ((hdirs _).mpr hnode)]
      | file content =>
        have hnot : name :: q ∉ donePaths done := by
          intro hq
          cases hnode.symm.trans ((hdirs _).mp hq)
        rw [if_neg hnot, hnode]

/-- The root joined to itself leads to the root. -/
structure LeadsBack (host : Host) (root : FsPath) : Prop where
  reaches : host.reaches (root.join root) = true
  same : host.scanBase root = host.base root

/-- The root joined to itself leads to a directory that has the same directories below it. -/
structure SameBelow (host : Host) (root : FsPath) : Prop where
  there : host.node (root.join root) = some .dir
  dirs : ∀ q, host.fs.node (q ++ host.scanBase root) = some .dir ↔
    host.fs.node (q ++ host.base root) = some .dir

theorem LeadsBack.sameBelow (h : LeadsBack host root) (hroot : host.node root = some .dir) :
    SameBelow host root := by
  refine ⟨Host.node_eq_some.mpr ⟨h.reaches, ?_⟩, fun q => by rw [h.same]⟩
  change host.fs.node (host.scanBase root) = some .dir
  rw [h.same]
  exact (Host.node_eq_some.mp hroot).2

/-- An absolute root, or the current directory, is not followed twice. -/
theorem leadsBack_of_cases (hroot : host.node root = some .dir)
    (h : root.absolute = true ∨ root.comps = []) : LeadsBack host root := by
  have hjoin : root.join root = root := by
    obtain ⟨absolute, comps⟩ := root
    unfold FsPath.join
    rcases h with h | h
    · rw [if_pos h]
    · obtain rfl : comps = [] := h
      cases absolute <;> rfl
  refine ⟨?_, ?_⟩
  · rw [hjoin]
    exact (Host.node_eq_some.mp hroot).1
  · rw [Host.scanBase, hjoin]

/-- No directory tree is its own subtree at a path of some length. -/
theorem not_dir_below {fs : FileSystem} {base sub : List FileName} (hsub : sub ≠ [])
    (hbase : fs.node base = some .dir)
    (h : ∀ q, fs.node (q ++ base) = some .dir → fs.node (q ++ (sub ++ base)) = some .dir) :
    False := by
  have hall : ∀ k, fs.node ((List.replicate k sub).flatten ++ base) = some .dir := by
    intro k
    induction k with
    | zero => exact hbase
    | succ k ih =>
      have := h _ ih
      rwa [List.replicate_succ', List.flatten_append, List.flatten_singleton, List.append_assoc]
  -- the paths are all different
  have hpos : 0 < sub.length := List.length_pos_iff.mpr hsub
  have hnodup : ((List.range (fs.entries.length + 1)).map fun k =>
      (List.replicate k sub).flatten ++ base).Nodup := by
    refine List.nodup_range.map ?_
    intro a b hab
    have hlen := congrArg List.length hab
    simp only [List.length_append, List.length_flatten, List.map_replicate,
      List.sum_replicate_nat, Nat.add_right_cancel_iff] at hlen
    exact Nat.eq_of_mul_eq_mul_right hpos hlen
  have hle := fs.length_le_of_nodup hnodup fun p hp => by
    obtain ⟨k, -, rfl⟩ := List.mem_map.mp hp
    exact ⟨_, hall k⟩
  rw [List.length_map, List.length_range] at hle
  omega

/-- A relative root without `..` that is followed twice leads below itself, where there are fewer
directories. -/
theorem sameBelow_iff_of_names (hroot : host.node root = some .dir)
    (hnames : ∀ name ∈ root.comps, name ≠ FsPath.dotDot) :
    SameBelow host root ↔ root.absolute = true ∨ root.comps = [] := by
  refine ⟨fun h => ?_, fun h => (leadsBack_of_cases hroot h).sameBelow hroot⟩
  by_contra hcases
  obtain ⟨hrelative, hcomps⟩ := not_or.mp hcases
  have htwice : host.scanBase root = root.comps ++ host.base root := by
    have hjoin : root.join root = ⟨root.absolute, root.comps ++ root.comps⟩ := if_neg hrelative
    rw [Host.scanBase, hjoin]
    exact Host.resolve_append hnames
  have hbase : host.fs.node (host.base root) = some .dir := (Host.node_eq_some.mp hroot).2
  refine not_dir_below hcomps hbase fun q hq => ?_
  rw [← htwice]
  exact (h.dirs q).mpr hq

/-- A complete queue is one of the backup root. -/
theorem Scanned.of_sameBelow {queue : List FsNode} (h : Scanned host.fs (host.scanBase root) queue)
    (hsame : SameBelow host root) : Scanned host.fs (host.base root) queue :=
  { h with
    dir := fun node hnode => (hsame.dirs _).mp (h.dir node hnode)
    complete := fun q hq => h.complete q ((hsame.dirs q).mpr hq) }

/-- A scan whose queue has the directories below the backup root. -/
theorem Scanned.sameBelow {queue : List FsNode} (h : Scanned host.fs (host.scanBase root) queue)
    (hthere : host.node (root.join root) = some .dir)
    (hqueue : ∀ q, q ∈ queue.map FsNode.relPath ↔ host.fs.node (q ++ host.base root) = some .dir) :
    SameBelow host root := by
  refine ⟨hthere, fun q => ?_⟩
  rw [← hqueue, List.mem_map]
  constructor
  · exact h.complete q
  · rintro ⟨node, hnode, rfl⟩
    exact h.dir node hnode

/-- With a store that returns what has been added, a directory tree survives the round trip if and
only if its root, joined to itself, leads to a directory with the same directories below it. -/
theorem round_trip_iff (hdiff : LeadsFrom diffPaths) (hcdc : CutsUp fastCdc)
    (hroot : host.node root = some .dir)
    (hstore : ∀ st, Packs P fastCdc diffPaths host root st →
      ∀ b ∈ st.added, get b.hash = .ok (some b)) :
    RoundTrip P fastCdc diffPaths host root get ↔ SameBelow host root := by
  constructor
  · rintro ⟨n, hround⟩
    obtain ⟨scan, st, hscan, hpack, -⟩ := hround n (le_refl n)
    obtain ⟨done, hscanned, hdirs, n', hrestored⟩ :=
      restored_of_packs hdiff hcdc hscan hpack (hstore st ⟨n, scan, hscan, hpack⟩)
    -- all fuels above both bounds agree on the result
    obtain ⟨hscan', hunpack⟩ := hrestored (max n n') (le_max_right _ _)
    obtain ⟨scan₁, st₁, hscan₁, hpack₁, hround₁⟩ := hround (max n n') (le_max_left _ _)
    obtain rfl := Except.ok.inj (hscan'.symm.trans hscan₁)
    obtain rfl := Except.ok.inj (hpack.symm.trans hpack₁)
    obtain ⟨d, hd, hnodes⟩ := hunpack id fun l => .refl l
    obtain ⟨d', hd', hnodes'⟩ := hround₁ id fun l => .refl l
    obtain rfl := Except.ok.inj (hd.symm.trans hd')
    refine hscanned.sameBelow (node_join_self_of_browse hscan) fun q => ⟨fun hq => ?_, fun hq => ?_⟩
    · obtain ⟨node, hnode, rfl⟩ := List.mem_map.mp hq
      obtain ⟨e, he, rfl⟩ := List.mem_map.mp hnode
      exact hdirs e he
    · have hmem : q ∈ donePaths done := by
        rw [← hnodes' q, hnodes q] at hq
        cases q with
        | nil =>
          obtain ⟨e, he, heq⟩ := List.mem_map.mp hscanned.rooted
          exact List.mem_map.mpr ⟨e, he, by rw [heq]; rfl⟩
        | cons name q =>
          rw [restoredNode, Option.ite_none_right_eq_some, fullNode] at hq
          by_contra hnot
          rw [if_neg hnot] at hq
          split at hq <;> simp at hq
      rw [List.map_map]
      exact hmem
  · intro hsame
    obtain ⟨hreaches, -⟩ := Host.node_eq_some.mp hroot
    rcases browseDirTree_spec root hdiff (Nat.lt_succ_self host.fs.entries.length) with
      ⟨scan, hscan, hscanned⟩ | ⟨-, hnot⟩
    · rcases packFilesInDirectory_spec P root hcdc hscanned with
        ⟨done₀, st, hpack, -, -⟩ | ⟨-, node, hnode, hnot⟩
      · obtain ⟨done, hscanned', -, n, hrestored⟩ :=
          restored_of_packs hdiff hcdc hscan hpack (hstore st ⟨_, scan, hscan, hpack⟩)
        refine ⟨n, ?_⟩
        intro fuel hfuel
        obtain ⟨hscan', hunpack⟩ := hrestored fuel hfuel
        refine ⟨scan, st, hscan', hpack, ?_⟩
        intro schedule hsched
        obtain ⟨d, hd, hnodes⟩ := hunpack schedule hsched
        exact ⟨d, hd, fun q =>
          (hnodes q).trans (restoredNode_eq (hscanned'.of_sameBelow hsame) q)⟩
      · have hthere := hscanned.dir node hnode
        refine absurd ((node_getNodePath hthere).mpr ⟨hreaches, ?_⟩) hnot
        exact (hsame.dirs _).mp hthere
    · exact absurd hsame.there hnot

theorem Packs.unique {st st' : PackState} (h : Packs P fastCdc diffPaths host root st)
    (h' : Packs P fastCdc diffPaths host root st') : st = st' := by
  obtain ⟨fuel, scan, hscan, hpack⟩ := h
  obtain ⟨fuel', scan', hscan', hpack'⟩ := h'
  have heq := (browseLoop_mono (le_max_left fuel fuel') hscan).symm.trans
    (browseLoop_mono (le_max_right fuel fuel') hscan')
  obtain rfl := Except.ok.inj heq
  exact Except.ok.inj (hpack.symm.trans hpack')

end

/-! ## 3. Two directory trees -/

section

/-- A chunker that cuts at the maximum. -/
def cutAtMax (data : Bytes) : List Bytes := chunks blobMaxUncompressedSize data.length data

theorem cutsUp_cutAtMax : CutsUp cutAtMax := by
  intro data
  exact ⟨flatten_chunks (by decide) (le_refl _), fun _ hc => length_le_of_mem_chunks hc⟩

/-- `diff_paths` for a path below the base. -/
def stripBase (path base : FsPath) : Option FsPath :=
  if path.comps.drop (path.comps.length - base.comps.length) = base.comps then
    some ⟨false, path.comps.take (path.comps.length - base.comps.length)⟩
  else none

theorem leadsFrom_stripBase : LeadsFrom stripBase := by
  rintro base ⟨absolute, comps⟩ rfl
  simp [stripBase, FsPath.join]

/-- A process in `/`, on a file system that keeps no times. -/
def hostOf (fs : FileSystem) : Host where
  fs := fs
  cwd := []
  scanned := fs.listing
  packed := fs.listing
  metadata _ := .absent
  bounded _ := ⟨nofun, nofun, nofun⟩

/-- The result of packing. -/
def backupOf (fs : FileSystem) (root : FsPath) : Option PackState :=
  (browseDirTree stripBase (hostOf fs) root 9).toOption.bind fun scan =>
    (packFilesInDirectory .transparent cutAtMax (hostOf fs) root scan.queue).toOption

/-- The store of these blobs. -/
def storeOf (added : List Blob) : GetBlob := fun hash => .ok (added.find? fun b => b.hash = hash)

theorem eq_ok_of_toOption {ε α : Type*} {e : Except ε α} {a : α} (h : e.toOption = some a) :
    e = .ok a := by
  cases e with
  | ok b => rw [Option.some.inj h]
  | error e => cases h

theorem packs_of_toOption {host : Host} {root : FsPath} {st : PackState}
    (h : (browseDirTree stripBase host root 9).toOption.bind (fun scan =>
      (packFilesInDirectory .transparent cutAtMax host root scan.queue).toOption) = some st) :
    Packs .transparent cutAtMax stripBase host root st := by
  obtain ⟨scan, hscan, hpack⟩ := Option.bind_eq_some_iff.mp h
  exact ⟨9, scan, eq_ok_of_toOption hscan, eq_ok_of_toOption hpack⟩

theorem packs_of_backupOf {fs : FileSystem} {root : FsPath} {st : PackState}
    (h : backupOf fs root = some st) :
    Packs .transparent cutAtMax stripBase (hostOf fs) root st := packs_of_toOption h

/-- `/a` with an empty directory and a file. -/
def smallTree : FileSystem where
  entries := [([], .dir), ([['a']], .dir), ([['e'], ['a']], .dir),
    ([['f'], ['a']], .file [1, 2, 3])]
  nodup := by decide
  closed := by decide

theorem smallTree_stored : ∀ root ∈ [⟨true, [['a']]⟩, ⟨false, [['a'], FsPath.dotDot]⟩],
    (backupOf smallTree root).any (fun st =>
      decide (∀ b ∈ st.added, storeOf st.added b.hash = .ok (some b))) = true := by
  decide +kernel

/-- The directory `/a` of a process in `/` survives the round trip as `../a`. -/
theorem round_trip_small : ∃ get, RoundTrip .transparent cutAtMax stripBase (hostOf smallTree)
    ⟨false, [['a'], FsPath.dotDot]⟩ get := by
  obtain ⟨st, hst, hstored⟩ := (Option.any_eq_true _ _).mp
    (smallTree_stored ⟨false, [['a'], FsPath.dotDot]⟩ (by simp))
  have hpacks := packs_of_backupOf hst
  have hroot : (hostOf smallTree).node ⟨false, [['a'], FsPath.dotDot]⟩ = some .dir := by decide
  refine ⟨storeOf st.added, (round_trip_iff leadsFrom_stripBase cutsUp_cutAtMax hroot
    fun st' hst' => ?_).mpr (LeadsBack.sameBelow ⟨by decide, by decide⟩ hroot)⟩
  rw [hst'.unique hpacks]
  exact of_decide_eq_true hstored

/-- `/a` with a directory of the same name, which has a file. -/
def nestedTree : FileSystem where
  entries := [([], .dir), ([['a']], .dir), ([['a'], ['a']], .dir),
    ([['g'], ['a'], ['a']], .file [7])]
  nodup := by decide
  closed := by decide

theorem nestedTree_restored : (backupOf nestedTree ⟨false, [['a']]⟩).any (fun st =>
    decide (∀ b ∈ st.added, storeOf st.added b.hash = .ok (some b)) &&
    match unpack (storeOf st.added) id 9 st.rootTreeHash with
    | .ok d => decide (d.nodeAt [['g'], ['a']] = none)
    | .error _ => false) = true := by
  decide +kernel

/-- Of the relative root `a`, whose directory `a` has a file, everything succeeds and the file is
not restored. -/
theorem relative_root_loses_file : ∃ (st : PackState) (get : GetBlob) (d : Dest),
    Packs .transparent cutAtMax stripBase (hostOf nestedTree) ⟨false, [['a']]⟩ st ∧
    (∀ b ∈ st.added, get b.hash = .ok (some b)) ∧
    unpack get id 9 st.rootTreeHash = .ok d ∧ d.nodeAt [['g'], ['a']] = none ∧
    nestedTree.node ([['g'], ['a']] ++ (hostOf nestedTree).base ⟨false, [['a']]⟩)
      = some (.file [7]) := by
  obtain ⟨st, hst, h⟩ := (Option.any_eq_true _ _).mp nestedTree_restored
  obtain ⟨hstored, hd⟩ := Bool.and_eq_true_iff.mp h
  split at hd
  · rename_i d hunpack
    exact ⟨st, storeOf st.added, d, packs_of_backupOf hst, of_decide_eq_true hstored, hunpack,
      of_decide_eq_true hd, by decide⟩
  · cases hd

end

end Backuwup.Client
