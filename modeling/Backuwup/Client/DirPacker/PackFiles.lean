/-
# Packing the directories of the queue (`pack_files_in_directory`)

The packer takes the nodes off the processing queue.  For each it packs the files of the
directory, and then adds the tree of the directory, whose children are the hashes that the
subdirectories have left in the node and those of the files.  All this reads a file system that
does not fail and does not change; the packing under failures is the subject of
`Backuwup.Client.DirPacker.Session`.

`packFilesInDirectory_spec`: after a complete scan every directory is sealed with the hashes of
all its subdirectories and files (`Sealed`), and all their blobs have been added.
-/
import Backuwup.Client.DirPacker.Browse
import Mathlib.Data.List.TakeWhile

namespace Backuwup.Client

/-! ## 1. Files -/

/-- `BLOB_DESIRED_TARGET_SIZE`: 1 MiB. -/
def blobDesiredTargetSize : ℕ := 1048576

def Blob.Fits (b : Blob) : Prop := b.data.length ≤ blobMaxUncompressedSize

instance (b : Blob) : Decidable b.Fits := inferInstanceAs (Decidable (_ ≤ _))

/-- The chunks are consecutive, cover the file and are not too large. -/
def CutsUp (fastCdc : Bytes → List Bytes) : Prop :=
  ∀ data, (fastCdc data).flatten = data ∧ ∀ c ∈ fastCdc data, c.length ≤ blobMaxUncompressedSize

def fileChunks (fastCdc : Bytes → List Bytes) (content : Bytes) : List Bytes :=
  if blobDesiredTargetSize < content.length then fastCdc content else [content]

section

variable (P : Primitives) (fastCdc : Bytes → List Bytes) (host : Host) (root : FsPath)

/-- `process_file`: the blobs it adds, and the hash it returns if none of them is refused. -/
def processFile (path : FsPath) : List Blob × Option BlobHash :=
  match path.comps, host.node path with
  | name :: _, some (.file content) =>
    let metadata := host.metadata (path.resolve host.cwd)
    let chunks := fileChunks fastCdc content
    let blobs := fileBlobs P name metadata chunks
    (blobs.takeWhile fun b => b.Fits,
      if blobs.all fun b => b.Fits then some (treeHash P (fileTree P name metadata chunks))
      else none)
  | _, _ => ([], none)

/-! ## 2. Directories -/

/-- The names of a node and of those above it. -/
def FsNode.names : FsNode → List FileName
  | .root => [[]]
  | .dir _ name parent => name :: parent.names

def getNodePath (node : FsNode) : FsPath :=
  node.names.foldr (fun name path => path.push name) root

/-- The children that the nodes have been given, `root_tree_hash`, and the blobs added. -/
structure PackState where
  children : ℕ → List BlobHash
  rootTreeHash : BlobHash
  added : List Blob

inductive PackError
  | ioError
  | blobTooLarge
deriving DecidableEq

def Host.isFile (path : FsPath) : Bool :=
  match host.node path with
  | some (.file _) => true
  | _ => false

def packDirectory (st : PackState) (node : FsNode) : Except PackError PackState :=
  let path := getNodePath root node
  match host.readDir host.packed path with
  | none => .error .ioError
  | some names =>
    let files := (names.filter fun name => host.isFile (path.push name)).map fun name =>
      processFile P fastCdc host (path.push name)
    let tree := dirTree path.fileName (host.metadata (path.resolve host.cwd))
      (st.children node.id ++ files.filterMap Prod.snd)
    let blobs := splitSerializeTree P tree
    if blobs.all fun b => b.Fits then
      let added := st.added ++ (files.flatMap Prod.fst ++ blobs)
      match node.parent with
      | some parent => .ok { st with
          children := Function.update st.children parent.id
            (st.children parent.id ++ [treeHash P tree])
          added := added }
      | none => .ok { st with rootTreeHash := treeHash P tree, added := added }
    else .error .blobTooLarge

/-- `pack_files_in_directory`, with the blobs that it has added. -/
def packFilesInDirectory (queue : List FsNode) : Except PackError PackState :=
  queue.foldlM (packDirectory P fastCdc host root) ⟨fun _ => [], defaultHash, []⟩

/-! ## 3. What is stored -/

def Host.fileContent (p : List FileName) : Bytes :=
  match host.fs.node p with
  | some (.file content) => content
  | _ => []

def fileTreeAt (p : List FileName) : Tree :=
  fileTree P (p.headD []) (host.metadata p) (fileChunks fastCdc (host.fileContent p))

def fileBlobsAt (p : List FileName) : List Blob :=
  fileBlobs P (p.headD []) (host.metadata p) (fileChunks fastCdc (host.fileContent p))

/-- The names of the files in a directory, in the order they are packed. -/
def Host.fileNames (p : List FileName) : List FileName :=
  (host.packed.names p).filter fun name =>
    match host.fs.node (name :: p) with
    | some (.file _) => true
    | _ => false

/-- The hashes that the sealed directories have left in a node. -/
def childHashes (done : List (FsNode × Tree)) (id : ℕ) : List BlobHash :=
  (done.filter fun e => e.1.parent.map FsNode.id = some id).map fun e => treeHash P e.2

def sealedTree (done : List (FsNode × Tree)) (node : FsNode) : Tree :=
  let p := node.relPath ++ host.base root
  dirTree (getNodePath root node).fileName (host.metadata p)
    (childHashes P done node.id ++
      (host.fileNames p).map fun name => treeHash P (fileTreeAt P fastCdc host (name :: p)))

/-- Everything that the packer has stored when these directories are sealed. -/
structure Sealed (done : List (FsNode × Tree)) (st : PackState) : Prop where
  dir : ∀ e ∈ done, host.fs.node (e.1.relPath ++ host.base root) = some .dir
  tree : ∀ e ∈ done, e.2 = sealedTree P fastCdc host root done e.1
  blobs : ∀ e ∈ done, ∀ b ∈ splitSerializeTree P e.2, b ∈ st.added
  files : ∀ e ∈ done, ∀ name ∈ host.fileNames (e.1.relPath ++ host.base root),
    ∀ b ∈ fileBlobsAt P fastCdc host (name :: (e.1.relPath ++ host.base root)), b ∈ st.added
  children : ∀ id, st.children id = childHashes P done id
  root : ∀ e ∈ done, e.1 = .root → st.rootTreeHash = treeHash P e.2

end

/-! ## 4. One directory -/

section

variable {P : Primitives} {fastCdc : Bytes → List Bytes} {host : Host} {root : FsPath}

/-- A node that the scan has found denotes the path below the backup root. -/
theorem getNodePath_eq {base : List FileName} {node : FsNode} {n : Node}
    (h : host.fs.node (node.relPath ++ base) = some n) :
    getNodePath root node = ⟨root.absolute, node.relPath ++ root.comps⟩ := by
  induction node generalizing n with
  | root => simp [getNodePath, FsNode.names, FsNode.relPath]
  | dir id name parent ih =>
    have hpush : getNodePath root (.dir id name parent)
        = (getNodePath root parent).push name := rfl
    rw [hpush, ih (FileSystem.parent h), FsPath.push_validName (FileSystem.validName h)]
    rfl

/-- It can be read if the backup root is there and the directory below it. -/
theorem node_getNodePath {base : List FileName} {node : FsNode} {n m : Node}
    (h : host.fs.node (node.relPath ++ base) = some n) :
    host.node (getNodePath root node) = some m ↔
      host.reaches root = true ∧ host.fs.node (node.relPath ++ host.base root) = some m := by
  rw [getNodePath_eq h, Host.node_append (names_of_node h)]

theorem resolve_getNodePath {base : List FileName} {node : FsNode} {n : Node}
    (h : host.fs.node (node.relPath ++ base) = some n) :
    (getNodePath root node).resolve host.cwd = node.relPath ++ host.base root := by
  rw [getNodePath_eq h, Host.resolve_append (names_of_node h)]

theorem fileName_short {path : FsPath} {n : Node}
    (h : host.fs.node (path.resolve host.cwd) = some n) :
    (utf8 path.fileName).length ≤ nameMax := by
  obtain ⟨absolute, comps⟩ := path
  cases comps with
  | nil => exact Nat.zero_le _
  | cons name comps =>
    by_cases hname : name = FsPath.dotDot
    · have hnone : FsPath.fileName ⟨absolute, name :: comps⟩ = [] := if_pos hname
      exact hnone ▸ Nat.zero_le _
    · rw [FsPath.resolve, FsPath.follow, if_neg hname] at h
      rw [FsPath.fileName_cons hname]
      exact (FileSystem.validName h).short

/-- All blobs of a tree are accepted. -/
theorem fits_splitSerializeTree {t : Tree} (hsib : t.nextSibling = none)
    (hname : (utf8 t.name).length ≤ nameMax) : ∀ b ∈ splitSerializeTree P t, b.Fits := by
  intro b hb
  obtain ⟨t', rfl, hpiece⟩ := mem_splitSerializeTree hsib b hb
  have hlen := length_treeCodec_le t'
  have hchildren := hpiece.length_le
  rw [hpiece.name] at hlen
  simp only [Blob.Fits, treeBlob, blobMaxUncompressedSize, nameMax, treeBlobMaxChildren] at *
  omega

theorem fits_fileChunks (hcdc : CutsUp fastCdc) (content : Bytes) :
    ∀ c ∈ fileChunks fastCdc content, c.length ≤ blobMaxUncompressedSize := by
  unfold fileChunks
  split
  · exact (hcdc content).2
  · rename_i hsmall
    intro c hc
    rw [List.mem_singleton.mp hc]
    simp only [blobDesiredTargetSize, blobMaxUncompressedSize] at *
    omega

theorem flatten_fileChunks (hcdc : CutsUp fastCdc) (content : Bytes) :
    (fileChunks fastCdc content).flatten = content := by
  unfold fileChunks
  split
  · exact (hcdc content).1
  · simp

/-- All blobs of a file are accepted. -/
theorem processFile_eq (hcdc : CutsUp fastCdc) {dir : FsPath} {name : FileName} {content : Bytes}
    (hreaches : host.reaches dir = true)
    (h : host.fs.node (name :: dir.resolve host.cwd) = some (.file content)) :
    processFile P fastCdc host (dir.push name)
      = (fileBlobsAt P fastCdc host (name :: dir.resolve host.cwd),
        some (treeHash P (fileTreeAt P fastCdc host (name :: dir.resolve host.cwd)))) := by
  have hvalid := FileSystem.validName h
  have hnames : ∀ n ∈ [name], n ≠ FsPath.dotDot := by simpa using hvalid.notDotDot
  have hres : FsPath.resolve host.cwd ⟨dir.absolute, name :: dir.comps⟩
      = name :: dir.resolve host.cwd := Host.resolve_append hnames
  have hnode : host.node ⟨dir.absolute, name :: dir.comps⟩ = some (.file content) :=
    (Host.node_append hnames).mpr ⟨hreaches, h⟩
  have hfits : ∀ b ∈ fileBlobs P name (host.metadata (name :: dir.resolve host.cwd))
      (fileChunks fastCdc content), b.Fits := by
    intro b hb
    rcases List.mem_append.mp hb with hb | hb
    · obtain ⟨c, hc, rfl⟩ := List.mem_map.mp hb
      exact fits_fileChunks hcdc content c hc
    · exact fits_splitSerializeTree (t := fileTree P name _ _) rfl hvalid.short b hb
  have hall : (fileBlobs P name (host.metadata (name :: dir.resolve host.cwd))
      (fileChunks fastCdc content)).all (fun b => decide b.Fits) = true :=
    List.all_eq_true.mpr fun b hb => decide_eq_true (hfits b hb)
  have htake : (fileBlobs P name (host.metadata (name :: dir.resolve host.cwd))
      (fileChunks fastCdc content)).takeWhile (fun b => decide b.Fits)
        = fileBlobs P name (host.metadata (name :: dir.resolve host.cwd))
            (fileChunks fastCdc content) :=
    List.takeWhile_eq_self_iff.mpr fun b hb => decide_eq_true (hfits b hb)
  simp only [processFile, FsPath.push_validName hvalid, hnode, hres, h, hall, htake, if_true,
    fileBlobsAt, fileTreeAt, Host.fileContent, List.headD_cons]

/-- The state after a directory has been sealed. -/
def PackState.seal (P : Primitives) (st : PackState) (node : FsNode) (tree : Tree)
    (added : List Blob) : PackState :=
  match node.parent with
  | some parent =>
    ⟨Function.update st.children parent.id (st.children parent.id ++ [treeHash P tree]),
      st.rootTreeHash, st.added ++ added⟩
  | none => ⟨st.children, treeHash P tree, st.added ++ added⟩

/-- A directory leaves its hash in the node of its parent. -/
theorem PackState.seal_children (st : PackState) (node : FsNode) (tree : Tree) (added : List Blob)
    (id : ℕ) : (st.seal P node tree added).children id = st.children id ++
      if node.parent.map FsNode.id = some id then [treeHash P tree] else [] := by
  unfold PackState.seal
  cases node.parent with
  | none => simp
  | some p =>
    by_cases hid : p.id = id
    · subst hid
      simp
    · simp [hid, Function.update_of_ne (Ne.symm hid)]

/-- The root leaves its own as the root hash. -/
theorem PackState.seal_rootTreeHash (st : PackState) (node : FsNode) (tree : Tree)
    (added : List Blob) : (st.seal P node tree added).rootTreeHash =
      if node = .root then treeHash P tree else st.rootTreeHash := by
  cases node <;> rfl

variable (P root) in
/-- The directory of a node is packed whenever it can be read. -/
theorem packDirectory_eq (hcdc : CutsUp fastCdc) {node : FsNode} {base : List FileName} {n : Node}
    (hscan : host.fs.node (node.relPath ++ base) = some n) {done : List (FsNode × Tree)}
    {st : PackState} (hst : st.children node.id = childHashes P done node.id) :
    packDirectory P fastCdc host root st node =
      if host.node (getNodePath root node) = some .dir then
        .ok <| st.seal P node (sealedTree P fastCdc host root done node)
          ((host.fileNames (node.relPath ++ host.base root)).flatMap (fun name =>
              fileBlobsAt P fastCdc host (name :: (node.relPath ++ host.base root))) ++
            splitSerializeTree P (sealedTree P fastCdc host root done node))
      else .error .ioError := by
  have hres : (getNodePath root node).resolve host.cwd = node.relPath ++ host.base root :=
    resolve_getNodePath hscan
  unfold packDirectory
  by_cases hnode : host.node (getNodePath root node) = some .dir
  · obtain ⟨hreaches, hdir⟩ := (node_getNodePath hscan).mp hnode
    have hread : host.readDir host.packed (getNodePath root node)
        = some (host.packed.names (node.relPath ++ host.base root)) := by
      simp only [Host.readDir, hnode, hres]
    -- the files of the directory
    have hisFile : ∀ name ∈ host.packed.names (node.relPath ++ host.base root),
        host.isFile ((getNodePath root node).push name) =
          match host.fs.node (name :: (node.relPath ++ host.base root)) with
          | some (.file _) => true
          | _ => false := by
      intro name hname
      obtain ⟨n, hn⟩ := (host.packed.mem _ _).mp hname
      have hchild : host.node ((getNodePath root node).push name)
          = host.fs.node (name :: (node.relPath ++ host.base root)) := by
        have heq : host.fs.node ((FsNode.dir 0 name node).relPath ++ host.base root) = some n := hn
        refine Option.ext fun m => ?_
        exact (node_getNodePath heq).trans (and_iff_right hreaches)
      simp only [Host.isFile, hchild]
    have hnames : (host.packed.names (node.relPath ++ host.base root)).filter
        (fun name => host.isFile ((getNodePath root node).push name))
          = host.fileNames (node.relPath ++ host.base root) := List.filter_congr hisFile
    have hfiles : (host.fileNames (node.relPath ++ host.base root)).map
        (fun name => processFile P fastCdc host ((getNodePath root node).push name))
          = (host.fileNames (node.relPath ++ host.base root)).map fun name =>
            (fileBlobsAt P fastCdc host (name :: (node.relPath ++ host.base root)),
              some (treeHash P (fileTreeAt P fastCdc host
                (name :: (node.relPath ++ host.base root))))) := by
      refine List.map_congr_left ?_
      intro name hname
      obtain ⟨-, hfile⟩ := List.mem_filter.mp hname
      split at hfile
      · rename_i content hcontent
        rw [← hres] at hcontent ⊢
        exact processFile_eq hcdc (Host.node_eq_some.mp hnode).1 hcontent
      · cases hfile
    have htree : dirTree (getNodePath root node).fileName
        (host.metadata (node.relPath ++ host.base root))
        (st.children node.id ++ ((host.fileNames (node.relPath ++ host.base root)).map fun name =>
          (fileBlobsAt P fastCdc host (name :: (node.relPath ++ host.base root)),
            some (treeHash P (fileTreeAt P fastCdc host
              (name :: (node.relPath ++ host.base root)))))).filterMap Prod.snd)
          = sealedTree P fastCdc host root done node := by
      simp [sealedTree, hst, List.filterMap_map]
    have hfits : (splitSerializeTree P (sealedTree P fastCdc host root done node)).all
        (fun b => decide b.Fits) = true := by
      refine List.all_eq_true.mpr ?_
      intro b hb
      refine decide_eq_true ?_
      refine fits_splitSerializeTree (t := sealedTree P fastCdc host root done node) rfl ?_ b hb
      exact fileName_short (Host.node_eq_some.mp hnode).2
    simp only [hread, hres, hnames, hfiles, htree, hfits, if_true, hnode, List.flatMap_map,
      PackState.seal]
    cases node.parent <;> rfl
  · have hread : host.readDir host.packed (getNodePath root node) = none := by
      unfold Host.readDir
      split
      · exact absurd ‹_› hnode
      · rfl
    simp only [hread, hnode, if_false]

/-! ## 5. All directories -/

theorem ParentsLast.of_append {nodes left : List FsNode} (h : ParentsLast (nodes ++ left)) :
    ParentsLast left := by
  induction nodes with
  | nil => exact h
  | cons n nodes ih => exact ih h.2

theorem childHashes_append (done : List (FsNode × Tree)) (node : FsNode) (tree : Tree) (id : ℕ) :
    childHashes P (done ++ [(node, tree)]) id = childHashes P done id ++
      if node.parent.map FsNode.id = some id then [treeHash P tree] else [] := by
  simp only [childHashes, List.filter_append, List.map_append]
  congr 1
  by_cases h : node.parent.map FsNode.id = some id
  · simp only [List.filter_cons, List.filter_nil, h, decide_true, if_true, List.map_cons,
      List.map_nil]
  · simp only [List.filter_cons, List.filter_nil, h, decide_false, Bool.false_eq_true, if_false,
      List.map_nil]

theorem sealedTree_congr {done done' : List (FsNode × Tree)} {node : FsNode}
    (h : childHashes P done node.id = childHashes P done' node.id) :
    sealedTree P fastCdc host root done node = sealedTree P fastCdc host root done' node := by
  simp only [sealedTree, h]

/-- The hash of a directory goes to its parent, which is not among those sealed so far. -/
theorem childHashes_sealed {base : List FileName} {done : List (FsNode × Tree)} {node : FsNode}
    {left : List FsNode} (hscan : Scanned host.fs base (done.map Prod.fst ++ node :: left))
    (tree : Tree) {n : FsNode} (hn : n ∈ done.map Prod.fst ∨ n = node) :
    childHashes P (done ++ [(node, tree)]) n.id = childHashes P done n.id := by
  rw [childHashes_append, if_neg, List.append_nil]
  intro heq
  obtain ⟨p, hp, hid⟩ := Option.map_eq_some_iff.mp heq
  have hleft : p ∈ left := hscan.parentsLast.of_append.1 p hp
  have hids := hscan.ids
  rw [List.map_append, List.map_cons] at hids
  obtain ⟨-, hids, hdisj⟩ := List.nodup_append.mp hids
  have hmem : p.id ∈ left.map FsNode.id := List.mem_map.mpr ⟨p, hleft, rfl⟩
  rcases hn with hn | rfl
  · exact hdisj n.id (List.mem_map.mpr ⟨n, hn, rfl⟩) p.id (List.mem_cons_of_mem _ hmem) hid.symm
  · exact (List.nodup_cons.mp hids).1 (hid ▸ hmem)

theorem Sealed.seal {base : List FileName} {done : List (FsNode × Tree)} {node : FsNode}
    {left : List FsNode} {st : PackState} (h : Sealed P fastCdc host root done st)
    (hscan : Scanned host.fs base (done.map Prod.fst ++ node :: left))
    (hdir : host.fs.node (node.relPath ++ host.base root) = some .dir) :
    Sealed P fastCdc host root (done ++ [(node, sealedTree P fastCdc host root done node)])
      (st.seal P node (sealedTree P fastCdc host root done node)
        ((host.fileNames (node.relPath ++ host.base root)).flatMap (fun name =>
            fileBlobsAt P fastCdc host (name :: (node.relPath ++ host.base root))) ++
          splitSerializeTree P (sealedTree P fastCdc host root done node))) := by
  generalize hadded : (host.fileNames (node.relPath ++ host.base root)).flatMap (fun name =>
    fileBlobsAt P fastCdc host (name :: (node.relPath ++ host.base root))) ++
      splitSerializeTree P (sealedTree P fastCdc host root done node) = added
  generalize htree : sealedTree P fastCdc host root done node = tree at hadded ⊢
  have hst : (st.seal P node tree added).added = st.added ++ added := by
    unfold PackState.seal
    split <;> rfl
  have hcases : ∀ e ∈ done ++ [(node, tree)], e ∈ done ∨ e = (node, tree) := by
    intro e he
    simpa using he
  constructor
  · intro e he
    rcases hcases e he with he | rfl
    · exact h.dir e he
    · exact hdir
  · intro e he
    rcases hcases e he with he | rfl
    · have hsame := childHashes_sealed (P := P) hscan tree
        (Or.inl (List.mem_map.mpr ⟨e, he, rfl⟩))
      exact (h.tree e he).trans (sealedTree_congr hsame.symm)
    · have hsame := childHashes_sealed (P := P) hscan tree (Or.inr rfl)
      exact htree.symm.trans (sealedTree_congr hsame.symm)
  · intro e he b hb
    rw [hst]
    rcases hcases e he with he | rfl
    · exact List.mem_append_left _ (h.blobs e he b hb)
    · exact List.mem_append_right _ (hadded ▸ List.mem_append_right _ hb)
  · intro e he name hname b hb
    rw [hst]
    rcases hcases e he with he | rfl
    · exact List.mem_append_left _ (h.files e he name hname b hb)
    · refine List.mem_append_right _ (hadded ▸ List.mem_append_left _ ?_)
      exact List.mem_flatMap.mpr ⟨name, hname, hb⟩
  · intro id
    rw [PackState.seal_children, childHashes_append, h.children]
  · intro e he hroot
    rcases hcases e he with hin | rfl
    · -- the root is sealed already, so this node is another
      have hne : node ≠ .root := by
        rintro rfl
        have hids := hscan.ids
        rw [List.map_append, List.map_cons] at hids
        exact (List.nodup_append.mp hids).2.2 _
          (List.mem_map.mpr ⟨_, List.mem_map.mpr ⟨e, hin, rfl⟩, by rw [hroot]⟩) _
          List.mem_cons_self rfl
      rw [PackState.seal_rootTreeHash, if_neg hne, h.root e hin hroot]
    · rw [PackState.seal_rootTreeHash, if_pos hroot]

/-- The rounds for the rest of the queue: they succeed if all the directories can be read. -/
theorem packDirectories_spec (hcdc : CutsUp fastCdc) {base : List FileName} {left : List FsNode}
    (done : List (FsNode × Tree)) {st : PackState}
    (hscan : Scanned host.fs base (done.map Prod.fst ++ left))
    (h : Sealed P fastCdc host root done st) :
    (∃ done' st', left.foldlM (packDirectory P fastCdc host root) st = .ok st' ∧
        done'.map Prod.fst = done.map Prod.fst ++ left ∧ Sealed P fastCdc host root done' st') ∨
      (left.foldlM (packDirectory P fastCdc host root) st = .error .ioError ∧
        ∃ node ∈ left, host.node (getNodePath root node) ≠ some .dir) := by
  induction left generalizing done st with
  | nil => exact Or.inl ⟨done, st, rfl, (List.append_nil _).symm, h⟩
  | cons node left ih =>
    have hthere := hscan.dir node (List.mem_append_right _ List.mem_cons_self)
    have heq := packDirectory_eq P root hcdc hthere (h.children node.id)
    by_cases hdir : host.node (getNodePath root node) = some .dir
    · rw [if_pos hdir] at heq
      have hnext := h.seal hscan ((node_getNodePath hthere).mp hdir).2
      have hqueue : (done ++ [(node, sealedTree P fastCdc host root done node)]).map Prod.fst
          ++ left = done.map Prod.fst ++ node :: left := by simp
      rcases ih _ (hqueue ▸ hscan) hnext with
        ⟨done', st', hrun, hdone, hsealed⟩ | ⟨hrun, n, hn, hnot⟩
      · refine Or.inl ⟨done', st', ?_, hdone.trans hqueue, hsealed⟩
        rw [List.foldlM_cons, heq]
        exact hrun
      · refine Or.inr ⟨?_, n, List.mem_cons_of_mem _ hn, hnot⟩
        rw [List.foldlM_cons, heq]
        exact hrun
    · rw [if_neg hdir] at heq
      refine Or.inr ⟨?_, node, List.mem_cons_self, hdir⟩
      rw [List.foldlM_cons, heq]
      rfl

variable (P root) in
/-- After a complete scan, all directories are sealed and the root hash is that of the root,
unless one of the directories cannot be read. -/
theorem packFilesInDirectory_spec (hcdc : CutsUp fastCdc) {base : List FileName}
    {queue : List FsNode} (hscan : Scanned host.fs base queue) :
    (∃ done st, packFilesInDirectory P fastCdc host root queue = .ok st ∧
        done.map Prod.fst = queue ∧ Sealed P fastCdc host root done st) ∨
      (packFilesInDirectory P fastCdc host root queue = .error .ioError ∧
        ∃ node ∈ queue, host.node (getNodePath root node) ≠ some .dir) :=
  packDirectories_spec hcdc [] hscan
    ⟨by simp, by simp, by simp, by simp, fun _ => rfl, by simp⟩

end

end Backuwup.Client
