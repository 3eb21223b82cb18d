/-
# Names that are not Unicode (`process_file`, `pack_files_in_directory`)

The name of a directory entry is any byte string without a separator.  The packer stores what
`to_string_lossy` makes of it, and `unpack` joins this to the path of the directory.  U+FFFD has
three bytes, so the name can become longer than the file system allows; `File::create` then fails,
which is only printed, and `create_dir_all` ends `unpack`.

`kept_apart_iff`: the entries of a directory are restored at different paths if and only if no two
of their names differ in nothing but bytes that are not valid UTF-8, and the file system accepts
what has become of each.
-/
import Backuwup.Client.DirEntries
import Backuwup.Client.DirRoundTrip
import Backuwup.Lib.LossyUtf8

namespace Backuwup.Client

/-! ## 1. Names -/

/-- What the operating system takes for the name of an entry. -/
structure OsName where
  bytes : List UInt8
  nonempty : bytes ≠ []
  noSeparator : 0x2F ∉ bytes
  notDot : bytes ≠ [0x2E]
  notDotDot : bytes ≠ [0x2E, 0x2E]

def OsName.toStringLossy (name : OsName) : FileName := LossyUtf8.decode name.bytes

/-- What is stored of a name is one component of a path. -/
theorem OsName.isComponent (name : OsName) : IsComponent name.toStringLossy where
  nonempty := by
    intro h
    exact name.nonempty (LossyUtf8.eq_encode_of_decode h (by simp))
  noSeparator := by
    intro h
    exact name.noSeparator (LossyUtf8.subset_of_mem_decode h (by decide) (by decide))
  notDot := by
    intro h
    exact name.notDot (LossyUtf8.eq_encode_of_decode h (by decide))

/-- A file system that creates nothing at other paths. -/
def IoFaults.accepting (accepts : List FileName → Bool) : IoFaults :=
  { IoFaults.noFault with
    createDirAll := fun q => !accepts q
    create := fun q => !accepts q }

/-- On Linux a component has no more than 255 bytes. -/
def nameAccepted : List FileName → Bool
  | [] => true
  | name :: _ => (utf8 name).length ≤ 255

theorem OsName.toStringLossy_unicode {name : OsName} {s : FileName}
    (h : name.bytes = LossyUtf8.encode s) : name.toStringLossy = s := by
  rw [toStringLossy, h, LossyUtf8.decode_encode]

/-! ## 2. Packing an entry -/

/-- A file, or a directory whose own entries have been packed. -/
inductive OsNode
  | file (content : Bytes)
  | dir (children : List BlobHash)

/-- What is left of it in a directory. -/
def OsNode.restored : OsNode → Node
  | .file content => .file content
  | .dir _ => .dir

structure OsEntry where
  name : OsName
  metadata : TreeMetadata
  bounded : metadata.Bounded
  node : OsNode

section

variable (P : Primitives) (fastCdc : Bytes → List Bytes)

namespace OsEntry

variable (e : OsEntry)

/-- The tree of `process_file`, or of `pack_files_in_directory`. -/
def tree : Tree :=
  match e.node with
  | .file content =>
    fileTree P e.name.toStringLossy e.metadata (fileChunks fastCdc content)
  | .dir children => dirTree e.name.toStringLossy e.metadata children

/-- The blobs that are added, unless one of them is refused. -/
def blobs : List Blob :=
  match e.node with
  | .file content => fileBlobs P e.name.toStringLossy e.metadata (fileChunks fastCdc content)
  | .dir _ => splitSerializeTree P (e.tree P fastCdc)

/-- The hash that is left in the directory. -/
def packed : Option BlobHash :=
  if (e.blobs P fastCdc).all fun b => b.Fits then some (treeHash P (e.tree P fastCdc)) else none

end OsEntry

/-- The entries that `pack` stores.  A file that is refused is only reported; a directory that is
refused ends the packing, and there is no snapshot. -/
def storedEntries (entries : List OsEntry) : List OsEntry :=
  entries.filter fun e => (e.packed P fastCdc).isSome

def packedChildren (entries : List OsEntry) : List BlobHash :=
  entries.filterMap fun e => e.packed P fastCdc

/-- Every entry has a path of its own, and is there when the tasks have ended. -/
structure RestoredApart (accepts : List FileName → Bool) (get : GetBlob) (path : FsPath)
    (entries : List OsEntry) (u : Unpacking) : Prop where
  all : (u.dirs ++ u.files).length = entries.length
  paths : ((u.dirs ++ u.files).map Prod.snd).Nodup
  restored : ∀ schedule : List (Tree × FsPath) → List (Tree × FsPath), (∀ l, (schedule l).Perm l) →
    ∀ e ∈ entries,
      ((schedule u.files).foldl ((IoFaults.accepting accepts).restoreFile get) u.dest).nodeAt
        (path.push e.name.toStringLossy).comps = some e.node.restored

/-- The round in which `unpack` restores the directory keeps its entries apart. -/
def KeptApart (accepts : List FileName → Bool) (get : GetBlob) (fuel : ℕ) (path : FsPath) (d : Dest)
    (entries : List OsEntry) : Prop :=
  ∃ u, (packedChildren P fastCdc entries).foldlM
      ((IoFaults.accepting accepts).restoreChild get fuel path) ⟨d, [], []⟩ = .ok u ∧
    RestoredApart accepts get path (storedEntries P fastCdc entries) u

end

/-! ## 3. Entries with Unicode names -/

section

variable {P : Primitives} {fastCdc : Bytes → List Bytes} {host : Host} {path : FsPath}

/-- Of a file whose name is Unicode, `process_file` stores this. -/
theorem processFile_unicode {name : FileName} {comps : List FileName} {content : Bytes}
    (hpath : path.comps = name :: comps) (hnode : host.node path = some (.file content))
    {e : OsEntry} (hname : e.name.bytes = LossyUtf8.encode name)
    (hmeta : e.metadata = host.metadata (path.resolve host.cwd))
    (hcontent : e.node = .file content) :
    processFile P fastCdc host path
      = ((e.blobs P fastCdc).takeWhile fun b => b.Fits, e.packed P fastCdc) := by
  have hlossy := OsName.toStringLossy_unicode hname
  simp only [processFile, hpath, hnode, OsEntry.packed, OsEntry.blobs, OsEntry.tree, hcontent,
    hlossy, hmeta]

/-! ## 4. What is stored of an entry -/

/-- The name of a tree that has been accepted is not too long to be encoded. -/
theorem headEncodable_of_fits {t : Tree} (hsib : t.nextSibling = none)
    (hfits : ∀ b ∈ splitSerializeTree P t, b.Fits) (hmeta : t.metadata.Bounded) :
    t.HeadEncodable := by
  obtain ⟨b, hb, -⟩ := treeHash_mem P t
  obtain ⟨piece, rfl, hpiece⟩ := mem_splitSerializeTree hsib b hb
  have hlen : (utf8 piece.name).length ≤ (treeCodec.enc piece).length := by
    simp only [treeCodec, Bincode.string, Codec.iso, Codec.partialIso, Codec.prod, Codec.bytes,
      List.length_append]
    omega
  have hfit : (treeCodec.enc piece).length ≤ blobMaxUncompressedSize := hfits _ hb
  rw [hpiece.name] at hlen
  have hshort : (utf8 t.name).length < 18446744073709551616 := by
    simp only [blobMaxUncompressedSize] at hfit
    omega
  exact ⟨hshort, hmeta.size, hmeta.mtime, hmeta.ctime, by simp⟩

namespace OsEntry

variable {e : OsEntry} {get : GetBlob} {fuel : ℕ}

@[simp] theorem tree_name : (e.tree P fastCdc).name = e.name.toStringLossy := by
  unfold tree
  split <;> rfl

theorem tree_whole : (e.tree P fastCdc).nextSibling = none := by
  unfold tree
  split <;> rfl

theorem tree_metadata : (e.tree P fastCdc).metadata = e.metadata := by
  unfold tree
  split <;> rfl

theorem subset_blobs : splitSerializeTree P (e.tree P fastCdc) ⊆ e.blobs P fastCdc := by
  unfold blobs tree
  split
  · exact List.subset_append_right _ _
  · exact List.Subset.refl _

/-- What has been packed can be fetched from a store that has its blobs. -/
theorem fetchable (hpacked : (e.packed P fastCdc).isSome)
    (hstore : ∀ b ∈ e.blobs P fastCdc, get b.hash = .ok (some b))
    (hfuel : (e.tree P fastCdc).children.length ≤ fuel) :
    Fetchable P get fuel (e.tree P fastCdc) := by
  have hfits : ∀ b ∈ e.blobs P fastCdc, b.Fits := by
    intro b hb
    unfold packed at hpacked
    split at hpacked
    · rename_i hall
      exact of_decide_eq_true (List.all_eq_true.mp hall b hb)
    · cases hpacked
  have henc : (e.tree P fastCdc).HeadEncodable :=
    headEncodable_of_fits tree_whole (fun b hb => hfits b (subset_blobs hb))
      (tree_metadata ▸ e.bounded)
  exact ⟨henc, tree_whole, fun b hb => hstore b (subset_blobs hb), hfuel⟩

/-- The chunks of a file are read. -/
theorem read (hcdc : CutsUp fastCdc)
    (hstore : ∀ b ∈ e.blobs P fastCdc, get b.hash = .ok (some b)) :
    ((e.tree P fastCdc).entry get).node = e.node.restored ∧
      ((e.tree P fastCdc).kind = .file →
        (readChunks get (e.tree P fastCdc).children).2 = true) := by
  cases hnode : e.node with
  | file content =>
    have hread : readChunks get ((fileChunks fastCdc content).map P.hash) = (content, true) := by
      rw [readChunks_map, flatten_fileChunks hcdc]
      intro c hc
      refine hstore (chunkBlob P c) ?_
      simp only [blobs, hnode]
      exact List.mem_append_left _ (List.mem_map.mpr ⟨c, hc, rfl⟩)
    simp only [tree, hnode, fileTree, Tree.entry, hread, OsNode.restored, implies_true, and_self]
  | dir children =>
    have hdir : (e.tree P fastCdc).kind = .dir := by simp only [tree, hnode, dirTree]
    constructor
    · simp only [Tree.entry, hdir, OsNode.restored]
    · intro hkind
      rw [hdir] at hkind
      cases hkind

end OsEntry

theorem packedChildren_eq (entries : List OsEntry) :
    packedChildren P fastCdc entries
      = ((storedEntries P fastCdc entries).map (·.tree P fastCdc)).map (treeHash P) := by
  induction entries with
  | nil => rfl
  | cons e entries ih =>
    by_cases hfits : ((e.blobs P fastCdc).all fun b => b.Fits) = true
    · have hpacked : e.packed P fastCdc = some (treeHash P (e.tree P fastCdc)) := if_pos hfits
      simpa [packedChildren, storedEntries, hpacked] using ih
    · have hpacked : e.packed P fastCdc = none := if_neg hfits
      simpa [packedChildren, storedEntries, hpacked] using ih

/-! ## 5. Accepted paths -/

variable {entries : List OsEntry} {get : GetBlob} {fuel : ℕ} {d : Dest}
  {accepts : List FileName → Bool} {hashes : List BlobHash} {u u' : Unpacking} {q : List FileName}

/-- A directory whose path is not accepted ends the loop. -/
theorem restoreChild_accepting {hash : BlobHash} {t : Tree}
    (hfetch : fetchFullTree get fuel hash = .ok t) :
    (IoFaults.accepting accepts).restoreChild get fuel path u hash
      = if t.kind = .dir ∧ accepts (path.push t.name).comps = false then .error .ioError
        else restoreChild get fuel path u hash := by
  cases hkind : t.kind with
  | file => simp [IoFaults.restoreChild, restoreChild, hfetch, hkind]
  | dir =>
    cases haccepts : accepts (path.push t.name).comps with
    | false => simp [IoFaults.restoreChild, IoFaults.accepting, hfetch, hkind, haccepts]
    | true =>
      simp [IoFaults.restoreChild, restoreChild, IoFaults.accepting, IoFaults.noFault,
        IoFaults.setPathMtime, hfetch, hkind, haccepts]

theorem restoreChildren_accepting {ts : List Tree}
    (hfetch : List.Forall₂ (fun hash t => fetchFullTree get fuel hash = .ok t) hashes ts) :
    hashes.foldlM ((IoFaults.accepting accepts).restoreChild get fuel path) u = .ok u' ↔
      hashes.foldlM (restoreChild get fuel path) u = .ok u' ∧
        ∀ t ∈ ts, t.kind = .dir → accepts (path.push t.name).comps = true := by
  induction hfetch generalizing u with
  | nil => simp
  | @cons hash t hashes ts hhead _ ih =>
    rw [List.foldlM_cons, List.foldlM_cons, restoreChild_accepting hhead, List.forall_mem_cons]
    by_cases hrefused : t.kind = .dir ∧ accepts (path.push t.name).comps = false
    · rw [if_pos hrefused]
      refine iff_of_false nofun ?_
      rintro ⟨-, haccepts, -⟩
      simp [haccepts hrefused.1] at hrefused
    · rw [if_neg hrefused]
      have haccepts : t.kind = .dir → accepts (path.push t.name).comps = true := by
        simpa using hrefused
      cases restoreChild get fuel path u hash with
      | error e => exact iff_of_false nofun fun h => nomatch h.1
      | ok u₁ => exact ih.trans ⟨fun h => ⟨h.1, haccepts, h.2⟩, fun h => ⟨h.1, h.2.2⟩⟩

/-- The task of a file whose path is not accepted changes nothing. -/
theorem restoreFile_accepting (d : Dest) (file : Tree × FsPath) :
    (IoFaults.accepting accepts).restoreFile get d file
      = if accepts file.2.comps then restoreFile get d file else d := by
  rw [← restoreFile_noFault]
  cases haccepts : accepts file.2.comps <;>
    simp [IoFaults.restoreFile, IoFaults.accepting, IoFaults.noFault, IoFaults.setPathMtime,
      haccepts]

theorem nodeAt_restoreFile_of_ne {file : Tree × FsPath} (hq : q ≠ file.2.comps) (d : Dest) :
    (restoreFile get d file).nodeAt q = d.nodeAt q := by
  simp only [restoreFile]
  split
  · rfl
  · rename_i d' hd'
    have hcreated : d'.nodeAt q = d.nodeAt q :=
      (Dest.nodeAt_of_createFile hd' q).trans (if_neg hq)
    split
    · rw [Dest.nodeAt_setMtime, hcreated]
    · exact hcreated

/-- No task creates a file at a path that is not accepted. -/
theorem nodeAt_restoreFiles (hq : accepts q = false) (files : List (Tree × FsPath)) (d : Dest) :
    (files.foldl ((IoFaults.accepting accepts).restoreFile get) d).nodeAt q = d.nodeAt q := by
  induction files generalizing d with
  | nil => rfl
  | cons file files ih =>
    rw [List.foldl_cons, ih, restoreFile_accepting]
    split
    · rename_i haccepts
      refine nodeAt_restoreFile_of_ne ?_ d
      rintro rfl
      rw [hq] at haccepts
      cases haccepts
    · rfl

theorem restoreFiles_accepting {files : List (Tree × FsPath)}
    (hall : ∀ x ∈ files, accepts x.2.comps = true) (d : Dest) :
    files.foldl ((IoFaults.accepting accepts).restoreFile get) d
      = files.foldl (restoreFile get) d := by
  refine List.foldl_ext _ _ _ fun d x hx => ?_
  rw [restoreFile_accepting, if_pos (hall x hx)]

/-! ## 6. Different paths -/

variable (P fastCdc) in
/-- Names are stored as different ones unless they are confusable. -/
theorem nodup_names_iff (entries : List OsEntry) :
    ((entries.map (·.tree P fastCdc)).map Tree.name).Nodup ↔
      entries.Pairwise fun e e' => ¬ LossyUtf8.Confusable e.name.bytes e'.name.bytes := by
  rw [List.map_map, List.Nodup, List.pairwise_map]
  refine List.Pairwise.iff fun e e' => not_congr ?_
  simp only [Function.comp, OsEntry.tree_name]
  exact LossyUtf8.decode_eq_iff

/-- Different names lead to different paths. -/
theorem nodup_push_iff {ts : List Tree} (hnames : ∀ t ∈ ts, IsComponent t.name) :
    (ts.map fun t => path.push t.name).Nodup ↔ (ts.map Tree.name).Nodup := by
  rw [List.Nodup, List.Nodup, List.pairwise_map, List.pairwise_map]
  refine List.Pairwise.iff_of_mem fun ht ht' => not_congr ?_
  rw [FsPath.push_component (hnames _ ht), FsPath.push_component (hnames _ ht')]
  simp

section

variable (hstore : ∀ e ∈ storedEntries P fastCdc entries, ∀ b ∈ e.blobs P fastCdc,
    get b.hash = .ok (some b))
  (hfuel : ∀ e ∈ storedEntries P fastCdc entries, (e.tree P fastCdc).children.length ≤ fuel)
include hstore hfuel

theorem fetchable_stored :
    ∀ t ∈ (storedEntries P fastCdc entries).map (·.tree P fastCdc), Fetchable P get fuel t :=
  List.forall_mem_map.mpr fun e he =>
    OsEntry.fetchable (List.mem_filter.mp he).2 (hstore e he) (hfuel e he)

omit hstore hfuel in
theorem isComponent_stored :
    ∀ t ∈ (storedEntries P fastCdc entries).map (·.tree P fastCdc), IsComponent t.name := by
  refine List.forall_mem_map.mpr fun e _ => ?_
  rw [OsEntry.tree_name]
  exact e.name.isComponent

variable (P fastCdc) in
/-- The names of the stored entries are accepted in the directory. -/
def AllAccepted (accepts : List FileName → Bool) (path : FsPath) (entries : List OsEntry) : Prop :=
  ∀ e ∈ storedEntries P fastCdc entries,
    accepts (path.push e.name.toStringLossy).comps = true

/-- Entries that are kept apart are stored under different names. -/
theorem KeptApart.nodup (h : KeptApart P fastCdc accepts get fuel path d entries) :
    (((storedEntries P fastCdc entries).map (·.tree P fastCdc)).map Tree.name).Nodup := by
  obtain ⟨u, hrun, hapart⟩ := h
  have hstored := fetchable_stored hstore hfuel
  obtain ⟨ts, hfetch, -⟩ := fetch_stored hstored
  rw [packedChildren_eq] at hrun
  have htargets := restoreStored_targets hstored ((restoreChildren_accepting hfetch).mp hrun).1
  exact (nodup_push_iff isComponent_stored).mp (htargets.nodup_iff.mp hapart.paths)

/-- They are stored under names that are accepted. -/
theorem KeptApart.accepted (h : KeptApart P fastCdc accepts get fuel path d entries)
    (hclosed : d.Closed) (hp : d.nodeAt path.comps = some .dir)
    (hempty : ∀ name, d.nodeAt (name :: path.comps) = none) :
    AllAccepted P fastCdc accepts path entries := by
  have hnodup := h.nodup hstore hfuel
  have hnames : ∀ t ∈ (storedEntries P fastCdc entries).map (·.tree P fastCdc),
      IsComponent t.name := isComponent_stored
  obtain ⟨u, hrun, hapart⟩ := h
  obtain ⟨ts, hfetch, hwhole⟩ := fetch_stored (fetchable_stored hstore hfuel)
  rw [← hwhole, List.map_map] at hnodup
  rw [← hwhole, List.forall_mem_map] at hnames
  rw [packedChildren_eq] at hrun
  obtain ⟨hplain, hdirs⟩ := (restoreChildren_accepting hfetch).mp hrun
  have hfresh : d.Fresh path.comps (ts.map Tree.name) :=
    ⟨hclosed, hp, hnodup, fun name _ => hempty name⟩
  obtain ⟨u', hplain', hdest⟩ := restoreChildren_dest (u := ⟨d, [], []⟩) hfetch hnames hfresh
  obtain rfl := Except.ok.inj (hplain.symm.trans hplain')
  intro e he
  have hmem : e.tree P fastCdc ∈ ts.map Tree.whole := hwhole ▸ List.mem_map.mpr ⟨e, he, rfl⟩
  obtain ⟨t, ht, htree⟩ := List.mem_map.mp hmem
  have hname : t.name = e.name.toStringLossy :=
    (congrArg Tree.name htree).trans OsEntry.tree_name
  rw [← hname]
  cases hkind : t.kind with
  | dir => exact hdirs t ht hkind
  | file =>
    -- nothing else is created at the path of the file
    by_contra hrefused
    rw [Bool.not_eq_true] at hrefused
    have hthere := hapart.restored id (fun l => .refl l) e he
    have hpath : (path.push t.name).comps = t.name :: path.comps :=
      congrArg FsPath.comps (FsPath.push_component (hnames t ht) path)
    have hfree : ∀ entry ∈ (ofKind .dir ts).map (·.entry get),
        t.name :: path.comps ≠ entry.name :: path.comps := by
      refine List.forall_mem_map.mpr fun t' ht' heq => ?_
      obtain ⟨ht', hdir⟩ := List.mem_filter.mp ht'
      obtain rfl := List.inj_on_of_nodup_map hnodup ht ht' (List.cons.inj heq).1
      rw [hkind] at hdir
      cases of_decide_eq_true hdir
    rw [← hname, nodeAt_restoreFiles hrefused, hdest, hpath, Dest.nodeAt,
      Dest.createEntries_of_ne (by simp) hfree] at hthere
    cases hthere.symm.trans (hempty t.name)

/-- Entries that are stored under different names, which are accepted, are kept apart. -/
theorem keptApart_of_nodup (hcdc : CutsUp fastCdc) (hclosed : d.Closed)
    (hp : d.nodeAt path.comps = some .dir)
    (hempty : ∀ name, d.nodeAt (name :: path.comps) = none)
    (hnodup : (((storedEntries P fastCdc entries).map (·.tree P fastCdc)).map Tree.name).Nodup)
    (haccepts : AllAccepted P fastCdc accepts path entries) :
    KeptApart P fastCdc accepts get fuel path d entries := by
  have hstored := fetchable_stored hstore hfuel
  have hnames : ∀ t ∈ (storedEntries P fastCdc entries).map (·.tree P fastCdc),
      IsComponent t.name := isComponent_stored
  have hread : ∀ t ∈ (storedEntries P fastCdc entries).map (·.tree P fastCdc),
      t.kind = .file → (readChunks get t.children).2 = true :=
    List.forall_mem_map.mpr fun e he => (OsEntry.read hcdc (hstore e he)).2
  have hpaths : ∀ t ∈ (storedEntries P fastCdc entries).map (·.tree P fastCdc),
      accepts (path.push t.name).comps = true :=
    List.forall_mem_map.mpr fun e he => by
      rw [OsEntry.tree_name]
      exact haccepts e he
  obtain ⟨u, hrun, hround⟩ :=
    restoreStored_spec path hstored hnames hread ⟨hclosed, hp, hnodup, fun name _ => hempty name⟩
  have htargets := restoreStored_targets hstored hrun
  obtain ⟨ts, hfetch, hwhole⟩ := fetch_stored hstored
  have hrun' : (packedChildren P fastCdc entries).foldlM
      ((IoFaults.accepting accepts).restoreChild get fuel path) ⟨d, [], []⟩ = .ok u := by
    rw [packedChildren_eq]
    refine (restoreChildren_accepting hfetch).mpr ⟨hrun, fun t ht _ => ?_⟩
    exact hpaths t.whole (hwhole ▸ List.mem_map.mpr ⟨t, ht, rfl⟩)
  refine ⟨u, hrun', by simpa using htargets.length_eq,
    htargets.nodup_iff.mpr ((nodup_push_iff hnames).mpr hnodup), fun schedule hsched e he => ?_⟩
  have hfiles : ∀ x ∈ schedule u.files, accepts x.2.comps = true := by
    intro x hx
    have hmem : x.2 ∈ (u.dirs ++ u.files).map Prod.snd :=
      List.mem_map.mpr ⟨x, List.mem_append_right _ ((hsched u.files).subset hx), rfl⟩
    obtain ⟨t, ht, heq⟩ := List.mem_map.mp (htargets.subset hmem)
    rw [← heq]
    exact hpaths t ht
  rw [restoreFiles_accepting hfiles]
  obtain ⟨es, hes, hdest⟩ := hround schedule hsched
  have hmem : (e.tree P fastCdc).entry get ∈ es :=
    hes.mem_iff.mpr (List.mem_map.mpr ⟨_, List.mem_map.mpr ⟨e, he, rfl⟩, rfl⟩)
  have hdistinct : (es.map DirEntry.name).Nodup := by
    refine (hes.map _).nodup_iff.mpr ?_
    rwa [List.map_map]
  have hentry := Dest.createEntries_entry (d := d) (p := path.comps) hdistinct hmem
  have hname : ((e.tree P fastCdc).entry get).name = e.name.toStringLossy := OsEntry.tree_name
  rw [hname] at hentry
  rw [hdest, FsPath.push_component e.name.isComponent, Dest.nodeAt, hentry]
  exact congrArg some (OsEntry.read hcdc (hstore e he)).1

/-- Different Unicode names that are accepted are kept apart. -/
theorem keptApart_unicode (hcdc : CutsUp fastCdc) (hclosed : d.Closed)
    (hp : d.nodeAt path.comps = some .dir)
    (hempty : ∀ name, d.nodeAt (name :: path.comps) = none)
    (hnames : ∀ e ∈ storedEntries P fastCdc entries, ∃ s, e.name.bytes = LossyUtf8.encode s)
    (hdiff : (storedEntries P fastCdc entries).Pairwise fun e e' => e.name.bytes ≠ e'.name.bytes)
    (haccepts : AllAccepted P fastCdc accepts path entries) :
    KeptApart P fastCdc accepts get fuel path d entries := by
  refine keptApart_of_nodup hstore hfuel hcdc hclosed hp hempty
    ((nodup_names_iff _ _ _).mpr ?_) haccepts
  refine hdiff.imp_of_mem fun he he' hne => ?_
  obtain ⟨s, hs⟩ := hnames _ he
  obtain ⟨s', hs'⟩ := hnames _ he'
  rw [hs, hs'] at hne ⊢
  exact fun hconf => hne (congrArg _ (LossyUtf8.confusable_encode_iff.mp hconf))

/-- The entries of a directory are kept apart if and only if no two of their names differ only in
what is not valid UTF-8, and what has become of each name is accepted. -/
theorem kept_apart_iff (hcdc : CutsUp fastCdc) (hclosed : d.Closed)
    (hp : d.nodeAt path.comps = some .dir)
    (hempty : ∀ name, d.nodeAt (name :: path.comps) = none) :
    KeptApart P fastCdc accepts get fuel path d entries ↔
      ((storedEntries P fastCdc entries).Pairwise fun e e' =>
        ¬ LossyUtf8.Confusable e.name.bytes e'.name.bytes) ∧
      AllAccepted P fastCdc accepts path entries := by
  rw [← nodup_names_iff P fastCdc]
  constructor
  · intro h
    exact ⟨h.nodup hstore hfuel, h.accepted hstore hfuel hclosed hp hempty⟩
  · rintro ⟨hnodup, haccepts⟩
    exact keptApart_of_nodup hstore hfuel hcdc hclosed hp hempty hnodup haccepts

end

end

/-! ## 7. Two directories -/

section

theorem dirEmpty_fresh (name : FileName) : Dest.empty.nodeAt [name] = none :=
  (Dest.nodeAt_empty _).trans (if_neg (List.cons_ne_nil _ _))

/-- A file on a file system that keeps no times. -/
def fileEntry (name : OsName) (content : Bytes) : OsEntry where
  name := name
  metadata := .absent
  bounded := ⟨nofun, nofun, nofun⟩
  node := .file content

/-- The tree of the directory with these entries. -/
def treeOfEntries (entries : List OsEntry) : Tree :=
  dirTree [] .absent (packedChildren .transparent cutAtMax entries)

/-- The store of the blobs of the entries and of the directory. -/
def storeOfEntries (entries : List OsEntry) : GetBlob :=
  storeOf (entries.flatMap (·.blobs .transparent cutAtMax) ++
    splitSerializeTree .transparent (treeOfEntries entries))

/-- `f`, and the same name with a byte that is not Unicode. -/
def mixedNames : List OsEntry :=
  [fileEntry ⟨[0x66], by decide, by decide, by decide, by decide⟩ [1],
    fileEntry ⟨[0x66, 0xFF], by decide, by decide, by decide, by decide⟩ [2]]

theorem kept_apart_mixed : KeptApart .transparent cutAtMax nameAccepted (storeOfEntries mixedNames)
    1 ⟨false, []⟩ .empty mixedNames :=
  (kept_apart_iff (by decide +kernel) (by decide +kernel) cutsUp_cutAtMax Dest.closed_empty rfl
    dirEmpty_fresh).mpr ⟨by decide +kernel, by unfold AllAccepted; decide +kernel⟩

/-- 100 bytes that are not Unicode become 300, which no file can have as its name. -/
example : nameAccepted [(OsName.mk (List.replicate 100 0xFF) (by decide) (by decide) (by decide)
    (by decide)).toStringLossy] = false := by
  decide +kernel

/-- Two names of one byte each, neither of which is Unicode. -/
def unreadableNames : List OsEntry :=
  [fileEntry ⟨[0xFE], by decide, by decide, by decide, by decide⟩ [1],
    fileEntry ⟨[0xFF], by decide, by decide, by decide, by decide⟩ [2]]

theorem unreadableNames_paths :
    (match (packedChildren .transparent cutAtMax unreadableNames).foldlM
        ((IoFaults.accepting nameAccepted).restoreChild (storeOfEntries unreadableNames) 1
          ⟨false, []⟩) ⟨.empty, [], []⟩ with
      | .ok u => decide (¬ ((u.dirs ++ u.files).map Prod.snd).Nodup)
      | .error _ => true) = true := by
  decide +kernel

theorem unreadableNames_restored :
    (match (IoFaults.accepting nameAccepted).unpack .empty (storeOfEntries unreadableNames) id 3
        (treeHash .transparent (treeOfEntries unreadableNames)) with
      | .ok d => decide (∀ e ∈ unreadableNames,
          d.nodeAt [e.name.toStringLossy] = some (.file [2]))
      | .error _ => false) = true := by
  decide +kernel

/-- Two files with different names are both stored and restored at one path, and `unpack` reports
nothing, though one of them is lost. -/
theorem unreadable_names_merge : ∃ entries get d,
    (entries.map fun e => e.name.bytes).Nodup ∧
    (storedEntries .transparent cutAtMax entries).length = entries.length ∧
    (∀ e ∈ entries, ∀ b ∈ e.blobs .transparent cutAtMax, get b.hash = .ok (some b)) ∧
    ¬ KeptApart .transparent cutAtMax nameAccepted get 1 ⟨false, []⟩ .empty entries ∧
    (IoFaults.accepting nameAccepted).unpack .empty get id 3
      (treeHash .transparent (treeOfEntries entries)) = .ok d ∧
    ∃ e ∈ entries, d.nodeAt [e.name.toStringLossy] ≠ some e.node.restored := by
  have hrestored := unreadableNames_restored
  split at hrestored
  · rename_i d hunpack
    have hleft := of_decide_eq_true hrestored
    refine ⟨unreadableNames, storeOfEntries unreadableNames, d, by decide, by decide +kernel,
      by decide +kernel, ?_, hunpack, ?_⟩
    · rintro ⟨u, hrun, hapart⟩
      have hpaths := unreadableNames_paths
      simp only [hrun] at hpaths
      exact of_decide_eq_true hpaths hapart.paths
    · refine ⟨_, List.mem_cons_self, ?_⟩
      rw [hleft _ List.mem_cons_self]
      decide
  · cases hrestored

end

end Backuwup.Client
