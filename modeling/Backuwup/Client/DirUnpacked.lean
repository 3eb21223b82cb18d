/-
# What unpacking a snapshot leaves

A snapshot is what `pack` has stored of a directory tree.  It is unpacked from a store that may
have lost any of its blobs, into a destination that need not be empty, by calls any of which may
fail (`Attempt`).  When no directory is lost, `unpack` succeeds and leaves `leftNode`, whatever
has happened to the files; otherwise it returns an error (`Snapshot.unpack_spec`).
-/
import Backuwup.Client.DirPacker.PackFiles
import Backuwup.Client.DirUnpacker

namespace Backuwup.Client

/-! ## 1. Snapshots -/

/-- The sealed directories of a backup that has been packed. -/
structure Snapshot (P : Primitives) (fastCdc : Bytes → List Bytes) (host : Host) (root : FsPath)
    (base : List FileName) (done : List (FsNode × Tree)) (st : PackState) : Prop where
  cuts : CutsUp fastCdc
  scanned : Scanned host.fs base (done.map Prod.fst)
  sealed : Sealed P fastCdc host root done st

/-- The fuel suffices for the siblings of all trees, and for all directories. -/
structure Enough (P : Primitives) (fastCdc : Bytes → List Bytes) (host : Host) (root : FsPath)
    (done : List (FsNode × Tree)) (fuel : ℕ) : Prop where
  dirs : ∀ e ∈ done, e.2.children.length ≤ fuel
  files : ∀ e ∈ done, ∀ name ∈ host.fileNames (e.1.relPath ++ host.base root),
    (fileTreeAt P fastCdc host (name :: (e.1.relPath ++ host.base root))).children.length ≤ fuel
  count : done.length ≤ fuel

/-- A destination that has been created. -/
structure Destination where
  dest : Dest
  closed : dest.Closed
  dir : dest.nodeAt [] = some .dir

def Destination.empty : Destination := ⟨.empty, Dest.closed_empty, rfl⟩

/-- The store, the destination and the calls that fail. -/
structure Attempt where
  get : GetBlob
  start : Destination
  io : IoFaults

/-- The paths of the sealed directories. -/
def donePaths (done : List (FsNode × Tree)) : List (List FileName) :=
  done.map fun e => e.1.relPath

instance (done : List (FsNode × Tree)) (q : List FileName) : Decidable (q ∈ donePaths done) :=
  inferInstanceAs (Decidable (q ∈ done.map _))

/-- The sealed subdirectories of a directory. -/
def subdirsOf (done : List (FsNode × Tree)) (e : FsNode × Tree) : List (FsNode × Tree) :=
  done.filter fun s => s.1.parent.map FsNode.id = some e.1.id

namespace Attempt

variable (a : Attempt)

/-- All blobs of the tree are read. -/
def Reads (P : Primitives) (t : Tree) : Prop :=
  ∀ b ∈ splitSerializeTree P t, a.get b.hash = .ok (some b)

/-- A directory of the snapshot is restored. -/
structure RestoresDir (P : Primitives) (e : FsNode × Tree) : Prop where
  tree : a.Reads P e.2
  created : a.io.createDirAll e.1.relPath = false
  free : ∀ content, a.start.dest.nodeAt e.1.relPath ≠ some (.file content)
  mtime : e.1 ≠ .root → e.2.metadata.mtime.isSome = true → a.io.setMtime e.1.relPath = false

/-- What is left of a file that is stored as these chunks. -/
def leftFile (hashes : List BlobHash) (q : List FileName) : Option Node :=
  if a.io.create q = true ∨ a.start.dest.nodeAt q = some .dir then a.start.dest.nodeAt q
  else some (.file (writeChunks a.get (a.io.writeAll q) hashes).1)

section

variable (P : Primitives) (fastCdc : Bytes → List Bytes) (host : Host) (root : FsPath)
  (done : List (FsNode × Tree))

/-- The subdirectories of a directory are restored, and its files found. -/
structure RestoresEntries (e : FsNode × Tree) : Prop where
  dirs : ∀ s ∈ subdirsOf done e, a.RestoresDir P s
  files : ∀ name ∈ host.fileNames (e.1.relPath ++ host.base root),
    a.Reads P (fileTreeAt P fastCdc host (name :: (e.1.relPath ++ host.base root)))

def leftIn (q : List FileName) : Option Node :=
  if q ∈ donePaths done then some .dir
  else
    match host.fs.node (q ++ host.base root) with
    | some (.file content) => a.leftFile ((fileChunks fastCdc content).map P.hash) q
    | _ => a.start.dest.nodeAt q

/-- What is left once these directories have been visited. -/
def leftNode (visited : List (FsNode × Tree)) : List FileName → Option Node
  | [] => some .dir
  | name :: q =>
    if q ∈ donePaths visited then a.leftIn P fastCdc host root done (name :: q)
    else a.start.dest.nodeAt (name :: q)

end

/-- No directory of the snapshot is lost. -/
structure RestoresDirs (P : Primitives) (fastCdc : Bytes → List Bytes) (host : Host)
    (root : FsPath) (done : List (FsNode × Tree)) : Prop where
  dirs : ∀ e ∈ done, a.RestoresDir P e
  files : ∀ e ∈ done, ∀ name ∈ host.fileNames (e.1.relPath ++ host.base root),
    a.Reads P (fileTreeAt P fastCdc host (name :: (e.1.relPath ++ host.base root)))

end Attempt

section

variable {P : Primitives} {fastCdc : Bytes → List Bytes} {host : Host} {root : FsPath}
  {base : List FileName} {done : List (FsNode × Tree)} {st : PackState} {a : Attempt} {fuel : ℕ}

theorem headEncodable_of_short {t : Tree} (hname : (utf8 t.name).length ≤ nameMax)
    (hmeta : t.metadata.Bounded) : t.HeadEncodable :=
  ⟨by simp only [nameMax] at hname; exact hname.trans_lt (by norm_num), hmeta.size, hmeta.mtime,
    hmeta.ctime, by simp⟩

theorem mem_fileNames {p : List FileName} {name : FileName} :
    name ∈ host.fileNames p ↔ ∃ content, host.fs.node (name :: p) = some (.file content) := by
  unfold Host.fileNames
  rw [List.mem_filter, host.packed.mem]
  constructor
  · rintro ⟨-, h⟩
    split at h
    · rename_i content hcontent
      exact ⟨content, hcontent⟩
    · cases h
  · rintro ⟨content, h⟩
    exact ⟨⟨_, h⟩, by rw [h]⟩

theorem Scanned.donePaths_nodup (h : Scanned host.fs base (done.map Prod.fst)) :
    (donePaths done).Nodup := by
  have hpaths := h.paths
  rwa [List.map_map] at hpaths

theorem Scanned.eq_of_relPath (h : Scanned host.fs base (done.map Prod.fst))
    {e e' : FsNode × Tree} (he : e ∈ done) (he' : e' ∈ done) (heq : e.1.relPath = e'.1.relPath) :
    e = e' :=
  List.inj_on_of_nodup_map h.donePaths_nodup he he' heq

/-- The subdirectories are the nodes with this parent. -/
theorem Scanned.mem_subdirsOf (h : Scanned host.fs base (done.map Prod.fst))
    {e s : FsNode × Tree} (he : e ∈ done) :
    s ∈ subdirsOf done e ↔ s ∈ done ∧ s.1.parent = some e.1 := by
  unfold subdirsOf
  rw [List.mem_filter, decide_eq_true_eq]
  refine and_congr_right ?_
  intro hs
  constructor
  · intro hid
    obtain ⟨p, hp, hid⟩ := Option.map_eq_some_iff.mp hid
    have hmem := h.parentsLast.mem_of_parent (List.mem_map.mpr ⟨s, hs, rfl⟩) hp
    rw [hp, List.inj_on_of_nodup_map h.ids hmem (List.mem_map.mpr ⟨e, he, rfl⟩) hid]
  · intro hp
    rw [hp]
    rfl

/-- What lies in a directory is its child. -/
theorem Scanned.parent_eq (h : Scanned host.fs base (done.map Prod.fst)) {e s : FsNode × Tree}
    (he : e ∈ done) (hs : s ∈ done) {name : FileName} (hpath : s.1.relPath = name :: e.1.relPath) :
    s.1.parent = some e.1 := by
  obtain ⟨q, hparent, hq⟩ := FsNode.parent_of_relPath hpath
  have hqmem := h.parentsLast.mem_of_parent (List.mem_map.mpr ⟨s, hs, rfl⟩) hparent
  rw [hparent, List.inj_on_of_nodup_map h.paths hqmem (List.mem_map.mpr ⟨e, he, rfl⟩) hq]

/-! ## 2. Fetching -/

namespace Snapshot

variable (h : Snapshot P fastCdc host root base done st)
include h

/-- The last name of a node is that of its tree. -/
theorem name_eq {e : FsNode × Tree} (he : e ∈ done) {name : FileName} {q : List FileName}
    (hpath : e.1.relPath = name :: q) : e.2.name = name := by
  have hnode := h.scanned.dir e.1 (List.mem_map.mpr ⟨e, he, rfl⟩)
  rw [h.sealed.tree e he]
  change (getNodePath root e.1).fileName = name
  have hname : name ≠ FsPath.dotDot := names_of_node hnode name (hpath ▸ List.mem_cons_self)
  rw [getNodePath_eq hnode, hpath]
  exact FsPath.fileName_cons hname _ _

theorem encodable_dir {e : FsNode × Tree} (he : e ∈ done) : e.2.HeadEncodable := by
  have hnode : host.fs.node ((getNodePath root e.1).resolve host.cwd) = some .dir := by
    rw [resolve_getNodePath (h.scanned.dir e.1 (List.mem_map.mpr ⟨e, he, rfl⟩))]
    exact h.sealed.dir e he
  rw [h.sealed.tree e he]
  exact headEncodable_of_short (fileName_short hnode) (host.bounded _)

omit h in
theorem encodable_file {p : List FileName} {name : FileName} (hname : name ∈ host.fileNames p) :
    (fileTreeAt P fastCdc host (name :: p)).HeadEncodable := by
  obtain ⟨content, hcontent⟩ := mem_fileNames.mp hname
  exact headEncodable_of_short (FileSystem.validName hcontent).short (host.bounded _)

/-- The tree of a directory is fetched when all its blobs are read, and only then. -/
theorem fetch_dir (hfuel : Enough P fastCdc host root done fuel)
    (hdata : ∀ b ∈ st.added, SameData a.get b) {e : FsNode × Tree} (he : e ∈ done) :
    a.Reads P e.2 ∧ (∃ t, fetchFullTree a.get fuel (treeHash P e.2) = .ok t ∧ t.kind = .dir ∧
        t.name = e.2.name ∧ t.metadata = e.2.metadata ∧ t.children = e.2.children) ∨
      ¬ a.Reads P e.2 ∧ ∃ err, fetchFullTree a.get fuel (treeHash P e.2) = .error err := by
  have htree := h.sealed.tree e he
  have hkind : e.2.kind = .dir := by rw [htree]; rfl
  have hsib : e.2.nextSibling = none := by rw [htree]; rfl
  by_cases hreads : a.Reads P e.2
  · obtain ⟨t, hfetch, hk, hrest⟩ :=
      fetchFullTree_split (h.encodable_dir he) hsib hreads (hfuel.dirs e he)
    exact .inl ⟨hreads, t, hfetch, hk.trans hkind, hrest⟩
  · exact .inr ⟨hreads, fetchFullTree_missing (h.encodable_dir he)
      (fun b hb => hdata b (h.sealed.blobs e he b hb)) hreads fuel⟩

/-- So is the tree of a file. -/
theorem fetch_file (hfuel : Enough P fastCdc host root done fuel)
    (hdata : ∀ b ∈ st.added, SameData a.get b) {e : FsNode × Tree} (he : e ∈ done)
    {name : FileName} (hname : name ∈ host.fileNames (e.1.relPath ++ host.base root)) {t : Tree}
    (ht : t = fileTreeAt P fastCdc host (name :: (e.1.relPath ++ host.base root))) :
    a.Reads P t ∧ (∃ t', fetchFullTree a.get fuel (treeHash P t) = .ok t' ∧ t'.kind = .file ∧
        t'.name = name ∧ t'.children = t.children) ∨
      ¬ a.Reads P t ∧ ∃ err, fetchFullTree a.get fuel (treeHash P t) = .error err := by
  have hblobs := h.sealed.files e he name hname
  have henc : t.HeadEncodable := ht ▸ encodable_file hname
  have hlen : t.children.length ≤ fuel := ht ▸ hfuel.files e he name hname
  by_cases hreads : a.Reads P t
  · obtain ⟨t', hfetch, hk, hn, -, hc⟩ := fetchFullTree_split henc (ht ▸ rfl) hreads hlen
    exact .inl ⟨hreads, t', hfetch, hk.trans (ht ▸ rfl), hn.trans (ht ▸ rfl), hc⟩
  · refine .inr ⟨hreads, fetchFullTree_missing henc (fun b hb => hdata b (hblobs b ?_)) hreads
      fuel⟩
    rw [ht] at hb
    exact List.mem_append_right _ hb

end Snapshot

/-! ## 3. The entries of a directory -/

/-- An entry of the directory queue stands for a sealed directory. -/
def Carries (x : Tree × FsPath) (e : FsNode × Tree) : Prop :=
  x.1.kind = .dir ∧ x.1.children = e.2.children ∧ x.2 = ⟨false, e.1.relPath⟩

/-- A task restores a file of the directory `p`. -/
def Restores (P : Primitives) (fastCdc : Bytes → List Bytes) (host : Host) (root : FsPath)
    (p : List FileName) (x : Tree × FsPath) (name : FileName) : Prop :=
  x.2 = ⟨false, name :: p⟩ ∧
    x.1.children = (fileTreeAt P fastCdc host (name :: (p ++ host.base root))).children

namespace Snapshot

variable (h : Snapshot P fastCdc host root base done st)
  (hfuel : Enough P fastCdc host root done fuel) (hdata : ∀ b ∈ st.added, SameData a.get b)
include h hfuel hdata

/-- A subdirectory is created and put on the queue, or `unpack` ends with an error. -/
theorem restoreChild_dir {s : FsNode × Tree} (hs : s ∈ done) {name : FileName}
    {p : List FileName} (hpath : s.1.relPath = name :: p) {u : Unpacking}
    (hclosed : u.dest.Closed) (hp : u.dest.nodeAt p = some .dir)
    (hstart : u.dest.nodeAt s.1.relPath = a.start.dest.nodeAt s.1.relPath) :
    a.RestoresDir P s ∧ (∃ dest x, a.io.restoreChild a.get fuel ⟨false, p⟩ u (treeHash P s.2)
          = .ok ⟨dest, u.files, u.dirs ++ [x]⟩ ∧ Carries x s ∧ dest.Closed ∧
        ∀ q, dest.nodeAt q = if q = s.1.relPath then some .dir else u.dest.nodeAt q) ∨
      ¬ a.RestoresDir P s ∧
        ∃ err, a.io.restoreChild a.get fuel ⟨false, p⟩ u (treeHash P s.2) = .error err := by
  have hvalid : ValidName name := by
    have hdir := h.sealed.dir s hs
    rw [hpath] at hdir
    exact FileSystem.validName hdir
  have hpush : (⟨false, p⟩ : FsPath).push name = ⟨false, s.1.relPath⟩ := by
    rw [FsPath.push_validName hvalid, hpath]
  have hroot : s.1 ≠ .root := by
    intro hr
    rw [hr] at hpath
    cases hpath
  rcases h.fetch_dir hfuel hdata hs with ⟨hreads, t, hfetch, hkind, hname, hmeta, hchildren⟩ |
    ⟨hreads, err, hfetch⟩
  · rw [h.name_eq hs hpath] at hname
    by_cases hcreate : a.io.createDirAll s.1.relPath = true
    · refine .inr ⟨fun hr => by simp [hr.created] at hcreate, .ioError, ?_⟩
      simp only [IoFaults.restoreChild, hfetch, hname, hpush, hkind, hcreate, if_true]
    have hspec := hclosed.createDirAll_spec hp name
    rw [← hpath] at hspec
    rcases hspec with ⟨content, hfile, hnone⟩ | ⟨hfree, dest, hdest, hclosed', hnodes⟩
    · refine .inr ⟨fun hr => hr.free content (hstart ▸ hfile), .ioError, ?_⟩
      simp only [IoFaults.restoreChild, hfetch, hname, hpush, hkind, hcreate, hnone]
      rfl
    by_cases hmtime : t.metadata.mtime.isSome ∧ a.io.setMtime s.1.relPath
    · refine .inr ⟨fun hr => ?_, .ioError, ?_⟩
      · rw [hmeta] at hmtime
        simp [hr.mtime hroot hmtime.1] at hmtime
      · simp only [IoFaults.restoreChild, hfetch, hname, hpush, hkind, hcreate, hdest,
          IoFaults.setPathMtime, if_pos hmtime]
        rfl
    · refine .inl ⟨⟨hreads, by simpa using hcreate, fun content => hstart ▸ hfree content,
        fun _ htime => ?_⟩, dest.setMtime s.1.relPath t.metadata.mtime,
        (t, ⟨false, s.1.relPath⟩), ?_, ⟨hkind, hchildren, rfl⟩, hclosed'.setMtime _ _, ?_⟩
      · rw [← hmeta] at htime
        simpa [htime] using hmtime
      · simp only [IoFaults.restoreChild, hfetch, hname, hpush, hkind, hcreate, hdest,
          IoFaults.setPathMtime, if_neg hmtime]
        rfl
      · intro q
        rw [Dest.nodeAt_setMtime, hnodes]
  · refine .inr ⟨fun hr => hreads hr.tree, err, ?_⟩
    simp only [IoFaults.restoreChild, hfetch]

/-- A task is started for a file, or `unpack` ends with an error. -/
theorem restoreChild_file {e : FsNode × Tree} (he : e ∈ done) {name : FileName}
    (hname : name ∈ host.fileNames (e.1.relPath ++ host.base root)) {t : Tree}
    (ht : t = fileTreeAt P fastCdc host (name :: (e.1.relPath ++ host.base root)))
    (u : Unpacking) :
    a.Reads P t ∧ (∃ x, a.io.restoreChild a.get fuel ⟨false, e.1.relPath⟩ u (treeHash P t)
          = .ok { u with files := u.files ++ [x] } ∧
        Restores P fastCdc host root e.1.relPath x name) ∨
      ¬ a.Reads P t ∧
        ∃ err, a.io.restoreChild a.get fuel ⟨false, e.1.relPath⟩ u (treeHash P t)
          = .error err := by
  obtain ⟨content, hcontent⟩ := mem_fileNames.mp hname
  have hpush : (⟨false, e.1.relPath⟩ : FsPath).push name = ⟨false, name :: e.1.relPath⟩ :=
    FsPath.push_validName (FileSystem.validName hcontent) _
  rcases h.fetch_file hfuel hdata he hname ht with ⟨hreads, t', hfetch, hkind, hn, hchildren⟩ |
    ⟨hreads, err, hfetch⟩
  · refine .inl ⟨hreads, (t', ⟨false, name :: e.1.relPath⟩), ?_, rfl, hchildren.trans (ht ▸ rfl)⟩
    simp only [IoFaults.restoreChild, hfetch, hkind, hn, hpush]
  · refine .inr ⟨hreads, err, ?_⟩
    simp only [IoFaults.restoreChild, hfetch]

/-- The subdirectories are created, and put on the queue. -/
theorem restore_dirs {p : List FileName} {subs : List (FsNode × Tree)} {u : Unpacking}
    (hsubs : ∀ s ∈ subs, s ∈ done ∧ ∃ name, s.1.relPath = name :: p)
    (hnodup : (subs.map fun s => s.1.relPath).Nodup) (hclosed : u.dest.Closed)
    (hp : u.dest.nodeAt p = some .dir)
    (hstart : ∀ s ∈ subs, u.dest.nodeAt s.1.relPath = a.start.dest.nodeAt s.1.relPath) :
    (∀ s ∈ subs, a.RestoresDir P s) ∧ (∃ dest new,
        (subs.map fun s => treeHash P s.2).foldlM (a.io.restoreChild a.get fuel ⟨false, p⟩) u
          = .ok ⟨dest, u.files, u.dirs ++ new⟩ ∧ List.Forall₂ Carries new subs ∧ dest.Closed ∧
        ∀ q, dest.nodeAt q
          = if q ∈ subs.map fun s => s.1.relPath then some .dir else u.dest.nodeAt q) ∨
      (¬ ∀ s ∈ subs, a.RestoresDir P s) ∧ ∃ err,
        (subs.map fun s => treeHash P s.2).foldlM (a.io.restoreChild a.get fuel ⟨false, p⟩) u
          = .error err := by
  induction subs generalizing u with
  | nil =>
    refine .inl ⟨by simp, u.dest, [], ?_, .nil, hclosed, fun q => by simp⟩
    rw [List.append_nil]
    rfl
  | cons s subs ih =>
    obtain ⟨hs, name, hpath⟩ := hsubs s List.mem_cons_self
    rw [List.map_cons] at hnodup
    obtain ⟨hnot, hnodup⟩ := List.nodup_cons.mp hnodup
    rw [List.forall_mem_cons]
    rcases h.restoreChild_dir hfuel hdata hs hpath hclosed hp (hstart s List.mem_cons_self) with
      ⟨hok, dest, x, hstep, hx, hclosed', hnodes⟩ | ⟨hnok, err, hstep⟩
    · have hne : p ≠ s.1.relPath := by simp [hpath]
      rcases ih (u := ⟨dest, u.files, u.dirs ++ [x]⟩)
        (fun s' hs' => hsubs s' (List.mem_cons_of_mem _ hs')) hnodup hclosed'
        ((hnodes p).trans (by rw [if_neg hne, hp]))
        (fun s' hs' => by
          have hne' : s'.1.relPath ≠ s.1.relPath := fun heq =>
            hnot (heq ▸ List.mem_map.mpr ⟨s', hs', rfl⟩)
          rw [hnodes, if_neg hne', hstart s' (List.mem_cons_of_mem _ hs')]) with
        ⟨hall, dest', new, hrun, hcarries, hclosed'', hnodes'⟩ | ⟨hnot', err, hrun⟩
      · refine .inl ⟨⟨hok, hall⟩, dest', x :: new, ?_, .cons hx hcarries, hclosed'', ?_⟩
        · rw [List.map_cons, List.foldlM_cons, hstep]
          exact hrun.trans (by simp)
        · intro q
          rw [hnodes', hnodes, List.map_cons]
          by_cases hq : q = s.1.relPath
          · simp [hq]
          · simp only [List.mem_cons, hq, false_or, if_false]
      · refine .inr ⟨fun hall => hnot' hall.2, err, ?_⟩
        rw [List.map_cons, List.foldlM_cons, hstep]
        exact hrun
    · refine .inr ⟨fun hall => hnok hall.1, err, ?_⟩
      rw [List.map_cons, List.foldlM_cons, hstep]
      rfl

/-- A task is started for each file. -/
theorem restore_files {e : FsNode × Tree} (he : e ∈ done) {names : List FileName} {u : Unpacking}
    (hnames : ∀ name ∈ names, name ∈ host.fileNames (e.1.relPath ++ host.base root)) :
    (∀ name ∈ names,
        a.Reads P (fileTreeAt P fastCdc host (name :: (e.1.relPath ++ host.base root)))) ∧
        (∃ new, (names.map fun name => treeHash P (fileTreeAt P fastCdc host
              (name :: (e.1.relPath ++ host.base root)))).foldlM
            (a.io.restoreChild a.get fuel ⟨false, e.1.relPath⟩) u
              = .ok { u with files := u.files ++ new } ∧
          List.Forall₂ (Restores P fastCdc host root e.1.relPath) new names) ∨
      (¬ ∀ name ∈ names,
        a.Reads P (fileTreeAt P fastCdc host (name :: (e.1.relPath ++ host.base root)))) ∧
        ∃ err, (names.map fun name => treeHash P (fileTreeAt P fastCdc host
              (name :: (e.1.relPath ++ host.base root)))).foldlM
            (a.io.restoreChild a.get fuel ⟨false, e.1.relPath⟩) u = .error err := by
  induction names generalizing u with
  | nil => exact .inl ⟨by simp, [], by rw [List.append_nil]; rfl, .nil⟩
  | cons name names ih =>
    rw [List.forall_mem_cons, List.map_cons, List.foldlM_cons]
    rcases h.restoreChild_file hfuel hdata he (hnames name List.mem_cons_self) rfl u with
      ⟨hok, x, hstep, hx⟩ | ⟨hnok, err, hstep⟩
    · rw [hstep]
      rcases ih (u := { u with files := u.files ++ [x] })
        (fun n hn => hnames n (List.mem_cons_of_mem _ hn)) with
        ⟨hall, new, hrun, hnew⟩ | ⟨hnot, err, hrun⟩
      · exact .inl ⟨⟨hok, hall⟩, x :: new, hrun.trans (by simp), .cons hx hnew⟩
      · exact .inr ⟨fun hall => hnot hall.2, err, hrun⟩
    · rw [hstep]
      exact .inr ⟨fun hall => hnok hall.1, err, rfl⟩

end Snapshot

/-- Once the file has been created, neither the time that is set nor a late write changes what there
is. -/
theorem Attempt.restoreFile_created {x : Tree × FsPath} {d d' : Dest}
    (hcreate : ¬ a.io.create x.2.comps = true)
    (hd : d.createFile x.2.comps (writeChunks a.get (a.io.writeAll x.2.comps) x.1.children).1
      = some d') (hclosed : d'.Closed) :
    (a.io.restoreFile a.get d x).Closed ∧ (a.io.restoreFile a.get d x).nodeAt = d'.nodeAt := by
  have htimed : ∀ mtime, ((a.io.setPathMtime d' x.2.comps mtime).getD d').Closed ∧
      ((a.io.setPathMtime d' x.2.comps mtime).getD d').nodeAt = d'.nodeAt := by
    intro mtime
    unfold IoFaults.setPathMtime
    split
    · exact ⟨hclosed, rfl⟩
    · exact ⟨hclosed.setMtime _ _, Dest.nodeAt_setMtime _ _ _⟩
  simp only [IoFaults.restoreFile, if_neg hcreate, hd]
  have hleft : ∀ dest : Dest, dest.Closed ∧ dest.nodeAt = d'.nodeAt →
      (if a.io.lateWrite x.2.comps then dest.written x.2.comps else dest).Closed ∧
      (if a.io.lateWrite x.2.comps then dest.written x.2.comps else dest).nodeAt = d'.nodeAt := by
    rintro dest ⟨hdest, hnodes⟩
    split
    · exact ⟨hdest.written _, (Dest.nodeAt_written _ _).trans hnodes⟩
    · exact ⟨hdest, hnodes⟩
  refine hleft _ ?_
  split
  · exact htimed _
  · exact ⟨hclosed, rfl⟩

/-- One task leaves what is left of its file, and changes nothing else. -/
theorem restoreFile_spec {p : List FileName} {x : Tree × FsPath} {name : FileName}
    (hx : x.2 = ⟨false, name :: p⟩) {d : Dest} (hclosed : d.Closed)
    (hp : d.nodeAt p = some .dir)
    (hstart : d.nodeAt (name :: p) = a.start.dest.nodeAt (name :: p)) :
    (a.io.restoreFile a.get d x).Closed ∧
      ∀ q, (a.io.restoreFile a.get d x).nodeAt q
        = if q = name :: p then a.leftFile x.1.children (name :: p) else d.nodeAt q := by
  have hcomps : x.2.comps = name :: p := by rw [hx]
  by_cases hcreate : a.io.create (name :: p) = true
  · have hsame : a.io.restoreFile a.get d x = d := by
      simp only [IoFaults.restoreFile, hcomps, hcreate, if_true]
    rw [hsame, Attempt.leftFile, if_pos (Or.inl hcreate), ← hstart]
    refine ⟨hclosed, fun q => ?_⟩
    split
    · rename_i hq
      rw [hq]
    · rfl
  rcases hclosed.createFile_spec hp name
      (writeChunks a.get (a.io.writeAll (name :: p)) x.1.children).1 with
    ⟨hdir, hnone⟩ | ⟨hndir, d', hsome, hclosed', hnodes⟩
  · have hsame : a.io.restoreFile a.get d x = d := by
      simp only [IoFaults.restoreFile, hcomps, hnone, hcreate]
      rfl
    rw [hsame, Attempt.leftFile, if_pos (Or.inr (hstart ▸ hdir)), ← hstart]
    refine ⟨hclosed, fun q => ?_⟩
    split
    · rename_i hq
      rw [hq]
    · rfl
  · obtain ⟨hclosed'', hnodes''⟩ := Attempt.restoreFile_created (x := x) (by rwa [hcomps])
      (by rwa [hcomps]) hclosed'
    rw [Attempt.leftFile, if_neg (by rw [← hstart]; simp [hcreate, hndir])]
    exact ⟨hclosed'', fun q => by rw [hnodes'', hnodes]⟩

/-- The tasks of a directory, in any order. -/
theorem restoreFiles_spec {p : List FileName} (files : List (Tree × FsPath)) (d : Dest)
    (hfiles : ∀ x ∈ files, ∃ name, Restores P fastCdc host root p x name)
    (hnodup : (files.map fun x => x.2.comps).Nodup) (hclosed : d.Closed)
    (hp : d.nodeAt p = some .dir)
    (hstart : ∀ x ∈ files, d.nodeAt x.2.comps = a.start.dest.nodeAt x.2.comps) :
    (files.foldl (a.io.restoreFile a.get) d).Closed ∧
      ∀ q, (files.foldl (a.io.restoreFile a.get) d).nodeAt q
        = if q ∈ files.map fun x => x.2.comps then
            a.leftFile (fileTreeAt P fastCdc host (q ++ host.base root)).children q
          else d.nodeAt q := by
  induction files generalizing d with
  | nil => exact ⟨hclosed, fun q => by simp⟩
  | cons x files ih =>
    obtain ⟨name, hpath, hchildren⟩ := hfiles x List.mem_cons_self
    have hcomps : x.2.comps = name :: p := by rw [hpath]
    have hstart' := hstart x List.mem_cons_self
    rw [hcomps] at hstart'
    obtain ⟨hclosed', hnodes⟩ := restoreFile_spec hpath hclosed hp hstart'
    rw [List.map_cons] at hnodup
    obtain ⟨hnot, hnodup⟩ := List.nodup_cons.mp hnodup
    rw [hcomps] at hnot
    obtain ⟨hclosed'', hnodes'⟩ := ih (a.io.restoreFile a.get d x)
      (fun y hy => hfiles y (List.mem_cons_of_mem _ hy)) hnodup hclosed'
      (by rw [hnodes, if_neg (by simp), hp])
      (fun y hy => by
        have hne : y.2.comps ≠ name :: p := fun heq =>
          hnot (heq ▸ List.mem_map.mpr ⟨y, hy, rfl⟩)
        rw [hnodes, if_neg hne, hstart y (List.mem_cons_of_mem _ hy)])
    refine ⟨hclosed'', ?_⟩
    intro q
    rw [List.foldl_cons, hnodes', hnodes, List.map_cons, hcomps]
    by_cases hq : q = name :: p
    · subst hq
      rw [if_neg hnot, if_pos rfl, if_pos List.mem_cons_self, hchildren]
      rfl
    · simp only [List.mem_cons, hq, false_or, if_false]

theorem comps_of_restores {p : List FileName} {files : List (Tree × FsPath)}
    {names : List FileName} (h : List.Forall₂ (Restores P fastCdc host root p) files names) :
    files.map (fun x => x.2.comps) = names.map (· :: p) ∧
      ∀ x ∈ files, ∃ name, Restores P fastCdc host root p x name := by
  induction h with
  | nil => exact ⟨rfl, by simp⟩
  | @cons x name files names hx _ ih =>
    refine ⟨by rw [List.map_cons, List.map_cons, ih.1, hx.1], ?_⟩
    intro y hy
    rcases List.mem_cons.mp hy with rfl | hy
    · exact ⟨name, hx⟩
    · exact ih.2 y hy

/-! ## 4. One directory -/

namespace Snapshot

variable (h : Snapshot P fastCdc host root base done st)
include h

theorem subdirs_spec {e : FsNode × Tree} (he : e ∈ done) :
    (∀ s ∈ subdirsOf done e, s ∈ done ∧ ∃ name, s.1.relPath = name :: e.1.relPath) ∧
      ((subdirsOf done e).map fun s => s.1.relPath).Nodup := by
  refine ⟨fun s hs => ?_, h.scanned.donePaths_nodup.sublist (List.filter_sublist.map _)⟩
  obtain ⟨hs, hparent⟩ := (h.scanned.mem_subdirsOf he).mp hs
  exact ⟨hs, FsNode.relPath_of_parent hparent⟩

/-- The sealed directories in a directory are its subdirectories. -/
theorem mem_subdirs_paths {e : FsNode × Tree} (he : e ∈ done) {name : FileName} :
    (name :: e.1.relPath ∈ (subdirsOf done e).map fun s => s.1.relPath) ↔
      name :: e.1.relPath ∈ donePaths done := by
  constructor
  · intro hq
    obtain ⟨s, hs, heq⟩ := List.mem_map.mp hq
    exact List.mem_map.mpr ⟨s, ((h.subdirs_spec he).1 s hs).1, heq⟩
  · intro hdone
    obtain ⟨s, hs, heq⟩ := List.mem_map.mp hdone
    have hparent := h.scanned.parent_eq he hs heq
    exact List.mem_map.mpr ⟨s, (h.scanned.mem_subdirsOf he).mpr ⟨hs, hparent⟩, heq⟩

/-- No file has the path of a sealed directory. -/
theorem fileNames_disjoint {e : FsNode × Tree} {name : FileName}
    (hname : name ∈ host.fileNames (e.1.relPath ++ host.base root)) :
    name :: e.1.relPath ∉ donePaths done := by
  intro hdone
  obtain ⟨content, hcontent⟩ := mem_fileNames.mp hname
  obtain ⟨s, hs, heq⟩ := List.mem_map.mp hdone
  have hdir := h.sealed.dir s hs
  rw [heq, List.cons_append, hcontent] at hdir
  cases hdir

/-- The children of a directory are those of its subdirectories and files. -/
theorem children_eq {e : FsNode × Tree} (he : e ∈ done) :
    e.2.children = (subdirsOf done e).map (fun s => treeHash P s.2) ++
      (host.fileNames (e.1.relPath ++ host.base root)).map fun name =>
        treeHash P (fileTreeAt P fastCdc host (name :: (e.1.relPath ++ host.base root))) := by
  rw [h.sealed.tree e he]
  rfl

/-- When the subdirectories have been created and the tasks have ended, the directory has its
entries, and nothing else has changed. -/
theorem left_entries {e : FsNode × Tree} (he : e ∈ done) {d dest : Dest}
    {files : List (Tree × FsPath)}
    (hp : d.nodeAt e.1.relPath = some .dir)
    (hstart : ∀ name, d.nodeAt (name :: e.1.relPath)
      = a.start.dest.nodeAt (name :: e.1.relPath)) (hclosed : dest.Closed)
    (hnodes : ∀ q, dest.nodeAt q
      = if q ∈ (subdirsOf done e).map fun s => s.1.relPath then some .dir else d.nodeAt q)
    {names : List FileName} (hnames : names.Perm (host.fileNames (e.1.relPath ++ host.base root)))
    (hfiles : List.Forall₂ (Restores P fastCdc host root e.1.relPath) files names) :
    (files.foldl (a.io.restoreFile a.get) dest).Closed ∧
      (∀ name, (files.foldl (a.io.restoreFile a.get) dest).nodeAt (name :: e.1.relPath)
        = a.leftIn P fastCdc host root done (name :: e.1.relPath)) ∧
      ∀ q, (∀ name, q ≠ name :: e.1.relPath) →
        (files.foldl (a.io.restoreFile a.get) dest).nodeAt q = d.nodeAt q := by
  obtain ⟨hsubs, -⟩ := h.subdirs_spec he
  obtain ⟨hcomps, hrestores⟩ := comps_of_restores hfiles
  have hmem : ∀ name, (name :: e.1.relPath ∈ files.map fun x => x.2.comps) ↔
      name ∈ host.fileNames (e.1.relPath ++ host.base root) := by
    intro name
    rw [hcomps, List.mem_map, ← hnames.mem_iff]
    simp
  have hnotsub : ∀ q, (∀ name, q ≠ name :: e.1.relPath) →
      q ∉ (subdirsOf done e).map fun s => s.1.relPath := by
    intro q hq hsub
    obtain ⟨s, hs, rfl⟩ := List.mem_map.mp hsub
    obtain ⟨-, name, hname⟩ := hsubs s hs
    exact hq name hname
  have hnotfile : ∀ q, (∀ name, q ≠ name :: e.1.relPath) →
      q ∉ files.map fun x => x.2.comps := by
    intro q hq hf
    rw [hcomps] at hf
    obtain ⟨name, -, rfl⟩ := List.mem_map.mp hf
    exact hq name rfl
  have hcompsNodup : (files.map fun x => x.2.comps).Nodup := by
    rw [hcomps]
    exact (hnames.nodup_iff.mpr ((host.packed.nodup _).filter _)).map
      fun a b hab => (List.cons.inj hab).1
  obtain ⟨hclosed', hnodes'⟩ := restoreFiles_spec (a := a) files dest hrestores hcompsNodup hclosed
    (by rw [hnodes, if_neg (hnotsub _ (by simp)), hp])
    (fun x hx => by
      obtain ⟨name, hr, -⟩ := hrestores x hx
      have hname := (hmem name).mp (List.mem_map.mpr ⟨x, hx, by rw [hr]⟩)
      have hcomp : x.2.comps = name :: e.1.relPath := by rw [hr]
      rw [hcomp, hnodes, if_neg fun hsub => h.fileNames_disjoint hname
        ((h.mem_subdirs_paths he).mp hsub), hstart])
  refine ⟨hclosed', fun name => ?_, fun q hq => ?_⟩
  · rw [hnodes', hnodes, Attempt.leftIn]
    by_cases hdone : name :: e.1.relPath ∈ donePaths done
    · rw [if_neg fun hf => h.fileNames_disjoint ((hmem name).mp hf) hdone,
        if_pos ((h.mem_subdirs_paths he).mpr hdone), if_pos hdone]
    · rw [if_neg hdone, if_neg fun hsub => hdone ((h.mem_subdirs_paths he).mp hsub)]
      by_cases hname : name ∈ host.fileNames (e.1.relPath ++ host.base root)
      · obtain ⟨content, hcontent⟩ := mem_fileNames.mp hname
        rw [if_pos ((hmem name).mpr hname), List.cons_append, hcontent]
        simp only [fileTreeAt, fileTree, Host.fileContent, hcontent]
      · rw [if_neg fun hf => hname ((hmem name).mp hf), hstart, List.cons_append]
        split
        · rename_i content hcontent
          exact absurd (mem_fileNames.mpr ⟨content, hcontent⟩) hname
        · rfl
  · rw [hnodes', if_neg (hnotfile q hq), hnodes, if_neg (hnotsub q hq)]

/-- A whole round: the entries of one directory are restored, or `unpack` ends with an error. -/
theorem restore_directory (hfuel : Enough P fastCdc host root done fuel)
    (hdata : ∀ b ∈ st.added, SameData a.get b)
    {schedule : List (Tree × FsPath) → List (Tree × FsPath)} (hsched : ∀ l, (schedule l).Perm l)
    {e : FsNode × Tree} (he : e ∈ done) {x : Tree × FsPath} (hx : Carries x e) {d : Dest}
    (hclosed : d.Closed) (hp : d.nodeAt e.1.relPath = some .dir)
    (hstart : ∀ name, d.nodeAt (name :: e.1.relPath)
      = a.start.dest.nodeAt (name :: e.1.relPath)) :
    a.RestoresEntries P fastCdc host root done e ∧ (∃ u,
        x.1.children.foldlM (a.io.restoreChild a.get fuel x.2) ⟨d, [], []⟩ = .ok u ∧
        List.Forall₂ Carries u.dirs (subdirsOf done e) ∧
        ((schedule u.files).foldl (a.io.restoreFile a.get) u.dest).Closed ∧
        (∀ name,
          ((schedule u.files).foldl (a.io.restoreFile a.get) u.dest).nodeAt (name :: e.1.relPath)
            = a.leftIn P fastCdc host root done (name :: e.1.relPath)) ∧
        ∀ q, (∀ name, q ≠ name :: e.1.relPath) →
          ((schedule u.files).foldl (a.io.restoreFile a.get) u.dest).nodeAt q = d.nodeAt q) ∨
      ¬ a.RestoresEntries P fastCdc host root done e ∧ ∃ err,
        x.1.children.foldlM (a.io.restoreChild a.get fuel x.2) ⟨d, [], []⟩ = .error err := by
  obtain ⟨-, hchildren, hpath⟩ := hx
  obtain ⟨hsubs, hnodup⟩ := h.subdirs_spec he
  rw [hchildren, hpath, h.children_eq he, List.foldlM_append]
  rcases h.restore_dirs hfuel hdata (u := ⟨d, [], []⟩) hsubs hnodup hclosed hp (fun s hs => by
      obtain ⟨-, name, heq⟩ := hsubs s hs
      rw [heq]
      exact hstart name) with ⟨hdirs, dest, new, hrun, hcarries, hclosed', hnodes⟩ |
    ⟨hnot, err, hrun⟩
  · rw [hrun]
    rcases h.restore_files hfuel hdata he (u := ⟨dest, [], [] ++ new⟩)
      (fun name hname => hname) with ⟨hreads, files, hrun', hfiles⟩ | ⟨hnot, err, hrun'⟩
    · obtain ⟨names, hfiles', hperm⟩ := List.perm_comp_forall₂ (hsched files) hfiles
      exact .inl ⟨⟨hdirs, hreads⟩, ⟨dest, files, new⟩, hrun', hcarries,
        h.left_entries he hp hstart hclosed' hnodes hperm hfiles'⟩
    · exact .inr ⟨fun hall => hnot hall.files, err, hrun'⟩
  · rw [hrun]
    exact .inr ⟨fun hall => hnot hall.dirs, err, rfl⟩

end Snapshot

/-! ## 5. All directories -/

/-- The state of the loop: these directories have been visited, and those are on the queue. -/
structure LoopOk (P : Primitives) (fastCdc : Bytes → List Bytes) (host : Host) (root : FsPath)
    (done : List (FsNode × Tree)) (a : Attempt) (visited pending : List (FsNode × Tree))
    (d : Dest) : Prop where
  sub : ∀ e ∈ visited ++ pending, e ∈ done
  nodup : (donePaths (visited ++ pending)).Nodup
  children : ∀ e ∈ visited, ∀ s ∈ done, s.1.parent = some e.1 → s ∈ visited ++ pending
  parents : ∀ s ∈ visited ++ pending, ∀ p, s.1.parent = some p → ∃ e ∈ visited, e.1 = p
  rooted : ∃ e ∈ visited ++ pending, e.1 = .root
  restored : ∀ e ∈ visited, a.RestoresEntries P fastCdc host root done e
  closed : d.Closed
  nodes : ∀ q, d.nodeAt q = a.leftNode P fastCdc host root done visited q

variable {visited pending : List (FsNode × Tree)} {d : Dest}

/-- The other directories have other paths. -/
theorem LoopOk.relPath_ne {e : FsNode × Tree}
    (hl : LoopOk P fastCdc host root done a visited (e :: pending) d) {x : FsNode × Tree}
    (hx : x ∈ visited ++ pending) : x.1.relPath ≠ e.1.relPath := by
  have hnodup := hl.nodup
  rw [donePaths, List.map_append, List.map_cons, List.nodup_middle, List.nodup_cons,
    ← List.map_append] at hnodup
  exact fun heq => hnodup.1 (List.mem_map.mpr ⟨x, hx, heq⟩)

/-- Its children have not been found yet, as that would make it a visited one. -/
theorem LoopOk.parent_ne {e : FsNode × Tree}
    (hl : LoopOk P fastCdc host root done a visited (e :: pending) d) {x : FsNode × Tree}
    (hx : x ∈ visited ++ e :: pending) : x.1.parent ≠ some e.1 := by
  intro hparent
  obtain ⟨e', he', hee⟩ := hl.parents x hx e.1 hparent
  exact hl.relPath_ne (List.mem_append_left _ he') (by rw [hee])

/-- The next directory exists, and its entries are those from the start. -/
theorem LoopOk.head {e : FsNode × Tree}
    (hl : LoopOk P fastCdc host root done a visited (e :: pending) d) :
    d.nodeAt e.1.relPath = some .dir ∧
      ∀ name, d.nodeAt (name :: e.1.relPath) = a.start.dest.nodeAt (name :: e.1.relPath) := by
  have hmem : e ∈ visited ++ e :: pending := List.mem_append_right _ List.mem_cons_self
  constructor
  · rw [hl.nodes]
    cases hpath : e.1.relPath with
    | nil => rfl
    | cons name q =>
      obtain ⟨p, hp, hq⟩ := FsNode.parent_of_relPath hpath
      obtain ⟨e', he', hep⟩ := hl.parents e hmem p hp
      have hvisited : q ∈ donePaths visited := List.mem_map.mpr ⟨e', he', by rw [hep, hq]⟩
      have hdone : name :: q ∈ donePaths done := List.mem_map.mpr ⟨e, hl.sub e hmem, hpath⟩
      rw [Attempt.leftNode, if_pos hvisited, Attempt.leftIn, if_pos hdone]
  · intro name
    have hnot : e.1.relPath ∉ donePaths visited := by
      intro hvisited
      obtain ⟨x, hx, heq⟩ := List.mem_map.mp hvisited
      exact hl.relPath_ne (List.mem_append_left _ hx) heq
    rw [hl.nodes, Attempt.leftNode, if_neg hnot]

theorem LoopOk.visit {e : FsNode × Tree}
    (hl : LoopOk P fastCdc host root done a visited (e :: pending) d)
    (hscan : Scanned host.fs base (done.map Prod.fst))
    (hentries : a.RestoresEntries P fastCdc host root done e) {d' : Dest} (hclosed : d'.Closed)
    (hin : ∀ name, d'.nodeAt (name :: e.1.relPath)
      = a.leftIn P fastCdc host root done (name :: e.1.relPath))
    (hout : ∀ q, (∀ name, q ≠ name :: e.1.relPath) → d'.nodeAt q = d.nodeAt q) :
    LoopOk P fastCdc host root done a (visited ++ [e]) (pending ++ subdirsOf done e) d' := by
  have hmem : e ∈ visited ++ e :: pending := List.mem_append_right _ List.mem_cons_self
  have he := hl.sub e hmem
  have hassoc : (visited ++ [e]) ++ (pending ++ subdirsOf done e)
      = (visited ++ e :: pending) ++ subdirsOf done e := by simp
  refine ⟨?_, ?_, ?_, ?_, ?_, ?_, hclosed, ?_⟩
  · rw [hassoc]
    intro x hx
    rcases List.mem_append.mp hx with hx | hx
    · exact hl.sub x hx
    · exact ((hscan.mem_subdirsOf he).mp hx).1
  · rw [hassoc, donePaths, List.map_append]
    refine List.nodup_append.mpr ⟨hl.nodup,
      hscan.donePaths_nodup.sublist (List.filter_sublist.map _), ?_⟩
    rintro q hq q' hq' rfl
    obtain ⟨x, hx, rfl⟩ := List.mem_map.mp hq
    obtain ⟨s, hs, heq⟩ := List.mem_map.mp hq'
    obtain ⟨hs, hparent⟩ := (hscan.mem_subdirsOf he).mp hs
    obtain rfl := hscan.eq_of_relPath hs (hl.sub x hx) heq
    exact hl.parent_ne hx hparent
  · intro x hx s hs hparent
    rw [hassoc]
    rcases List.mem_append.mp hx with hx | hx
    · exact List.mem_append_left _ (hl.children x hx s hs hparent)
    · rw [List.mem_singleton.mp hx] at hparent
      exact List.mem_append_right _ ((hscan.mem_subdirsOf he).mpr ⟨hs, hparent⟩)
  · intro s hs p hp
    rw [hassoc] at hs
    rcases List.mem_append.mp hs with hs | hs
    · obtain ⟨e', he', rfl⟩ := hl.parents s hs p hp
      exact ⟨e', List.mem_append_left _ he', rfl⟩
    · have hparent := ((hscan.mem_subdirsOf he).mp hs).2
      exact ⟨e, List.mem_append_right _ (List.mem_singleton.mpr rfl),
        Option.some.inj (hparent.symm.trans hp)⟩
  · obtain ⟨r, hr, hroot⟩ := hl.rooted
    exact ⟨r, hassoc ▸ List.mem_append_left _ hr, hroot⟩
  · intro x hx
    rcases List.mem_append.mp hx with hx | hx
    · exact hl.restored x hx
    · rwa [List.mem_singleton.mp hx]
  · intro q
    have hpaths : ∀ p, p ∈ donePaths (visited ++ [e]) ↔
        p ∈ donePaths visited ∨ p = e.1.relPath := by
      simp [donePaths]
    cases q with
    | nil => rw [hout _ (by simp), hl.nodes, Attempt.leftNode, Attempt.leftNode]
    | cons name q =>
      rw [Attempt.leftNode]
      by_cases hq : q = e.1.relPath
      · rw [hq, if_pos ((hpaths _).mpr (Or.inr rfl)), hin]
      · rw [hout _ fun n heq => hq (List.cons.inj heq).2, hl.nodes, Attempt.leftNode]
        simp only [hpaths, hq, or_false]

/-- When the queue is empty, all directories have been visited. -/
theorem LoopOk.all (hl : LoopOk P fastCdc host root done a visited [] d)
    (hscan : Scanned host.fs base (done.map Prod.fst)) {node : FsNode} {tree : Tree}
    (he : (node, tree) ∈ done) : (node, tree) ∈ visited := by
  induction node generalizing tree with
  | root =>
    obtain ⟨r, hr, hroot⟩ := hl.rooted
    rw [hscan.eq_of_relPath he (hl.sub r hr) (by rw [hroot])]
    simpa using hr
  | dir id name parent ih =>
    have hparent := hscan.parentsLast.mem_of_parent (List.mem_map.mpr ⟨_, he, rfl⟩) rfl
    obtain ⟨⟨p, t⟩, hp, rfl⟩ := List.mem_map.mp hparent
    simpa using hl.children _ (ih hp) _ he rfl

/-- Then the destination holds what is left of all of them. -/
theorem LoopOk.left (hl : LoopOk P fastCdc host root done a visited [] d)
    (hscan : Scanned host.fs base (done.map Prod.fst)) (q : List FileName) :
    d.nodeAt q = a.leftNode P fastCdc host root done done q := by
  have hpaths : ∀ q, q ∈ donePaths visited ↔ q ∈ donePaths done := by
    intro q
    constructor
    · intro hq
      obtain ⟨e, he, rfl⟩ := List.mem_map.mp hq
      exact List.mem_map.mpr ⟨e, hl.sub e (List.mem_append_left _ he), rfl⟩
    · intro hq
      obtain ⟨e, he, rfl⟩ := List.mem_map.mp hq
      exact List.mem_map.mpr ⟨e, hl.all hscan he, rfl⟩
  rw [hl.nodes]
  cases q with
  | nil => rfl
  | cons name q => simp only [Attempt.leftNode, hpaths]

/-- At the start the root is on the queue. -/
theorem LoopOk.start {e : FsNode × Tree} (he : e ∈ done) (hroot : e.1 = .root) :
    LoopOk P fastCdc host root done a [] [e] a.start.dest := by
  refine ⟨by simpa using he, by simp [donePaths], by simp, ?_, ⟨e, by simp, hroot⟩, by simp,
    a.start.closed, ?_⟩
  · intro s hs p hp
    rw [List.mem_singleton.mp hs, hroot] at hp
    cases hp
  · intro q
    cases q with
    | nil => exact a.start.dir
    | cons name q => simp [Attempt.leftNode, donePaths]

/-- No directory is visited or queued twice. -/
theorem LoopOk.length_le (hl : LoopOk P fastCdc host root done a visited pending d) :
    (visited ++ pending).length ≤ done.length := by
  have hsub : donePaths (visited ++ pending) ⊆ donePaths done := by
    intro q hq
    obtain ⟨x, hx, rfl⟩ := List.mem_map.mp hq
    exact List.mem_map.mpr ⟨x, hl.sub x hx, rfl⟩
  have hle := (List.subperm_of_subset hl.nodup hsub).length_le
  rwa [donePaths, donePaths, List.length_map, List.length_map] at hle

namespace Snapshot

variable (h : Snapshot P fastCdc host root base done st)
  (hfuel : Enough P fastCdc host root done fuel) (hdata : ∀ b ∈ st.added, SameData a.get b)
  {schedule : List (Tree × FsPath) → List (Tree × FsPath)} (hsched : ∀ l, (schedule l).Perm l)
include h hfuel hdata hsched

/-- The loop restores the entries of all directories, or ends with an error. -/
theorem unpackLoop_spec {rounds : ℕ} {queue : List (Tree × FsPath)}
    (hqueue : List.Forall₂ Carries queue pending)
    (hl : LoopOk P fastCdc host root done a visited pending d)
    (hrounds : done.length ≤ visited.length + rounds) :
    (∀ e ∈ done, a.RestoresEntries P fastCdc host root done e) ∧ (∃ d',
        a.io.unpackLoop a.get schedule fuel rounds queue d = .ok d' ∧
        ∀ q, d'.nodeAt q = a.leftNode P fastCdc host root done done q) ∨
      (¬ ∀ e ∈ done, a.RestoresEntries P fastCdc host root done e) ∧ ∃ err,
        a.io.unpackLoop a.get schedule fuel rounds queue d = .error err := by
  induction rounds generalizing queue visited pending d with
  | zero =>
    cases hqueue with
    | nil => exact .inl ⟨fun e he => hl.restored e (hl.all h.scanned he), d, rfl,
        hl.left h.scanned⟩
    | cons hx hrest =>
      have := hl.length_le
      simp only [List.length_append, List.length_cons] at this
      omega
  | succ rounds ih =>
    cases hqueue with
    | nil => exact .inl ⟨fun e he => hl.restored e (hl.all h.scanned he), d, rfl,
        hl.left h.scanned⟩
    | @cons x e queue pending hx hrest =>
      obtain ⟨tree, path⟩ := x
      have he := hl.sub e (List.mem_append_right _ List.mem_cons_self)
      have hkind : tree.kind = .dir := hx.1
      obtain ⟨hp, hstart⟩ := hl.head
      rcases h.restore_directory hfuel hdata hsched he hx hl.closed hp hstart with
        ⟨hentries, u, hrun, hdirs, hclosed, hin, hout⟩ | ⟨hnot, err, hrun⟩
      · have hloop := ih (List.rel_append hrest hdirs)
          (hl.visit h.scanned hentries hclosed hin hout)
          (by simp only [List.length_append, List.length_singleton]; omega)
        simpa only [IoFaults.unpackLoop, hkind, hrun] using hloop
      · refine .inr ⟨fun hall => hnot (hall e he), err, ?_⟩
        simp only [IoFaults.unpackLoop, hkind, hrun]

end Snapshot

/-- The directories are restored when the root is, and the entries of all of them. -/
theorem Attempt.restoresDirs_iff (hscan : Scanned host.fs base (done.map Prod.fst))
    {e : FsNode × Tree} (he : e ∈ done) (hroot : e.1 = .root) :
    a.RestoresDirs P fastCdc host root done ↔
      a.RestoresDir P e ∧ ∀ e ∈ done, a.RestoresEntries P fastCdc host root done e := by
  constructor
  · intro hall
    refine ⟨hall.dirs e he, fun e' he' => ⟨fun s hs => ?_, hall.files e' he'⟩⟩
    exact hall.dirs s ((hscan.mem_subdirsOf he').mp hs).1
  · rintro ⟨hrestores, hall⟩
    refine ⟨fun s hs => ?_, fun e' he' => (hall e' he').files⟩
    cases hparent : s.1.parent with
    | none =>
      have hs0 : s.1 = .root := FsNode.parent_eq_none.mp hparent
      rwa [hscan.eq_of_relPath hs he (by rw [hs0, hroot])]
    | some p =>
      have hpmem := hscan.parentsLast.mem_of_parent (List.mem_map.mpr ⟨s, hs, rfl⟩) hparent
      obtain ⟨e', he', rfl⟩ := List.mem_map.mp hpmem
      exact (hall e' he').dirs s ((hscan.mem_subdirsOf he').mpr ⟨hs, hparent⟩)

namespace Snapshot

variable (h : Snapshot P fastCdc host root base done st)
include h

/-- `unpack` succeeds when no directory is lost, whatever has happened to the files, and only
then. -/
theorem unpack_spec (hfuel : Enough P fastCdc host root done fuel)
    (hdata : ∀ b ∈ st.added, SameData a.get b)
    {schedule : List (Tree × FsPath) → List (Tree × FsPath)} (hsched : ∀ l, (schedule l).Perm l) :
    a.RestoresDirs P fastCdc host root done ∧ (∃ d,
        a.io.unpack a.start.dest a.get schedule fuel st.rootTreeHash = .ok d ∧
        ∀ q, d.nodeAt q = a.leftNode P fastCdc host root done done q) ∨
      ¬ a.RestoresDirs P fastCdc host root done ∧ ∃ err,
        a.io.unpack a.start.dest a.get schedule fuel st.rootTreeHash = .error err := by
  obtain ⟨e, he, hroot⟩ := List.mem_map.mp h.scanned.rooted
  have hpath : e.1.relPath = [] := by rw [hroot]; rfl
  rw [Attempt.restoresDirs_iff h.scanned he hroot, h.sealed.root e he hroot]
  by_cases hcreate : a.io.createDirAll [] = true
  · refine .inr ⟨fun hall => ?_, .ioError, if_pos hcreate⟩
    have := hall.1.created
    rw [hpath, hcreate] at this
    cases this
  simp only [IoFaults.unpack, if_neg hcreate]
  rcases h.fetch_dir hfuel hdata he with ⟨hreads, t, hfetch, hkind, -, -, hchildren⟩ |
    ⟨hreads, err, hfetch⟩
  · have hrestores : a.RestoresDir P e := by
      refine ⟨hreads, ?_, ?_, fun hne => absurd hroot hne⟩
      · rw [hpath]
        simpa using hcreate
      · rw [hpath, a.start.dir]
        simp
    simp only [hrestores, true_and, hfetch]
    exact h.unpackLoop_spec hfuel hdata hsched (.cons ⟨hkind, hchildren, by rw [hpath]⟩ .nil)
      (.start he hroot) (by simpa using hfuel.count)
  · refine .inr ⟨fun hall => hreads hall.1.tree, err, ?_⟩
    simp only [hfetch]

end Snapshot

end

end Backuwup.Client
