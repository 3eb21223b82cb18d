/-
# The modification times of what has been restored

`unpack` sets the time of a file after the calls that write into it, and that of a directory when
it is created.  The entries of the directory come later, in a round of its own, and each of them
changes the time of the directory again.  The last piece of a file may be late, and changes the
time of the file.

`unpack_late`: late writes take the times of their files, and nothing else.
`mtimes_restored_iff`: of a snapshot all times are restored if and only if no file that has one is
written late and the directories that have one are empty.
-/
import Backuwup.Client.DirEntries
import Backuwup.Client.DirRoundTrip

namespace Backuwup.Client

/-! ## 1. Times -/

/-- The time of a file or directory, if one has been set since the last change in it. -/
def Dest.mtimeAt (d : Dest) (q : List FileName) : Option ℕ := (d q).bind Restored.mtime

section

variable (host : Host) (root : FsPath) (done : List (FsNode × Tree))

/-- Every file, and every directory but the root, has the time that is stored in its tree. -/
structure MtimesRestored (d : Dest) : Prop where
  files : ∀ e ∈ done, ∀ name ∈ host.fileNames (e.1.relPath ++ host.base root), ∀ time,
    (host.metadata (name :: (e.1.relPath ++ host.base root))).mtime = some time →
      d.mtimeAt (name :: e.1.relPath) = some time
  dirs : ∀ e ∈ done, e.1 ≠ .root → ∀ time, e.2.metadata.mtime = some time →
    d.mtimeAt e.1.relPath = some time

/-- The times after these directories have been visited, with those on the queue. -/
structure TimesOk (visited pending : List (FsNode × Tree)) (d : Dest) : Prop where
  files : ∀ e ∈ visited, ∀ name ∈ host.fileNames (e.1.relPath ++ host.base root),
    d.mtimeAt (name :: e.1.relPath)
      = (host.metadata (name :: (e.1.relPath ++ host.base root))).mtime
  visited : ∀ e ∈ visited, e.1 ≠ .root →
    d.mtimeAt e.1.relPath = if e.2.children = [] then e.2.metadata.mtime else none
  pending : ∀ e ∈ pending, e.1 ≠ .root → d.mtimeAt e.1.relPath = e.2.metadata.mtime

/-- The round for a directory gives its entries their times, and takes its own. -/
structure RoundOk (e : FsNode × Tree) (d d' : Dest) : Prop where
  files : ∀ name ∈ host.fileNames (e.1.relPath ++ host.base root),
    d'.mtimeAt (name :: e.1.relPath)
      = (host.metadata (name :: (e.1.relPath ++ host.base root))).mtime
  dirs : ∀ s ∈ subdirsOf done e, d'.mtimeAt s.1.relPath = s.2.metadata.mtime
  self : d'.mtimeAt e.1.relPath = if e.2.children = [] then d.mtimeAt e.1.relPath else none
  others : ∀ q, q ≠ e.1.relPath → (∀ name, q ≠ name :: e.1.relPath) → d'.mtimeAt q = d.mtimeAt q

end

section

variable {P : Primitives} {fastCdc : Bytes → List Bytes} {host : Host} {root : FsPath}
  {base : List FileName} {done : List (FsNode × Tree)} {st : PackState} {get : GetBlob}
  {fuel : ℕ} {visited pending : List (FsNode × Tree)} {d d' : Dest} {e : FsNode × Tree}

/-- The times that have been set in other directories stay. -/
theorem TimesOk.visit {a : Attempt} (ht : TimesOk host root visited (e :: pending) d)
    (hl : LoopOk P fastCdc host root done a visited (e :: pending) d)
    (h : Snapshot P fastCdc host root base done st) (hround : RoundOk host root done e d d') :
    TimesOk host root (visited ++ [e]) (pending ++ subdirsOf done e) d' := by
  have he : e ∈ done := hl.sub e (List.mem_append_right _ List.mem_cons_self)
  have hdirs : ∀ x ∈ visited ++ pending, d'.mtimeAt x.1.relPath = d.mtimeAt x.1.relPath := by
    intro x hx
    have hmem : x ∈ visited ++ e :: pending :=
      ((List.sublist_cons_self e pending).append_left visited).subset hx
    exact hround.others _ (hl.relPath_ne hx) fun name hname =>
      hl.parent_ne hmem (h.scanned.parent_eq he (hl.sub x hmem) hname)
  have hfiles : ∀ x ∈ visited, ∀ name ∈ host.fileNames (x.1.relPath ++ host.base root),
      d'.mtimeAt (name :: x.1.relPath) = d.mtimeAt (name :: x.1.relPath) := by
    intro x hx name hname
    -- a file is no directory, and lies in another one
    refine hround.others _ (fun heq => ?_) fun name' heq => ?_
    · exact h.fileNames_disjoint hname (List.mem_map.mpr ⟨e, he, heq.symm⟩)
    · exact hl.relPath_ne (List.mem_append_left _ hx) (List.cons.inj heq).2
  constructor
  · intro x hx name hname
    rcases List.mem_append.mp hx with hx | hx
    · rw [hfiles x hx name hname, ht.files x hx name hname]
    · obtain rfl := List.mem_singleton.mp hx
      exact hround.files name hname
  · intro x hx hroot
    rcases List.mem_append.mp hx with hx | hx
    · rw [hdirs x (List.mem_append_left _ hx), ht.visited x hx hroot]
    · obtain rfl := List.mem_singleton.mp hx
      rw [hround.self, ht.pending x List.mem_cons_self hroot]
  · intro x hx hroot
    rcases List.mem_append.mp hx with hx | hx
    · rw [hdirs x (List.mem_append_right _ hx), ht.pending x (List.mem_cons_of_mem _ hx) hroot]
    · exact hround.dirs x hx

/-! ## 2. One round -/

/-- The trees of the entries of a directory. -/
def entryTrees (P : Primitives) (fastCdc : Bytes → List Bytes) (host : Host) (root : FsPath)
    (done : List (FsNode × Tree)) (e : FsNode × Tree) : List Tree :=
  (subdirsOf done e).map Prod.snd ++
    (host.fileNames (e.1.relPath ++ host.base root)).map fun name =>
      fileTreeAt P fastCdc host (name :: (e.1.relPath ++ host.base root))

namespace Snapshot

variable (h : Snapshot P fastCdc host root base done st)
include h

theorem children_eq_map (he : e ∈ done) :
    e.2.children = (entryTrees P fastCdc host root done e).map (treeHash P) := by
  rw [h.children_eq he, entryTrees, List.map_append, List.map_map, List.map_map]
  rfl

theorem name_subdir (he : e ∈ done) {s : FsNode × Tree} (hs : s ∈ subdirsOf done e) :
    s.2.name :: e.1.relPath = s.1.relPath ∧ ValidName s.2.name := by
  obtain ⟨hs, name, hpath⟩ := (h.subdirs_spec he).1 s hs
  have hdir := h.sealed.dir s hs
  rw [hpath] at hdir
  rw [h.name_eq hs hpath]
  exact ⟨hpath.symm, FileSystem.validName hdir⟩

theorem isComponent_entryTrees (he : e ∈ done) :
    ∀ t ∈ entryTrees P fastCdc host root done e, IsComponent t.name := by
  intro t ht
  rcases List.mem_append.mp ht with ht | ht
  · obtain ⟨s, hs, rfl⟩ := List.mem_map.mp ht
    exact (h.name_subdir he hs).2.isComponent
  · obtain ⟨name, hname, rfl⟩ := List.mem_map.mp ht
    obtain ⟨content, hcontent⟩ := mem_fileNames.mp hname
    exact (FileSystem.validName hcontent).isComponent

/-- The entries of a directory have different names. -/
theorem nodup_entryTrees (he : e ∈ done) :
    ((entryTrees P fastCdc host root done e).map Tree.name).Nodup := by
  have hfiles : ((host.fileNames (e.1.relPath ++ host.base root)).map fun name =>
      fileTreeAt P fastCdc host (name :: (e.1.relPath ++ host.base root))).map Tree.name
        = host.fileNames (e.1.relPath ++ host.base root) := by
    rw [List.map_map]
    exact List.map_id _
  rw [entryTrees, List.map_append, hfiles, List.map_map]
  refine List.nodup_append.mpr ⟨?_, (host.packed.nodup _).filter _, ?_⟩
  · refine List.Nodup.of_map (· :: e.1.relPath) ?_
    have hpaths : ((subdirsOf done e).map (Tree.name ∘ Prod.snd)).map (· :: e.1.relPath)
        = (subdirsOf done e).map fun s => s.1.relPath := by
      rw [List.map_map]
      exact List.map_congr_left fun s hs => (h.name_subdir he hs).1
    rw [hpaths]
    exact (h.subdirs_spec he).2
  · rintro name hdir _ hname rfl
    obtain ⟨s, hs, rfl⟩ := List.mem_map.mp hdir
    have hdone : s.1.relPath ∈ donePaths done :=
      List.mem_map.mpr ⟨s, ((h.subdirs_spec he).1 s hs).1, rfl⟩
    rw [← (h.name_subdir he hs).1] at hdone
    exact h.fileNames_disjoint hname hdone

end Snapshot

namespace Backup

variable (h : Backup P fastCdc host root base done st get fuel)
include h

theorem fetchable_entryTrees (he : e ∈ done) :
    ∀ t ∈ entryTrees P fastCdc host root done e, Fetchable P get fuel t := by
  intro t ht
  rcases List.mem_append.mp ht with ht | ht
  · obtain ⟨s, hs, rfl⟩ := List.mem_map.mp ht
    have hs := ((h.snapshot.subdirs_spec he).1 s hs).1
    refine ⟨h.snapshot.encodable_dir hs, ?_, fun b hb => h.store b (h.sealed.blobs s hs b hb),
      h.dirs s hs⟩
    rw [h.sealed.tree s hs]
    rfl
  · obtain ⟨name, hname, rfl⟩ := List.mem_map.mp ht
    exact ⟨Snapshot.encodable_file hname, rfl, fun b hb => h.store b
      (h.sealed.files e he name hname b (List.mem_append_right _ hb)), h.files e he name hname⟩

theorem read_entryTrees (he : e ∈ done) :
    ∀ t ∈ entryTrees P fastCdc host root done e, t.kind = .file →
      (readChunks get t.children).2 = true := by
  intro t ht hkind
  rcases List.mem_append.mp ht with ht | ht
  · obtain ⟨s, hs, rfl⟩ := List.mem_map.mp ht
    have hs := ((h.snapshot.subdirs_spec he).1 s hs).1
    rw [h.sealed.tree s hs] at hkind
    cases hkind
  · obtain ⟨name, hname, rfl⟩ := List.mem_map.mp ht
    rw [h.readChunks_file he hname]

/-- The round for a directory that has just been created. -/
theorem round {schedule : List (Tree × FsPath) → List (Tree × FsPath)}
    (hsched : ∀ l, (schedule l).Perm l) (he : e ∈ done) (hclosed : d.Closed)
    (hp : d.nodeAt e.1.relPath = some .dir)
    (hempty : ∀ name, d.nodeAt (name :: e.1.relPath) = none) :
    ∃ u, e.2.children.foldlM (restoreChild get fuel ⟨false, e.1.relPath⟩) ⟨d, [], []⟩ = .ok u ∧
      RoundOk host root done e d ((schedule u.files).foldl (restoreFile get) u.dest) := by
  obtain ⟨u, hrun, hround⟩ := restoreStored_spec ⟨false, e.1.relPath⟩
    (h.fetchable_entryTrees he) (h.snapshot.isComponent_entryTrees he) (h.read_entryTrees he)
    ⟨hclosed, hp, h.snapshot.nodup_entryTrees he, fun name _ => hempty name⟩
  obtain ⟨es, hes, hdest⟩ := hround schedule hsched
  rw [← h.snapshot.children_eq_map he] at hrun
  refine ⟨u, hrun, ?_⟩
  rw [hdest]
  have hnodup : (es.map DirEntry.name).Nodup := by
    refine (hes.map _).nodup_iff.mpr ?_
    rw [List.map_map]
    exact h.snapshot.nodup_entryTrees he
  have hentry : ∀ t ∈ entryTrees P fastCdc host root done e,
      (d.createEntries e.1.relPath es).mtimeAt (t.name :: e.1.relPath) = t.metadata.mtime := by
    intro t ht
    have hmem : t.entry get ∈ es := hes.mem_iff.mpr (List.mem_map.mpr ⟨t, ht, rfl⟩)
    exact congrArg (Option.bind · Restored.mtime) (Dest.createEntries_entry hnodup hmem)
  have hnil : es = [] ↔ e.2.children = [] := by
    rw [h.snapshot.children_eq_map he, List.map_eq_nil_iff, ← List.length_eq_zero_iff,
      ← List.length_eq_zero_iff, hes.length_eq, List.length_map]
  constructor
  · intro name hname
    exact hentry _ (List.mem_append_right _ (List.mem_map.mpr ⟨name, hname, rfl⟩))
  · intro s hs
    rw [← (h.snapshot.name_subdir he hs).1]
    exact hentry _ (List.mem_append_left _ (List.mem_map.mpr ⟨s, hs, rfl⟩))
  · rw [Dest.mtimeAt, Dest.createEntries_dir]
    simp only [hnil]
    split
    · rfl
    · cases d e.1.relPath <;> rfl
  · intro q hdir hq
    rw [Dest.mtimeAt, Dest.createEntries_of_ne hdir fun e' _ => hq e'.name]
    rfl

/-! ## 3. All rounds -/

theorem restoresEntries (he : e ∈ done) :
    (⟨get, .empty, .noFault⟩ : Attempt).RestoresEntries P fastCdc host root done e :=
  ⟨fun s hs => h.restoresDirs.dirs s ((h.scanned.mem_subdirsOf he).mp hs).1,
    h.restoresDirs.files e he⟩

/-- The loop ends with the times of all directories that it has visited. -/
theorem unpackLoop_times {schedule : List (Tree × FsPath) → List (Tree × FsPath)}
    (hsched : ∀ l, (schedule l).Perm l) {rounds : ℕ} {queue : List (Tree × FsPath)}
    (hqueue : List.Forall₂ Carries queue pending)
    (hl : LoopOk P fastCdc host root done ⟨get, .empty, .noFault⟩ visited pending d)
    (ht : TimesOk host root visited pending d) (hrounds : done.length ≤ visited.length + rounds) :
    ∃ d' visited', unpackLoop get schedule fuel rounds queue d = .ok d' ∧
      LoopOk P fastCdc host root done ⟨get, .empty, .noFault⟩ visited' [] d' ∧
      TimesOk host root visited' [] d' := by
  induction rounds generalizing queue visited pending d with
  | zero =>
    cases hqueue with
    | nil => exact ⟨d, visited, rfl, hl, ht⟩
    | cons hx hrest =>
      have := hl.length_le
      simp only [List.length_append, List.length_cons] at this
      omega
  | succ rounds ih =>
    cases hqueue with
    | nil => exact ⟨d, visited, rfl, hl, ht⟩
    | @cons x e queue pending hx hrest =>
      obtain ⟨tree, path⟩ := x
      have he := hl.sub e (List.mem_append_right _ List.mem_cons_self)
      obtain ⟨hp, hstart⟩ := hl.head
      have hempty : ∀ name, d.nodeAt (name :: e.1.relPath) = none := fun name =>
        (hstart name).trans ((Dest.nodeAt_empty _).trans (if_neg (List.cons_ne_nil _ _)))
      have hkind : tree.kind = .dir := hx.1
      have hchildren : tree.children = e.2.children := hx.2.1
      have hpath : path = ⟨false, e.1.relPath⟩ := hx.2.2
      obtain ⟨u, hrun, hround⟩ := h.round hsched he hl.closed hp hempty
      rcases h.snapshot.restore_directory h.enough h.sameData hsched he hx hl.closed hp hstart with
        ⟨hentries, u', hrun', hdirs, hclosed, hin, hout⟩ | ⟨hnot, -⟩
      · simp only [restoreChild_noFault, restoreFile_noFault, hchildren, hpath, hrun,
          Except.ok.injEq] at hrun' hclosed hin hout
        subst hrun'
        obtain ⟨d', visited', hloop, hend⟩ := ih (List.rel_append hrest hdirs)
          (hl.visit h.scanned hentries hclosed hin hout) (ht.visit hl h.snapshot hround)
          (by simp only [List.length_append, List.length_singleton]; omega)
        refine ⟨d', visited', ?_, hend⟩
        simpa only [unpackLoop, hkind, hchildren, hpath, hrun] using hloop
      · exact absurd (h.restoresEntries he) hnot

/-- The times when `unpack` has ended. -/
theorem unpack_times {schedule : List (Tree × FsPath) → List (Tree × FsPath)}
    (hsched : ∀ l, (schedule l).Perm l) :
    ∃ d visited, unpack get schedule fuel st.rootTreeHash = .ok d ∧
      (∀ e ∈ done, e ∈ visited) ∧ TimesOk host root visited [] d := by
  obtain ⟨e, he, hroot⟩ := List.mem_map.mp h.scanned.rooted
  have hpath : e.1.relPath = [] := by rw [hroot]; rfl
  rcases h.snapshot.fetch_dir (a := ⟨get, .empty, .noFault⟩) h.enough h.sameData he with
    ⟨-, t, hfetch, hkind, -, -, hchildren⟩ | ⟨hnot, -⟩
  · have ht : TimesOk host root [] [e] .empty :=
      ⟨by simp, by simp, fun s hs hne => absurd (List.mem_singleton.mp hs ▸ hroot) hne⟩
    have hqueue : List.Forall₂ Carries [(t, ⟨false, []⟩)] [e] :=
      .cons ⟨hkind, hchildren, by rw [hpath]⟩ .nil
    obtain ⟨d, visited, hloop, hl, hend⟩ :=
      h.unpackLoop_times hsched hqueue (.start he hroot) ht (by simpa using h.count)
    refine ⟨d, visited, ?_, fun s hs => hl.all h.scanned hs, hend⟩
    rw [h.sealed.root e he hroot]
    simp only [unpack, hfetch]
    exact hloop
  · exact absurd (h.restoresDirs.dirs e he).tree hnot

end Backup

end

/-! ## 4. Late writes -/

/-- The file system writes the last piece of these files after their time has been set. -/
def IoFaults.late (late : List FileName → Bool) : IoFaults :=
  { IoFaults.noFault with lateWrite := late }

namespace Dest

/-- The destination once these files have been written. -/
def landed (late : List FileName → Bool) (d : Dest) : Dest :=
  fun q => if late q then (d q).map Restored.written else d q

section

variable (late : List FileName → Bool) (d : Dest) (q : List FileName)

@[simp] theorem nodeAt_landed : (d.landed late).nodeAt = d.nodeAt := by
  funext q
  unfold nodeAt landed
  split
  · rw [Option.map_map]
    exact congrArg (Option.map · _) (funext Restored.written_node)
  · rfl

/-- A directory keeps its time. -/
theorem mtimeAt_landed_dir (hnode : d.nodeAt q = some .dir) :
    (d.landed late).mtimeAt q = d.mtimeAt q := by
  obtain ⟨⟨_, mtime⟩, hd, rfl⟩ := Option.map_eq_some_iff.mp hnode
  simp [mtimeAt, landed, hd, Restored.written]

/-- A file that is not empty loses its time. -/
theorem mtimeAt_landed_file {content : Bytes} (hnode : d.nodeAt q = some (.file content)) :
    (d.landed late).mtimeAt q = if late q ∧ content ≠ [] then none else d.mtimeAt q := by
  obtain ⟨⟨_, mtime⟩, hd, rfl⟩ := Option.map_eq_some_iff.mp hnode
  cases hlate : late q
  · simp [mtimeAt, landed, hlate]
  · cases content <;> simp [mtimeAt, landed, hlate, hd, Restored.written]

theorem landed_update (v : Option Restored) :
    landed late (Function.update d q v)
      = Function.update (d.landed late) q (if late q then v.map Restored.written else v) := by
  funext p
  by_cases hp : p = q
  · subst hp
    simp only [landed, Function.update_self]
  · simp only [landed, Function.update_of_ne hp]

/-- What has no time cannot lose it. -/
theorem written_new (node : Node) : Restored.written ⟨node, none⟩ = ⟨node, none⟩ := by
  obtain _ | _ | _ := node <;> rfl

theorem landed_update_new (node : Node) :
    landed late (Function.update d q (some ⟨node, none⟩))
      = Function.update (d.landed late) q (some ⟨node, none⟩) := by
  rw [landed_update, Option.map_some, written_new, ite_self]

theorem landed_touch : (d.touch q).landed late = (d.landed late).touch q := by
  rw [touch, touch, landed_update]
  congr 1
  unfold landed
  split
  · rw [Option.map_map, Option.map_map]
    refine congrArg (Option.map · (d q)) (funext fun r => ?_)
    obtain ⟨_ | _ | _, _⟩ := r <;> rfl
  · rfl

theorem landed_put (node : Node) : (d.put q node).landed late = (d.landed late).put q node := by
  rw [put, put, landed_update_new, landed_touch]

/-- The time of a directory is set before or after. -/
theorem landed_setMtime (mtime : Option ℕ) (hdir : d.nodeAt q = some .dir) :
    (d.setMtime q mtime).landed late = (d.landed late).setMtime q mtime := by
  cases mtime with
  | none => rfl
  | some time =>
    obtain ⟨⟨_, old⟩, hd, rfl⟩ := Option.map_eq_some_iff.mp hdir
    simp only [setMtime, landed_update, hd, landed, Option.map_some, Restored.written, ite_self]

/-- A late write comes after whatever has been done to the file. -/
theorem written_landed (v : Option Restored) :
    (if late q then written (Function.update (d.landed late) q v) q
      else Function.update (d.landed late) q v) = landed late (Function.update d q v) := by
  rw [landed_update]
  split
  · rw [written, Function.update_self, Function.update_idem]
  · rfl

theorem createDirAll_landed :
    (d.landed late).createDirAll q = (d.createDirAll q).map (landed late) := by
  induction q with
  | nil =>
    simp only [createDirAll, nodeAt_landed]
    split <;> rfl
  | cons name q ih =>
    simp only [createDirAll, ih]
    cases d.createDirAll q with
    | none => rfl
    | some d =>
      simp only [Option.map_some, nodeAt_landed]
      split
      · rfl
      · rfl
      · rw [Option.map_some, landed_put]

theorem createFile_landed (content : Bytes) :
    (d.landed late).createFile q content = (d.createFile q content).map (landed late) := by
  simp only [createFile, nodeAt_landed]
  split
  · rfl
  · rw [Option.map_some, landed_update_new]
  · split
    · rw [Option.map_some, landed_put]
    · rfl

variable {late d q} {d' : Dest}

theorem createFile_self {content : Bytes} (h : d.createFile q content = some d') :
    d' q = some ⟨.file content, none⟩ := by
  rw [createFile] at h
  split at h
  · cases h
  · obtain rfl := Option.some.inj h
    exact Function.update_self ..
  · obtain ⟨-, heq⟩ := Option.ite_none_right_eq_some.mp h
    obtain rfl := Option.some.inj heq
    exact Function.update_self ..

variable (late) in
/-- The time of a file that has just been created, with the late writes of other files. -/
theorem setMtime_new {node : Node} (h : d q = some ⟨node, none⟩) (mtime : Option ℕ) :
    ∃ v, d.setMtime q mtime = Function.update d q v ∧
      (d.landed late).setMtime q mtime = Function.update (d.landed late) q v := by
  have hlanded : d.landed late q = some ⟨node, none⟩ := by
    rw [landed, h, Option.map_some, written_new, ite_self]
  cases mtime with
  | none =>
    refine ⟨some ⟨node, none⟩, ?_, ?_⟩
    · rw [← h, Function.update_eq_self]
      rfl
    · rw [← hlanded, Function.update_eq_self]
      rfl
  | some time =>
    exact ⟨some ⟨node, some time⟩, by rw [setMtime, h]; rfl, by rw [setMtime, hlanded]; rfl⟩

theorem nodeAt_of_createDirAll (h : d.createDirAll q = some d') : d'.nodeAt q = some .dir := by
  cases q with
  | nil =>
    obtain ⟨hroot, heq⟩ := Option.ite_none_right_eq_some.mp h
    obtain rfl := Option.some.inj heq
    exact hroot
  | cons name q =>
    rw [createDirAll] at h
    split at h
    · cases h
    · split at h
      · obtain rfl := Option.some.inj h
        assumption
      · cases h
      · obtain rfl := Option.some.inj h
        rw [nodeAt_put, if_pos rfl]

end

end Dest

/-! ## 5. Restored with late writes -/

section

variable (late : List FileName → Bool) (get : GetBlob) (fuel : ℕ) (path : FsPath)

def Unpacking.landed (u : Unpacking) : Unpacking := { u with dest := u.dest.landed late }

theorem restoreFile_late (d : Dest) (file : Tree × FsPath) :
    (IoFaults.late late).restoreFile get (d.landed late) file
      = (restoreFile get d file).landed late := by
  simp only [IoFaults.restoreFile, restoreFile, IoFaults.late, IoFaults.noFault,
    IoFaults.setPathMtime, writeChunks_noFault, Dest.createFile_landed]
  cases hcreate : d.createFile file.2.comps (readChunks get file.1.children).1 with
  | none => rfl
  | some d =>
    have hnew := Dest.createFile_self hcreate
    cases (readChunks get file.1.children).2 with
    | false =>
      obtain ⟨v, hv, hlanded⟩ := Dest.setMtime_new late hnew none
      have hwritten := Dest.written_landed late d file.2.comps v
      rw [← hv, ← hlanded] at hwritten
      simpa [Dest.setMtime] using hwritten
    | true =>
      obtain ⟨v, hv, hlanded⟩ := Dest.setMtime_new late hnew file.1.metadata.mtime
      have hwritten := Dest.written_landed late d file.2.comps v
      rw [← hv, ← hlanded] at hwritten
      simpa using hwritten

theorem restoreChild_late (u : Unpacking) (hash : BlobHash) :
    (IoFaults.late late).restoreChild get fuel path (u.landed late) hash
      = (restoreChild get fuel path u hash).map (Unpacking.landed late) := by
  rw [IoFaults.restoreChild, restoreChild]
  cases fetchFullTree get fuel hash with
  | error e => rfl
  | ok child =>
    cases hkind : child.kind with
    | file => simp only [hkind]; rfl
    | dir =>
      simp only [hkind, IoFaults.late, IoFaults.noFault, IoFaults.setPathMtime, Unpacking.landed,
        Dest.createDirAll_landed]
      cases hdest : u.dest.createDirAll (path.push child.name).comps with
      | none => rfl
      | some dest =>
        have hdir := Dest.nodeAt_of_createDirAll hdest
        simp [Dest.landed_setMtime late _ _ _ hdir, Except.map, Unpacking.landed]

theorem restoreChildren_late (u : Unpacking) (hashes : List BlobHash) :
    hashes.foldlM ((IoFaults.late late).restoreChild get fuel path) (u.landed late)
      = (hashes.foldlM (restoreChild get fuel path) u).map (Unpacking.landed late) := by
  induction hashes generalizing u with
  | nil => rfl
  | cons hash hashes ih =>
    rw [List.foldlM_cons, List.foldlM_cons, restoreChild_late]
    cases restoreChild get fuel path u hash with
    | error e => rfl
    | ok u => exact ih u

variable (schedule : List (Tree × FsPath) → List (Tree × FsPath))

theorem unpackLoop_late (rounds : ℕ) (queue : List (Tree × FsPath)) (d : Dest) :
    (IoFaults.late late).unpackLoop get schedule fuel rounds queue (d.landed late)
      = (unpackLoop get schedule fuel rounds queue d).map (Dest.landed late) := by
  induction rounds generalizing queue d with
  | zero => cases queue <;> rfl
  | succ rounds ih =>
    cases queue with
    | nil => rfl
    | cons x queue =>
      obtain ⟨tree, path⟩ := x
      cases hkind : tree.kind with
      | file =>
        simp only [IoFaults.unpackLoop, unpackLoop, hkind]
        exact ih queue d
      | dir =>
        have hrun := restoreChildren_late late get fuel path ⟨d, [], []⟩ tree.children
        simp only [Unpacking.landed] at hrun
        simp only [IoFaults.unpackLoop, unpackLoop, hkind, hrun]
        cases tree.children.foldlM (restoreChild get fuel path) ⟨d, [], []⟩ with
        | error e => rfl
        | ok u =>
          have hfiles : (schedule u.files).foldl ((IoFaults.late late).restoreFile get)
              (u.dest.landed late)
                = ((schedule u.files).foldl (restoreFile get) u.dest).landed late :=
            List.foldl_hom (Dest.landed late) fun d file => restoreFile_late late get d file
          change (IoFaults.late late).unpackLoop get schedule fuel rounds (queue ++ u.dirs)
            ((schedule u.files).foldl ((IoFaults.late late).restoreFile get)
              (u.dest.landed late)) = _
          rw [hfiles]
          exact ih _ _

/-- Late writes take the times of their files, and nothing else. -/
theorem unpack_late (rootHash : BlobHash) :
    (IoFaults.late late).unpack .empty get schedule fuel rootHash
      = (unpack get schedule fuel rootHash).map (Dest.landed late) := by
  have hempty : Dest.landed late .empty = .empty := by
    funext q
    unfold Dest.landed Dest.empty
    split <;> split <;> rfl
  simp only [IoFaults.unpack, unpack]
  cases fetchFullTree get fuel rootHash with
  | error e => rfl
  | ok tree =>
    have hloop := unpackLoop_late late get fuel schedule fuel [(tree, ⟨false, []⟩)] .empty
    rw [hempty] at hloop
    exact hloop

end

section

variable {P : Primitives} {fastCdc : Bytes → List Bytes} {host : Host} {root : FsPath}
  {base : List FileName} {done : List (FsNode × Tree)} {st : PackState} {get : GetBlob}
  {fuel : ℕ} {e : FsNode × Tree} {d : Dest}

namespace Backup

variable (h : Backup P fastCdc host root base done st get fuel)
  (hnodes : ∀ q, d.nodeAt q = restoredNode host root done done q)
include h hnodes

theorem nodeAt_dir (he : e ∈ done) : d.nodeAt e.1.relPath = some .dir := by
  have hdone : e.1.relPath ∈ donePaths done := List.mem_map.mpr ⟨e, he, rfl⟩
  rw [hnodes]
  cases hpath : e.1.relPath with
  | nil => rfl
  | cons name q =>
    obtain ⟨p, hparent, rfl⟩ := FsNode.parent_of_relPath hpath
    obtain ⟨e', he', rfl⟩ := List.mem_map.mp
      (h.scanned.parentsLast.mem_of_parent (List.mem_map.mpr ⟨e, he, rfl⟩) hparent)
    have hparentDone : e'.1.relPath ∈ donePaths done := List.mem_map.mpr ⟨e', he', rfl⟩
    rw [hpath] at hdone
    rw [restoredNode, if_pos hparentDone, fullNode, if_pos hdone]

theorem nodeAt_file (he : e ∈ done) {name : FileName}
    (hname : name ∈ host.fileNames (e.1.relPath ++ host.base root)) :
    d.nodeAt (name :: e.1.relPath)
      = some (.file (host.fileContent (name :: (e.1.relPath ++ host.base root)))) := by
  obtain ⟨content, hcontent⟩ := mem_fileNames.mp hname
  have hdone : e.1.relPath ∈ donePaths done := List.mem_map.mpr ⟨e, he, rfl⟩
  rw [hnodes, restoredNode, if_pos hdone, fullNode, if_neg (h.snapshot.fileNames_disjoint hname),
    List.cons_append, hcontent, Host.fileContent, hcontent]

end Backup

/-- The files whose last piece may be written after their time has been set: those that are empty
or have no time. -/
def MayBeLate (host : Host) (root : FsPath) (done : List (FsNode × Tree))
    (late : List FileName → Bool) : Prop :=
  ∀ e ∈ done, ∀ name ∈ host.fileNames (e.1.relPath ++ host.base root),
    late (name :: e.1.relPath) = true →
      host.fileContent (name :: (e.1.relPath ++ host.base root)) = [] ∨
        (host.metadata (name :: (e.1.relPath ++ host.base root))).mtime = none

/-- All times are restored if and only if no other file is written late, and the directories that
have a time, apart from the root, have no entries. -/
theorem mtimes_restored_iff (h : Backup P fastCdc host root base done st get fuel)
    {schedule : List (Tree × FsPath) → List (Tree × FsPath)} (hsched : ∀ l, (schedule l).Perm l)
    (late : List FileName → Bool) :
    ∃ d, (IoFaults.late late).unpack .empty get schedule fuel st.rootTreeHash = .ok d ∧
      (MtimesRestored host root done d ↔
        (∀ e ∈ done, e.1 ≠ .root → e.2.metadata.mtime ≠ none → e.2.children = []) ∧
          MayBeLate host root done late) := by
  obtain ⟨d, visited, hd, hall, ht⟩ := h.unpack_times hsched
  obtain ⟨d', hd', hnodes⟩ := h.unpack_spec hsched
  obtain rfl := Except.ok.inj (hd'.symm.trans hd)
  have hdir : ∀ e ∈ done, e.1 ≠ .root → (d'.landed late).mtimeAt e.1.relPath
      = if e.2.children = [] then e.2.metadata.mtime else none := fun e he hroot =>
    (Dest.mtimeAt_landed_dir _ _ _ (h.nodeAt_dir hnodes he)).trans
      (ht.visited e (hall e he) hroot)
  have hfile : ∀ e ∈ done, ∀ name ∈ host.fileNames (e.1.relPath ++ host.base root),
      (d'.landed late).mtimeAt (name :: e.1.relPath)
        = if late (name :: e.1.relPath) ∧
              host.fileContent (name :: (e.1.relPath ++ host.base root)) ≠ [] then none
          else (host.metadata (name :: (e.1.relPath ++ host.base root))).mtime := by
    intro e he name hname
    rw [Dest.mtimeAt_landed_file _ _ _ (h.nodeAt_file hnodes he hname),
      ht.files e (hall e he) name hname]
  refine ⟨d'.landed late, by rw [unpack_late, hd']; rfl, ?_⟩
  constructor
  · refine fun hrestored => ⟨fun e he hroot hmtime => ?_, fun e he name hname hlate => ?_⟩
    · obtain ⟨time, htime⟩ := Option.ne_none_iff_exists'.mp hmtime
      have hleft := hdir e he hroot
      rw [hrestored.dirs e he hroot time htime] at hleft
      by_contra hchildren
      rw [if_neg hchildren] at hleft
      cases hleft
    · rw [or_iff_not_imp_left]
      intro hcontent
      rw [Option.eq_none_iff_forall_ne_some]
      intro time htime
      have hleft := hfile e he name hname
      rw [hrestored.files e he name hname time htime, if_pos ⟨hlate, hcontent⟩] at hleft
      cases hleft
  · rintro ⟨hempty, hlate⟩
    constructor
    · intro e he name hname time htime
      rw [hfile e he name hname, htime]
      refine if_neg ?_
      rintro ⟨hlanded, hcontent⟩
      rcases hlate e he name hname hlanded with hnil | hnone
      · exact hcontent hnil
      · cases htime.symm.trans hnone
    · intro e he hroot time htime
      have hchildren := hempty e he hroot (by simp [htime])
      rw [hdir e he hroot, if_pos hchildren, htime]

end

/-! ## 6. Two directory trees -/

section

/-- A file system on which everything has been changed at the same time. -/
def timedHost (fs : FileSystem) : Host where
  fs := fs
  cwd := []
  scanned := fs.listing
  packed := fs.listing
  metadata _ := ⟨none, some 1000, none⟩
  bounded _ := ⟨nofun, by simp, nofun⟩

/-- The result of packing it. -/
def timedBackupOf (fs : FileSystem) (root : FsPath) : Option PackState :=
  (browseDirTree stripBase (timedHost fs) root 9).toOption.bind fun scan =>
    (packFilesInDirectory .transparent cutAtMax (timedHost fs) root scan.queue).toOption

/-- `/a` with a directory that has a file. -/
def filledTree : FileSystem where
  entries := [([], .dir), ([['a']], .dir), ([['e'], ['a']], .dir),
    ([['g'], ['e'], ['a']], .file [7])]
  nodup := by decide
  closed := by decide

theorem filledTree_times : (timedBackupOf filledTree ⟨true, [['a']]⟩).any (fun st =>
    decide (∀ b ∈ st.added, storeOf st.added b.hash = .ok (some b)) &&
    match unpack (storeOf st.added) id 9 st.rootTreeHash with
    | .ok d => decide (d.nodeAt [['e']] = some .dir ∧ d.mtimeAt [['e']] = none)
    | .error _ => false) = true := by
  decide +kernel

/-- The directory `/a/e` is restored, and has lost its time. -/
theorem filled_directory_loses_mtime : ∃ (st : PackState) (get : GetBlob) (d : Dest),
    Packs .transparent cutAtMax stripBase (timedHost filledTree) ⟨true, [['a']]⟩ st ∧
    (∀ b ∈ st.added, get b.hash = .ok (some b)) ∧
    unpack get id 9 st.rootTreeHash = .ok d ∧ d.nodeAt [['e']] = some .dir ∧
    ((timedHost filledTree).metadata [['e'], ['a']]).mtime = some 1000 ∧
    d.mtimeAt [['e']] ≠ some 1000 := by
  obtain ⟨st, hst, h⟩ := (Option.any_eq_true _ _).mp filledTree_times
  obtain ⟨hstored, hd⟩ := Bool.and_eq_true_iff.mp h
  split at hd
  · rename_i d hunpack
    obtain ⟨hdir, hmtime⟩ := of_decide_eq_true hd
    exact ⟨st, storeOf st.added, d, packs_of_toOption hst, of_decide_eq_true hstored, hunpack, hdir,
      rfl, by simp [hmtime]⟩
  · cases hd

theorem smallTree_timed : (timedBackupOf smallTree ⟨true, [['a']]⟩).any (fun st =>
    decide (∀ b ∈ st.added, storeOf st.added b.hash = .ok (some b))) = true := by
  decide +kernel

/-- Nothing of `/a` lies deeper than in `/a` itself. -/
theorem smallTree_flat {name : FileName} {q : List FileName} {node : Node}
    (h : smallTree.node (name :: (q ++ [['a']])) = some node) : q = [] := by
  have hshort : ∀ e ∈ smallTree.entries, e.1.length ≤ 2 := by decide
  have hlen := hshort _ (FileSystem.node_eq_some.mp h)
  simp only [List.length_cons, List.length_append, List.length_nil] at hlen
  exact List.length_eq_zero_iff.mp (by omega)

/-- The empty directory and the file of `/a` have their times, which no write of another file
takes. -/
theorem mtimes_restored_small : ∃ done st get fuel d,
    Backup .transparent cutAtMax (timedHost smallTree) ⟨true, [['a']]⟩
      ((timedHost smallTree).scanBase ⟨true, [['a']]⟩) done st get fuel ∧
    (IoFaults.late fun _ => false).unpack .empty get id fuel st.rootTreeHash = .ok d ∧
    MtimesRestored (timedHost smallTree) ⟨true, [['a']]⟩ done d := by
  obtain ⟨st, hst, hstored⟩ := (Option.any_eq_true _ _).mp smallTree_timed
  obtain ⟨fuel₀, scan, hscan, hpack⟩ := packs_of_toOption hst
  obtain ⟨done, hsnap⟩ := snapshot_of_packs leadsFrom_stripBase cutsUp_cutAtMax hscan hpack
  obtain ⟨fuel, hfuel⟩ := exists_enough .transparent cutAtMax (timedHost smallTree)
    ⟨true, [['a']]⟩ done
  have henough := hfuel fuel (le_refl fuel)
  have hbackup : Backup .transparent cutAtMax (timedHost smallTree) ⟨true, [['a']]⟩
      ((timedHost smallTree).scanBase ⟨true, [['a']]⟩) done st (storeOf st.added) fuel :=
    ⟨hsnap.cuts, hsnap.scanned, hsnap.sealed, of_decide_eq_true hstored, henough.dirs,
      henough.files, henough.count⟩
  obtain ⟨d, hd, hiff⟩ := mtimes_restored_iff hbackup (fun l => .refl l) fun _ => false
  refine ⟨done, st, _, fuel, d, hbackup, hd, hiff.mpr ⟨fun e he hroot _ => ?_, nofun⟩⟩
  have hne : e.1.relPath ≠ [] := by
    intro hpath
    cases hnode : e.1 with
    | root => exact hroot hnode
    | dir id name parent =>
      rw [hnode] at hpath
      cases hpath
  rw [hsnap.children_eq he, List.append_eq_nil_iff, List.map_eq_nil_iff, List.map_eq_nil_iff,
    List.eq_nil_iff_forall_not_mem, List.eq_nil_iff_forall_not_mem]
  constructor
  · intro s hs
    obtain ⟨hs, name, hpath⟩ := (hsnap.subdirs_spec he).1 s hs
    have hdir := hsnap.sealed.dir s hs
    rw [hpath] at hdir
    exact hne (smallTree_flat hdir)
  · intro name hname
    obtain ⟨content, hcontent⟩ := mem_fileNames.mp hname
    exact hne (smallTree_flat hcontent)

end

end Backuwup.Client
