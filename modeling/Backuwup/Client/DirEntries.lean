/-
# The entries of one directory

What `unpack` does in one directory when no call fails and none of the children exists yet.  Each
child is created with its node and its time, and the directory loses its own time with the first of
them (`restoreDirectory_spec`, `createEntries_dir`).  The order of the tasks does not matter, since
the children have different names.
-/
import Backuwup.Client.DirUnpacker

namespace Backuwup.Client

/-! ## 1. Creating entries -/

/-- A new entry, and the time that it is given. -/
structure DirEntry where
  name : FileName
  node : Node
  mtime : Option ℕ

namespace Dest

variable {d : Dest} {p q : List FileName} {e : DirEntry} {es : List DirEntry}

/-- The entry is created in the directory `p`, and its time is set. -/
def createEntry (p : List FileName) (d : Dest) (e : DirEntry) : Dest :=
  (d.put (e.name :: p) e.node).setMtime (e.name :: p) e.mtime

def createEntries (d : Dest) (p : List FileName) (es : List DirEntry) : Dest :=
  es.foldl (createEntry p) d

theorem setMtime_self (h : d q = some ⟨node, none⟩) (mtime : Option ℕ) :
    d.setMtime q mtime q = some ⟨node, mtime⟩ := by
  cases mtime with
  | none => exact h
  | some time => simp [setMtime, h]

theorem setMtime_of_ne (h : q ≠ p) (mtime : Option ℕ) : d.setMtime p mtime q = d q := by
  cases mtime with
  | none => rfl
  | some time => exact Function.update_of_ne h _ _

theorem createEntry_entry (p : List FileName) (d : Dest) (e : DirEntry) :
    createEntry p d e (e.name :: p) = some ⟨e.node, e.mtime⟩ :=
  setMtime_self (Function.update_self _ _ _) _

/-- The directory has changed. -/
theorem createEntry_dir (p : List FileName) (d : Dest) (e : DirEntry) :
    createEntry p d e p = (d p).map fun r => { r with mtime := none } := by
  have hne : p ≠ e.name :: p := (List.cons_ne_self _ _).symm
  rw [createEntry, setMtime_of_ne hne, put, Function.update_of_ne hne]
  exact Function.update_self _ _ _

theorem createEntry_of_ne (hdir : q ≠ p) (h : q ≠ e.name :: p) : createEntry p d e q = d q := by
  rw [createEntry, setMtime_of_ne h, put, Function.update_of_ne h]
  exact Function.update_of_ne hdir _ _

theorem nodeAt_createEntry (p : List FileName) (d : Dest) (e : DirEntry) (q : List FileName) :
    (createEntry p d e).nodeAt q = if q = e.name :: p then some e.node else d.nodeAt q := by
  rw [createEntry, nodeAt_setMtime, nodeAt_put]

theorem Closed.createEntry (h : d.Closed) (hp : d.nodeAt p = some .dir)
    (hnone : d.nodeAt (e.name :: p) = none) : (createEntry p d e).Closed :=
  (h.put hp hnone e.node).setMtime _ _

/-! All of them -/

theorem createEntries_append (d : Dest) (p : List FileName) (es es' : List DirEntry) :
    d.createEntries p (es ++ es') = (d.createEntries p es).createEntries p es' :=
  List.foldl_append

theorem createEntries_of_ne (hdir : q ≠ p) (h : ∀ e ∈ es, q ≠ e.name :: p) :
    d.createEntries p es q = d q := by
  induction es generalizing d with
  | nil => rfl
  | cons e es ih =>
    obtain ⟨he, hrest⟩ := List.forall_mem_cons.mp h
    exact (ih hrest).trans (createEntry_of_ne hdir he)

/-- No entry is in the way of another. -/
theorem createEntries_entry (hnodup : (es.map DirEntry.name).Nodup) (he : e ∈ es) :
    d.createEntries p es (e.name :: p) = some ⟨e.node, e.mtime⟩ := by
  induction es generalizing d with
  | nil => cases he
  | cons e' es ih =>
    obtain ⟨hnot, hrest⟩ := List.nodup_cons.mp hnodup
    rcases List.mem_cons.mp he with rfl | he
    · have hothers : ∀ e' ∈ es, e.name :: p ≠ e'.name :: p := by
        intro e' he' heq
        exact hnot (List.mem_map.mpr ⟨e', he', (List.cons.inj heq).1.symm⟩)
      calc (createEntry p d e).createEntries p es (e.name :: p)
        _ = createEntry p d e (e.name :: p) :=
          createEntries_of_ne (List.cons_ne_self _ _) hothers
        _ = some ⟨e.node, e.mtime⟩ := createEntry_entry p d e
    · exact ih hrest he

/-- The time of the directory is lost, unless it stays empty. -/
theorem createEntries_dir (d : Dest) (p : List FileName) (es : List DirEntry) :
    d.createEntries p es p
      = if es = [] then d p else (d p).map fun r => { r with mtime := none } := by
  induction es generalizing d with
  | nil => rfl
  | cons e es ih =>
    have hstep : d.createEntries p (e :: es) p = (createEntry p d e).createEntries p es p := rfl
    rw [hstep, ih, createEntry_dir, if_neg (List.cons_ne_nil e es), Option.map_map]
    split <;> rfl

/-- A directory in which none of these different names is taken. -/
structure Fresh (d : Dest) (p : List FileName) (names : List FileName) : Prop where
  closed : d.Closed
  dir : d.nodeAt p = some .dir
  nodup : names.Nodup
  free : ∀ name ∈ names, d.nodeAt (name :: p) = none

namespace Fresh

variable {names names' : List FileName}

theorem subperm (h : d.Fresh p names) (hsub : names'.Subperm names) : d.Fresh p names' := by
  obtain ⟨l, hperm, hl⟩ := id hsub
  exact ⟨h.closed, h.dir, hperm.nodup (h.nodup.sublist hl),
    fun name hname => h.free name (hsub.subset hname)⟩

/-- An entry takes its own name only. -/
theorem createEntry (h : d.Fresh p (e.name :: names)) : (createEntry p d e).Fresh p names := by
  have hnodes := nodeAt_createEntry p d e
  obtain ⟨hnot, hnodup⟩ := List.nodup_cons.mp h.nodup
  obtain ⟨hfree, hfrees⟩ := List.forall_mem_cons.mp h.free
  refine ⟨h.closed.createEntry h.dir hfree, ?_, hnodup, ?_⟩
  · rw [hnodes, if_neg (List.cons_ne_self _ _).symm, h.dir]
  · intro name hname
    have hne : name :: p ≠ e.name :: p := fun heq => hnot ((List.cons.inj heq).1 ▸ hname)
    rw [hnodes, if_neg hne, hfrees name hname]

theorem createEntries (h : d.Fresh p (es.map DirEntry.name ++ names)) :
    (d.createEntries p es).Fresh p names := by
  induction es generalizing d with
  | nil => exact h
  | cons e es ih => exact ih h.createEntry

end Fresh

end Dest

/-! ## 2. The children of a directory -/

def Tree.entry (get : GetBlob) (t : Tree) : DirEntry where
  name := t.name
  node :=
    match t.kind with
    | .dir => .dir
    | .file => .file (readChunks get t.children).1
  mtime := t.metadata.mtime

/-- A child and the path at which it is restored. -/
def target (path : FsPath) (t : Tree) : Tree × FsPath := (t, path.push t.name)

def ofKind (kind : TreeKind) (ts : List Tree) : List Tree := ts.filter fun t => t.kind = kind

theorem ofKind_perm (ts : List Tree) : (ofKind .dir ts ++ ofKind .file ts).Perm ts := by
  have hfile : ofKind .file ts = ts.filter fun t => !decide (t.kind = .dir) :=
    List.filter_congr fun t _ => by cases t.kind <;> rfl
  rw [hfile]
  exact List.filter_append_perm _ ts

section

variable {get : GetBlob} {fuel : ℕ} {path : FsPath} {u u' : Unpacking} {hash : BlobHash} {t : Tree}
  {hashes : List BlobHash} {ts : List Tree} {d : Dest}

theorem restoreChild_of_file (hfetch : fetchFullTree get fuel hash = .ok t)
    (hkind : t.kind = .file) :
    restoreChild get fuel path u hash = .ok { u with files := u.files ++ [target path t] } := by
  simp only [restoreChild, hfetch, hkind, target]

/-- A subdirectory that does not exist is created and put on the queue. -/
theorem restoreChild_of_dir (hfetch : fetchFullTree get fuel hash = .ok t) (hkind : t.kind = .dir)
    (hname : IsComponent t.name) {names : List FileName}
    (hfresh : u.dest.Fresh path.comps (t.name :: names)) :
    restoreChild get fuel path u hash = .ok ⟨Dest.createEntry path.comps u.dest (t.entry get),
      u.files, u.dirs ++ [target path t]⟩ := by
  have hnone := hfresh.free t.name List.mem_cons_self
  simp only [restoreChild, hfetch, hkind, target, FsPath.push_component hname,
    hfresh.closed.createDirAll_cons hfresh.dir hnone, Dest.createEntry, Tree.entry]

/-- A child that does not end the loop has a task or is on the queue. -/
theorem restoreChild_targets (hfetch : fetchFullTree get fuel hash = .ok t)
    (hrun : restoreChild get fuel path u hash = .ok u') :
    u'.files = u.files ++ (ofKind .file [t]).map (target path) ∧
      u'.dirs = u.dirs ++ (ofKind .dir [t]).map (target path) := by
  cases hkind : t.kind with
  | file =>
    rw [restoreChild_of_file hfetch hkind] at hrun
    obtain rfl := Except.ok.inj hrun
    simp [ofKind, hkind]
  | dir =>
    simp only [restoreChild, hfetch, hkind] at hrun
    split at hrun
    · cases hrun
    · obtain rfl := Except.ok.inj hrun
      simp [ofKind, hkind, target]

theorem restoreChildren_targets
    (hfetch : List.Forall₂ (fun hash t => fetchFullTree get fuel hash = .ok t) hashes ts)
    (hrun : hashes.foldlM (restoreChild get fuel path) u = .ok u') :
    u'.files = u.files ++ (ofKind .file ts).map (target path) ∧
      u'.dirs = u.dirs ++ (ofKind .dir ts).map (target path) := by
  induction hfetch generalizing u with
  | nil =>
    obtain rfl := Except.ok.inj hrun
    simp [ofKind]
  | @cons hash t hashes ts hhead _ ih =>
    rw [List.foldlM_cons] at hrun
    cases hstep : restoreChild get fuel path u hash with
    | error e =>
      rw [hstep] at hrun
      cases hrun
    | ok u₁ =>
      rw [hstep] at hrun
      obtain ⟨hfiles₁, hdirs₁⟩ := restoreChild_targets hhead hstep
      obtain ⟨hfiles, hdirs⟩ := ih hrun
      have happend : ∀ kind, ofKind kind (t :: ts) = ofKind kind [t] ++ ofKind kind ts :=
        fun kind => List.filter_append [t] ts
      simp only [hfiles, hdirs, hfiles₁, hdirs₁, happend, List.map_append, List.append_assoc,
        and_self]

/-- The subdirectories are created, in the order of the children. -/
theorem restoreChildren_dest
    (hfetch : List.Forall₂ (fun hash t => fetchFullTree get fuel hash = .ok t) hashes ts)
    (hnames : ∀ t ∈ ts, IsComponent t.name) (hfresh : u.dest.Fresh path.comps (ts.map Tree.name)) :
    ∃ u', hashes.foldlM (restoreChild get fuel path) u = .ok u' ∧
      u'.dest = u.dest.createEntries path.comps ((ofKind .dir ts).map (·.entry get)) := by
  induction hfetch generalizing u with
  | nil => exact ⟨u, rfl, rfl⟩
  | @cons hash t hashes ts hhead _ ih =>
    obtain ⟨hname, hnames⟩ := List.forall_mem_cons.mp hnames
    rw [List.foldlM_cons]
    cases hkind : t.kind with
    | file =>
      rw [restoreChild_of_file hhead hkind]
      obtain ⟨u', hrun, hdest⟩ := ih (u := { u with files := u.files ++ [target path t] }) hnames
        (hfresh.subperm (List.sublist_cons_self _ _).subperm)
      exact ⟨u', hrun, by simpa [ofKind, hkind] using hdest⟩
    | dir =>
      rw [restoreChild_of_dir hhead hkind hname hfresh]
      obtain ⟨u', hrun, hdest⟩ := ih (u := ⟨Dest.createEntry path.comps u.dest (t.entry get),
        u.files, u.dirs ++ [target path t]⟩) hnames hfresh.createEntry
      exact ⟨u', hrun, by simpa [ofKind, hkind, Dest.createEntries] using hdest⟩

/-! ## 3. The tasks -/

/-- The task of a file whose chunks are all found. -/
structure FileTask (get : GetBlob) (path : FsPath) (x : Tree × FsPath) : Prop where
  path : x = target path x.1
  kind : x.1.kind = .file
  name : IsComponent x.1.name
  read : (readChunks get x.1.children).2 = true

theorem FileTask.restoreFile_eq {x : Tree × FsPath} (h : FileTask get path x)
    {names : List FileName} (hfresh : d.Fresh path.comps (x.1.name :: names)) :
    restoreFile get d x = Dest.createEntry path.comps d (x.1.entry get) := by
  have hnone := hfresh.free x.1.name List.mem_cons_self
  rw [h.path]
  simp only [restoreFile, target, FsPath.push_component h.name, Dest.createFile, hnone,
    List.tail_cons, hfresh.dir, h.read, if_true, Dest.createEntry, Tree.entry, h.kind]

/-- The tasks of different files, in any order. -/
theorem restoreFiles_eq {files : List (Tree × FsPath)} (htasks : ∀ x ∈ files, FileTask get path x)
    (hfresh : d.Fresh path.comps (files.map fun x => x.1.name)) :
    files.foldl (restoreFile get) d
      = d.createEntries path.comps (files.map fun x => x.1.entry get) := by
  induction files generalizing d with
  | nil => rfl
  | cons x files ih =>
    obtain ⟨htask, htasks⟩ := List.forall_mem_cons.mp htasks
    rw [List.foldl_cons, htask.restoreFile_eq hfresh]
    exact ih htasks hfresh.createEntry

/-! ## 4. The whole directory -/

/-- The children of a directory are restored as its entries, in some order. -/
theorem restoreDirectory_spec
    (hfetch : List.Forall₂ (fun hash t => fetchFullTree get fuel hash = .ok t) hashes ts)
    (hnames : ∀ t ∈ ts, IsComponent t.name)
    (hread : ∀ t ∈ ts, t.kind = .file → (readChunks get t.children).2 = true)
    (hfresh : d.Fresh path.comps (ts.map Tree.name)) :
    ∃ u, hashes.foldlM (restoreChild get fuel path) ⟨d, [], []⟩ = .ok u ∧
      ∀ schedule : List (Tree × FsPath) → List (Tree × FsPath), (∀ l, (schedule l).Perm l) →
        ∃ es : List DirEntry, es.Perm (ts.map (·.entry get)) ∧
          (schedule u.files).foldl (restoreFile get) u.dest = d.createEntries path.comps es := by
  obtain ⟨u, hrun, hdest⟩ : ∃ u, hashes.foldlM (restoreChild get fuel path) ⟨d, [], []⟩ = .ok u ∧
    u.dest = d.createEntries path.comps ((ofKind .dir ts).map (·.entry get)) :=
    restoreChildren_dest hfetch hnames hfresh
  obtain ⟨hfiles, -⟩ := restoreChildren_targets hfetch hrun
  refine ⟨u, hrun, fun schedule hsched => ?_⟩
  have hperm : (schedule u.files).Perm ((ofKind .file ts).map (target path)) :=
    (hsched u.files).trans (.of_eq hfiles)
  have htasks : ∀ x ∈ schedule u.files, FileTask get path x := by
    intro x hx
    obtain ⟨t, ht, rfl⟩ := List.mem_map.mp (hperm.subset hx)
    obtain ⟨ht, hkind⟩ := List.mem_filter.mp ht
    have hkind := of_decide_eq_true hkind
    exact ⟨rfl, hkind, hnames t ht, hread t ht hkind⟩
  -- the entries are those of the subdirectories and those of the files
  have hentries : ((ofKind .dir ts).map (·.entry get) ++
      (schedule u.files).map fun x => x.1.entry get).Perm (ts.map (·.entry get)) := by
    have hfileEntries := (hperm.map fun x => x.1.entry get).trans (.of_eq (List.map_map ..))
    have hall := (ofKind_perm ts).map (·.entry get)
    rw [List.map_append] at hall
    exact (hfileEntries.append_left _).trans hall
  have hfree : u.dest.Fresh path.comps ((schedule u.files).map fun x => x.1.name) := by
    rw [hdest]
    refine Dest.Fresh.createEntries (hfresh.subperm (List.Perm.subperm ?_))
    have hnames := hentries.map DirEntry.name
    simp only [List.map_append, List.map_map] at hnames ⊢
    exact hnames
  refine ⟨_, hentries, ?_⟩
  rw [restoreFiles_eq htasks hfree, hdest, ← Dest.createEntries_append]

/-! ## 5. Stored trees -/

/-- The tree without its link to a sibling. -/
def Tree.whole (t : Tree) : Tree := { t with nextSibling := none }

/-- All blobs of the tree are found, and the fuel suffices for its siblings. -/
structure Fetchable (P : Primitives) (get : GetBlob) (fuel : ℕ) (t : Tree) : Prop where
  encodable : t.HeadEncodable
  whole : t.nextSibling = none
  found : ∀ b ∈ splitSerializeTree P t, get b.hash = .ok (some b)
  enough : t.children.length ≤ fuel

variable {P : Primitives}

/-- What is fetched for stored trees differs from them in no more than the siblings. -/
theorem fetch_stored (h : ∀ t ∈ ts, Fetchable P get fuel t) :
    ∃ ts', List.Forall₂ (fun hash t => fetchFullTree get fuel hash = .ok t)
      (ts.map (treeHash P)) ts' ∧ ts'.map Tree.whole = ts := by
  induction ts with
  | nil => exact ⟨[], .nil, rfl⟩
  | cons t ts ih =>
    obtain ⟨ht, hts⟩ := List.forall_mem_cons.mp h
    obtain ⟨t', hfetch, hkind, hname, hmeta, hchildren⟩ :=
      fetchFullTree_split ht.encodable ht.whole ht.found ht.enough
    obtain ⟨ts', hrest, hwhole⟩ := ih hts
    have hsame : t'.whole = t := by
      rw [Tree.whole, hkind, hname, hmeta, hchildren, ← ht.whole]
    exact ⟨t' :: ts', .cons hfetch hrest, by rw [List.map_cons, hsame, hwhole]⟩

/-- When none of them ends the loop, each is on the queue or has a task, with its own path. -/
theorem restoreStored_targets (h : ∀ t ∈ ts, Fetchable P get fuel t)
    (hrun : (ts.map (treeHash P)).foldlM (restoreChild get fuel path) ⟨d, [], []⟩ = .ok u) :
    ((u.dirs ++ u.files).map Prod.snd).Perm (ts.map fun t => path.push t.name) := by
  obtain ⟨ts', hfetch, rfl⟩ := fetch_stored h
  obtain ⟨hfiles, hdirs⟩ := restoreChildren_targets hfetch hrun
  rw [hfiles, hdirs, List.nil_append, List.nil_append, ← List.map_append, List.map_map,
    List.map_map]
  exact (ofKind_perm ts').map _

variable (path) in
/-- Stored trees with different names are restored as the entries of the directory. -/
theorem restoreStored_spec (h : ∀ t ∈ ts, Fetchable P get fuel t)
    (hnames : ∀ t ∈ ts, IsComponent t.name)
    (hread : ∀ t ∈ ts, t.kind = .file → (readChunks get t.children).2 = true)
    (hfresh : d.Fresh path.comps (ts.map Tree.name)) :
    ∃ u, (ts.map (treeHash P)).foldlM (restoreChild get fuel path) ⟨d, [], []⟩ = .ok u ∧
      ∀ schedule : List (Tree × FsPath) → List (Tree × FsPath), (∀ l, (schedule l).Perm l) →
        ∃ es : List DirEntry, es.Perm (ts.map (·.entry get)) ∧
          (schedule u.files).foldl (restoreFile get) u.dest = d.createEntries path.comps es := by
  obtain ⟨ts', hfetch, rfl⟩ := fetch_stored h
  simp only [List.forall_mem_map, List.map_map] at hnames hread hfresh ⊢
  obtain ⟨u, hrun, hentries⟩ := restoreDirectory_spec hfetch hnames hread hfresh
  rw [List.map_map] at hrun
  exact ⟨u, hrun, hentries⟩

end

end Backuwup.Client
