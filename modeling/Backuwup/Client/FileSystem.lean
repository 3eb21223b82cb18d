/-
# Paths and the file system

What the client's `PathBuf`s denote, and the files and directories they lead to.  A path is a
list of components.  Only the configured backup path can have `..` among them, which leads to the
parent of a directory that is there (`FileSystem.leads`); the parent of the root is the root.

The file system is a finite set of directories and regular files, closed under parents
(`FileSystem.closed`), that does not change while it is read; there are no links.  What `read_dir`
yields comes in any order (`Listing`).
-/
import Backuwup.Client.Tree
import Mathlib.Data.List.Perm.Subperm

namespace Backuwup.Client

/-! ## 1. Paths -/

/-- A `PathBuf`; the components stand from the innermost outwards. -/
structure FsPath where
  absolute : Bool
  comps : List FileName
deriving DecidableEq

namespace FsPath

/-- `PathBuf::from`: empty components and `.` are passed over. -/
def parse (s : FileName) : FsPath :=
  ⟨s.head? = some '/', ((s.splitOn '/').filter fun c => c ≠ [] ∧ c ≠ ['.']).reverse⟩

/-- `join`: an absolute path replaces the one it is joined to. -/
def join (p q : FsPath) : FsPath :=
  if q.absolute then q else ⟨p.absolute, q.comps ++ p.comps⟩

def push (p : FsPath) (name : FileName) : FsPath := p.join (.parse name)

/-- The component that leads to the parent. -/
def dotDot : FileName := ['.', '.']

/-- `file_name().unwrap_or("")`; a path that ends in `..` has no file name. -/
def fileName (p : FsPath) : FileName :=
  match p.comps with
  | [] => []
  | name :: _ => if name = dotDot then [] else name

/-- Where a process in the directory `cwd` starts to follow the path. -/
def start (cwd : List FileName) (p : FsPath) : List FileName := if p.absolute then [] else cwd

/-- Where the components lead, one after the other. -/
def follow (start : List FileName) : List FileName → List FileName
  | [] => start
  | name :: outer =>
    if name = dotDot then (follow start outer).tail else name :: follow start outer

/-- The components from the root of the file system, for a process in the directory `cwd`. -/
def resolve (cwd : List FileName) (p : FsPath) : List FileName := follow (p.start cwd) p.comps

end FsPath

/-- No file system has longer names. -/
def nameMax : ℕ := 1024

/-- What the name of a directory entry can be. -/
structure ValidName (name : FileName) : Prop where
  nonempty : name ≠ []
  noSeparator : '/' ∉ name
  notDot : name ≠ ['.']
  notDotDot : name ≠ FsPath.dotDot
  short : (utf8 name).length ≤ nameMax

instance (name : FileName) : Decidable (ValidName name) :=
  decidable_of_iff (name ≠ [] ∧ '/' ∉ name ∧ name ≠ ['.'] ∧ name ≠ FsPath.dotDot ∧
      (utf8 name).length ≤ nameMax)
    ⟨fun ⟨h1, h2, h3, h4, h5⟩ => ⟨h1, h2, h3, h4, h5⟩,
      fun ⟨h1, h2, h3, h4, h5⟩ => ⟨h1, h2, h3, h4, h5⟩⟩

/-- What a path takes for one component. -/
structure IsComponent (name : FileName) : Prop where
  nonempty : name ≠ []
  noSeparator : '/' ∉ name
  notDot : name ≠ ['.']

theorem ValidName.isComponent {name : FileName} (h : ValidName name) : IsComponent name :=
  ⟨h.nonempty, h.noSeparator, h.notDot⟩

namespace FsPath

theorem parse_component {name : FileName} (h : IsComponent name) :
    parse name = ⟨false, [name]⟩ := by
  have hhead : ¬ name.head? = some '/' := fun hh => h.noSeparator (List.mem_of_head? hh)
  have hsplit : name.splitOn '/' = [name] := List.splitOn_eq_singleton h.noSeparator
  simp [parse, hhead, hsplit, h.nonempty, h.notDot]

theorem push_component {name : FileName} (h : IsComponent name) (p : FsPath) :
    p.push name = ⟨p.absolute, name :: p.comps⟩ := by
  simp [push, join, parse_component h]

theorem push_validName {name : FileName} (h : ValidName name) (p : FsPath) :
    p.push name = ⟨p.absolute, name :: p.comps⟩ := push_component h.isComponent p

/-- The name of the root node is empty. -/
@[simp] theorem push_nil (p : FsPath) : p.push [] = p := by
  simp [push, join, parse]

/-- A separator at the end makes no difference. -/
theorem parse_trailing {s : FileName} (h : s ≠ []) : parse (s ++ ['/']) = parse s := by
  have hhead : (s ++ ['/']).head? = s.head? := List.head?_append_of_ne_nil s h
  have hsplit : (s ++ ['/']).splitOn '/' = s.splitOn '/' ++ [[]] :=
    List.splitOn_append_cons_self s []
  simp [parse, hhead, hsplit]

theorem fileName_cons {name : FileName} (h : name ≠ dotDot) (absolute : Bool)
    (comps : List FileName) : fileName ⟨absolute, name :: comps⟩ = name := if_neg h

/-- Names lead downwards. -/
theorem follow_append {start names : List FileName} (h : ∀ name ∈ names, name ≠ dotDot)
    (comps : List FileName) : follow start (names ++ comps) = names ++ follow start comps := by
  induction names with
  | nil => rfl
  | cons name names ih =>
    obtain ⟨hname, hnames⟩ := List.forall_mem_cons.mp h
    rw [List.cons_append, follow, if_neg hname, ih hnames, List.cons_append]

end FsPath

/-! ## 2. The file system -/

inductive Node
  | dir
  | file (content : Bytes)
deriving DecidableEq

/-- The root is a directory; any other entry has a valid name and lies in a directory. -/
def EntryOk (entries : List (List FileName × Node)) : List FileName × Node → Prop
  | ([], node) => node = .dir
  | (name :: parent, _) => ValidName name ∧ (parent, .dir) ∈ entries

instance (entries : List (List FileName × Node)) :
    ∀ e, Decidable (EntryOk entries e)
  | ([], _) => inferInstanceAs (Decidable (_ = _))
  | (_ :: _, _) => inferInstanceAs (Decidable (_ ∧ _))

/-- Directories and regular files under their paths from the root. -/
structure FileSystem where
  entries : List (List FileName × Node)
  nodup : (entries.map Prod.fst).Nodup
  closed : ∀ e ∈ entries, EntryOk entries e

namespace FileSystem

variable (fs : FileSystem)

def node (p : List FileName) : Option Node :=
  (fs.entries.find? fun e => e.1 = p).map Prod.snd

variable {fs} {p : List FileName} {node : Node}

theorem node_eq_some : fs.node p = some node ↔ (p, node) ∈ fs.entries := by
  unfold FileSystem.node
  constructor
  · intro h
    obtain ⟨⟨p', n⟩, hfind, rfl⟩ := Option.map_eq_some_iff.mp h
    obtain rfl : p' = p := by simpa using List.find?_some hfind
    exact List.mem_of_find?_eq_some hfind
  · intro h
    cases hfind : fs.entries.find? fun e => e.1 = p with
    | none => exact absurd (List.find?_eq_none.mp hfind _ h) (by simp)
    | some e =>
      obtain rfl : e.1 = p := by simpa using List.find?_some hfind
      have heq := List.inj_on_of_nodup_map fs.nodup (List.mem_of_find?_eq_some hfind) h rfl
      rw [heq]
      rfl

/-- What lies in a directory has a valid name. -/
theorem validName {name : FileName} (h : fs.node (name :: p) = some node) : ValidName name :=
  (fs.closed _ (node_eq_some.mp h)).1

theorem parent {name : FileName} (h : fs.node (name :: p) = some node) :
    fs.node p = some .dir :=
  node_eq_some.mpr (fs.closed _ (node_eq_some.mp h)).2

/-- The names on the path to an entry are valid. -/
theorem validNames {names : List FileName} (h : fs.node (names ++ p) = some node) :
    ∀ name ∈ names, ValidName name := by
  induction names generalizing node with
  | nil => simp
  | cons name names ih =>
    exact List.forall_mem_cons.mpr ⟨validName h, ih (parent h)⟩

variable (fs) in
/-- Each component of the path is looked up in a directory. -/
def leads (start : List FileName) : List FileName → Bool
  | [] => true
  | _ :: outer => leads start outer && decide (fs.node (FsPath.follow start outer) = some .dir)

/-- Names lead to an entry that is there. -/
theorem leads_append {start names comps : List FileName}
    (h : fs.node (names ++ FsPath.follow start comps) = some node) :
    fs.leads start (names ++ comps) = fs.leads start comps := by
  induction names generalizing node with
  | nil => rfl
  | cons name names ih =>
    have hdir : fs.node (names ++ FsPath.follow start comps) = some .dir := parent h
    have hnames : ∀ name ∈ names, name ≠ FsPath.dotDot :=
      fun name hname => (validNames hdir name hname).notDotDot
    rw [List.cons_append, leads, FsPath.follow_append hnames, ih hdir, hdir]
    simp

/-- A longer path does not lead further than the path that it continues. -/
theorem leads_of_append {start names comps : List FileName}
    (h : fs.leads start (names ++ comps) = true) : fs.leads start comps = true := by
  induction names with
  | nil => exact h
  | cons name names ih => exact ih (Bool.and_eq_true_iff.mp h).1

/-- There are no more paths than entries. -/
theorem length_le_of_nodup {paths : List (List FileName)} (hnodup : paths.Nodup)
    (h : ∀ p ∈ paths, ∃ node, fs.node p = some node) : paths.length ≤ fs.entries.length := by
  have hsub : paths ⊆ fs.entries.map Prod.fst := by
    intro p hp
    obtain ⟨node, hnode⟩ := h p hp
    exact List.mem_map.mpr ⟨_, node_eq_some.mp hnode, rfl⟩
  simpa using (List.subperm_of_subset hnodup hsub).length_le

end FileSystem

/-- What `read_dir` yields for each directory, in some order. -/
structure Listing (fs : FileSystem) where
  names : List FileName → List FileName
  nodup : ∀ p, (names p).Nodup
  mem : ∀ p name, name ∈ names p ↔ ∃ node, fs.node (name :: p) = some node

/-- The name of an entry of the directory. -/
def nameIn (p : List FileName) : List FileName → Option FileName
  | [] => none
  | name :: parent => if parent = p then some name else none

theorem nameIn_eq_some {p q : List FileName} {name : FileName} :
    nameIn p q = some name ↔ q = name :: p := by
  cases q with
  | nil => simp [nameIn]
  | cons name' parent =>
    simp only [nameIn, Option.ite_none_right_eq_some, Option.some.injEq, List.cons.injEq]
    exact and_comm

/-- The entries in the order in which the file system has them. -/
def FileSystem.listing (fs : FileSystem) : Listing fs where
  names p := (fs.entries.map Prod.fst).filterMap (nameIn p)
  nodup p := fs.nodup.filterMap fun q q' name hq hq' =>
    (nameIn_eq_some.mp hq).trans (nameIn_eq_some.mp hq').symm
  mem p name := by
    simp only [List.mem_filterMap, List.mem_map, nameIn_eq_some, FileSystem.node_eq_some]
    constructor
    · rintro ⟨_, ⟨e, he, rfl⟩, heq⟩
      exact ⟨e.2, heq ▸ he⟩
    · rintro ⟨node, h⟩
      exact ⟨_, ⟨_, h, rfl⟩, rfl⟩

/-! ## 3. What a process sees -/

/-- The times and the size that fit into a `u64`. -/
structure TreeMetadata.Bounded (m : TreeMetadata) : Prop where
  size : ∀ n ∈ m.size, n < 18446744073709551616
  mtime : ∀ n ∈ m.mtime, n < 18446744073709551616
  ctime : ∀ n ∈ m.ctime, n < 18446744073709551616

/-- The file system and what its calls yield while a backup scans the directories and then packs
them. -/
structure Host where
  fs : FileSystem
  cwd : List FileName
  scanned : Listing fs
  packed : Listing fs
  metadata : List FileName → TreeMetadata
  bounded : ∀ p, (metadata p).Bounded

namespace Host

variable (host : Host)

/-- The path can be followed. -/
def reaches (path : FsPath) : Bool := host.fs.leads (path.start host.cwd) path.comps

def node (path : FsPath) : Option Node :=
  if host.reaches path then host.fs.node (path.resolve host.cwd) else none

/-- `fs::read_dir`, the names of the entries. -/
def readDir (listing : Listing host.fs) (path : FsPath) : Option (List FileName) :=
  match host.node path with
  | some .dir => some (listing.names (path.resolve host.cwd))
  | _ => none

/-- The path of the backup root. -/
def base (root : FsPath) : List FileName := root.resolve host.cwd

variable {host} {path root : FsPath} {node : Node}

theorem node_eq_some : host.node path = some node ↔
    host.reaches path = true ∧ host.fs.node (path.resolve host.cwd) = some node := by
  simp [Host.node]

/-- An entry below the root, by its names. -/
theorem resolve_append {names : List FileName} (h : ∀ name ∈ names, name ≠ FsPath.dotDot) :
    FsPath.resolve host.cwd ⟨root.absolute, names ++ root.comps⟩ = names ++ host.base root :=
  FsPath.follow_append h root.comps

theorem node_append {names : List FileName} (h : ∀ name ∈ names, name ≠ FsPath.dotDot) :
    host.node ⟨root.absolute, names ++ root.comps⟩ = some node ↔
      host.reaches root = true ∧ host.fs.node (names ++ host.base root) = some node := by
  rw [node_eq_some, resolve_append h]
  constructor
  · rintro ⟨hreaches, hnode⟩
    exact ⟨FileSystem.leads_of_append hreaches, hnode⟩
  · rintro ⟨hreaches, hnode⟩
    exact ⟨(FileSystem.leads_append hnode).trans hreaches, hnode⟩

end Host

end Backuwup.Client
