/-
# Unpacking a directory tree (`client/src/backup/filesystem/dir_unpacker.rs`)

The unpacker walks the trees breadth-first from the root hash.  In each directory it fetches the
children one after the other, creates the subdirectories at once, starts a task for each file
and waits for all of them; a file that cannot be restored is only reported.  The tasks of a
directory write to different paths, so they are run one by one, in an order of the scheduler's
choice.

tokio's `File` hands what is written to another thread, and `write_all` returns before the last
piece has been written.  `restore_file` never flushes, so this piece may come after the time of the
file has been set.  `unpack` is the case in which it never does and no call fails; section 3 has
the others.

A path is one below the destination.  The names in the trees are those of the packer, so none of
them leads out of it.
-/
import Backuwup.Client.FileSystem

namespace Backuwup.Client

/-! ## 1. The destination -/

/-- A file or directory that has been written, and its modification time: that of the last
change in it, or one that has been set since. -/
structure Restored where
  node : Node
  mtime : Option ℕ
deriving DecidableEq

/-- The last piece of the file is written.  An empty file has none. -/
def Restored.written : Restored → Restored
  | ⟨.file (byte :: content), _⟩ => ⟨.file (byte :: content), none⟩
  | ⟨node, mtime⟩ => ⟨node, mtime⟩

@[simp] theorem Restored.written_node (r : Restored) : r.written.node = r.node := by
  unfold written
  split <;> rfl

/-- The destination by the paths below it. -/
abbrev Dest := List FileName → Option Restored

namespace Dest

/-- `create_dir_all` of the destination has left an empty directory. -/
def empty : Dest := fun q => if q = [] then some ⟨.dir, none⟩ else none

def nodeAt (d : Dest) (q : List FileName) : Option Node := (d q).map Restored.node

/-- An entry of the directory is created. -/
def touch (d : Dest) (q : List FileName) : Dest :=
  Function.update d q ((d q).map fun e => { e with mtime := none })

def put (d : Dest) (q : List FileName) (node : Node) : Dest :=
  Function.update (d.touch q.tail) q (some ⟨node, none⟩)

def setMtime (d : Dest) (q : List FileName) : Option ℕ → Dest
  | none => d
  | some time => Function.update d q ((d q).map fun e => { e with mtime := some time })

def createDirAll (d : Dest) : List FileName → Option Dest
  | [] => if d.nodeAt [] = some .dir then some d else none
  | name :: parent =>
    match d.createDirAll parent with
    | none => none
    | some d =>
      match d.nodeAt (name :: parent) with
      | some .dir => some d
      | some (.file _) => none
      | none => some (d.put (name :: parent) .dir)

/-- The last piece of the file is written. -/
def written (d : Dest) (q : List FileName) : Dest :=
  Function.update d q ((d q).map Restored.written)

/-- `File::create`, which truncates a file, and the writes into it. -/
def createFile (d : Dest) (q : List FileName) (content : Bytes) : Option Dest :=
  match d.nodeAt q with
  | some .dir => none
  | some (.file _) => some (Function.update d q (some ⟨.file content, none⟩))
  | none => if d.nodeAt q.tail = some .dir then some (d.put q (.file content)) else none

end Dest

/-! ## 2. The unpacker -/

/-- The data of the blobs, up to the first that is not found. -/
def readChunks (get : GetBlob) : List BlobHash → Bytes × Bool
  | [] => ([], true)
  | hash :: hashes =>
    match get hash with
    | .ok (some blob) => (blob.data ++ (readChunks get hashes).1, (readChunks get hashes).2)
    | _ => ([], false)

/-- `restore_file`, whose error is only printed. -/
def restoreFile (get : GetBlob) (d : Dest) (file : Tree × FsPath) : Dest :=
  let chunks := readChunks get file.1.children
  match d.createFile file.2.comps chunks.1 with
  | none => d
  | some d => if chunks.2 then d.setMtime file.2.comps file.1.metadata.mtime else d

/-- A directory that is being unpacked: the destination, the tasks started for its files, and
its subdirectories. -/
structure Unpacking where
  dest : Dest
  files : List (Tree × FsPath)
  dirs : List (Tree × FsPath)

def restoreChild (get : GetBlob) (fuel : ℕ) (path : FsPath) (u : Unpacking) (hash : BlobHash) :
    Except RestoreError Unpacking :=
  match fetchFullTree get fuel hash with
  | .error e => .error e
  | .ok child =>
    let relPath := path.push child.name
    match child.kind with
    | .file => .ok { u with files := u.files ++ [(child, relPath)] }
    | .dir =>
      match u.dest.createDirAll relPath.comps with
      | none => .error .ioError
      | some dest => .ok { u with
          dest := dest.setMtime relPath.comps child.metadata.mtime
          dirs := u.dirs ++ [(child, relPath)] }

def unpackLoop (get : GetBlob) (schedule : List (Tree × FsPath) → List (Tree × FsPath))
    (fuel : ℕ) : ℕ → List (Tree × FsPath) → Dest → Except RestoreError Dest
  | _, [], d => .ok d
  | 0, _ :: _, _ => .error .outOfFuel
  | rounds + 1, (tree, path) :: queue, d =>
    match tree.kind with
    | .file => unpackLoop get schedule fuel rounds queue d
    | .dir =>
      match tree.children.foldlM (restoreChild get fuel path) ⟨d, [], []⟩ with
      | .error e => .error e
      | .ok u => unpackLoop get schedule fuel rounds (queue ++ u.dirs)
          ((schedule u.files).foldl (restoreFile get) u.dest)

/-- `unpack` into an empty destination. -/
def unpack (get : GetBlob) (schedule : List (Tree × FsPath) → List (Tree × FsPath)) (fuel : ℕ)
    (rootHash : BlobHash) : Except RestoreError Dest :=
  match fetchFullTree get fuel rootHash with
  | .error e => .error e
  | .ok tree => unpackLoop get schedule fuel fuel [(tree, ⟨false, []⟩)] .empty

/-! ## 3. Calls that fail, and writes that are late -/

/-- What the file system does that `unpack` does not wait for or cannot rule out. -/
structure IoFaults where
  /-- The calls that fail, by their path. -/
  createDirAll : List FileName → Bool
  create : List FileName → Bool
  /-- What a failing `write_all` of the `i`-th chunk has written. -/
  writeAll : List FileName → ℕ → Option ℕ
  setMtime : List FileName → Bool
  /-- The files whose last piece is written after their time has been set. -/
  lateWrite : List FileName → Bool

def IoFaults.noFault : IoFaults :=
  ⟨fun _ => false, fun _ => false, fun _ _ => none, fun _ => false, fun _ => false⟩

/-- The chunks are read and written one after the other.  A write that fails has not written the
last byte. -/
def writeChunks (get : GetBlob) (fault : ℕ → Option ℕ) : List BlobHash → Bytes × Bool
  | [] => ([], true)
  | hash :: hashes =>
    match get hash with
    | .ok (some blob) =>
      match fault 0 with
      | some n => (blob.data.dropLast.take n, false)
      | none =>
        let rest := writeChunks get (fun i => fault (i + 1)) hashes
        (blob.data ++ rest.1, rest.2)
    | _ => ([], false)

namespace IoFaults

variable (io : IoFaults)

/-- `set_path_mtime`, which calls nothing when there is no time. -/
def setPathMtime (d : Dest) (q : List FileName) (mtime : Option ℕ) : Option Dest :=
  if mtime.isSome ∧ io.setMtime q then none else some (d.setMtime q mtime)

def restoreFile (get : GetBlob) (d : Dest) (file : Tree × FsPath) : Dest :=
  let chunks := writeChunks get (io.writeAll file.2.comps) file.1.children
  if io.create file.2.comps then d
  else
    match d.createFile file.2.comps chunks.1 with
    | none => d
    | some d =>
      let dest :=
        if chunks.2 then (io.setPathMtime d file.2.comps file.1.metadata.mtime).getD d else d
      if io.lateWrite file.2.comps then dest.written file.2.comps else dest

def restoreChild (get : GetBlob) (fuel : ℕ) (path : FsPath) (u : Unpacking) (hash : BlobHash) :
    Except RestoreError Unpacking :=
  match fetchFullTree get fuel hash with
  | .error e => .error e
  | .ok child =>
    let relPath := path.push child.name
    match child.kind with
    | .file => .ok { u with files := u.files ++ [(child, relPath)] }
    | .dir =>
      if io.createDirAll relPath.comps then .error .ioError
      else
        match u.dest.createDirAll relPath.comps with
        | none => .error .ioError
        | some dest =>
          match io.setPathMtime dest relPath.comps child.metadata.mtime with
          | none => .error .ioError
          | some dest => .ok { u with dest := dest, dirs := u.dirs ++ [(child, relPath)] }

def unpackLoop (get : GetBlob) (schedule : List (Tree × FsPath) → List (Tree × FsPath))
    (fuel : ℕ) : ℕ → List (Tree × FsPath) → Dest → Except RestoreError Dest
  | _, [], d => .ok d
  | 0, _ :: _, _ => .error .outOfFuel
  | rounds + 1, (tree, path) :: queue, d =>
    match tree.kind with
    | .file => unpackLoop get schedule fuel rounds queue d
    | .dir =>
      match tree.children.foldlM (io.restoreChild get fuel path) ⟨d, [], []⟩ with
      | .error e => .error e
      | .ok u => unpackLoop get schedule fuel rounds (queue ++ u.dirs)
          ((schedule u.files).foldl (io.restoreFile get) u.dest)

/-- `unpack`, when `create_dir_all` of the destination leaves `start`. -/
def unpack (start : Dest) (get : GetBlob)
    (schedule : List (Tree × FsPath) → List (Tree × FsPath)) (fuel : ℕ) (rootHash : BlobHash) :
    Except RestoreError Dest :=
  if io.createDirAll [] then .error .ioError
  else
    match fetchFullTree get fuel rootHash with
    | .error e => .error e
    | .ok tree => io.unpackLoop get schedule fuel fuel [(tree, ⟨false, []⟩)] start

end IoFaults

section

variable (get : GetBlob) (schedule : List (Tree × FsPath) → List (Tree × FsPath)) (fuel : ℕ)

theorem writeChunks_noFault (hashes : List BlobHash) :
    writeChunks get (fun _ => none) hashes = readChunks get hashes := by
  induction hashes with
  | nil => rfl
  | cons hash hashes ih =>
    rw [writeChunks, readChunks]
    split
    · rw [ih]
    · rfl

theorem restoreFile_noFault : IoFaults.noFault.restoreFile get = restoreFile get := by
  funext d file
  simp [IoFaults.restoreFile, restoreFile, IoFaults.noFault, IoFaults.setPathMtime,
    writeChunks_noFault]

theorem restoreChild_noFault (path : FsPath) :
    IoFaults.noFault.restoreChild get fuel path = restoreChild get fuel path := by
  funext u hash
  simp [IoFaults.restoreChild, restoreChild, IoFaults.noFault, IoFaults.setPathMtime]

theorem unpackLoop_noFault (rounds : ℕ) (queue : List (Tree × FsPath)) (d : Dest) :
    IoFaults.noFault.unpackLoop get schedule fuel rounds queue d
      = unpackLoop get schedule fuel rounds queue d := by
  induction rounds generalizing queue d with
  | zero => cases queue <;> rfl
  | succ rounds ih =>
    cases queue with
    | nil => rfl
    | cons x queue =>
      simp only [IoFaults.unpackLoop, unpackLoop, restoreChild_noFault, restoreFile_noFault, ih]

/-- When no call fails and no write is late, this is `unpack`. -/
theorem unpack_noFault (rootHash : BlobHash) :
    IoFaults.noFault.unpack .empty get schedule fuel rootHash
      = unpack get schedule fuel rootHash := by
  simp only [IoFaults.unpack, unpack, unpackLoop_noFault]
  rfl

end

/-! ## 4. What the operations change -/

namespace Dest

variable {d d' : Dest} {p q : List FileName} {name : FileName} {node : Node}

theorem nodeAt_touch (d : Dest) (p : List FileName) : (d.touch p).nodeAt = d.nodeAt := by
  funext q
  by_cases h : q = p
  · subst h
    simp [nodeAt, touch, Function.comp_def]
  · simp [nodeAt, touch, Function.update_of_ne h]

@[simp] theorem nodeAt_written (d : Dest) (p : List FileName) :
    (d.written p).nodeAt = d.nodeAt := by
  funext q
  by_cases h : q = p
  · subst h
    simp [nodeAt, written, Function.comp_def]
  · simp [nodeAt, written, Function.update_of_ne h]

theorem nodeAt_put (d : Dest) (p : List FileName) (node : Node) (q : List FileName) :
    (d.put p node).nodeAt q = if q = p then some node else d.nodeAt q := by
  by_cases h : q = p
  · subst h
    simp [nodeAt, put]
  · rw [if_neg h, ← nodeAt_touch d p.tail]
    simp [nodeAt, put, Function.update_of_ne h]

@[simp] theorem nodeAt_setMtime (d : Dest) (p : List FileName) (mtime : Option ℕ) :
    (d.setMtime p mtime).nodeAt = d.nodeAt := by
  cases mtime with
  | none => rfl
  | some time =>
    funext q
    by_cases h : q = p
    · subst h
      simp [nodeAt, setMtime, Function.comp_def]
    · simp [nodeAt, setMtime, Function.update_of_ne h]

/-- What exists lies in a directory. -/
def Closed (d : Dest) : Prop :=
  ∀ name q node, d.nodeAt (name :: q) = some node → d.nodeAt q = some .dir

theorem Closed.setMtime (h : d.Closed) (p : List FileName) (mtime : Option ℕ) :
    (d.setMtime p mtime).Closed := by
  intro name q node hnode
  rw [nodeAt_setMtime] at hnode ⊢
  exact h name q node hnode

theorem Closed.written (h : d.Closed) (p : List FileName) : (d.written p).Closed := by
  intro name q node hnode
  rw [nodeAt_written] at hnode ⊢
  exact h name q node hnode

/-- A new entry in a directory. -/
theorem Closed.put (h : d.Closed) (hp : d.nodeAt p = some .dir)
    (hnone : d.nodeAt (name :: p) = none) (node : Node) : (d.put (name :: p) node).Closed := by
  intro name' q n hn
  rw [nodeAt_put] at hn ⊢
  by_cases hq : q = name :: p
  · -- nothing lies below what did not exist
    subst hq
    rw [if_neg (by simp)] at hn
    rw [h _ _ _ hn] at hnone
    cases hnone
  · rw [if_neg hq]
    split at hn
    · rename_i heq
      rw [(List.cons.inj heq).2]
      exact hp
    · exact h _ _ _ hn

/-- A directory that exists is left alone. -/
theorem Closed.createDirAll_self (h : d.Closed) (hq : d.nodeAt q = some .dir) :
    d.createDirAll q = some d := by
  induction q with
  | nil => exact if_pos hq
  | cons name q ih =>
    rw [createDirAll, ih (h _ _ _ hq)]
    simp only [hq]

/-- A subdirectory is created unless it exists. -/
theorem Closed.createDirAll_cons (h : d.Closed) (hq : d.nodeAt q = some .dir)
    (hnone : d.nodeAt (name :: q) = none) :
    d.createDirAll (name :: q) = some (d.put (name :: q) .dir) := by
  rw [createDirAll, h.createDirAll_self hq]
  simp only [hnone]

/-- An entry is replaced by a file. -/
theorem nodeAt_update_file (d : Dest) (p : List FileName) (content : Bytes) (q : List FileName) :
    nodeAt (Function.update d p (some ⟨.file content, none⟩)) q
      = if q = p then some (.file content) else d.nodeAt q := by
  by_cases h : q = p
  · subst h
    simp [nodeAt]
  · rw [if_neg h]
    simp [nodeAt, Function.update_of_ne h]

/-- `create_dir_all` of a subdirectory fails when a file is in its place. -/
theorem Closed.createDirAll_spec (h : d.Closed) (hq : d.nodeAt q = some .dir) (name : FileName) :
    (∃ content, d.nodeAt (name :: q) = some (.file content) ∧ d.createDirAll (name :: q) = none) ∨
      (∀ content, d.nodeAt (name :: q) ≠ some (.file content)) ∧
      ∃ d', d.createDirAll (name :: q) = some d' ∧ d'.Closed ∧
        ∀ p, d'.nodeAt p = if p = name :: q then some .dir else d.nodeAt p := by
  cases hnode : d.nodeAt (name :: q) with
  | none =>
    exact .inr ⟨by simp, d.put (name :: q) .dir, h.createDirAll_cons hq hnode, h.put hq hnode _,
      nodeAt_put d _ _⟩
  | some node =>
    cases node with
    | dir =>
      refine .inr ⟨by simp, d, h.createDirAll_self hnode, h, ?_⟩
      intro p
      split
      · rename_i hp
        rw [hp, hnode]
      · rfl
    | file content =>
      refine .inl ⟨content, rfl, ?_⟩
      rw [createDirAll, h.createDirAll_self hq]
      simp only [hnode]

/-- `create_dir_all` that has succeeded: the path leads through directories, and nothing else has
changed. -/
theorem Closed.of_createDirAll (h : d.Closed) (hd : d.createDirAll p = some d') :
    d'.Closed ∧ (∀ q, q <:+ p → ∀ content, d.nodeAt q ≠ some (.file content)) ∧
      ∀ q, d'.nodeAt q = if q <:+ p then some .dir else d.nodeAt q := by
  induction p generalizing d' with
  | nil =>
    obtain ⟨hroot, heq⟩ := Option.ite_none_right_eq_some.mp hd
    obtain rfl := Option.some.inj heq
    refine ⟨h, ?_, ?_⟩
    · rintro q hq content
      rw [List.suffix_nil.mp hq, hroot]
      simp
    · intro q
      split
      · rename_i hq
        rw [List.suffix_nil.mp hq, hroot]
      · rfl
  | cons name p ih =>
    rw [createDirAll] at hd
    split at hd
    · cases hd
    · rename_i d₁ hd₁
      obtain ⟨hclosed, hfree, hnodes⟩ := ih hd₁
      have hp : d₁.nodeAt p = some .dir := (hnodes p).trans (if_pos (List.suffix_refl p))
      have hnot : ¬ name :: p <:+ p := fun hs => by
        have := hs.length_le
        simp at this
      have hstep : d₁.createDirAll (name :: p) = some d' := by
        rw [createDirAll, hclosed.createDirAll_self hp]
        exact hd
      rcases hclosed.createDirAll_spec hp name with ⟨content, -, hnone⟩ |
        ⟨hfree', d₂, hsome, hclosed', hnodes'⟩
      · rw [hnone] at hstep
        cases hstep
      · obtain rfl := Option.some.inj (hsome.symm.trans hstep)
        refine ⟨hclosed', ?_, ?_⟩
        · intro q hq content
          rcases List.suffix_cons_iff.mp hq with rfl | hq
          · rw [← (hnodes (name :: p)).trans (if_neg hnot)]
            exact hfree' content
          · exact hfree q hq content
        · intro q
          rw [hnodes', hnodes]
          simp only [List.suffix_cons_iff]
          by_cases hq : q = name :: p
          · simp [hq]
          · simp only [hq, if_false, false_or]

/-- It succeeds when no file is in the way. -/
theorem Closed.createDirAll_isSome (h : d.Closed) (hroot : d.nodeAt [] = some .dir)
    (hfree : ∀ q, q <:+ p → ∀ content, d.nodeAt q ≠ some (.file content)) :
    ∃ d', d.createDirAll p = some d' := by
  induction p with
  | nil => exact ⟨d, if_pos hroot⟩
  | cons name p ih =>
    obtain ⟨d₁, hd₁⟩ := ih fun q hq => hfree q (hq.trans (List.suffix_cons name p))
    obtain ⟨-, -, hnodes⟩ := h.of_createDirAll hd₁
    have hnot : ¬ name :: p <:+ p := fun hs => by
      have := hs.length_le
      simp at this
    rw [createDirAll, hd₁]
    have hnode := (hnodes (name :: p)).trans (if_neg hnot)
    cases hn : d.nodeAt (name :: p) with
    | none => exact ⟨_, by simp only [hnode, hn]; rfl⟩
    | some node =>
      cases node with
      | dir => exact ⟨_, by simp only [hnode, hn]; rfl⟩
      | file content => exact absurd hn (hfree _ (List.suffix_refl _) content)

/-- `File::create` and the writes fail when a directory is in the place of the file. -/
theorem Closed.createFile_spec (h : d.Closed) (hq : d.nodeAt q = some .dir) (name : FileName)
    (content : Bytes) :
    d.nodeAt (name :: q) = some .dir ∧ d.createFile (name :: q) content = none ∨
      d.nodeAt (name :: q) ≠ some .dir ∧
      ∃ d', d.createFile (name :: q) content = some d' ∧ d'.Closed ∧
        ∀ p, d'.nodeAt p = if p = name :: q then some (.file content) else d.nodeAt p := by
  cases hnode : d.nodeAt (name :: q) with
  | none =>
    refine .inr ⟨by simp, d.put (name :: q) (.file content), ?_, h.put hq hnode _,
      nodeAt_put d _ _⟩
    simp only [createFile, hnode, List.tail_cons, hq, if_true]
  | some node =>
    cases node with
    | dir => exact .inl ⟨rfl, by simp only [createFile, hnode]⟩
    | file old =>
      refine .inr ⟨by simp, _, by simp only [createFile, hnode], ?_, nodeAt_update_file d _ _⟩
      intro name' p n hn
      rw [nodeAt_update_file] at hn ⊢
      by_cases hp : p = name :: q
      · -- nothing lies below a file
        subst hp
        rw [if_neg (by simp)] at hn
        rw [h _ _ _ hn] at hnode
        cases hnode
      · rw [if_neg hp]
        split at hn
        · rename_i heq
          rw [(List.cons.inj heq).2]
          exact hq
        · exact h _ _ _ hn

theorem nodeAt_of_createFile {content : Bytes} (hd : d.createFile p content = some d')
    (q : List FileName) : d'.nodeAt q = if q = p then some (.file content) else d.nodeAt q := by
  rw [createFile] at hd
  split at hd
  · cases hd
  · obtain rfl := Option.some.inj hd
    exact nodeAt_update_file d p content q
  · obtain ⟨-, heq⟩ := Option.ite_none_right_eq_some.mp hd
    obtain rfl := Option.some.inj heq
    exact nodeAt_put d p _ q

theorem Closed.of_createFile (h : d.Closed) {content : Bytes}
    (hd : d.createFile (name :: q) content = some d') : d'.Closed := by
  have hq : d.nodeAt q = some .dir := by
    unfold createFile at hd
    split at hd
    · cases hd
    · exact h _ _ _ ‹_›
    · exact (Option.ite_none_right_eq_some.mp hd).1
  rcases h.createFile_spec hq name content with ⟨-, hnone⟩ | ⟨-, d'', hsome, hclosed, -⟩
  · cases hd.symm.trans hnone
  · obtain rfl := Option.some.inj (hsome.symm.trans hd)
    exact hclosed

theorem closed_empty : empty.Closed := by
  intro name q node h
  simp [nodeAt, empty] at h

theorem nodeAt_empty (q : List FileName) :
    empty.nodeAt q = if q = [] then some .dir else none := by
  unfold nodeAt empty
  split <;> rfl

end Dest

end Backuwup.Client
