/-
# The folders of peers (`received_files_writer.rs`, `restore_files_writer.rs`, `file_utils.rs`)

A client keeps the files of each peer in a folder of the data directory: the packfiles in
subfolders, the index files under their numbers, all of them obfuscated.  What it gets back from
others it writes into its restore folder, where a packfile manager then looks for it by a layout of
its own.

`obfuscateDataImpl_involutive`: obfuscating twice gives back the data.
`Ready.writeFiles` and `finds_of_nodeAt`: what is written into the restore folder is found there.
-/
import Backuwup.Client.DirUnpacker
import Backuwup.Client.NetP2p.RestoredFiles
import Backuwup.Client.NetP2p.ReceivedFiles
import Mathlib.Data.Finset.Dedup
import Mathlib.Data.Set.Finite.Basic

namespace Backuwup.Client

/-! ## 1. Obfuscation -/

/-- `obfuscate_data_impl` as it runs, in chunks of four bytes of which the last may be shorter. -/
def obfuscateDataImpl (key : FixedBytes 4) (data : Bytes) : Bytes :=
  ((chunks 4 data.length data).map fun dword =>
    dword.mapIdx fun i byte => byte ^^^ key.bytes.getD i 0).flatten

theorem xor_cancel (a b : Byte) : (a ^^^ b) ^^^ b = a := by
  have h : ∀ x y : Byte, (x ^^^ y).val = x.val ^^^ y.val := fun x y =>
    Nat.mod_eq_of_lt (Nat.xor_lt_two_pow (n := 8) x.isLt y.isLt)
  apply Fin.ext
  rw [h, h, Nat.xor_assoc, Nat.xor_self, Nat.xor_zero]

/-- Every byte meets the key byte of its position modulo four. -/
theorem obfuscateDataImpl_eq (key : FixedBytes 4) (data : Bytes) :
    obfuscateDataImpl key data = obfuscateData key data := by
  have hall : ∀ fuel (xs : Bytes), xs.length ≤ fuel →
      ((chunks 4 fuel xs).map fun dword =>
        dword.mapIdx fun i byte => byte ^^^ key.bytes.getD i 0).flatten
        = xs.mapIdx fun i byte => byte ^^^ key.bytes.getD (i % 4) 0 := by
    intro fuel
    induction fuel with
    | zero =>
      intro xs hxs
      obtain rfl := List.length_eq_zero_iff.mp (Nat.le_zero.mp hxs)
      rfl
    | succ fuel ih =>
      intro xs hxs
      cases hx : xs with
      | nil => rfl
      | cons x rest =>
        rw [← hx]
        have hne : xs.isEmpty = false := by rw [hx]; rfl
        have hlen : (xs.drop 4).length ≤ fuel := by
          have : xs.length = rest.length + 1 := by rw [hx]; rfl
          simp only [List.length_drop]
          omega
        rw [chunks, hne, if_neg (by simp), List.map_cons, List.flatten_cons, ih _ hlen]
        -- the key starts again with every chunk
        apply List.ext_getElem?
        intro i
        rw [List.getElem?_append]
        simp only [List.length_mapIdx, List.length_take, List.getElem?_mapIdx]
        split
        · rename_i hi
          rw [List.getElem?_take_of_lt (by omega), Nat.mod_eq_of_lt (by omega)]
        · rename_i hi
          rw [List.getElem?_drop]
          by_cases hshort : xs.length < 4
          · rw [List.getElem?_eq_none (by omega), List.getElem?_eq_none (by omega)]
            rfl
          · have hi' : 4 + (i - min 4 xs.length) = i := by omega
            have hmod : (i - min 4 xs.length) % 4 = i % 4 := by omega
            rw [hi', hmod]
  exact hall _ data (le_refl _)

/-- Obfuscating twice gives back the data. -/
theorem obfuscateDataImpl_involutive (key : FixedBytes 4) :
    Function.Involutive (obfuscateDataImpl key) := by
  intro data
  rw [obfuscateDataImpl_eq, obfuscateDataImpl_eq]
  apply List.ext_getElem?
  intro i
  simp only [obfuscateData, List.getElem?_mapIdx, Option.map_map]
  cases data[i]? with
  | none => rfl
  | some byte => simp [xor_cancel]

/-! ## 2. The data directory -/

def appFolderName : FileName := "backuwup".toList

def receivedPackfilesFolder : List FileName := ["received_packfiles".toList, appFolderName]

def restoredPackfilesFolder : List FileName := ["restore_packfiles".toList, appFolderName]

def peerFolder (peer : ClientId) : List FileName :=
  Hex.encode peer.bytes :: receivedPackfilesFolder

/-- Where a receiver puts a file. -/
def filePath (folder : List FileName) : FileInfo → List FileName
  | .packfile id => getPackfilePath folder id
  | .index n => getIndexPath folder n

/-- The three calls of `create_dir_all` in `PeerDataReceiver::new` and `RestoreReceiver::new`. -/
def createFolders (folder : List FileName) (d : Dest) : Option Dest := do
  let d ← d.createDirAll folder
  let d ← d.createDirAll (indexFolder :: folder)
  d.createDirAll (packfileFolder :: folder)

/-- `get_packfile_path` creates the subfolder of a packfile. -/
def createSubfolder (folder : List FileName) (info : FileInfo) (d : Dest) : Option Dest :=
  match info with
  | .packfile id => d.createDirAll (getPackfilePath folder id).tail
  | .index _ => some d

/-- What `read_dir` yields for each directory, in some order. -/
structure Enumerates (d : Dest) (listing : List FileName → List FileName) : Prop where
  nodup : ∀ p, (listing p).Nodup
  mem : ∀ p name, name ∈ listing p ↔ ∃ node, d.nodeAt (name :: p) = some node

def readDir (d : Dest) (listing : List FileName → List FileName) (p : List FileName) :
    Option (List FileName) :=
  if d.nodeAt p = some .dir then some (listing p) else none

/-! ## 3. Writing what comes back -/

def saveRestored (d : Dest) (file : FileInfo × Bytes) : Option Dest := do
  let d ← createSubfolder restoredPackfilesFolder file.1 d
  d.createFile (filePath restoredPackfilesFolder file.1) file.2

/-- `RestoreReceiver::new`, and the files one after the other. -/
def writeRestored (d : Dest) (files : List (FileInfo × Bytes)) : Option Dest := do
  let d ← createFolders restoredPackfilesFolder d
  files.foldlM saveRestored d

def Manager.getPackfilePath (outputPath : List FileName) (packfileHash : PackfileId) :
    List FileName :=
  let packfileHashHex := Hex.encode packfileHash.bytes
  let directory := packfileHashHex.take 2 :: outputPath
  packfileHashHex :: directory

/-- What `Manager::new` on a folder has before it: `get_blob` reads the packfiles by their ids, and
`load` the files of the index folder. -/
def diskAt (d : Dest) (listing : List FileName → List FileName) (folder : List FileName) :
    Disk where
  packfiles id :=
    match d.nodeAt (Manager.getPackfilePath (packfileFolder :: folder) id) with
    | some (.file content) => some content
    | _ => none
  index := (listing (indexFolder :: folder)).filterMap fun name =>
    match d.nodeAt (name :: indexFolder :: folder) with
    | some (.file content) => some (name, content)
    | _ => none

/-- A manager finds the file: a packfile under its id, an index file in the listing, with a name
that `load` reads as its number. -/
def Disk.Finds (disk : Disk) (data : Bytes) : FileInfo → Prop
  | .packfile id => disk.packfiles id = some data
  | .index n => (indexFileName n, data) ∈ disk.index ∧ parseU32 (indexFileName n) = some n.val

/-! ## 4. The layout -/

theorem filePath_inj {folder folder' : List FileName} {info info' : FileInfo}
    (hlen : folder.length = folder'.length) (h : filePath folder info = filePath folder' info') :
    folder = folder' ∧ info = info' := by
  cases info with
  | packfile id =>
    cases info' with
    | packfile id' =>
      simp only [filePath, getPackfilePath, List.cons.injEq] at h
      exact ⟨h.2.2.2, congrArg _ (FixedBytes.ext' (Hex.encode_injective h.1))⟩
    | index n =>
      have := congrArg List.length h
      simp only [filePath, getPackfilePath, getIndexPath, List.length_cons] at this
      omega
  | index n =>
    cases info' with
    | packfile id =>
      have := congrArg List.length h
      simp only [filePath, getPackfilePath, getIndexPath, List.length_cons] at this
      omega
    | index n' =>
      simp only [filePath, getIndexPath, List.cons.injEq] at h
      refine ⟨h.2.2, ?_⟩
      by_contra hne
      exact Disk.indexFileName_ne (fun heq => hne (congrArg FileInfo.index heq)) h.1

theorem peerFolder_injective : Function.Injective peerFolder := by
  intro peer peer' h
  simp only [peerFolder, List.cons.injEq] at h
  exact FixedBytes.ext' (Hex.encode_injective h.1)

theorem exists_parent_filePath (folder : List FileName) (info : FileInfo) :
    ∃ name parent, filePath folder info = name :: parent := by
  cases info with
  | packfile id => exact ⟨_, _, rfl⟩
  | index n => exact ⟨_, _, rfl⟩

/-- The folders of peers, and all that is in them, lie in one folder. -/
theorem exists_filePath (peer : ClientId) (info : FileInfo) :
    ∃ p, filePath (peerFolder peer) info = p ++ receivedPackfilesFolder := by
  cases info with
  | packfile id => exact ⟨[_, _, _, _], rfl⟩
  | index n => exact ⟨[_, _, _], rfl⟩

/-! ## 5. What the calls leave alone -/

/-- Directories have been created, and no file has changed. -/
structure SameFiles (d d' : Dest) : Prop where
  closed : d'.Closed
  files : ∀ q content, d'.nodeAt q = some (.file content) ↔ d.nodeAt q = some (.file content)
  dirs : ∀ q, d.nodeAt q = some .dir → d'.nodeAt q = some .dir

section

variable {d d' : Dest} {folder p : List FileName} {info : FileInfo}

theorem SameFiles.refl (h : d.Closed) : SameFiles d d := ⟨h, fun _ _ => .rfl, fun _ hq => hq⟩

theorem SameFiles.trans {d'' : Dest} (h : SameFiles d d') (h' : SameFiles d' d'') :
    SameFiles d d'' :=
  ⟨h'.closed, fun q content => (h'.files q content).trans (h.files q content),
    fun q hq => h'.dirs q (h.dirs q hq)⟩

theorem sameFiles_createDirAll (h : d.Closed) (hd : d.createDirAll p = some d') :
    SameFiles d d' ∧ d'.nodeAt p = some .dir := by
  obtain ⟨hclosed, hfree, hnodes⟩ := h.of_createDirAll hd
  refine ⟨⟨hclosed, fun q content => ?_, fun q hq => ?_⟩,
    (hnodes p).trans (if_pos (List.suffix_refl p))⟩
  · rw [hnodes]
    split
    · rename_i hq
      exact iff_of_false (by simp) (hfree q hq content)
    · rfl
  · rw [hnodes]
    split
    · rfl
    · exact hq

theorem createFolders_spec (h : d.Closed) (hd : createFolders folder d = some d') :
    SameFiles d d' ∧ d'.nodeAt (indexFolder :: folder) = some .dir ∧
      d'.nodeAt (packfileFolder :: folder) = some .dir := by
  obtain ⟨d₁, hd₁, hd⟩ := Option.bind_eq_some_iff.mp hd
  obtain ⟨d₂, hd₂, hd⟩ := Option.bind_eq_some_iff.mp hd
  obtain ⟨h₁, -⟩ := sameFiles_createDirAll h hd₁
  obtain ⟨h₂, hindex⟩ := sameFiles_createDirAll h₁.closed hd₂
  obtain ⟨h₃, hpack⟩ := sameFiles_createDirAll h₂.closed hd
  exact ⟨h₁.trans (h₂.trans h₃), h₃.dirs _ hindex, hpack⟩

theorem sameFiles_createSubfolder (h : d.Closed) (hd : createSubfolder folder info d = some d') :
    SameFiles d d' := by
  cases info with
  | packfile id => exact (sameFiles_createDirAll h hd).1
  | index n =>
    obtain rfl := Option.some.inj hd
    exact .refl h

end

/-! ## 6. Where it is written -/

/-- Nothing is in the way of a restore: files of earlier ones may be there. -/
structure Unobstructed (d : Dest) : Prop where
  closed : d.Closed
  root : d.nodeAt [] = some .dir
  folders : ∀ q, q <:+ indexFolder :: restoredPackfilesFolder ∨
    q <:+ packfileFolder :: restoredPackfilesFolder →
      ∀ content, d.nodeAt q ≠ some (.file content)
  subfolders : ∀ name content,
    d.nodeAt (name :: packfileFolder :: restoredPackfilesFolder) ≠ some (.file content)
  files : ∀ info, d.nodeAt (filePath restoredPackfilesFolder info) ≠ some .dir

/-- The folders have been created. -/
structure Ready (d : Dest) : Prop where
  closed : d.Closed
  index : d.nodeAt (indexFolder :: restoredPackfilesFolder) = some .dir
  pack : d.nodeAt (packfileFolder :: restoredPackfilesFolder) = some .dir
  subfolders : ∀ name content,
    d.nodeAt (name :: packfileFolder :: restoredPackfilesFolder) ≠ some (.file content)
  files : ∀ info, d.nodeAt (filePath restoredPackfilesFolder info) ≠ some .dir

section

variable {d d' : Dest} {file : FileInfo × Bytes}

theorem filePath_ne_subfolder (info : FileInfo) (name : FileName) :
    filePath restoredPackfilesFolder info
      ≠ name :: packfileFolder :: restoredPackfilesFolder := by
  intro h
  cases info with
  | packfile id =>
    have := congrArg List.length h
    simp [filePath, getPackfilePath] at this
  | index n =>
    simp only [filePath, getIndexPath, List.cons.injEq] at h
    exact absurd h.2.1 (by decide)

/-- Nor does it lead to one of the folders. -/
theorem filePath_not_suffix (info : FileInfo) (name : FileName) :
    ¬ filePath restoredPackfilesFolder info <:+ name :: restoredPackfilesFolder := by
  intro h
  have hle := h.length_le
  cases info with
  | packfile id =>
    simp only [filePath, getPackfilePath, List.length_cons] at hle
    omega
  | index n =>
    simp only [filePath, getIndexPath, List.length_cons] at hle
    omega

/-- `RestoreReceiver::new`. -/
theorem Unobstructed.createFolders (h : Unobstructed d) :
    ∃ d', Client.createFolders restoredPackfilesFolder d = some d' ∧ Ready d' := by
  have hfree : ∀ {d₁ : Dest}, SameFiles d d₁ → ∀ q, q <:+ indexFolder :: restoredPackfilesFolder ∨
      q <:+ packfileFolder :: restoredPackfilesFolder →
      ∀ content, d₁.nodeAt q ≠ some (.file content) := fun hsame q hq content hc =>
    h.folders q hq content ((hsame.files q content).mp hc)
  obtain ⟨d₁, hd₁⟩ := h.closed.createDirAll_isSome (p := restoredPackfilesFolder) h.root
    fun q hq => h.folders q (.inl (hq.trans (List.suffix_cons _ _)))
  obtain ⟨hsame₁, -⟩ := sameFiles_createDirAll h.closed hd₁
  obtain ⟨d₂, hd₂⟩ := hsame₁.closed.createDirAll_isSome
    (p := indexFolder :: restoredPackfilesFolder) (hsame₁.dirs _ h.root)
    fun q hq => hfree hsame₁ q (.inl hq)
  obtain ⟨hsame₂, -⟩ := sameFiles_createDirAll hsame₁.closed hd₂
  obtain ⟨d₃, hd₃⟩ := hsame₂.closed.createDirAll_isSome
    (p := packfileFolder :: restoredPackfilesFolder) (hsame₂.dirs _ (hsame₁.dirs _ h.root))
    fun q hq => hfree (hsame₁.trans hsame₂) q (.inr hq)
  have hd : Client.createFolders restoredPackfilesFolder d = some d₃ := by
    simp only [Client.createFolders, hd₁, hd₂, hd₃, Option.bind_eq_bind, Option.bind_some]
  obtain ⟨hsame, hindex, hpack⟩ := createFolders_spec h.closed hd
  refine ⟨d₃, hd, hsame.closed, hindex, hpack, fun name content hc => ?_, fun info hdir => ?_⟩
  · exact h.subfolders name content ((hsame.files _ _).mp hc)
  · -- the directories that have been created are above the files
    obtain ⟨-, -, hnodes₁⟩ := h.closed.of_createDirAll hd₁
    obtain ⟨-, -, hnodes₂⟩ := hsame₁.closed.of_createDirAll hd₂
    obtain ⟨-, -, hnodes₃⟩ := hsame₂.closed.of_createDirAll hd₃
    rw [hnodes₃, if_neg (filePath_not_suffix _ _), hnodes₂, if_neg (filePath_not_suffix _ _),
      hnodes₁, if_neg fun hs => filePath_not_suffix info indexFolder
        (hs.trans (List.suffix_cons _ _))] at hdir
    exact h.files info hdir

theorem Ready.createSubfolder (h : Ready d) (info : FileInfo) :
    ∃ d' name parent, Client.createSubfolder restoredPackfilesFolder info d = some d' ∧
      Ready d' ∧ filePath restoredPackfilesFolder info = name :: parent ∧
      d'.nodeAt parent = some .dir ∧ SameFiles d d' := by
  cases info with
  | packfile id =>
    rcases h.closed.createDirAll_spec h.pack ((Hex.encode id.bytes).take 2) with
      ⟨content, hfile, -⟩ | ⟨-, d', hd', hclosed, hnodes⟩
    · exact absurd hfile (h.subfolders _ _)
    · obtain ⟨hsame, hdir⟩ := sameFiles_createDirAll h.closed hd'
      refine ⟨d', _, _, hd', ⟨hclosed, hsame.dirs _ h.index, hsame.dirs _ h.pack,
        fun name content hc => h.subfolders name content ((hsame.files _ _).mp hc),
        fun info hdir' => ?_⟩, rfl, hdir, hsame⟩
      rw [hnodes, if_neg (filePath_ne_subfolder _ _)] at hdir'
      exact h.files info hdir'
  | index n => exact ⟨d, _, _, rfl, h, rfl, h.index, .refl h.closed⟩

/-- A file is written, and no other one changes. -/
theorem Ready.saveRestored (h : Ready d) (file : FileInfo × Bytes) :
    ∃ d', Client.saveRestored d file = some d' ∧ Ready d' ∧
      d'.nodeAt (filePath restoredPackfilesFolder file.1) = some (.file file.2) ∧
      ∀ q content, q ≠ filePath restoredPackfilesFolder file.1 →
        d.nodeAt q = some (.file content) → d'.nodeAt q = some (.file content) := by
  obtain ⟨d₁, name, parent, hd₁, h₁, hpath, hparent, hsame⟩ := h.createSubfolder file.1
  rcases h₁.closed.createFile_spec hparent name file.2 with ⟨hdir, -⟩ |
    ⟨-, d', hd', hclosed, hnodes⟩
  · rw [← hpath] at hdir
    exact absurd hdir (h₁.files file.1)
  rw [← hpath] at hd' hnodes
  have hne : ∀ name', name' :: restoredPackfilesFolder
      ≠ filePath restoredPackfilesFolder file.1 := fun name' heq =>
    filePath_not_suffix file.1 name' (heq ▸ List.suffix_refl _)
  refine ⟨d', ?_, ⟨hclosed, ?_, ?_, fun name' content => ?_, fun info => ?_⟩, ?_, ?_⟩
  · simp only [Client.saveRestored, hd₁, Option.bind_eq_bind, Option.bind_some, hd']
  · rw [hnodes, if_neg (hne _), h₁.index]
  · rw [hnodes, if_neg (hne _), h₁.pack]
  · rw [hnodes, if_neg (filePath_ne_subfolder _ _).symm]
    exact h₁.subfolders name' content
  · rw [hnodes]
    split
    · simp
    · exact h₁.files info
  · rw [hnodes, if_pos rfl]
  · intro q content hq hc
    rw [hnodes, if_neg hq, hsame.files, hc]

/-- After all files have been written, each of them is there. -/
theorem Ready.writeFiles {files : List (FileInfo × Bytes)} (h : Ready d)
    (hnodup : (files.map Prod.fst).Nodup) :
    ∃ d', files.foldlM Client.saveRestored d = some d' ∧
      (∀ file ∈ files,
        d'.nodeAt (filePath restoredPackfilesFolder file.1) = some (.file file.2)) ∧
      ∀ info content, info ∉ files.map Prod.fst →
        d.nodeAt (filePath restoredPackfilesFolder info) = some (.file content) →
        d'.nodeAt (filePath restoredPackfilesFolder info) = some (.file content) := by
  induction files generalizing d with
  | nil => exact ⟨d, rfl, by simp, fun _ _ _ hc => hc⟩
  | cons file files ih =>
    obtain ⟨d₁, hd₁, h₁, hfile, hkept⟩ := h.saveRestored file
    obtain ⟨hnot, hnodup⟩ := List.nodup_cons.mp hnodup
    obtain ⟨d', hd', hfiles, hkept'⟩ := ih h₁ hnodup
    refine ⟨d', ?_, ?_, fun info content hinfo hc => ?_⟩
    · rw [List.foldlM_cons, hd₁]
      exact hd'
    · rw [List.forall_mem_cons]
      exact ⟨hkept' _ _ hnot hfile, hfiles⟩
    · rw [List.map_cons, List.mem_cons, not_or] at hinfo
      refine hkept' info content hinfo.2 (hkept _ _ (fun heq => hinfo.1 ?_) hc)
      exact (filePath_inj rfl heq).2

/-- A manager finds every file that has been written. -/
theorem finds_of_nodeAt {listing : List FileName → List FileName} (hlist : Enumerates d listing)
    {info : FileInfo} {data : Bytes}
    (hnode : d.nodeAt (filePath restoredPackfilesFolder info) = some (.file data)) :
    (diskAt d listing restoredPackfilesFolder).Finds data info := by
  cases info with
  | packfile id =>
    have hnode' : d.nodeAt (Manager.getPackfilePath (packfileFolder :: restoredPackfilesFolder) id)
        = some (.file data) := hnode
    simp only [Disk.Finds, diskAt, hnode']
  | index n =>
    have hnode' : d.nodeAt (indexFileName n :: indexFolder :: restoredPackfilesFolder)
        = some (.file data) := hnode
    refine ⟨List.mem_filterMap.mpr ⟨_, (hlist.mem _ _).mpr ⟨_, hnode'⟩, by simp only [hnode']⟩, ?_⟩
    have hn := n.isLt
    exact parseIndexPathIntoId_indexFileName (by simp only [u32Max]; omega)

end

/-! ## 7. Listings -/

section

/-- The file system is finite. -/
def Dest.Finite (d : Dest) : Prop := {q | d.nodeAt q ≠ none}.Finite

variable {d d' : Dest}

/-- Its folders can be listed. -/
theorem exists_enumerates (h : d.Finite) : ∃ listing, Enumerates d listing := by
  have hfin : ∀ p, {name | d.nodeAt (name :: p) ≠ none}.Finite := fun p =>
    Set.Finite.preimage (f := fun name => name :: p)
      (fun a _ b _ hab => (List.cons.inj hab).1) h
  refine ⟨fun p => (hfin p).toFinset.toList, fun p => Finset.nodup_toList _, fun p name => ?_⟩
  rw [Finset.mem_toList, Set.Finite.mem_toFinset]
  exact Option.ne_none_iff_exists'

theorem finite_empty : Dest.empty.Finite := by
  refine (Set.finite_singleton []).subset fun q (hq : Dest.empty.nodeAt q ≠ none) => ?_
  by_contra hne
  exact hq ((Dest.nodeAt_empty q).trans (if_neg hne))

theorem Dest.Finite.put (h : d.Finite) (p : List FileName) (node : Node) :
    (d.put p node).Finite := by
  refine (h.insert p).subset fun q (hq : (d.put p node).nodeAt q ≠ none) => ?_
  rw [Dest.nodeAt_put] at hq
  split at hq
  · rename_i hqp
    exact .inl hqp
  · exact .inr hq

theorem Dest.Finite.createDirAll (h : d.Finite) {p : List FileName}
    (hd : d.createDirAll p = some d') : d'.Finite := by
  induction p generalizing d' with
  | nil =>
    obtain ⟨-, heq⟩ := Option.ite_none_right_eq_some.mp hd
    exact Option.some.inj heq ▸ h
  | cons name p ih =>
    rw [Dest.createDirAll] at hd
    split at hd
    · cases hd
    · rename_i d₁ hd₁
      have h₁ := ih hd₁
      split at hd
      · exact Option.some.inj hd ▸ h₁
      · cases hd
      · exact Option.some.inj hd ▸ h₁.put _ _

theorem Dest.Finite.createFile (h : d.Finite) {p : List FileName} {content : Bytes}
    (hd : d.createFile p content = some d') : d'.Finite := by
  unfold Dest.createFile at hd
  split at hd
  · cases hd
  · obtain rfl := Option.some.inj hd
    refine (h.insert p).subset fun q (hq : Dest.nodeAt _ q ≠ none) => ?_
    rw [Dest.nodeAt_update_file] at hq
    split at hq
    · rename_i hqp
      exact .inl hqp
    · exact .inr hq
  · obtain ⟨-, heq⟩ := Option.ite_none_right_eq_some.mp hd
    exact Option.some.inj heq ▸ h.put _ _

end

end Backuwup.Client
