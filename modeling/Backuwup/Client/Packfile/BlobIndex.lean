/-
# The blob index (`client/src/backup/filesystem/packfile/blob_index.rs`)

The index maps blob hashes to the packfiles that hold them.  On disk it is a folder of numbered
files, each the encryption of a list of entries under the index key and the file's number as
nonce.  In memory it is the list of all entries found there (`items`, sorted by hash), the
entries not yet written (`itemsBuf`) and the hashes that are known although no entry was read
for them (`blobsQueued`).

Writing a file is the one step here that can fail half-way; `FileWrite` says how.  The result
of the module is that what `flush` writes is what `load` reads (`loadFile_sealed`).
-/
import Backuwup.Client.Bincode
import Backuwup.Client.FileUtils
import Backuwup.Client.KeyManager
import Backuwup.Lib.Search

namespace Backuwup.Client

/-! ## 1. Files -/

/-- The files of a folder, in no particular order. -/
abbrev Folder := List (FileName × Bytes)

/-- `File::create`, which truncates an existing file, and `write_all`. -/
def Folder.write (folder : Folder) (name : FileName) (content : Bytes) : Folder :=
  folder.filter (fun f => f.1 ≠ name) ++ [(name, content)]

/-- How the writing of a file ends. -/
inductive FileWrite
  | ok
  | createFails
  /-- `write_all` fails after so many bytes -/
  | writeFails (written : ℕ)
deriving DecidableEq

/-- `PackfileError`, as far as the client tells its cases apart. -/
inductive PackfileError
  | exceededBufferLimit
  | invalidHeaderSize
  | packfileTooLarge
  | indexHeaderMismatch
  | blobTooLarge
  | duplicateBlob
  | ioError
  | cryptoError
  | serializationError
deriving DecidableEq

theorem Folder.mem_write {folder : Folder} {name : FileName} {content : Bytes}
    {f : FileName × Bytes} (h : f ∈ folder.write name content) :
    f = (name, content) ∨ (f ∈ folder ∧ f.1 ≠ name) := by
  rcases List.mem_append.mp h with h | h
  · obtain ⟨hmem, hne⟩ := List.mem_filter.mp h
    exact Or.inr ⟨hmem, by simpa using hne⟩
  · exact Or.inl (List.mem_singleton.mp h)

/-! ## 2. The file format -/

/-- `KEY_DERIVATION_CONSTANT`, the bytes of "index". -/
def indexKeyInfo : Bytes := [105, 110, 100, 101, 120]

def maxFileEntries : ℕ := 50000

abbrev IndexEntry := BlobHash × PackfileId

/-- The encoding of `Entry`. -/
def entriesCodec : Codec (List IndexEntry) :=
  Bincode.varintVec ((FixedBytes.codec 32).prod (FixedBytes.codec 12))

/-- `counter_to_nonce`: the number in little-endian order, padded with zeros. -/
def counterToNonce (fileNumber : ℕ) : Nonce :=
  ⟨leBytes 4 fileNumber ++ List.replicate 8 0, by simp⟩

/-- Two file numbers never share a nonce. -/
theorem counterToNonce_inj {a b : ℕ} (ha : a ≤ u32Max) (hb : b ≤ u32Max)
    (h : counterToNonce a = counterToNonce b) : a = b := by
  have hbytes : leBytes 4 a ++ List.replicate 8 0 = leBytes 4 b ++ List.replicate 8 0 :=
    congrArg FixedBytes.bytes h
  have hle := (List.append_inj hbytes (by simp)).1
  simp only [u32Max] at ha hb
  rw [← leNat_leBytes 4 a (by omega), hle, leNat_leBytes 4 b (by omega)]

def indexKey (P : Primitives) (keys : KeyManager) : SymmetricKey :=
  keys.deriveBackupKey P indexKeyInfo

/-- The content of a complete index file. -/
def sealedEntries (P : Primitives) (keys : KeyManager) (num : ℕ) (items : List IndexEntry) :
    Bytes :=
  P.encrypt (indexKey P keys) (counterToNonce num) (entriesCodec.enc items)

/-- What can be encrypted can be decoded again. -/
theorem entriesCodec_ok_of_length {items : List IndexEntry}
    (h : (entriesCodec.enc items).length ≤ aesGcmMaxPlaintext) : entriesCodec.ok items := by
  refine ⟨?_, fun _ _ => ⟨trivial, trivial⟩⟩
  have hle := Codec.length_le_encAll ((FixedBytes.codec 32).prod (FixedBytes.codec 12))
    items fun a _ => by
      simp [Codec.prod, FixedBytes.codec, a.1.length_eq, a.2.length_eq]
  simp only [entriesCodec, Bincode.varintVec, Codec.list, List.length_append,
    aesGcmMaxPlaintext] at h
  change items.length < 18446744073709551616
  omega

/-! ## 3. The index in memory -/

structure BlobIndex where
  items : List IndexEntry
  itemsBuf : List IndexEntry
  blobsQueued : List BlobHash
  lastFileNum : ℕ
  dirty : Bool
deriving DecidableEq

/-- One round of `load`: files whose name is not a number are passed over. -/
def loadFile (P : Primitives) (keys : KeyManager) (name : FileName) (content : Bytes) :
    Except PackfileError (List IndexEntry) :=
  match parseU32 name with
  | none => .ok []
  | some num =>
    match P.decrypt (indexKey P keys) (counterToNonce num) content with
    | none => .error .cryptoError
    | some buf =>
      match entriesCodec.decodeExact buf with
      | none => .error .serializationError
      | some items => .ok items

/-- The loop of `load`, in the order the folder is listed. -/
def loadFiles (P : Primitives) (keys : KeyManager) : Folder → Except PackfileError (List IndexEntry)
  | [] => .ok []
  | (name, content) :: rest =>
    match loadFile P keys name content with
    | .error e => .error e
    | .ok items =>
      match loadFiles P keys rest with
      | .error e => .error e
      | .ok more => .ok (items ++ more)

/-- The largest number among the file names, zero for the names that are none. -/
def maxFileNum (names : List FileName) : ℕ :=
  names.foldl (fun num name => max num ((parseU32 name).getD 0)) 0

namespace BlobIndex

/-- `BlobIndex::new` on a folder, given what its two listings yield. -/
def new (P : Primitives) (keys : KeyManager) (names : List FileName) (files : Folder) :
    Except PackfileError BlobIndex :=
  match loadFiles P keys files with
  | .error e => .error e
  | .ok items => .ok ⟨Search.sortByKey Prod.fst items, [], [], maxFileNum names, false⟩

def findPackfile (ix : BlobIndex) (hash : BlobHash) : Option PackfileId :=
  Search.lookup hash ix.items

def isBlobDuplicate (ix : BlobIndex) (hash : BlobHash) : Bool :=
  decide (hash ∈ ix.blobsQueued) || (ix.findPackfile hash).isSome

/-- `add_to_packfile`, without the handle: the error leaves the set as it is. -/
def addToPackfile (ix : BlobIndex) (hash : BlobHash) : BlobIndex × Except PackfileError Unit :=
  if hash ∈ ix.blobsQueued then (ix, .error .duplicateBlob)
  else ({ ix with blobsQueued := hash :: ix.blobsQueued }, .ok ())

/-- The buffer is short enough for `encrypt_in_place`. -/
def Encryptable (ix : BlobIndex) : Prop :=
  (entriesCodec.enc ix.itemsBuf).length ≤ aesGcmMaxPlaintext

instance (ix : BlobIndex) : Decidable ix.Encryptable := inferInstanceAs (Decidable (_ ≤ _))

/-- `flush`; the overflow of the file counter is a panic. -/
def flush (P : Primitives) (keys : KeyManager) (ix : BlobIndex) (folder : Folder)
    (io : FileWrite) : Option (BlobIndex × Folder × Except PackfileError Unit) :=
  if u32Max ≤ ix.lastFileNum then none
  else
    let newFileNum := ix.lastFileNum + 1
    match P.encryptInPlace (indexKey P keys) (counterToNonce newFileNum)
        (entriesCodec.enc ix.itemsBuf) with
    | none => some (ix, folder, .error .cryptoError)
    | some buf =>
      match io with
      | .createFails => some (ix, folder, .error .ioError)
      | .writeFails written =>
        some (ix, folder.write (indexFileName newFileNum) (buf.take written), .error .ioError)
      | .ok =>
        some ({ ix with lastFileNum := newFileNum, itemsBuf := [], dirty := false },
          folder.write (indexFileName newFileNum) buf, .ok ())

/-- The first lines of `push`. -/
def buffer (ix : BlobIndex) (entry : IndexEntry) : BlobIndex :=
  { ix with itemsBuf := ix.itemsBuf ++ [entry], dirty := true }

/-- `push` flushes when the buffer has reached `MAX_FILE_ENTRIES`. -/
def Full (ix : BlobIndex) : Prop := maxFileEntries ≤ ix.itemsBuf.length

instance (ix : BlobIndex) : Decidable ix.Full := inferInstanceAs (Decidable (_ ≤ _))

def push (P : Primitives) (keys : KeyManager) (ix : BlobIndex) (folder : Folder)
    (entry : IndexEntry) (io : FileWrite) :
    Option (BlobIndex × Folder × Except PackfileError Unit) :=
  if (ix.buffer entry).Full then (ix.buffer entry).flush P keys folder io
  else some (ix.buffer entry, folder, .ok ())

/-! ## 4. What a flush does -/

/-- A flush that succeeds writes a complete file under the next number, one that fails leaves
the index as it was and at most a part of that file. -/
theorem flush_cases {P : Primitives} {keys : KeyManager} {ix ix' : BlobIndex}
    {folder folder' : Folder} {io : FileWrite} {r : Except PackfileError Unit}
    (h : ix.flush P keys folder io = some (ix', folder', r)) :
    ix.lastFileNum < u32Max ∧
    ((r = .ok () ∧ ix.Encryptable ∧
        ix' = { ix with lastFileNum := ix.lastFileNum + 1, itemsBuf := [], dirty := false } ∧
        folder' = folder.write (indexFileName (ix.lastFileNum + 1))
          (sealedEntries P keys (ix.lastFileNum + 1) ix.itemsBuf)) ∨
      (r ≠ .ok () ∧ ix' = ix ∧ (folder' = folder ∨ (ix.Encryptable ∧ ∃ written,
        io = .writeFails written ∧ folder' = folder.write (indexFileName (ix.lastFileNum + 1))
          ((sealedEntries P keys (ix.lastFileNum + 1) ix.itemsBuf).take written))))) := by
  unfold flush at h
  split at h
  · cases h
  · rename_i hlt
    refine ⟨by omega, ?_⟩
    simp only at h
    split at h
    · simp only [Option.some.injEq, Prod.mk.injEq] at h
      obtain ⟨rfl, rfl, rfl⟩ := h
      exact Or.inr ⟨by simp, rfl, Or.inl rfl⟩
    · rename_i buf hbuf
      obtain ⟨hlen, rfl⟩ := Primitives.encryptInPlace_eq_some hbuf
      cases io with
      | ok =>
        simp only [Option.some.injEq, Prod.mk.injEq] at h
        obtain ⟨rfl, rfl, rfl⟩ := h
        exact Or.inl ⟨rfl, hlen, rfl, rfl⟩
      | createFails =>
        simp only [Option.some.injEq, Prod.mk.injEq] at h
        obtain ⟨rfl, rfl, rfl⟩ := h
        exact Or.inr ⟨by simp, rfl, Or.inl rfl⟩
      | writeFails written =>
        simp only [Option.some.injEq, Prod.mk.injEq] at h
        obtain ⟨rfl, rfl, rfl⟩ := h
        exact Or.inr ⟨by simp, rfl, Or.inr ⟨hlen, written, rfl, rfl⟩⟩

/-- A buffer that is too long is not encrypted. -/
theorem flush_of_not_encryptable {P : Primitives} {keys : KeyManager} {ix : BlobIndex}
    {folder : Folder} (io : FileWrite) (hlt : ix.lastFileNum < u32Max) (henc : ¬ ix.Encryptable) :
    ix.flush P keys folder io = some (ix, folder, .error .cryptoError) := by
  have hnone : P.encryptInPlace (indexKey P keys) (counterToNonce (ix.lastFileNum + 1))
      (entriesCodec.enc ix.itemsBuf) = none := if_neg henc
  rw [flush, if_neg (by omega)]
  simp only [hnone]

/-- What a flush leaves, by the outcome of the write. -/
theorem flush_of_encryptable {P : Primitives} {keys : KeyManager} {ix : BlobIndex}
    {folder : Folder} (io : FileWrite) (hlt : ix.lastFileNum < u32Max) (henc : ix.Encryptable) :
    ix.flush P keys folder io = some (match io with
      | .ok => ({ ix with lastFileNum := ix.lastFileNum + 1, itemsBuf := [], dirty := false },
          folder.write (indexFileName (ix.lastFileNum + 1))
            (sealedEntries P keys (ix.lastFileNum + 1) ix.itemsBuf), .ok ())
      | .createFails => (ix, folder, .error .ioError)
      | .writeFails written => (ix, folder.write (indexFileName (ix.lastFileNum + 1))
          ((sealedEntries P keys (ix.lastFileNum + 1) ix.itemsBuf).take written),
          .error .ioError)) := by
  have hsome : P.encryptInPlace (indexKey P keys) (counterToNonce (ix.lastFileNum + 1))
      (entriesCodec.enc ix.itemsBuf)
        = some (sealedEntries P keys (ix.lastFileNum + 1) ix.itemsBuf) := if_pos henc
  rw [flush, if_neg (by omega)]
  simp only [hsome]
  cases io <;> rfl

/-- A new index has loaded every file. -/
theorem new_ok {P : Primitives} {keys : KeyManager} {names : List FileName} {files : Folder}
    {ix : BlobIndex} (h : new P keys names files = .ok ix) :
    ∃ items, loadFiles P keys files = .ok items ∧
      ix = ⟨Search.sortByKey Prod.fst items, [], [], maxFileNum names, false⟩ := by
  unfold new at h
  split at h
  · cases h
  · rename_i items hload
    exact ⟨items, hload, (Except.ok.inj h).symm⟩

end BlobIndex

/-! ## 5. File numbers -/

theorem maxFileNum_le_iff {names : List FileName} {k : ℕ} :
    maxFileNum names ≤ k ↔ ∀ name ∈ names, (parseU32 name).getD 0 ≤ k := by
  have hall : ∀ start, names.foldl (fun num name => max num ((parseU32 name).getD 0)) start ≤ k ↔
      start ≤ k ∧ ∀ name ∈ names, (parseU32 name).getD 0 ≤ k := by
    induction names with
    | nil => simp
    | cons name names ih =>
      intro start
      rw [List.foldl_cons, ih, List.forall_mem_cons, Nat.max_le, and_assoc]
  rw [maxFileNum, hall]
  simp

/-- The number of every file is at most the largest. -/
theorem le_maxFileNum {names : List FileName} {num : ℕ} (hnum : num ≤ u32Max)
    (h : indexFileName num ∈ names) : num ≤ maxFileNum names := by
  have hle := maxFileNum_le_iff.mp (le_refl (maxFileNum names)) _ h
  rwa [show parseU32 (indexFileName num) = some num from
    parseIndexPathIntoId_indexFileName hnum, Option.getD_some] at hle

theorem maxFileNum_perm {names names' : List FileName} (h : names.Perm names') :
    maxFileNum names = maxFileNum names' :=
  le_antisymm
    (maxFileNum_le_iff.mpr fun name hname =>
      maxFileNum_le_iff.mp (le_refl _) name (h.mem_iff.mp hname))
    (maxFileNum_le_iff.mpr fun name hname =>
      maxFileNum_le_iff.mp (le_refl _) name (h.mem_iff.mpr hname))

/-- The number of a folder is that of the file that is written, if the others have none larger. -/
theorem maxFileNum_write {folder : Folder} {num : ℕ} (hnum : num ≤ u32Max) (content : Bytes)
    (h : maxFileNum (folder.map Prod.fst) ≤ num) :
    maxFileNum ((folder.write (indexFileName num) content).map Prod.fst) = num := by
  refine le_antisymm (maxFileNum_le_iff.mpr ?_) (le_maxFileNum hnum (by simp [Folder.write]))
  intro name hname
  obtain ⟨f, hf, rfl⟩ := List.mem_map.mp hname
  rcases Folder.mem_write hf with rfl | ⟨hf, -⟩
  · rw [show parseU32 (indexFileName num) = some num from
      parseIndexPathIntoId_indexFileName hnum, Option.getD_some]
  · exact maxFileNum_le_iff.mp h _ (List.mem_map_of_mem hf)

/-! ## 6. What a load reads -/

/-- A complete file is read back as the entries it was made of. -/
theorem loadFile_sealed {P : Primitives} (hP : P.Lawful) (keys : KeyManager) {num : ℕ}
    (hnum : num ≤ u32Max) {items : List IndexEntry}
    (hlen : (entriesCodec.enc items).length ≤ aesGcmMaxPlaintext) :
    loadFile P keys (indexFileName num) (sealedEntries P keys num items) = .ok items := by
  have hname : parseU32 (indexFileName num) = some num := parseIndexPathIntoId_indexFileName hnum
  rw [loadFile, hname]
  simp only [sealedEntries, hP.decrypt_encrypt _ _ _ hlen,
    entriesCodec.decodeExact_enc (entriesCodec_ok_of_length hlen)]

section

variable {P : Primitives} {keys : KeyManager} {files : Folder} {items : List IndexEntry}

/-- What a load of several files puts together. -/
theorem loadFiles_cons {name : FileName} {content : Bytes} {rest : Folder}
    (h : loadFiles P keys ((name, content) :: rest) = .ok items) :
    ∃ first more, loadFile P keys name content = .ok first ∧ loadFiles P keys rest = .ok more ∧
      items = first ++ more := by
  simp only [loadFiles] at h
  split at h
  · cases h
  · rename_i first hfirst
    split at h
    · cases h
    · rename_i more hmore
      exact ⟨first, more, hfirst, hmore, (Except.ok.inj h).symm⟩

/-- A load that succeeds has loaded every file. -/
theorem loadFile_of_loadFiles (h : loadFiles P keys files = .ok items) :
    ∀ f ∈ files, ∃ its, loadFile P keys f.1 f.2 = .ok its := by
  induction files generalizing items with
  | nil => simp
  | cons file rest ih =>
    obtain ⟨first, more, hfirst, hmore, -⟩ := loadFiles_cons h
    intro f hf
    rcases List.mem_cons.mp hf with rfl | hf
    · exact ⟨first, hfirst⟩
    · exact ih hmore f hf

theorem decrypt_of_loadFiles (h : loadFiles P keys files = .ok items) :
    ∀ f ∈ files, ∀ num, parseU32 f.1 = some num →
      P.decrypt (indexKey P keys) (counterToNonce num) f.2 ≠ none := by
  intro f hf num hnum hnone
  obtain ⟨its, hits⟩ := loadFile_of_loadFiles h f hf
  simp only [loadFile, hnum, hnone] at hits
  cases hits

end

end Backuwup.Client
