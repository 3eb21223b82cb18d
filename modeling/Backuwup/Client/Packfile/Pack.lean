/-
# The packfile manager (`client/src/backup/filesystem/packfile/`)

A manager takes blobs (`add_blob`), encrypts and queues them, writes the queue into packfiles
once it is over its target (`write_packfiles`), and records each packfile in the index.  Any
number of `add_blob` calls run at once.  They share the queue and the index, each behind a
mutex; `write_packfiles` holds both for as long as it runs, so every other step waits for it
while calls that hold no mutex interleave freely.

`World` is what one backup folder goes through: sessions that open a manager, add blobs and end
with `flush`, with an error of it or with the end of the process.  An I/O step comes with how
it ends.  A packfile is named by its id; the subfolders, whose names are a prefix of the id, are
left out, and so is the flag that `Drop` looks at.
-/
import Backuwup.Client.Packfile.Format
import Backuwup.Lib.Transition

namespace Backuwup.Client

/-- `MAX_PACKFILE_LOCAL_BUFFER_SIZE`: 100 MiB. -/
def maxPackfileLocalBufferSize : ℕ := 104857600

/-! ## 1. The folder -/

/-- The packfiles and the index files. -/
structure Disk where
  packfiles : PackfileId → Option Bytes
  index : Folder

namespace Disk

def empty : Disk := ⟨fun _ => none, []⟩

def put (disk : Disk) (id : PackfileId) (content : Bytes) : Disk :=
  { disk with packfiles := Function.update disk.packfiles id (some content) }

/-- `remove_file` of a packfile. -/
def remove (disk : Disk) (id : PackfileId) : Disk :=
  { disk with packfiles := Function.update disk.packfiles id none }

/-- `create_dir_all`, `open` with `create_new`, and `write_all`. -/
def create (disk : Disk) (id : PackfileId) (buffer : Bytes) (io : FileWrite) :
    Disk × Except PackfileError Unit :=
  match disk.packfiles id, io with
  | none, .ok => (disk.put id buffer, .ok ())
  | none, .writeFails written => (disk.put id (buffer.take written), .error .ioError)
  | _, _ => (disk, .error .ioError)

end Disk

/-! ## 2. Writing packfiles -/

/-- What the manager keeps in memory. -/
structure Manager where
  blobs : List BlobEncrypted
  index : BlobIndex
  packfilesSize : ℕ

/-- The random id of a packfile and how its I/O ends: that of its file, and that of the index
flush, if there is one, when so many of its blobs have not been recorded yet. -/
structure PackfileIo where
  id : PackfileId
  file : FileWrite
  flush : ℕ → FileWrite

/-- The inner loop of `write_packfiles`: it takes blobs off the queue until the packfile is
full. -/
def fillDraft (ix : BlobIndex) (draft : PackfileDraft) : List BlobEncrypted →
    BlobIndex × PackfileDraft × List BlobEncrypted × Except PackfileError Unit
  | [] => (ix, draft, [], .ok ())
  | blob :: blobs =>
    if ix.isBlobDuplicate blob.hash then fillDraft ix draft blobs
    else
      match ix.addToPackfile blob.hash with
      | (ix, .error e) => (ix, draft.add blob, blobs, .error e)
      | (ix, .ok ()) =>
        if (draft.add blob).Full then (ix, draft.add blob, blobs, .ok ())
        else fillDraft ix (draft.add blob) blobs

def finalizePackfile (P : Primitives) (keys : KeyManager) (id : PackfileId)
    (io : ℕ → FileWrite) (ix : BlobIndex) (folder : Folder) :
    List BlobHash → Option (BlobIndex × Folder × Except PackfileError Unit)
  | [] => some (ix, folder, .ok ())
  | hash :: hashes =>
    match ix.push P keys folder (hash, id) (io hashes.length) with
    | none => none
    | some (ix, folder, .error e) => some (ix, folder, .error e)
    | some (ix, folder, .ok ()) => finalizePackfile P keys id io ix folder hashes

namespace Manager

/-- One round of the outer loop of `write_packfiles`, and whether it has found the buffer limit
exceeded.  A packfile over the size limit is a panic. -/
def writePackfile (P : Primitives) (keys : KeyManager) (m : Manager) (disk : Disk)
    (io : PackfileIo) : Option (Manager × Disk × Except PackfileError Bool) :=
  match fillDraft m.index .empty m.blobs with
  | (ix, _, blobs, .error e) => some ({ m with index := ix, blobs := blobs }, disk, .error e)
  | (ix, draft, blobs, .ok ()) =>
    -- all blobs were duplicates
    if draft.blobCount = 0 then
      some ({ m with index := ix, blobs := blobs }, disk, .ok false)
    else
      match serializePackfile P keys io.id draft with
      | none => some ({ m with index := ix, blobs := blobs }, disk, .error .cryptoError)
      | some buffer =>
        if packfileMaxSize < buffer.length then none
        else
          match disk.create io.id buffer io.file with
          | (disk, .error e) => some ({ m with index := ix, blobs := blobs }, disk, .error e)
          | (disk, .ok ()) =>
            match finalizePackfile P keys io.id io.flush ix disk.index draft.blobs with
            | none => none
            | some (ix, folder, .error e) =>
              some ({ m with index := ix, blobs := blobs }, { disk with index := folder }, .error e)
            | some (ix, folder, .ok ()) =>
              some (⟨blobs, ix, m.packfilesSize + buffer.length⟩, { disk with index := folder },
                .ok (decide (maxPackfileLocalBufferSize < m.packfilesSize)))

/-- The condition of `trigger_write_if_desired`. -/
def overTarget (m : Manager) : Bool :=
  let candidates := m.blobs.filter fun blob => !m.index.isBlobDuplicate blob.hash
  decide (packfileTargetSize ≤ (candidates.map fun blob => blob.data.length).sum ∨
    packfileMaxBlobs ≤ candidates.length)

def getBlob (P : Primitives) (keys : KeyManager) (ix : BlobIndex) (disk : Disk)
    (hash : BlobHash) : Except PackfileError (Option Blob) :=
  match ix.findPackfile hash with
  | none => .ok none
  | some id =>
    match disk.packfiles id with
    | none => .error .ioError
    | some packfile => (readBlob P keys id packfile hash).map some

end Manager

/-! ## 3. Sessions -/

/-- Where a call of `add_blob` is. -/
inductive AddPc
  /-- the size has been checked -/
  | called
  /-- the blob is not known, and has been encrypted -/
  | encrypted (blob : BlobEncrypted)
  | queued
  /-- `trigger_write_if_desired` has found enough in the queue -/
  | overTarget
  /-- in `write_packfiles`, with both mutexes -/
  | writing (bufferLimitExceeded : Bool)
  | returned (result : Except PackfileError (Option ℕ))
  /-- the process has ended -/
  | killed
deriving DecidableEq

structure AddCall where
  blob : Blob
  pc : AddPc

/-- An open manager; `flushing` while `flush` runs. -/
structure Session where
  manager : Manager
  flushing : Bool

/-- One backup folder, the calls of earlier sessions, those of the session that is open or was
open last, and whether that one has ended with a `flush` that returned `Ok`. -/
structure World where
  disk : Disk
  past : List AddCall
  calls : List AddCall
  session : Option Session
  flushed : Bool

namespace AddPc

def isWriting : AddPc → Bool
  | .writing _ => true
  | _ => false

def isFinished : AddPc → Bool
  | .returned _ => true
  | .killed => true
  | _ => false

/-- The call has returned `Ok` or `ExceededBufferLimit`. -/
def accepted : AddPc → Bool
  | .returned (.ok _) => true
  | .returned (.error e) => decide (e = .exceededBufferLimit)
  | _ => false

/-- The end of the process. -/
def kill : AddPc → AddPc
  | .returned r => .returned r
  | _ => .killed

end AddPc

namespace World

def start : World := ⟨.empty, [], [], none, false⟩

/-- Nobody is in `write_packfiles`. -/
def unlocked (w : World) (s : Session) : Bool :=
  !s.flushing && w.calls.all fun c => !c.pc.isWriting

/-- The call of index `t` moves on. -/
def setPc (w : World) (t : ℕ) (c : AddCall) (pc : AddPc) : World :=
  { w with calls := w.calls.set t { c with pc := pc } }

def setManager (w : World) (s : Session) (m : Manager) : World :=
  { w with session := some { s with manager := m } }

/-- The session ends. -/
def close (w : World) (flushed : Bool) : World := { w with session := none, flushed := flushed }

end World

inductive ManagerAction
  /-- `Manager::new`: what the two listings of the index folder yield, and `get_size` -/
  | openManager (names : List FileName) (files : Folder) (size : ℕ)
  | addBlob (blob : Blob)
  /-- the first check for duplicates, then `compress_encrypt_blob` with its random nonce -/
  | check (t : ℕ) (nonce : Option BlobNonce)
  | enqueue (t : ℕ)
  | trigger (t : ℕ)
  | lock (t : ℕ)
  /-- one packfile is written -/
  | write (t : ℕ) (io : PackfileIo)
  | unlock (t : ℕ)
  /-- `flush` is called and holds the mutexes -/
  | flush
  | flushWrite (io : PackfileIo)
  /-- the flush of the index -/
  | flushIndex (io : FileWrite)
  | kill

/-- What a step of a call needs: the open session and the call. -/
def World.inCall (w : World) (t : ℕ) (k : Session → AddCall → Option World) : Option World :=
  match w.session, w.calls[t]? with
  | some s, some c => k s c
  | _, _ => none

def managerStep (P : Primitives) (keys : KeyManager) (w : World) : ManagerAction → Option World
  | .openManager names files size =>
    match w.session with
    | some _ => none
    | none =>
      if names.Perm (w.disk.index.map Prod.fst) ∧ files.Perm w.disk.index then
        match BlobIndex.new P keys names files with
        | .ok ix => some ⟨w.disk, w.past ++ w.calls, [], some ⟨⟨[], ix, size⟩, false⟩, false⟩
        | .error _ => some ⟨w.disk, w.past ++ w.calls, [], none, false⟩
      else none
  | .addBlob blob =>
    match w.session with
    | none => none
    | some s =>
      if s.flushing then none
      else if blobMaxUncompressedSize < blob.data.length then
        some { w with calls := w.calls ++ [⟨blob, .returned (.error .blobTooLarge)⟩] }
      else some { w with calls := w.calls ++ [⟨blob, .called⟩] }
  | .check t nonce => w.inCall t fun s c =>
    match c.pc with
    | .called =>
      if w.unlocked s then
        if s.manager.index.isBlobDuplicate c.blob.hash then
          some (w.setPc t c (.returned (.ok none)))
        else
          match nonce with
          | none => some (w.setPc t c (.returned (.error .ioError)))
          | some nonce =>
            match compressEncryptBlob P keys c.blob nonce with
            | none => some (w.setPc t c (.returned (.error .cryptoError)))
            | some blob => some (w.setPc t c (.encrypted blob))
      else none
    | _ => none
  | .enqueue t => w.inCall t fun s c =>
    match c.pc with
    | .encrypted blob =>
      if w.unlocked s then
        some ((w.setManager s { s.manager with blobs := s.manager.blobs ++ [blob] }).setPc t c
          .queued)
      else none
    | _ => none
  | .trigger t => w.inCall t fun s c =>
    match c.pc with
    | .queued =>
      if w.unlocked s then
        some (w.setPc t c (if s.manager.overTarget then .overTarget else .returned (.ok none)))
      else none
    | _ => none
  | .lock t => w.inCall t fun s c =>
    match c.pc with
    | .overTarget => if w.unlocked s then some (w.setPc t c (.writing false)) else none
    | _ => none
  | .write t io => w.inCall t fun s c =>
    match c.pc with
    | .writing exceeded =>
      if s.manager.blobs = [] then none
      else
        (s.manager.writePackfile P keys w.disk io).map fun (m, disk, r) =>
          ({ w with disk := disk }.setManager s m).setPc t c <|
            match r with
            | .ok e => .writing (exceeded || e)
            | .error e => .returned (.error e)
    | _ => none
  | .unlock t => w.inCall t fun s c =>
    match c.pc with
    | .writing exceeded =>
      if s.manager.blobs = [] then
        some (w.setPc t c <| .returned <|
          if exceeded then .error .exceededBufferLimit else .ok (some s.manager.packfilesSize))
      else none
    | _ => none
  | .flush =>
    match w.session with
    | none => none
    | some s =>
      if !s.flushing ∧ w.calls.all fun c => c.pc.isFinished then
        some { w with session := some { s with flushing := true } }
      else none
  | .flushWrite io =>
    match w.session with
    | none => none
    | some s =>
      if s.flushing ∧ s.manager.blobs ≠ [] then
        (s.manager.writePackfile P keys w.disk io).map fun (m, disk, r) =>
          match r with
          | .ok _ => { w with disk := disk }.setManager s m
          | .error _ => { w with disk := disk }.close false
      else none
  | .flushIndex io =>
    match w.session with
    | none => none
    | some s =>
      if s.flushing ∧ s.manager.blobs = [] then
        (s.manager.index.flush P keys w.disk.index io).map fun (_, folder, r) =>
          { w with disk := { w.disk with index := folder } }.close (decide (r = Except.ok ()))
      else none
  | .kill =>
    match w.session with
    | none => none
    | some _ =>
      some { w.close false with calls := w.calls.map fun c => { c with pc := c.pc.kill } }

end Backuwup.Client
