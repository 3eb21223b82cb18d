/-
# A backup from its start to the report (`backup/mod.rs`, `dir_packer.rs`, `send.rs`)

`run` starts `pack` and `send` together and, when both have returned `Ok`, reports the root hash of
the snapshot to the server (`backup_done`).  Here the two are put side by side: `pack` as in
`DirPacker/Session.lean`, the loop of `send` with its connection and its flags, the packfiles that
peers have acknowledged, and `send_index` as in `SendIndex.lean`.  The state lives through any
number of backups, failed ones and restarts of the client included.

A packfile is written in one step, so `send` finds it whole or as an error has left it
(`Outbox.lean` compares this with the model of every write); the pausing of the packer is in
`Running.lean`.  The steps are those of one `run` at a time: the next one begins
when both tasks of the last one have ended.
-/
import Backuwup.Client.DirPacker.PutBack
import Backuwup.Client.DirPacker.Stored
import Backuwup.Client.Packfile.FolderSize
import Backuwup.Client.Packfile.IndexFolder
import Backuwup.Client.SendIndex
import Backuwup.Lib.Simulation

namespace Backuwup.Client.Upload

open Transition

/-! ## 1. The state -/

inductive SendPc
  | notSpawned
  /-- at the head of the loop -/
  | top
  /-- the counters have been read, and `get_peer_connection` is called if there is no connection -/
  | connecting (written matched : ℕ)
  /-- in `send_packfiles_from_folder` -/
  | sending (written matched : ℕ)
  /-- `send_packfiles_from_folder` has returned `Ok` -/
  | sent
  /-- in `send_index` -/
  | indexing
  | ended (ok : Bool)
deriving DecidableEq

/-- `send` and its variables. -/
structure Sender where
  pc : SendPc
  connection : Option ClientId
  lastWritten : ℕ
  lastMatched : ℕ
  packfilesDone : Bool
  indexDone : Bool
deriving DecidableEq

def Sender.notSpawned : Sender := ⟨.notSpawned, none, 0, 0, false, false⟩

/-- The client: `pack` with its folder, what `run` has spawned, the counters of the orchestrator,
`send`, what peers have acknowledged, and the snapshots that were reported. -/
structure State where
  packing : Packing
  running : Bool
  /-- `pack` has called `Manager::new` -/
  opened : Bool
  packfileBytesWritten : ℕ
  storageRequestLastMatched : ℕ
  packingCompleted : Bool
  sender : Sender
  acknowledged : List (ClientId × PackfileId × Bytes)
  index : IndexSender
  reported : List BlobHash

namespace State

/-- A fresh installation. -/
def start : State :=
  ⟨.start, false, false, 0, 0, false, .notSpawned, [], ⟨none, [], []⟩, []⟩

def disk (s : State) : Disk := s.packing.world.disk

def setSender (s : State) (pc : SendPc) : State := { s with sender := { s.sender with pc := pc } }

/-- The connection is given up. -/
def disconnect (s : State) : State :=
  { s with sender := { s.sender with pc := .top, connection := none } }

def removeFile (s : State) (id : PackfileId) : State :=
  { s with packing := { s.packing with world := { s.packing.world with
      disk := { s.disk with packfiles := Function.update s.disk.packfiles id none } } } }

/-- The process ends. -/
def stop (s : State) : State := { s with running := false, sender := .notSpawned }

end State

/-! ## 2. The steps -/

inductive SendEvent
  /-- the first lines of `send` -/
  | begin
  /-- the counters are read -/
  | load
  /-- `get_peer_connection`, unless there is a connection -/
  | connect (peer : Option ClientId)
  /-- `send_single_packfile` has the acknowledgement of a packfile; counting it in the table of
  peers, or deleting it, may fail -/
  | acked (id : PackfileId) (removed : Bool)
  /-- `send_packfiles_from_folder` fails -/
  | fails
  | listed
  /-- the subtraction behind `resume` overflows -/
  | panics
  /-- `get_size` of the packfile folder, which is only asked for once packing is completed -/
  | getSize (size : Option ℕ)
  /-- a call of `send_index` -/
  | index (listing : Option (List DirItem)) (io : ℕ → IndexIo)

inductive Action
  /-- `initialize_static`, and the tasks are spawned -/
  | begin
  | pack (a : PackAction)
  /-- `set_packing_completed` -/
  | complete
  /-- `update_packfile_bytes_written` -/
  | written (bytes : ℕ)
  /-- `update_storage_request_last_matched` -/
  | matched (time : ℕ)
  | send (e : SendEvent)
  /-- `try_join!` has both results, and `backup_done` is requested -/
  | report
  /-- `try_join!` returns an error, and both tasks have ended -/
  | abort
  /-- the process is killed -/
  | kill

/-- The end of the loop of `send`. -/
def Sender.rest (x : Sender) : Sender :=
  { x with pc :=
      if x.packfilesDone then if x.indexDone then .ended true else .indexing else .top }

def sendStep (s : State) (e : SendEvent) : Option State :=
  match e, s.sender.pc with
  | .begin, .notSpawned =>
    if s.running then
      some { s with sender :=
        ⟨.top, none, s.packfileBytesWritten, s.storageRequestLastMatched, false, false⟩ }
    else none
  | .load, .top =>
    some (s.setSender (.connecting s.packfileBytesWritten s.storageRequestLastMatched))
  | .connect peer, .connecting written matched =>
    let connection := s.sender.connection.or peer
    let x := { s.sender with connection := connection }
    some { s with sender :=
      if connection.isSome = true ∧ (x.lastWritten < written ∨ x.lastMatched < matched ∨
          s.packingCompleted = true) ∧ x.packfilesDone = false then
        { x with pc := .sending written matched }
      else if connection.isSome then x.rest
      else { x with pc := .top } }
  | .acked id removed, .sending _ _ =>
    match s.sender.connection, s.disk.packfiles id with
    | some peer, some content =>
      let s := { s with acknowledged := s.acknowledged ++ [(peer, id, content)] }
      some (if removed then s.removeFile id else s.disconnect)
    | _, _ => none
  | .fails, .sending _ _ => some s.disconnect
  | .listed, .sending written matched =>
    some { s with sender :=
      { s.sender with pc := .sent, lastWritten := written, lastMatched := matched } }
  | .panics, .sent => some (s.setSender (.ended false))
  | .getSize size, .sent =>
    if s.packingCompleted then
      match size with
      | none => some (s.setSender (.ended false))
      | some n => some { s with sender :=
          { s.sender with packfilesDone := s.sender.packfilesDone || decide (n = 0) }.rest }
    else some { s with sender := s.sender.rest }
  | .index listing io, .indexing =>
    match s.sender.connection with
    | none => none
    | some peer =>
      match sendIndex peer listing io s.index with
      | (index, .ok _) =>
        some { s with index := index, sender := { s.sender with indexDone := true }.rest }
      | (index, .error _) => some { s with index := index }.disconnect
  | _, _ => none

def isOpen : PackAction → Bool
  | .openManager _ _ _ _ => true
  | _ => false

def step (P : Primitives) (keys : KeyManager) (s : State) : Action → Option State
  | .begin =>
    if s.running then none
    else some { s with
      running := true, opened := false, packfileBytesWritten := 0, packingCompleted := false
      sender := .notSpawned }
  | .pack a =>
    -- `pack` opens its manager first, and once
    if s.running ∧ s.opened = !isOpen a then
      (packStep P keys s.packing a).map fun p => { s with packing := p, opened := true }
    else none
  | .complete =>
    if s.running ∧ s.opened ∧ s.packing.pc = .idle ∧ s.packing.result ≠ none then
      some { s with packingCompleted := true }
    else none
  | .written bytes => some { s with packfileBytesWritten := bytes }
  | .matched time => some { s with storageRequestLastMatched := time }
  | .send e => sendStep s e
  | .report =>
    match s.packing.result, s.sender.pc with
    | some root, .ended true =>
      if s.running ∧ s.packingCompleted then
        some { s with running := false, reported := root :: s.reported }
      else none
    | _, _ => none
  | .abort =>
    match s.packing.pc, s.sender.pc with
    | .idle, .ended _ =>
      if s.running ∧ s.opened then some { s with running := false } else none
    | _, _ => none
  | .kill =>
    match s.packing.world.session with
    | none => some s.stop
    | some _ => (packStep P keys s.packing .kill).map fun p => { s with packing := p }.stop

/-! ## 3. The folder with the packfiles that were sent -/

/-- The content that was acknowledged for an id. -/
def State.gone (s : State) (id : PackfileId) : Option Bytes :=
  (s.acknowledged.find? fun a => a.2.1 = id).map fun a => a.2.2

/-- `pack`, with the packfiles that were sent put back into its folder. -/
def State.whole (s : State) : Packing := s.packing.putBack s.gone

/-- What holds of a run in which the system does its part: no triggered write loses blobs, no new
packfile gets the id of one that was sent, `get_size` is right, and `send_index` is given the files
above its mark in ascending order. -/
def Sane (s : State) : Action → Prop
  | .pack a => LosesNone s.packing a ∧ ∀ id ∈ a.packfileId, s.gone id = none
  | .send (.getSize size) => ∀ n ∈ size, s.disk.Occupies n
  | .send (.index listing _) => ∀ items ∈ listing, Lists s.disk.index items ∧
      (numbersAbove s.index.highestSentIndex items).Pairwise (· < ·)
  | _ => True

/-- What was acknowledged is what the packer has written. -/
def Consistent (s : State) : Prop :=
  ∀ a ∈ s.acknowledged, s.whole.world.disk.packfiles a.2.1 = some a.2.2

section

variable {P : Primitives} {keys : KeyManager} {s s' : State}

theorem gone_eq_some {id : PackfileId} {content : Bytes} (h : s.gone id = some content) :
    ∃ peer, (peer, id, content) ∈ s.acknowledged := by
  obtain ⟨⟨peer, id', content'⟩, hfind, rfl⟩ := Option.map_eq_some_iff.mp h
  obtain rfl : id' = id := by simpa using List.find?_some hfind
  exact ⟨peer, List.mem_of_find?_eq_some hfind⟩

/-- A packfile that is neither in the folder nor acknowledged is nowhere. -/
theorem whole_packfiles (id : PackfileId) :
    s.whole.world.disk.packfiles id = (s.disk.packfiles id).or (s.gone id) := rfl

/-- The acknowledgement of a packfile, deleted or not, is nothing to the packer. -/
theorem whole_acked (h : Consistent s) (peer : ClientId) {id : PackfileId} {content : Bytes}
    (hsome : s.disk.packfiles id = some content) {packfiles : PackfileId → Option Bytes}
    (hother : ∀ id', id' ≠ id → packfiles id' = s.disk.packfiles id')
    (hsame : packfiles id = some content ∨ packfiles id = none) :
    ∀ id', (packfiles id').or (({ s with
        acknowledged := s.acknowledged ++ [(peer, id, content)] } : State).gone id')
      = s.whole.world.disk.packfiles id' := by
  intro id'
  have hwhole : s.whole.world.disk.packfiles id = some content := Disk.putBack_of_some hsome
  by_cases hid : id' = id
  · subst hid
    rw [hwhole]
    rcases hsame with hpack | hpack
    · rw [hpack, Option.some_or]
    · rw [hpack, Option.none_or, State.gone, List.find?_append]
      cases hfind : s.acknowledged.find? fun a => a.2.1 = id' with
      | none => simp
      | some a =>
        obtain rfl : a.2.1 = id' := by simpa using List.find?_some hfind
        have hold := h a (List.mem_of_find?_eq_some hfind)
        simp only [Option.some_or, Option.map_some]
        exact hold.symm.trans hwhole
  · have hgone : ({ s with
        acknowledged := s.acknowledged ++ [(peer, id, content)] } : State).gone id'
          = s.gone id' := by
      simp [State.gone, List.find?_append, Ne.symm hid]
    rw [hgone, hother id' hid, whole_packfiles]

end

end Backuwup.Client.Upload
