/-
# Restores after each other (`backup/mod.rs`, `backup/restore_orchestrator.rs`)

`run_restore` asks every peer in the server's list for its files and waits in a loop, in which it
looks at two things that all restores share: a flag that says whether a restore is running, and a
map with the peers that are done.  The sessions of the peers go on in the background.  One that ends
well marks its peer as done, one that fails clears the flag.  `request_restore` clears the map and
sets the flag again, whoever is still looking at them.

This module has any number of calls, of peers and of sessions with both their ends, and what one
step of a session does.  Nothing a peer has stored is lost on the way as long as the session goes on
(`Session.Sound`), and it ends well only when all of it has been saved.
-/
import Backuwup.Client.NetP2p.RestoredFiles
import Backuwup.Client.Orchestrator.Exclusive

namespace Backuwup.Client

/-- `remove_file`. -/
def Disk.erase (disk : Disk) : FileInfo → Disk
  | .packfile id => { disk with packfiles := Function.update disk.packfiles id none }
  | .index n => { disk with index := disk.index.filter fun f => f.1 ≠ indexFileName n }

theorem Disk.read_erase_ne {disk : Disk} {info info' : FileInfo} (h : info' ≠ info) :
    (disk.erase info).read info' = disk.read info' := by
  cases info with
  | packfile id =>
    cases info' with
    | packfile id' =>
      have hid : id' ≠ id := fun heq => h (heq ▸ rfl)
      simp [read, erase, Function.update_of_ne hid]
    | index m => rfl
  | index n =>
    cases info' with
    | packfile id' => rfl
    | index m =>
      have hne := indexFileName_ne fun heq : m = n => h (heq ▸ rfl)
      simp only [read, erase, find?_filter_ne hne]

namespace RestoreRuns

open Restoring (Phase)

/-! ## 1. Sessions -/

/-- Where `restore_all_data_to_peer` is, at the peer. -/
inductive Sender
  /-- for the request message -/
  | waiting
  /-- it sends these files next, and closes the stream once there are none -/
  | sending (queue : List (FileInfo × Bytes))
  /-- for the acknowledgement of the last file -/
  | awaiting (queue : List (FileInfo × Bytes))
  /-- `done` has sent the Close message, behind all files -/
  | closed
  | failed
deriving DecidableEq

/-- The connection of one request, with both its ends. -/
structure Session where
  /-- the restore that has made the request -/
  restore : ℕ
  peer : ClientId
  sender : Sender
  /-- what the peer had stored when it began to send -/
  stored : Option (List (FileInfo × Bytes))
  /-- what `read_dir` has yielded at the peer -/
  listed : List (FileInfo × Bytes)
  /-- the messages on their way to the client -/
  wire : List (FileInfo × Bytes)
  /-- and the acknowledgements on their way back -/
  acks : ℕ
  /-- where `handle_receiving` is, at the client -/
  phase : Phase
  /-- the files that the client has saved -/
  saved : List (FileInfo × Bytes)
deriving DecidableEq

def Session.opened (restore : ℕ) (peer : ClientId) : Session :=
  ⟨restore, peer, .waiting, none, [], [], 0, .opened, []⟩

inductive SenderEvent
  /-- the request message is accepted, and the peer has not been asked too recently -/
  | begin (listing : List (FileInfo × Bytes))
  /-- `read_dir` yields a file that has been stored since -/
  | list (file : FileInfo × Bytes)
  | send
  | acknowledged
  | close
  /-- any error or timeout; the connection is dropped -/
  | fail
deriving DecidableEq

inductive ReceiverEvent
  /-- `RestoreReceiver::new`, which may fail -/
  | create (ok : Bool)
  | deliver
  /-- any error of the stream, also when the peer has dropped it -/
  | breaks
  /-- the Close message -/
  | close
  | save (io : FileWrite)
  /-- the acknowledgement is sent, which may fail -/
  | acknowledge (ok : Bool)
  /-- the last lines of `handle_receiving` -/
  | finish
deriving DecidableEq

/-! ## 2. The state -/

/-- Where a call of `request_restore` is, with the server's list of peers. -/
inductive Progress
  | idle
  /-- in `initialize_static`, for the mutex of `peer_restore_status` -/
  | locking
  /-- `requests::backup_restore` -/
  | requesting
  /-- it asks the rest of the peers next; once there are none, it waits in the loop -/
  | contacting (peers rest : List ClientId)
  /-- `add_peer` is done -/
  | added (peers : List ClientId) (peer : ClientId) (rest : List ClientId)
  /-- `add_request` is done -/
  | registered (peers rest : List ClientId)
  /-- in the loop, having seen that the restore is running -/
  | checked (peers : List ClientId)
  /-- out of the loop; `get_backup_path` comes next -/
  | completed (peers : List ClientId)
  /-- `dir_unpacker::unpack` has been called -/
  | unpacking (peers : List ClientId)
  /-- `remove_dir_all` -/
  | removing
  | returned
deriving DecidableEq

structure Shared where
  /-- `RESTORE_ORCHESTRATOR` has been set -/
  initialized : Bool
  restore : RestoreOrchestrator
  /-- `P2P_CONN_REQUESTS`, as far as they are for restores, with the restore that has made each -/
  requests : List (ClientId × ℕ)
  call : ℕ → Progress
  /-- the call that has last cleared the map of peers -/
  latest : Option ℕ
  /-- the folder of the restored packfiles -/
  disk : Disk
  /-- what each peer has stored for the client -/
  stores : ClientId → List (FileInfo × Bytes)

namespace Shared

def setCall (sh : Shared) (k : ℕ) (progress : Progress) : Shared :=
  { sh with call := Function.update sh.call k progress }

/-- `insert` of `peer_restore_status`. -/
def setStatus (sh : Shared) (peer : ClientId) (completed : Bool) : Shared :=
  { sh with restore := sh.restore.insertPeer peer completed }

def setFinished (sh : Shared) : Shared :=
  { sh with restore := { sh.restore with restoreRunning := false } }

/-- `request_restore` returns through `set_finished`. -/
def finish (sh : Shared) (k : ℕ) : Shared := sh.setFinished.setCall k .returned

/-- `initialize_static` clears the map, and `set_started` follows, which fails while a backup is
running. -/
def initializeStatic (sh : Shared) (k : ℕ) (backupRunning : Bool) : Shared :=
  { sh.setCall k (if backupRunning then .returned else .requesting) with
    initialized := true
    restore := ⟨sh.restore.restoreRunning || !backupRunning, []⟩
    latest := some k }

/-- `add_request`: the request is not remembered while there is one for the peer.  Where that one is
for something else, this is as if the request were dropped at once. -/
def addRequest (sh : Shared) (peer : ClientId) (k : ℕ) : Shared :=
  if peer ∈ sh.requests.map Prod.fst then sh
  else { sh with requests := sh.requests ++ [(peer, k)] }

@[simp] theorem addRequest_disk (sh : Shared) (peer : ClientId) (k : ℕ) :
    (sh.addRequest peer k).disk = sh.disk := by
  unfold addRequest
  split <;> rfl

@[simp] theorem addRequest_stores (sh : Shared) (peer : ClientId) (k : ℕ) :
    (sh.addRequest peer k).stores = sh.stores := by
  unfold addRequest
  split <;> rfl

/-- A request is taken, or expires. -/
def removeRequest (sh : Shared) (peer : ClientId) : Shared :=
  { sh with requests := sh.requests.filter fun r => r.1 ≠ peer }

end Shared

abbrev State := Pool Shared Session

def start (left : Disk) (stores : ClientId → List (FileInfo × Bytes)) : State :=
  ⟨⟨false, ⟨false, []⟩, [], fun _ => .idle, none, left, stores⟩, []⟩

/-! ## 3. The steps -/

/-- The peer's side of a session. -/
def senderStep (event : SenderEvent) (stores : ClientId → List (FileInfo × Bytes)) (x : Session) :
    Option Session :=
  match event, x.sender with
  | .begin listing, .waiting =>
    if listing.Perm (stores x.peer) then
      some { x with sender := .sending listing, stored := some listing, listed := listing }
    else none
  | .list file, .sending queue =>
    if file ∈ stores x.peer ∧ file ∉ x.listed then
      some { x with sender := .sending (queue ++ [file]), listed := x.listed ++ [file] }
    else none
  | .send, .sending (file :: queue) =>
    some { x with sender := .awaiting queue, wire := x.wire ++ [file] }
  | .acknowledged, .awaiting queue =>
    if 0 < x.acks then some { x with sender := .sending queue, acks := x.acks - 1 } else none
  | .close, .sending [] => some { x with sender := .closed }
  | .fail, _ => if x.sender = .closed then none else some { x with sender := .failed }
  | _, _ => none

/-- The client's side of a session. -/
def receiverStep (event : ReceiverEvent) (sh : Shared) (x : Session) : Option (Shared × Session) :=
  match event, x.phase with
  -- without the receiver the restore waits for this peer forever
  | .create ok, .opened => some (sh, { x with phase := if ok then .reading else .ended true })
  | .deliver, .reading =>
    match x.wire with
    | file :: wire => some (sh, { x with wire := wire, phase := .received file.1 file.2 })
    | [] => none
  | .breaks, .reading => some (sh, { x with phase := .streamed true })
  | .close, .reading =>
    if x.sender = .closed ∧ x.wire = [] then some (sh, { x with phase := .streamed false })
    else none
  | .save .ok, .received info data =>
    some ({ sh with disk := sh.disk.save data info },
      { x with phase := .saved, saved := x.saved ++ [(info, data)] })
  | .save .createFails, .received _ _ => some (sh, { x with phase := .streamed true })
  | .save (.writeFails n), .received info data =>
    some ({ sh with disk := sh.disk.save (data.take n) info }, { x with phase := .streamed true })
  | .acknowledge ok, .saved =>
    some (sh, if ok then { x with phase := .reading, acks := x.acks + 1 }
      else { x with phase := .streamed true })
  | .finish, .streamed false => some (sh.setStatus x.peer true, { x with phase := .ended false })
  | .finish, .streamed true => some (sh.setFinished, { x with phase := .ended true })
  | _, _ => none

inductive Action
  /-- `request_restore` to its first await; whether a backup is running -/
  | start (k : ℕ) (backupRunning : Bool)
  /-- the mutex in `initialize_static` is free -/
  | locked (k : ℕ) (backupRunning : Bool)
  /-- the answer of the server -/
  | listed (k : ℕ) (peers : Option (List ClientId))
  | addPeer (k : ℕ)
  | addRequest (k : ℕ) (ok : Bool)
  /-- `requests::p2p_connection_begin` -/
  | connectionBegin (k : ℕ) (ok : Bool)
  /-- `is_running` -/
  | checkRunning (k : ℕ)
  /-- `all_peers_completed` -/
  | checkPeers (k : ℕ)
  /-- `get_backup_path`, and the call of `unpack` -/
  | backupPath (k : ℕ) (ok : Bool)
  | unpacked (k : ℕ) (ok : Bool)
  /-- `remove_dir_all` gets to a file -/
  | removeFile (k : ℕ) (info : FileInfo)
  | removed (k : ℕ) (ok : Bool)
  /-- a request expires, or one that is not for a restore replaces it -/
  | drop (peer : ClientId)
  /-- `finalize_request`, on a connection with the peer -/
  | connect (peer : ClientId)
  /-- the peer stores a file -/
  | store (peer : ClientId) (file : FileInfo × Bytes)
  | sender (t : ℕ) (event : SenderEvent)
  | receiver (t : ℕ) (event : ReceiverEvent)

/-- A step of a call of `request_restore`. -/
def callStep (sh : Shared) : Action → Option Shared
  | .start k backupRunning =>
    match sh.call k with
    | .idle =>
      if sh.initialized then
        some (sh.setCall k (if sh.restore.restoreRunning then .returned else .locking))
      else some (sh.initializeStatic k backupRunning)
    | _ => none
  | .locked k backupRunning =>
    match sh.call k with
    | .locking => some (sh.initializeStatic k backupRunning)
    | _ => none
  | .listed k peers =>
    match sh.call k, peers with
    | .requesting, none => some (sh.finish k)
    -- the server selects distinct peers
    | .requesting, some peers =>
      if peers.Nodup then some (sh.setCall k (.contacting peers peers)) else none
    | _, _ => none
  | .addPeer k =>
    match sh.call k with
    | .contacting peers (peer :: rest) =>
      some ((sh.setStatus peer false).setCall k (.added peers peer rest))
    | _ => none
  | .addRequest k ok =>
    match sh.call k with
    | .added peers peer rest =>
      some (if ok then (sh.addRequest peer k).setCall k (.registered peers rest) else sh.finish k)
    | _ => none
  | .connectionBegin k ok =>
    match sh.call k with
    | .registered peers rest =>
      some (if ok then sh.setCall k (.contacting peers rest) else sh.finish k)
    | _ => none
  | .checkRunning k =>
    match sh.call k with
    | .contacting peers [] =>
      some (if sh.restore.restoreRunning then sh.setCall k (.checked peers) else sh.finish k)
    | _ => none
  | .checkPeers k =>
    match sh.call k with
    | .checked peers =>
      some (sh.setCall k
        (if sh.restore.allPeersCompleted then .completed peers else .contacting peers []))
    | _ => none
  | .backupPath k ok =>
    match sh.call k with
    | .completed peers => some (if ok then sh.setCall k (.unpacking peers) else sh.finish k)
    | _ => none
  | .unpacked k ok =>
    match sh.call k with
    | .unpacking _ => some (if ok then sh.setCall k .removing else sh.finish k)
    | _ => none
  | .removeFile k info =>
    match sh.call k with
    | .removing => some { sh with disk := sh.disk.erase info }
    | _ => none
  | .removed k ok =>
    match sh.call k with
    | .removing => some (if ok then { sh.finish k with disk := .empty } else sh.finish k)
    | _ => none
  | .drop peer => some (sh.removeRequest peer)
  | .store peer file =>
    if file.1 ∈ (sh.stores peer).map Prod.fst then none
    else some { sh with stores := Function.update sh.stores peer (sh.stores peer ++ [file]) }
  | _ => none

def step (s : State) : Action → Option State
  | .connect peer =>
    (s.shared.requests.find? fun r => r.1 = peer).map fun r =>
      Pool.spawn ⟨s.shared.removeRequest peer, s.tasks⟩ (.opened r.2 peer)
  | .sender t event =>
    s.advance (fun sh x => (senderStep event sh.stores x).map fun x' => (sh, x')) t
  | .receiver t event => s.advance (receiverStep event) t
  | a => (callStep s.shared a).map fun sh => ⟨sh, s.tasks⟩

/-! ## 4. The property and its condition -/

/-- The folder has a file of that name as a session has received it. -/
def Whole (disk : Disk) (tasks : List Session) (info : FileInfo) : Prop :=
  ∃ y ∈ tasks, ∃ data, (info, data) ∈ y.saved ∧ disk.read info = some data

/-- The session that restore `k` has had with the peer has ended well.  All that the peer had stored
when it began to send has been received and saved, and is whole in the folder. -/
def Delivered (s : State) (k : ℕ) (peer : ClientId) : Prop :=
  ∃ x ∈ s.tasks, x.restore = k ∧ x.peer = peer ∧ x.phase = .ended false ∧
    ∃ files, x.stored = some files ∧ ∀ f ∈ files, f ∈ x.saved ∧ Whole s.shared.disk s.tasks f.1

/-- The call waits for its sessions. -/
def Progress.waits : Progress → Bool
  | .requesting | .contacting _ _ | .added _ _ _ | .registered _ _ | .checked _ => true
  | _ => false

/-- The call is about to unpack. -/
def Progress.atUnpack : Progress → Bool
  | .completed _ => true
  | _ => false

namespace Shared

/-- The restore that has been initialised last waits for its sessions. -/
def Waiting (sh : Shared) (k : ℕ) : Prop := sh.latest = some k ∧ (sh.call k).waits = true

/-- The restore has not read the folder yet. -/
def Needs (sh : Shared) (k : ℕ) : Prop := sh.Waiting k ∨ (sh.call k).atUnpack = true

end Shared

/-- No session and no call takes part in a restore that has been initialised after its own. -/
def InTurn (s : State) : Action → Prop
  -- a session does not complete a peer for a later restore
  | .receiver t .finish => ∀ x k, s.tasks[t]? = some x → x.phase = .streamed false →
    (x.peer, false) ∈ s.shared.restore.peerRestoreStatus → s.shared.Waiting k → x.restore = k
  -- nor tears a file that another one has received and not unpacked
  | .receiver t (.save (.writeFails _)) => ∀ x info data y, s.tasks[t]? = some x →
    x.phase = .received info data → y ∈ s.tasks → s.shared.Needs y.restore →
    info ∈ y.saved.map Prod.fst → x.restore = y.restore
  -- a call does not take the map of a later one for its own
  | .checkPeers k => s.shared.restore.allPeersCompleted = true → s.shared.latest = some k
  -- nor removes what another one has received and not unpacked
  | .removeFile _ info => ∀ y ∈ s.tasks, s.shared.Needs y.restore → info ∉ y.saved.map Prod.fst
  | .removed _ ok => ok = true → ∀ y ∈ s.tasks, s.shared.Needs y.restore → y.saved = []
  | _ => True

/-! ## 5. What a session does -/

def Sender.queue : Sender → List (FileInfo × Bytes)
  | .sending queue | .awaiting queue => queue
  | _ => []

/-- The file that has been received and is not saved yet. -/
def inHand : Phase → List (FileInfo × Bytes)
  | .received info data => [(info, data)]
  | _ => []

/-- No file that the peer had stored gets lost between the two ends. -/
structure Session.Sound (x : Session) : Prop where
  delivers : x.phase.active = true → x.sender ≠ .failed → ∀ files, x.stored = some files →
    ∀ f ∈ files, f ∈ x.saved ++ (inHand x.phase ++ (x.wire ++ x.sender.queue))
  begun : x.sender ≠ .waiting → x.sender ≠ .failed → ∃ files, x.stored = some files
  completed : x.phase = .streamed false ∨ x.phase = .ended false →
    x.sender = .closed ∧ ∃ files, x.stored = some files ∧ ∀ f ∈ files, f ∈ x.saved

/-- What a call of `request_restore` can do. -/
inductive Called (sh : Shared) : Action → Shared → Prop
  | finishes (a : Action) (k : ℕ) : Called sh a (sh.finish k)
  | locks (k : ℕ) (backupRunning : Bool) (next : Progress) : sh.call k = .idle →
      next = .locking ∨ next = .returned →
      Called sh (.start k backupRunning) (sh.setCall k next)
  | initializes (a : Action) (k : ℕ) (backupRunning : Bool) :
      sh.call k = .idle ∨ sh.call k = .locking → Called sh a (sh.initializeStatic k backupRunning)
  | lists (k : ℕ) (peers : List ClientId) : sh.call k = .requesting → peers.Nodup →
      Called sh (.listed k (some peers)) (sh.setCall k (.contacting peers peers))
  | addsPeer (k : ℕ) (peers rest : List ClientId) (peer : ClientId) :
      sh.call k = .contacting peers (peer :: rest) →
      Called sh (.addPeer k) ((sh.setStatus peer false).setCall k (.added peers peer rest))
  | registers (k : ℕ) (peers rest : List ClientId) (peer : ClientId) :
      sh.call k = .added peers peer rest →
      Called sh (.addRequest k true) ((sh.addRequest peer k).setCall k (.registered peers rest))
  | contacts (k : ℕ) (peers rest : List ClientId) : sh.call k = .registered peers rest →
      Called sh (.connectionBegin k true) (sh.setCall k (.contacting peers rest))
  | checks (k : ℕ) (peers : List ClientId) : sh.call k = .contacting peers [] →
      Called sh (.checkRunning k) (sh.setCall k (.checked peers))
  | waits (k : ℕ) (peers : List ClientId) : sh.call k = .checked peers →
      Called sh (.checkPeers k) (sh.setCall k (.contacting peers []))
  | completes (k : ℕ) (peers : List ClientId) : sh.call k = .checked peers →
      sh.restore.allPeersCompleted = true →
      Called sh (.checkPeers k) (sh.setCall k (.completed peers))
  | unpacks (k : ℕ) (peers : List ClientId) : sh.call k = .completed peers →
      Called sh (.backupPath k true) (sh.setCall k (.unpacking peers))
  | unpacked (k : ℕ) (peers : List ClientId) : sh.call k = .unpacking peers →
      Called sh (.unpacked k true) (sh.setCall k .removing)
  | removesFile (k : ℕ) (info : FileInfo) : sh.call k = .removing →
      Called sh (.removeFile k info) { sh with disk := sh.disk.erase info }
  | removes (k : ℕ) : sh.call k = .removing →
      Called sh (.removed k true) { sh.finish k with disk := .empty }
  | drops (peer : ClientId) : Called sh (.drop peer) (sh.removeRequest peer)
  | stores (peer : ClientId) (file : FileInfo × Bytes) :
      Called sh (.store peer file)
        { sh with stores := Function.update sh.stores peer (sh.stores peer ++ [file]) }

theorem called_of_start {sh sh' : Shared} {k : ℕ} {backupRunning : Bool}
    (hst : callStep sh (.start k backupRunning) = some sh') :
    Called sh (.start k backupRunning) sh' := by
  simp only [callStep] at hst
  split at hst
  · rename_i hpc
    split at hst <;> obtain rfl := Option.some.inj hst
    · refine .locks k backupRunning _ hpc ?_
      split
      · exact Or.inr rfl
      · exact Or.inl rfl
    · exact .initializes _ k backupRunning (Or.inl hpc)
  · cases hst

/-- The peers are contacted one after the other. -/
theorem called_of_contact {sh sh' : Shared} {a : Action} {k : ℕ}
    (ha : a = .addPeer k ∨ (∃ ok, a = .addRequest k ok) ∨ ∃ ok, a = .connectionBegin k ok)
    (hst : callStep sh a = some sh') : Called sh a sh' := by
  rcases ha with rfl | ⟨ok, rfl⟩ | ⟨ok, rfl⟩
  all_goals
    simp only [callStep] at hst
    split at hst
  · rename_i peers peer rest hpc
    exact Option.some.inj hst ▸ .addsPeer k peers rest peer hpc
  · cases hst
  · rename_i peers peer rest hpc
    obtain rfl := Option.some.inj hst
    cases ok with
    | false => exact .finishes _ k
    | true => exact .registers k peers rest peer hpc
  · cases hst
  · rename_i peers rest hpc
    obtain rfl := Option.some.inj hst
    cases ok with
    | false => exact .finishes _ k
    | true => exact .contacts k peers rest hpc
  · cases hst

theorem called_of_wait {sh sh' : Shared} {a : Action} {k : ℕ}
    (ha : a = .checkRunning k ∨ a = .checkPeers k) (hst : callStep sh a = some sh') :
    Called sh a sh' := by
  rcases ha with rfl | rfl
  all_goals
    simp only [callStep] at hst
    split at hst
  · rename_i peers hpc
    obtain rfl := Option.some.inj hst
    split
    · exact .checks k peers hpc
    · exact .finishes _ k
  · cases hst
  · rename_i peers hpc
    obtain rfl := Option.some.inj hst
    split
    · rename_i hall
      exact .completes k peers hpc hall
    · exact .waits k peers hpc
  · cases hst

/-- The files are unpacked and removed. -/
theorem called_of_unpack {sh sh' : Shared} {a : Action} {k : ℕ} {ok : Bool}
    (ha : a = .backupPath k ok ∨ a = .unpacked k ok ∨ a = .removed k ok)
    (hst : callStep sh a = some sh') : Called sh a sh' := by
  rcases ha with rfl | rfl | rfl
  all_goals
    simp only [callStep] at hst
    split at hst
  · rename_i peers hpc
    obtain rfl := Option.some.inj hst
    cases ok with
    | false => exact .finishes _ k
    | true => exact .unpacks k peers hpc
  · cases hst
  · rename_i peers hpc
    obtain rfl := Option.some.inj hst
    cases ok with
    | false => exact .finishes _ k
    | true => exact .unpacked k peers hpc
  · cases hst
  · rename_i hpc
    obtain rfl := Option.some.inj hst
    cases ok with
    | false => exact .finishes _ k
    | true => exact .removes k hpc
  · cases hst

theorem called_of_callStep {sh sh' : Shared} {a : Action} (hst : callStep sh a = some sh') :
    Called sh a sh' := by
  cases a with
  | start k backupRunning => exact called_of_start hst
  | addPeer k => exact called_of_contact (Or.inl rfl) hst
  | addRequest k ok => exact called_of_contact (Or.inr (Or.inl ⟨ok, rfl⟩)) hst
  | connectionBegin k ok => exact called_of_contact (Or.inr (Or.inr ⟨ok, rfl⟩)) hst
  | checkRunning k => exact called_of_wait (Or.inl rfl) hst
  | checkPeers k => exact called_of_wait (Or.inr rfl) hst
  | backupPath k ok => exact called_of_unpack (Or.inl rfl) hst
  | unpacked k ok => exact called_of_unpack (Or.inr (Or.inl rfl)) hst
  | removed k ok => exact called_of_unpack (Or.inr (Or.inr rfl)) hst
  | locked k backupRunning =>
    simp only [callStep] at hst
    split at hst
    · rename_i hpc
      exact Option.some.inj hst ▸ .initializes _ k backupRunning (Or.inr hpc)
    · cases hst
  | listed k peers =>
    simp only [callStep] at hst
    split at hst
    · exact Option.some.inj hst ▸ .finishes _ k
    · rename_i peers hpc
      obtain ⟨hnodup, hst⟩ := Option.ite_none_right_eq_some.mp hst
      exact Option.some.inj hst ▸ .lists k peers hpc hnodup
    · cases hst
  | removeFile k info =>
    simp only [callStep] at hst
    split at hst
    · rename_i hpc
      exact Option.some.inj hst ▸ .removesFile k info hpc
    · cases hst
  | drop peer => exact Option.some.inj hst ▸ .drops peer
  | store peer file =>
    obtain ⟨-, hst⟩ := Option.ite_none_left_eq_some.mp hst
    exact Option.some.inj hst ▸ .stores peer file
  | connect | sender | receiver => cases hst

/-- What the peer's side can do. -/
inductive Sent (x : Session) : Session → Prop
  | begins (files : List (FileInfo × Bytes)) : x.sender = .waiting →
      Sent x { x with sender := .sending files, stored := some files, listed := files }
  | lists (file : FileInfo × Bytes) (queue : List (FileInfo × Bytes)) : x.sender = .sending queue →
      Sent x { x with sender := .sending (queue ++ [file]), listed := x.listed ++ [file] }
  | sends (file : FileInfo × Bytes) (queue : List (FileInfo × Bytes)) :
      x.sender = .sending (file :: queue) →
      Sent x { x with sender := .awaiting queue, wire := x.wire ++ [file] }
  | continues (queue : List (FileInfo × Bytes)) : x.sender = .awaiting queue →
      Sent x { x with sender := .sending queue, acks := x.acks - 1 }
  | closes : x.sender = .sending [] → Sent x { x with sender := .closed }
  | fails : x.sender ≠ .closed → Sent x { x with sender := .failed }

/-- What the client's side can do. -/
inductive Receives (sh : Shared) (x : Session) : ReceiverEvent → Shared → Session → Prop
  | creates : x.phase = .opened →
      Receives sh x (.create true) sh { x with phase := .reading }
  | notCreated : x.phase = .opened →
      Receives sh x (.create false) sh { x with phase := .ended true }
  | delivers (file : FileInfo × Bytes) (wire : List (FileInfo × Bytes)) : x.phase = .reading →
      x.wire = file :: wire → Receives sh x .deliver sh
        { x with wire := wire, phase := .received file.1 file.2 }
  | breaks : x.phase = .reading → Receives sh x .breaks sh { x with phase := .streamed true }
  | closes : x.phase = .reading → x.sender = .closed → x.wire = [] →
      Receives sh x .close sh { x with phase := .streamed false }
  | saves (info : FileInfo) (data : Bytes) : x.phase = .received info data →
      Receives sh x (.save .ok) { sh with disk := sh.disk.save data info }
        { x with phase := .saved, saved := x.saved ++ [(info, data)] }
  | notSaved (info : FileInfo) (data : Bytes) : x.phase = .received info data →
      Receives sh x (.save .createFails) sh { x with phase := .streamed true }
  | tears (info : FileInfo) (data : Bytes) (n : ℕ) : x.phase = .received info data →
      Receives sh x (.save (.writeFails n)) { sh with disk := sh.disk.save (data.take n) info }
        { x with phase := .streamed true }
  | acknowledges : x.phase = .saved →
      Receives sh x (.acknowledge true) sh { x with phase := .reading, acks := x.acks + 1 }
  | notAcknowledged : x.phase = .saved →
      Receives sh x (.acknowledge false) sh { x with phase := .streamed true }
  | completes : x.phase = .streamed false →
      Receives sh x .finish (sh.setStatus x.peer true) { x with phase := .ended false }
  | fails : x.phase = .streamed true →
      Receives sh x .finish sh.setFinished { x with phase := .ended true }

/-- What a step of the client's side does to the folder and to the orchestrator. -/
inductive Received (sh : Shared) (x : Session) : ReceiverEvent → Shared → Session → Prop
  | moves (event : ReceiverEvent) (x' : Session) : x.phase.active = true →
      x'.phase ≠ .ended false → x'.saved = x.saved → Received sh x event sh x'
  | saves (info : FileInfo) (data : Bytes) (x' : Session) :
      x.phase = .received info data → x'.phase = .saved → x'.saved = x.saved ++ [(info, data)] →
      Received sh x (.save .ok) { sh with disk := sh.disk.save data info } x'
  | tears (info : FileInfo) (data : Bytes) (n : ℕ) (x' : Session) :
      x.phase = .received info data → x'.phase = .streamed true → x'.saved = x.saved →
      Received sh x (.save (.writeFails n)) { sh with disk := sh.disk.save (data.take n) info } x'
  | completes (x' : Session) : x.phase = .streamed false → x'.phase = .ended false →
      x'.saved = x.saved → Received sh x .finish (sh.setStatus x.peer true) x'
  | fails (x' : Session) : x.phase = .streamed true → x'.phase = .ended true →
      x'.saved = x.saved → Received sh x .finish sh.setFinished x'

section

variable {sh sh' : Shared} {x x' : Session} {stores : ClientId → List (FileInfo × Bytes)}

theorem sound_opened {k : ℕ} {peer : ClientId} : (Session.opened k peer).Sound where
  delivers _ _ files h := by simp [Session.opened] at h
  begun h := absurd rfl h
  completed h := by simp [Session.opened] at h

theorem sent_of_senderStep {event : SenderEvent} (h : senderStep event stores x = some x') :
    Sent x x' := by
  generalize hsender : x.sender = sender at h
  cases event with
  | begin listing =>
    cases sender <;> simp only [senderStep, hsender, reduceCtorEq] at h
    obtain ⟨-, h⟩ := Option.ite_none_right_eq_some.mp h
    exact Option.some.inj h ▸ .begins listing hsender
  | list file =>
    cases sender <;> simp only [senderStep, hsender, reduceCtorEq] at h
    obtain ⟨-, h⟩ := Option.ite_none_right_eq_some.mp h
    exact Option.some.inj h ▸ .lists file _ hsender
  | send =>
    cases sender with
    | sending queue =>
      cases queue <;> simp only [senderStep, hsender, reduceCtorEq] at h
      exact Option.some.inj h ▸ .sends _ _ hsender
    | _ => simp only [senderStep, hsender, reduceCtorEq] at h
  | acknowledged =>
    cases sender <;> simp only [senderStep, hsender, reduceCtorEq] at h
    obtain ⟨-, h⟩ := Option.ite_none_right_eq_some.mp h
    exact Option.some.inj h ▸ .continues _ hsender
  | close =>
    cases sender with
    | sending queue =>
      cases queue <;> simp only [senderStep, hsender, reduceCtorEq] at h
      exact Option.some.inj h ▸ .closes hsender
    | _ => simp only [senderStep, hsender, reduceCtorEq] at h
  | fail =>
    simp only [senderStep] at h
    obtain ⟨hopen, h⟩ := Option.ite_none_left_eq_some.mp h
    exact Option.some.inj h ▸ .fails hopen

theorem Sent.same (h : Sent x x') :
    x'.restore = x.restore ∧ x'.peer = x.peer ∧ x'.phase = x.phase ∧ x'.saved = x.saved := by
  cases h <;> exact ⟨rfl, rfl, rfl, rfl⟩

theorem sound_sent (hs : x.Sound) (h : Sent x x') : x'.Sound := by
  have hopen (hne : x.sender ≠ .closed) : ¬ (x.phase = .streamed false ∨ x.phase = .ended false) :=
    fun hphase => hne (hs.completed hphase).1
  cases h with
  | begins files hsender =>
    refine ⟨fun _ _ files' hfiles f hf => ?_, fun _ _ => ⟨files, rfl⟩,
      fun hphase => absurd hphase (hopen (by simp [hsender]))⟩
    obtain rfl := Option.some.inj hfiles
    simp [Sender.queue, hf]
  | lists file queue hsender =>
    refine ⟨fun hactive _ files hfiles f hf => ?_, fun _ _ => hs.begun (by simp [hsender])
      (by simp [hsender]), fun hphase => absurd hphase (hopen (by simp [hsender]))⟩
    have hold := hs.delivers hactive (by simp [hsender]) files hfiles f hf
    simp only [hsender, Sender.queue, List.mem_append] at hold ⊢
    exact hold.imp_right (Or.imp_right (Or.imp_right Or.inl))
  | sends file queue hsender =>
    refine ⟨fun hactive _ files hfiles f hf => ?_, fun _ _ => hs.begun (by simp [hsender])
      (by simp [hsender]), fun hphase => absurd hphase (hopen (by simp [hsender]))⟩
    have hold := hs.delivers hactive (by simp [hsender]) files hfiles f hf
    rw [hsender] at hold
    simpa [Sender.queue] using hold
  | continues queue hsender =>
    refine ⟨fun hactive _ files hfiles f hf => ?_, fun _ _ => hs.begun (by simp [hsender])
      (by simp [hsender]), fun hphase => absurd hphase (hopen (by simp [hsender]))⟩
    have hold := hs.delivers hactive (by simp [hsender]) files hfiles f hf
    rw [hsender] at hold
    exact hold
  | closes hsender =>
    refine ⟨fun hactive _ files hfiles f hf => ?_, fun _ _ => hs.begun (by simp [hsender])
      (by simp [hsender]), fun hphase => absurd hphase (hopen (by simp [hsender]))⟩
    have hold := hs.delivers hactive (by simp [hsender]) files hfiles f hf
    rw [hsender] at hold
    exact hold
  | fails hopened =>
    exact ⟨fun _ hne => absurd rfl hne, fun _ hne => absurd rfl hne,
      fun hphase => absurd hphase (hopen hopened)⟩

theorem receives_of_receiverStep {event : ReceiverEvent}
    (h : receiverStep event sh x = some (sh', x')) : Receives sh x event sh' x' := by
  unfold receiverStep at h
  split at h
  · rename_i ok hphase
    obtain ⟨rfl, rfl⟩ := Prod.mk.inj (Option.some.inj h)
    cases ok with
    | true => exact .creates hphase
    | false => exact .notCreated hphase
  · rename_i hphase
    split at h
    · rename_i file wire hwire
      obtain ⟨rfl, rfl⟩ := Prod.mk.inj (Option.some.inj h)
      exact .delivers file wire hphase hwire
    · cases h
  · rename_i hphase
    obtain ⟨rfl, rfl⟩ := Prod.mk.inj (Option.some.inj h)
    exact .breaks hphase
  · rename_i hphase
    obtain ⟨⟨hclosed, hwire⟩, h⟩ := Option.ite_none_right_eq_some.mp h
    obtain ⟨rfl, rfl⟩ := Prod.mk.inj (Option.some.inj h)
    exact .closes hphase hclosed hwire
  · rename_i info data hphase
    obtain ⟨rfl, rfl⟩ := Prod.mk.inj (Option.some.inj h)
    exact .saves info data hphase
  · rename_i info data hphase
    obtain ⟨rfl, rfl⟩ := Prod.mk.inj (Option.some.inj h)
    exact .notSaved info data hphase
  · rename_i n info data hphase
    obtain ⟨rfl, rfl⟩ := Prod.mk.inj (Option.some.inj h)
    exact .tears info data n hphase
  · rename_i ok hphase
    obtain ⟨rfl, rfl⟩ := Prod.mk.inj (Option.some.inj h)
    cases ok with
    | true => exact .acknowledges hphase
    | false => exact .notAcknowledged hphase
  · rename_i hphase
    obtain ⟨rfl, rfl⟩ := Prod.mk.inj (Option.some.inj h)
    exact .completes hphase
  · rename_i hphase
    obtain ⟨rfl, rfl⟩ := Prod.mk.inj (Option.some.inj h)
    exact .fails hphase
  · cases h

theorem received_of_receiverStep {event : ReceiverEvent}
    (h : receiverStep event sh x = some (sh', x')) :
    x'.restore = x.restore ∧ x'.peer = x.peer ∧ Received sh x event sh' x' := by
  cases receives_of_receiverStep h with
  | creates hphase | notCreated hphase | delivers _ _ hphase | breaks hphase | closes hphase
  | notSaved _ _ hphase | acknowledges hphase | notAcknowledged hphase =>
    exact ⟨rfl, rfl, .moves _ _ (hphase ▸ rfl) (by simp) rfl⟩
  | saves info data hphase => exact ⟨rfl, rfl, .saves _ _ _ hphase rfl rfl⟩
  | tears info data n hphase => exact ⟨rfl, rfl, .tears _ _ n _ hphase rfl rfl⟩
  | completes hphase => exact ⟨rfl, rfl, .completes _ hphase rfl rfl⟩
  | fails hphase => exact ⟨rfl, rfl, .fails _ hphase rfl rfl⟩

/-- The client's side keeps what it has and what is on its way, until it fails. -/
theorem Session.Sound.receive (hs : x.Sound) (hsender : x'.sender = x.sender)
    (hstored : x'.stored = x.stored)
    (hkeep : x'.phase.active = true → x.phase.active = true ∧
      ∀ f ∈ x.saved ++ (inHand x.phase ++ x.wire), f ∈ x'.saved ++ (inHand x'.phase ++ x'.wire))
    (hdone : x'.phase = .streamed false ∨ x'.phase = .ended false →
      (x.phase = .streamed false ∨ x.phase = .ended false) ∧ x'.saved = x.saved) : x'.Sound where
  delivers hactive hne files hfiles f hf := by
    obtain ⟨hold, hkept⟩ := hkeep hactive
    have hwas := hs.delivers hold (hsender ▸ hne) files (hstored ▸ hfiles) f hf
    rw [hsender]
    have hassoc (a b c d : List (FileInfo × Bytes)) :
        a ++ (b ++ (c ++ d)) = a ++ (b ++ c) ++ d := by
      simp only [List.append_assoc]
    rw [hassoc] at hwas ⊢
    rcases List.mem_append.mp hwas with hwas | hqueue
    · exact List.mem_append_left _ (hkept f hwas)
    · exact List.mem_append_right _ hqueue
  begun hw hne := hstored ▸ hs.begun (hsender ▸ hw) (hsender ▸ hne)
  completed hphase := by
    obtain ⟨hold, hsaved⟩ := hdone hphase
    rw [hsender, hstored, hsaved]
    exact hs.completed hold

theorem sound_receiverStep {event : ReceiverEvent} (hs : x.Sound)
    (h : receiverStep event sh x = some (sh', x')) : x'.Sound := by
  cases receives_of_receiverStep h with
  | creates hphase =>
    refine hs.receive rfl rfl (fun _ => ⟨hphase ▸ rfl, fun f hf => ?_⟩) (by simp)
    rw [hphase] at hf
    exact hf
  | delivers file wire hphase hwire =>
    refine hs.receive rfl rfl (fun _ => ⟨hphase ▸ rfl, fun f hf => ?_⟩) (by simp)
    rw [hphase, hwire] at hf
    exact hf
  | closes hphase hclosed hwire =>
    have hopen : x.sender ≠ .waiting ∧ x.sender ≠ .failed := by simp [hclosed]
    obtain ⟨files, hfiles⟩ := hs.begun hopen.1 hopen.2
    refine ⟨by simp [Phase.active], fun _ _ => ⟨files, hfiles⟩, fun _ =>
      ⟨hclosed, files, hfiles, fun f hf => ?_⟩⟩
    -- the Close message comes behind all files, so there is nothing left on the way
    have hwas := hs.delivers (hphase ▸ rfl) hopen.2 files hfiles f hf
    rw [hphase, hwire, hclosed] at hwas
    simpa [inHand, Sender.queue] using hwas
  | saves info data hphase =>
    refine hs.receive rfl rfl (fun _ => ⟨hphase ▸ rfl, fun f hf => ?_⟩) (by simp)
    rw [hphase] at hf
    simpa [inHand] using hf
  | acknowledges hphase =>
    refine hs.receive rfl rfl (fun _ => ⟨hphase ▸ rfl, fun f hf => ?_⟩) (by simp)
    rw [hphase] at hf
    exact hf
  | completes hphase =>
    exact hs.receive rfl rfl (by simp [Phase.active]) fun _ => ⟨Or.inl hphase, rfl⟩
  -- the session has failed, and promises nothing
  | notCreated | breaks | notSaved | tears | notAcknowledged | fails =>
    exact hs.receive rfl rfl (by simp [Phase.active]) (by simp)

end

end RestoreRuns

end Backuwup.Client
