/-
# The endpoints of the server (`server/src/handlers/`, `db.rs`, `main.rs`)

Registration and login are in `ClientAuth.lean`, and what a storage request does to the queue is in
`FulfillRuns.lean`.  Here are the handlers that take a session token: those of backups and storage
requests and those that put two clients in touch.  Each of them begins with `get_session` and has
awaits after it, and between two awaits any other request is handled; the state is that of the whole
server.

Two fields of the state record what no handler reads: the rows of `peer_backups` at the time a
snapshot was saved, and the snapshots that were there when a request came in.
-/
import Backuwup.Lib.Simulation
import Backuwup.Server.Challenges
import Backuwup.Server.FulfillRuns

namespace Backuwup.Server.Endpoints

open Transition
open Auth (SessionToken)
open Client (SignatureScheme)

variable {D : Type → Type → Type} [HashMapDelay D]

/-! ## 1. Messages and errors -/

/-- The messages of `server_message_ws.rs` that these handlers send. -/
inductive ServerMessageWs
  | incomingP2PConnection (sourceClientId : ClientId) (sessionNonce : FixedBytes 16)
  | finalizeP2PConnection (destinationClientId : ClientId) (destinationIpAddress : String)
deriving DecidableEq

/-- The client on whose behalf a message is sent. -/
def ServerMessageWs.sender : ServerMessageWs → ClientId
  | .incomingP2PConnection source _ => source
  | .finalizeP2PConnection destination _ => destination

structure BackupRestoreInfo where
  snapshotHash : BlobHash
  peers : List ClientId
deriving DecidableEq

inductive ErrorType
  | unauthorized
  | clientNotFound
  | destinationUnreachable
  | noBackups
  | retry
  | badRequest (message : String)
  | serverError (message : String)
  | failure (message : String)
deriving DecidableEq

/-- The answers of these handlers, of `ServerMessage`. -/
inductive ServerMessage
  | ok
  | error (e : ErrorType)
  | backupRestoreInfo (info : BackupRestoreInfo)
deriving DecidableEq

inductive Error
  | unauthorized
  | badRequest
  | challengeNotFound
  | database
  | databaseTypeMismatch
  | noBackupsAvailable
  | crypto
  | rng
  | serialization
  | clientNotFound (client : ClientId)
  | clientNotConnected (client : ClientId)
  | clientExists (client : ClientId)
  | io
deriving DecidableEq

def Error.asResponse : Error → ErrorType
  | .unauthorized => .unauthorized
  | .challengeNotFound => .retry
  | .database => .serverError "Database error"
  | .rng => .serverError "Server error"
  | .databaseTypeMismatch => .serverError "Encountered invalid data"
  | .badRequest => .badRequest "Bad request"
  | .crypto => .badRequest "Crypto error"
  | .serialization => .badRequest "Serialization error"
  | .clientExists _ => .badRequest "Client already exists"
  | .clientNotConnected _ => .destinationUnreachable
  | .io => .destinationUnreachable
  | .clientNotFound _ => .destinationUnreachable
  | .noBackupsAvailable => .noBackups

/-- The errors of `notify_client` and `fulfill`. -/
def Error.ofServer : Server.Error → Error
  | .badRequest => .badRequest
  | .clientNotConnected client => .clientNotConnected client
  | .serialization => .serialization
  | .io => .io
  | .database => .database

/-- What is sent to the client. -/
def respond : Except Error ServerMessage → ServerMessage
  | .ok message => message
  | .error e => .error e.asResponse

/-! ## 2. The tables -/

/-- A row of `snapshots`; the column of the hash has no length. -/
structure Snapshot where
  clientPubkey : ClientId
  snapshotHash : Bytes
  timestamp : ℕ
  /-- the rows of `peer_backups` at the time -/
  negotiated : List PeerBackup
deriving DecidableEq

/-- The first row of `order by timestamp desc`, if the client has one; of several with the same
time any may come first. -/
def IsLatest (rows : List Snapshot) (client : ClientId) : Option Snapshot → Prop
  | none => ∀ r ∈ rows, r.clientPubkey ≠ client
  | some row => row ∈ rows ∧ row.clientPubkey = client ∧
      ∀ r ∈ rows, r.clientPubkey = client → r.timestamp ≤ row.timestamp

instance (rows : List Snapshot) (client : ClientId) (row : Option Snapshot) :
    Decidable (IsLatest rows client row) :=
  match row with
  | none => inferInstanceAs (Decidable (∀ r ∈ rows, r.clientPubkey ≠ client))
  | some row => inferInstanceAs (Decidable (row ∈ rows ∧ row.clientPubkey = client ∧
      ∀ r ∈ rows, r.clientPubkey = client → r.timestamp ≤ row.timestamp))

/-- `get_latest_client_snapshot`, with the row that the query has found. -/
def getLatestClientSnapshot : Option Snapshot → Except Error (Option BlobHash)
  | some row =>
    if h : row.snapshotHash.length = 32 then .ok (some ⟨row.snapshotHash, h⟩)
    else .error .databaseTypeMismatch
  | none => .ok none

/-- `select distinct destination from peer_backups`, in no particular order. -/
def IsNegotiated (rows : List PeerBackup) (client : ClientId) (peers : List ClientId) : Prop :=
  peers.Perm ((rows.filter fun row => row.source = client).map PeerBackup.destination).dedup

instance (rows : List PeerBackup) (client : ClientId) (peers : List ClientId) :
    Decidable (IsNegotiated rows client peers) :=
  inferInstanceAs (Decidable (peers.Perm _))

/-! ## 3. The handlers -/

/-- A request, without its token. -/
inductive Body
  | backupDone (snapshotHash : BlobHash)
  | backupRestore
  | makeBackupRequest (storageRequired : ℕ)
  | p2pConnectionBegin (destinationClientId : ClientId) (sessionNonce : FixedBytes 16)
  | p2pConnectionConfirm (sourceClientId : ClientId) (destinationIpAddress : String)
deriving DecidableEq

/-- Where a handler is. -/
inductive Stage
  /-- `save_snapshot` comes next -/
  | savingSnapshot (snapshotHash : BlobHash)
  /-- the statement is executed, with the time of its `now()` -/
  | inserting (snapshotHash : BlobHash) (timestamp : ℕ)
  /-- `get_latest_client_snapshot` comes next -/
  | readingSnapshot
  /-- `get_client_negotiated_peers` comes next -/
  | readingPeers (snapshotHash : BlobHash)
  /-- in `fulfill` -/
  | fulfilling (call : ℕ)
  /-- `client_exists` comes next -/
  | checkingClient (client : ClientId) (message : ServerMessageWs)
  /-- `notify_client` comes next -/
  | notifying (client : ClientId) (message : ServerMessageWs)
  | answered (answer : Except Error ServerMessage)
deriving DecidableEq

/-- A request that is being handled; `client` is what `get_session` has returned. -/
structure Task where
  token : SessionToken
  body : Body
  client : Option ClientId
  stage : Stage
  /-- the rows of `snapshots` at its arrival -/
  before : List Snapshot
deriving DecidableEq

/-- The maps and tables with the requests that use them.  `notified` are the messages that have
been sent to clients. -/
structure State (D : Type → Type → Type) where
  auth : Auth.State D
  matching : Matching
  snapshots : List Snapshot
  notified : List (ClientId × ServerMessageWs)
  tasks : List Task

def State.peerBackups (s : State D) : List PeerBackup := s.matching.shared.ledger.peerBackups

variable (D) in
/-- The server has started with these clients in its database. -/
def start (clients : List ClientId) : State D := ⟨Auth.start D clients, emptyQueue, [], [], []⟩

/-- What a handler does once it knows the client. -/
def Body.first (client : ClientId) (calls : ℕ) : Body → Stage
  | .backupDone snapshotHash => .savingSnapshot snapshotHash
  | .backupRestore => .readingSnapshot
  | .makeBackupRequest _ => .fulfilling calls
  | .p2pConnectionBegin destination nonce =>
    .checkingClient destination (.incomingP2PConnection client nonce)
  | .p2pConnectionConfirm source address =>
    if 64 < address.utf8ByteSize then .answered (.error .badRequest)
    else .checkingClient source (.finalizeP2PConnection client address)

/-- A step of a handler, with the outcome of what it calls. -/
inductive Event
  | execute
  | insert (ok : Bool)
  /-- the row that the query has found, unless it fails -/
  | latestSnapshot (row : Option (Option Snapshot))
  | negotiatedPeers (peers : Option (List ClientId))
  | fulfilled
  | clientExists (ok : Bool)
  | notify (outcome : Except Server.Error Unit)

/-- One step of a handler: the rows of `snapshots`, the messages sent, and where it is next. -/
def handleStep (s : State D) (client : ClientId) (event : Event) (stage : Stage) :
    Option (List Snapshot × List (ClientId × ServerMessageWs) × Stage) :=
  let next := fun stage => some (s.snapshots, s.notified, stage)
  let fail := fun e => some (s.snapshots, s.notified, .answered (.error e))
  match event, stage with
  | .execute, .savingSnapshot hash => next (.inserting hash s.auth.shared.now)
  | .insert ok, .inserting hash timestamp =>
    -- the client of a snapshot is a foreign key
    if ok = true ∧ client ∈ s.auth.shared.clients then
      some (s.snapshots ++ [⟨client, hash.bytes, timestamp, s.peerBackups⟩], s.notified,
        .answered (.ok .ok))
    else fail .database
  | .latestSnapshot none, .readingSnapshot => fail .database
  | .latestSnapshot (some row), .readingSnapshot =>
    if IsLatest s.snapshots client row then
      match getLatestClientSnapshot row with
      | .error e => fail e
      | .ok none => fail .noBackupsAvailable
      | .ok (some hash) => next (.readingPeers hash)
    else none
  | .negotiatedPeers none, .readingPeers _ => fail .database
  | .negotiatedPeers (some peers), .readingPeers hash =>
    if IsNegotiated s.peerBackups client peers then
      next (.answered (.ok (.backupRestoreInfo ⟨hash, peers⟩)))
    else none
  | .fulfilled, .fulfilling call =>
    match s.matching.tasks[call]? with
    | some ⟨_, _, .returned .ok, _, _, _⟩ => next (.answered (.ok .ok))
    | some ⟨_, _, .returned (.err e), _, _, _⟩ => fail (.ofServer e)
    | _ => none
  | .clientExists false, .checkingClient _ _ => fail .database
  | .clientExists true, .checkingClient other message =>
    if other ∈ s.auth.shared.clients then next (.notifying other message)
    else fail (.clientNotFound other)
  | .notify (.ok _), .notifying other message =>
    some (s.snapshots, s.notified ++ [(other, message)], .answered (.ok .ok))
  | .notify (.error e), .notifying _ _ => fail (.ofServer e)
  | _, _ => none

/-! ## 4. The server -/

inductive Action
  /-- registration and login -/
  | auth (a : Auth.Action)
  /-- a step of a call of `fulfill`, or the oldest storage request expires -/
  | matching (a : Server.Action)
  | request (token : SessionToken) (body : Body)
  | handle (i : ℕ) (event : Event)

/-- The call of `fulfill` that a handler makes. -/
def Body.enqueue (client : ClientId) : Body → Matching → Matching
  | .makeBackupRequest storageRequired => fun m => m.spawn (.start ⟨storageRequired, client⟩)
  | _ => id

/-- A request arrives, and its handler calls `get_session`. -/
def State.arrive (s : State D) (token : SessionToken) (body : Body) : State D :=
  match s.auth.shared.auth.getSession token with
  | none => { s with
      tasks := s.tasks ++ [⟨token, body, none, .answered (.error .unauthorized), s.snapshots⟩] }
  | some client => { s with
      matching := body.enqueue client s.matching
      tasks := s.tasks ++
        [⟨token, body, some client, body.first client s.matching.tasks.length, s.snapshots⟩] }

def step (V : SignatureScheme) (s : State D) : Action → Option (State D)
  | .auth a => (Auth.step V s.auth a).map fun auth => { s with auth := auth }
  | .matching (.request _) => none
  | .matching a => (matchingStep s.matching a).map fun matching => { s with matching := matching }
  | .request token body =>
    (Auth.step V s.auth (.getSession token)).map fun auth =>
      { s.arrive token body with auth := auth }
  | .handle i event =>
    match s.tasks[i]? with
    | some ⟨token, body, some client, stage, before⟩ =>
      (handleStep s client event stage).map fun (snapshots, notified, stage) => { s with
        snapshots := snapshots
        notified := notified
        tasks := s.tasks.set i ⟨token, body, some client, stage, before⟩ }
    | _ => none

end Backuwup.Server.Endpoints
