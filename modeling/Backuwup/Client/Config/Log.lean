/-
# The log of events (`client/src/config/log.rs`)

Restore requests and backups are logged as rows with a timestamp, the type of the event and its data
as a JSON document.  The queries read the latest row of a kind, and take values out of the document
with the operator `->>`, which yields a number, a string, or the text of an array; a peer is looked
up by the text of its id (`arrayText_peerArray`).

Which of several rows with the same timestamp is the latest one is up to the database
(`LatestFirst`).  Its own failures are the subject of the modules that use the log.
-/
import Backuwup.Client.FileSystem

namespace Backuwup.Client.Log

/-! ## 1. Events -/

inductive EventType
  | restoreRequest
  | backup
deriving DecidableEq

def EventType.toId : EventType → ℕ
  | .restoreRequest => 0
  | .backup => 1

/-- The keys of the two documents. -/
inductive Key
  | peerId
  | size
  | path
deriving DecidableEq

/-- The values in them. -/
inductive Json
  | number (n : ℤ)
  | string (s : List Char)
  | array (ns : List ℕ)
deriving DecidableEq

/-- The bytes of a peer's id, as serde writes them. -/
def peerArray (peerId : ClientId) : List ℕ := peerId.bytes.map Fin.val

def restoreRequestEvent (peerId : ClientId) : List (Key × Json) :=
  [(.peerId, .array (peerArray peerId))]

def backupEvent (size : ℤ) (path : FileName) : List (Key × Json) :=
  [(.size, .number size), (.path, .string path)]

structure LogRow where
  timestamp : ℤ
  eventType : ℕ
  eventData : List (Key × Json)
deriving DecidableEq

/-- `log_peer_restore_request`, at a time. -/
def logPeerRestoreRequest (log : List LogRow) (now : ℤ) (peerId : ClientId) : List LogRow :=
  log ++ [⟨now, EventType.restoreRequest.toId, restoreRequestEvent peerId⟩]

def logBackup (log : List LogRow) (now size : ℤ) (path : FileName) : List LogRow :=
  log ++ [⟨now, EventType.backup.toId, backupEvent size path⟩]

/-! ## 2. Queries -/

/-- A column of a result. -/
inductive SqlValue
  | null
  | integer (n : ℤ)
  | text (s : List Char)
deriving DecidableEq

inductive SqlError
  | columnIndexOutOfBounds
  | columnDecode
deriving DecidableEq

def tryGetI64 (row : List SqlValue) (i : ℕ) : Except SqlError ℤ :=
  match row[i]? with
  | none => .error .columnIndexOutOfBounds
  | some (.integer n) => .ok n
  | some _ => .error .columnDecode

def tryGetString (row : List SqlValue) (i : ℕ) : Except SqlError (List Char) :=
  match row[i]? with
  | none => .error .columnIndexOutOfBounds
  | some (.text s) => .ok s
  | some _ => .error .columnDecode

def arrayText (ns : List ℕ) : List Char :=
  '[' :: [','].intercalate (ns.map (Nat.toDigits 10)) ++ [']']

/-- `event_data ->> key`. -/
def extract (eventData : List (Key × Json)) (key : Key) : SqlValue :=
  match eventData.lookup key with
  | none => .null
  | some (.number n) => .integer n
  | some (.string s) => .text s
  | some (.array ns) => .text (arrayText ns)

/-- `order by timestamp desc limit 1`. -/
structure LatestFirst where
  latest : List LogRow → Option LogRow
  mem : ∀ rows r, latest rows = some r → r ∈ rows
  le : ∀ rows r, latest rows = some r → ∀ r' ∈ rows, r'.timestamp ≤ r.timestamp
  eq_nil : ∀ rows, latest rows = none → rows = []

def latestRow : List LogRow → Option LogRow
  | [] => none
  | r :: rows =>
    match latestRow rows with
    | none => some r
    | some r' => if r.timestamp < r'.timestamp then some r' else some r

theorem latestRow_spec (rows : List LogRow) :
    match latestRow rows with
    | none => rows = []
    | some r => r ∈ rows ∧ ∀ r' ∈ rows, r'.timestamp ≤ r.timestamp := by
  induction rows with
  | nil => rfl
  | cons r rows ih =>
    unfold latestRow
    cases hlatest : latestRow rows with
    | none =>
      rw [hlatest] at ih
      obtain rfl : rows = [] := ih
      simp
    | some r' =>
      rw [hlatest] at ih
      obtain ⟨hmem, hle⟩ := ih
      by_cases hlt : r.timestamp < r'.timestamp
      · simp only [if_pos hlt]
        exact ⟨List.mem_cons_of_mem _ hmem, List.forall_mem_cons.mpr ⟨le_of_lt hlt, hle⟩⟩
      · simp only [if_neg hlt]
        refine ⟨List.mem_cons_self, List.forall_mem_cons.mpr ⟨le_refl _, fun r'' hr'' => ?_⟩⟩
        exact (hle r'' hr'').trans (not_lt.mp hlt)

def firstLatest : LatestFirst where
  latest := latestRow
  mem rows r h := by
    have hspec := latestRow_spec rows
    rw [h] at hspec
    exact hspec.1
  le rows r h := by
    have hspec := latestRow_spec rows
    rw [h] at hspec
    exact hspec.2
  eq_nil rows h := by
    have hspec := latestRow_spec rows
    rwa [h] at hspec

/-- The rows of the restore requests of a peer. -/
def requestsOf (log : List LogRow) (peerId : ClientId) : List LogRow :=
  log.filter fun r => r.eventType = EventType.restoreRequest.toId ∧
    extract r.eventData .peerId = .text (arrayText (peerArray peerId))

def getLastPeerRestoreRequest (q : LatestFirst) (log : List LogRow) (peerId : ClientId) :
    Except SqlError (Option ℤ) :=
  match q.latest (requestsOf log peerId) with
  | none => .ok none
  | some r => do
    let columns := [SqlValue.integer r.timestamp]
    return some (← tryGetI64 columns 0)

/-- `get_backup_size_difference`; the query selects one column. -/
def getBackupSizeDifference (q : LatestFirst) (log : List LogRow) (size : ℤ) (path : FileName) :
    Except SqlError (Option ℤ) :=
  match q.latest (log.filter fun r => r.eventType = EventType.backup.toId) with
  | none => .ok none
  | some r => do
    let columns := [extract r.eventData .size]
    let lastSize ← tryGetI64 columns 0
    let oldPath ← tryGetString columns 1
    if FsPath.parse oldPath ≠ FsPath.parse path then
      return none
    return some (size - lastSize)

/-! ## 3. Peers in the log -/

/-- The number that the digits are of. -/
def digitsValue (ds : List Char) : ℕ := ds.foldl (fun n c => 10 * n + (c.toNat - '0'.toNat)) 0

theorem toDigits_byte : ∀ b : Byte,
    ',' ∉ Nat.toDigits 10 b.val ∧ digitsValue (Nat.toDigits 10 b.val) = b.val := by
  decide +kernel

/-- The text of an id tells it from the others. -/
theorem arrayText_peerArray {p p' : ClientId}
    (h : arrayText (peerArray p) = arrayText (peerArray p')) : p = p' := by
  have hsplit (c : ClientId) : ([','].intercalate ((peerArray c).map (Nat.toDigits 10))).splitOn ','
      = (peerArray c).map (Nat.toDigits 10) := by
    refine List.splitOn_intercalate ',' ?_ ?_
    · intro l hl
      obtain ⟨n, hn, rfl⟩ := List.mem_map.mp hl
      obtain ⟨b, -, rfl⟩ := List.mem_map.mp hn
      exact (toDigits_byte b).1
    · intro hnil
      have hlen := congrArg List.length hnil
      simp [peerArray, c.length_eq] at hlen
  have hinner : [','].intercalate ((peerArray p).map (Nat.toDigits 10))
      = [','].intercalate ((peerArray p').map (Nat.toDigits 10)) := by
    simpa [arrayText] using h
  have hdigits := congrArg (List.splitOn ',') hinner
  rw [hsplit, hsplit, peerArray, peerArray, List.map_map, List.map_map] at hdigits
  refine FixedBytes.ext' (List.map_injective_iff.mpr ?_ hdigits)
  intro b b' hb
  have hval := congrArg digitsValue hb
  simp only [Function.comp_apply, (toDigits_byte b).2, (toDigits_byte b').2] at hval
  exact Fin.ext hval

variable {q : LatestFirst} {log : List LogRow} {now : ℤ} {p p' : ClientId}

/-- A request is found under the peer that has made it. -/
theorem requestsOf_logPeerRestoreRequest : requestsOf (logPeerRestoreRequest log now p) p' =
    requestsOf log p' ++
      if p = p' then [⟨now, EventType.restoreRequest.toId, restoreRequestEvent p⟩] else [] := by
  have hextract : extract (restoreRequestEvent p) .peerId = .text (arrayText (peerArray p)) := rfl
  rw [requestsOf, logPeerRestoreRequest, List.filter_append, ← requestsOf]
  congr 1
  by_cases hp : p = p'
  · subst hp
    simp [hextract]
  · have hne : arrayText (peerArray p) ≠ arrayText (peerArray p') := mt arrayText_peerArray hp
    simp [hextract, hp, hne]

theorem requestsOf_logBackup (size : ℤ) (path : FileName) :
    requestsOf (logBackup log now size path) p = requestsOf log p := by
  simp [requestsOf, logBackup, EventType.toId]

variable (q log p) in
/-- The last request of a peer is the latest in the log. -/
theorem getLastPeerRestoreRequest_spec :
    (requestsOf log p = [] ∧ getLastPeerRestoreRequest q log p = .ok none) ∨
      ∃ r ∈ requestsOf log p, getLastPeerRestoreRequest q log p = .ok (some r.timestamp) ∧
        ∀ r' ∈ requestsOf log p, r'.timestamp ≤ r.timestamp := by
  unfold getLastPeerRestoreRequest
  cases hlatest : q.latest (requestsOf log p) with
  | none => exact Or.inl ⟨q.eq_nil _ hlatest, rfl⟩
  | some r => exact Or.inr ⟨r, q.mem _ _ hlatest, rfl, q.le _ _ hlatest⟩

/-- The query for the size never yields a difference: there is no second column. -/
theorem getBackupSizeDifference_ne (size : ℤ) (path : FileName) (d : ℤ) :
    getBackupSizeDifference q log size path ≠ .ok (some d) := by
  unfold getBackupSizeDifference
  cases q.latest (log.filter fun r => r.eventType = EventType.backup.toId) with
  | none => simp
  | some r =>
    intro h
    have hcolumn : tryGetString [extract r.eventData .size] 1
        = .error .columnIndexOutOfBounds := rfl
    simp only [hcolumn] at h
    cases hsize : tryGetI64 [extract r.eventData .size] 0 with
    | error e =>
      rw [hsize] at h
      cases h
    | ok n =>
      rw [hsize] at h
      cases h

end Backuwup.Client.Log
