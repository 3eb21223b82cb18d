/-
# Concurrent calls of `Queue::fulfill` (`server/src/backup_request.rs`)

The handler of a storage request runs `fulfill` on the one queue of the server, and several
handlers run at a time.  The lock of the queue is held for a single `pop` or `push`, so between
two of its own steps a call sees whatever the others did to the queue.  The model splits a call
at every await and at every pop and push; a pool of calls runs over the queue, the messages
delivered and the rows saved.

Two questions are settled over runs.

* **Conservation** (`fulfill_conserves`).  Whatever the interleaving, the storage a client
  asked for is accounted for at every moment, and every match is announced and saved once in
  each direction.
* **No missed match** (`runs_leave_one_client`).  Between a pop that finds the queue empty and
  the push of the remainder, another call can find the queue empty too; then two clients wait
  side by side (`two_clients_wait`).  Where no call finds the queue empty while another one
  still has to put back storage of a different client, the queue never holds two clients.

A call that nothing interleaves with does what `fulfill` of the sequential model does
(`fulfill_solo`).
-/
import Backuwup.Lib.Pool
import Backuwup.Lib.Transition
import Backuwup.Server.BackupRequest
import Mathlib.Algebra.Order.BigOperators.Group.Multiset
import Mathlib.Algebra.BigOperators.Group.Multiset.Basic
import Mathlib.Logic.Relation
import Mathlib.Tactic.Abel

namespace Backuwup.Server

open Transition

/-! ## 1. The code -/

/-- A match between a request and a queued one. -/
structure Match where
  requester : ClientId
  destination : ClientId
  size : ℕ
deriving DecidableEq

/-- Where a call of `fulfill` stands between two steps. -/
inductive Phase
  /-- at the head of the loop -/
  | popping
  | notifyingDestination (destination : Request) (storageMatch : ℕ)
  | notifyingRequester (destination : Request) (storageMatch : ℕ)
  | savingRequester (destination : Request) (storageMatch : ℕ)
  | savingDestination (destination : Request) (storageMatch : ℕ)
  /-- about to put back what is left of the destination's request -/
  | pushingDestination (remainder : Request)
  /-- the queue was found empty: about to enqueue what is left of the own request -/
  | pushingRequest (remainder : Request)
  | returned (result : Result)
deriving DecidableEq

/-- A call of `fulfill`.  The last three fields record what it did so far: the matches with
all four effects, the destinations that could not be notified, and the popped requests of its
own client. -/
structure Call where
  request : Request
  storageToFulfill : ℤ
  phase : Phase
  complete : List Match
  unreachable : List Request
  discarded : List Request
deriving DecidableEq

/-- What the calls share: the queue, and the ledger of messages and rows. -/
structure Shared where
  queue : List Request
  ledger : Ledger
deriving DecidableEq

/-- The checks at the head of `fulfill`. -/
def Call.start (request : Request) : Call :=
  let call := fun phase z => (⟨request, z, phase, [], [], []⟩ : Call)
  if request.storageRequired = 0 then call (.returned .ok) 0
  else if maxBackupStorageRequestSize < request.storageRequired then
    call (.returned (.err .badRequest)) 0
  else
    match i64 request.storageRequired with
    | none => call (.returned .panic) 0
    | some storageToFulfill => call .popping storageToFulfill

/-- The comparison after a complete match of `storageMatch` bytes. -/
def Call.compare (call : Call) (destination : Request) (storageMatch : ℕ) : Call :=
  let made : Match := ⟨call.request.clientId, destination.clientId, storageMatch⟩
  let call := { call with complete := call.complete ++ [made] }
  match i64 destination.storageRequired with
  | none => { call with phase := .returned .panic }
  | some required =>
    if call.storageToFulfill < required then
      let remainder : Request := ⟨destination.storageRequired - storageMatch, destination.clientId⟩
      { call with phase := .pushingDestination remainder }
    else if call.storageToFulfill = required then { call with phase := .returned .ok }
    else { call with phase := .popping, storageToFulfill := call.storageToFulfill - required }

/-- One step of a call; `outcome` is that of the notification or the insertion it makes. -/
def Call.advance (outcome : Except Error Unit) (s : Shared) (call : Call) :
    Option (Shared × Call) :=
  match call.phase with
  | .popping =>
    match s.queue with
    | [] =>
      match u64 call.storageToFulfill with
      | none => some (s, { call with phase := .returned .panic })
      | some rest => some (s, { call with phase := .pushingRequest ⟨rest, call.request.clientId⟩ })
    | destination :: queue =>
      if destination.clientId = call.request.clientId then
        some ({ s with queue := queue }, { call with discarded := call.discarded ++ [destination] })
      else
        match u64 call.storageToFulfill with
        | none => some ({ s with queue := queue }, { call with phase := .returned .panic })
        | some need => some ({ s with queue := queue }, { call with
            phase := .notifyingDestination destination (min need destination.storageRequired) })
  | .notifyingDestination destination storageMatch =>
    match notifyClient outcome destination.clientId ⟨storageMatch, call.request.clientId⟩
        s.ledger with
    | .ok l => some ({ s with ledger := l },
        { call with phase := .notifyingRequester destination storageMatch })
    | .error _ => some (s,
        { call with phase := .popping, unreachable := call.unreachable ++ [destination] })
  | .notifyingRequester destination storageMatch =>
    match notifyClient outcome call.request.clientId ⟨storageMatch, destination.clientId⟩
        s.ledger with
    | .ok l => some ({ s with ledger := l },
        { call with phase := .savingRequester destination storageMatch })
    | .error e => some (s, { call with phase := .returned (.err e) })
  | .savingRequester destination storageMatch =>
    match i64 storageMatch with
    | none => some (s, { call with phase := .returned .panic })
    | some size =>
      match saveStorageNegotiated outcome call.request.clientId destination.clientId size
          s.ledger with
      | .ok l => some ({ s with ledger := l },
          { call with phase := .savingDestination destination storageMatch })
      | .error e => some (s, { call with phase := .returned (.err e) })
  | .savingDestination destination storageMatch =>
    match i64 storageMatch with
    | none => some (s, { call with phase := .returned .panic })
    | some size =>
      match saveStorageNegotiated outcome destination.clientId call.request.clientId size
          s.ledger with
      | .ok l => some ({ s with ledger := l }, call.compare destination storageMatch)
      | .error e => some (s, { call with phase := .returned (.err e) })
  | .pushingDestination remainder =>
    some ({ s with queue := s.queue ++ [remainder] }, { call with phase := .returned .ok })
  | .pushingRequest remainder =>
    some ({ s with queue := s.queue ++ [remainder] }, { call with phase := .returned .ok })
  | .returned _ => none

/-- What happens on the server. -/
inductive Action
  /-- the handler of a storage request calls `fulfill` -/
  | request (r : Request)
  /-- the `i`-th call takes its next step -/
  | advance (i : ℕ) (outcome : Except Error Unit)
  /-- the oldest entry of the queue expires -/
  | expire

/-- The queue with the calls that run on it. -/
abbrev Matching := Pool Shared Call

/-- One event on the server. -/
def matchingStep (s : Matching) : Action → Option Matching
  | .request r => some (s.spawn (.start r))
  | .advance i outcome => s.advance (Call.advance outcome) i
  | .expire =>
    match s.shared.queue with
    | [] => none
    | _ :: queue => some { s with shared := { s.shared with queue := queue } }

/-- The server before any request. -/
def emptyQueue : Matching := ⟨⟨[], ⟨[], []⟩⟩, []⟩

/-! ## 2. The runs considered -/

/-- Nothing expires, and only the notification of a destination can fail. -/
def OnlyDestinationsFail (s : Matching) : Action → Prop
  | .request _ => True
  | .advance i outcome => outcome = .ok () ∨
      ∃ call d m, s.tasks[i]? = some call ∧ call.phase = .notifyingDestination d m
  | .expire => False

/-- Nothing expires, and no notification or insertion fails. -/
def AllConnected (_ : Matching) : Action → Prop
  | .request _ => True
  | .advance _ outcome => outcome = .ok ()
  | .expire => False

/-- The storage that a call still has to put on the queue: its own remainder, or that of the
destination it has popped. -/
def Call.putBack (call : Call) : List Request :=
  match call.phase with
  | .notifyingDestination d m | .notifyingRequester d m | .savingRequester d m
  | .savingDestination d m =>
    if m < d.storageRequired then [⟨d.storageRequired - m, d.clientId⟩] else []
  | .pushingDestination r | .pushingRequest r => [r]
  | .popping | .returned _ => []

/-- A call that finds the queue empty does so while no other call has storage of a different
client to put back. -/
def DrainedAlone (s : Matching) : Action → Prop
  | .advance i _ => ∀ call, s.tasks[i]? = some call → call.phase = .popping →
      s.shared.queue = [] → ∀ (j : ℕ) (other : Call), j ≠ i → s.tasks[j]? = some other →
        ∀ r ∈ other.putBack, r.clientId = call.request.clientId
  | .request _ | .expire => True

/-! ## 3. What conservation says -/

/-- An amount that a queue entry may have. -/
def Request.Valid (r : Request) : Prop :=
  0 < r.storageRequired ∧ r.storageRequired ≤ maxBackupStorageRequestSize

/-- The storage that `c` has in a list of requests. -/
def storageOf (c : ClientId) (l : List Request) : ℕ :=
  (l.map fun r => if r.clientId = c then r.storageRequired else 0).sum

/-- The storage a match gives to `c`, as requester and as destination. -/
def Match.storageOf (c : ClientId) (m : Match) : ℕ :=
  (if m.requester = c then m.size else 0) + if m.destination = c then m.size else 0

/-- The request of the call, if `fulfill` accepts it. -/
def Call.accepted (call : Call) : List Request :=
  if call.request.storageRequired ≤ maxBackupStorageRequestSize then [call.request] else []

/-- The match whose destination was notified and whose other effects are still to come. -/
def Call.current (call : Call) : List Match :=
  match call.phase with
  | .notifyingRequester d m | .savingRequester d m | .savingDestination d m =>
    [⟨call.request.clientId, d.clientId, m⟩]
  | _ => []

def Call.matches (call : Call) : List Match := call.complete ++ call.current

/-- What a running call holds: the unmatched part of its request, and of the destination it
has popped. -/
def Call.held (call : Call) : List Request :=
  match call.phase with
  | .popping => [⟨call.storageToFulfill.toNat, call.request.clientId⟩]
  | .notifyingDestination d _ => [⟨call.storageToFulfill.toNat, call.request.clientId⟩, d]
  | .notifyingRequester d m | .savingRequester d m | .savingDestination d m =>
    [⟨call.storageToFulfill.toNat - m, call.request.clientId⟩,
      ⟨d.storageRequired - m, d.clientId⟩]
  | .pushingDestination r | .pushingRequest r => [r]
  | .returned _ => []

/-- The messages delivered, without their order. -/
def Ledger.messages (l : Ledger) : Multiset (ClientId × BackupMatched) := l.delivered

/-- The rows of `peer_backups`, without their order. -/
def Ledger.rows (l : Ledger) : Multiset PeerBackup := l.peerBackups

def Match.messages (m : Match) : Multiset (ClientId × BackupMatched) :=
  {(m.destination, ⟨m.size, m.requester⟩), (m.requester, ⟨m.size, m.destination⟩)}

theorem Match.messages_eq (m : Match) :
    m.messages = {(m.destination, ⟨m.size, m.requester⟩)}
      + {(m.requester, ⟨m.size, m.destination⟩)} := rfl

def Match.rows (m : Match) : Multiset PeerBackup :=
  {⟨m.requester, m.destination, m.size⟩, ⟨m.destination, m.requester, m.size⟩}

theorem Match.rows_eq (m : Match) :
    m.rows = {⟨m.requester, m.destination, m.size⟩}
      + {⟨m.destination, m.requester, m.size⟩} := rfl

def Call.sent (call : Call) : Multiset (ClientId × BackupMatched) :=
  (call.complete.map Match.messages).sum +
    match call.phase with
    | .notifyingRequester d m => {(d.clientId, ⟨m, call.request.clientId⟩)}
    | .savingRequester d m | .savingDestination d m =>
      Match.messages ⟨call.request.clientId, d.clientId, m⟩
    | _ => 0

def Call.saved (call : Call) : Multiset PeerBackup :=
  (call.complete.map Match.rows).sum +
    match call.phase with
    | .savingDestination d m => {⟨call.request.clientId, d.clientId, m⟩}
    | _ => 0

/-- A total over the calls. -/
def Matching.total (s : Matching) {M : Type} [AddCommMonoid M] (f : Call → M) : M :=
  (s.tasks.map f).sum

/-- The storage matched for `c` by a call. -/
def Call.matchedFor (c : ClientId) (call : Call) : ℕ := (call.matches.map (Match.storageOf c)).sum

/-- The storage of `c` that a call dropped. -/
def Call.droppedOf (c : ClientId) (call : Call) : ℕ :=
  storageOf c call.unreachable + storageOf c call.discarded

/-- The accounts of the server balance, and every match is as it should be. -/
structure Conserved (s : Matching) : Prop where
  /-- what a client asked for is matched, waiting, held by a call, or dropped -/
  storage : ∀ c, s.total (fun call => storageOf c call.accepted) =
    s.total (Call.matchedFor c) +
      (storageOf c s.shared.queue + s.total fun call => storageOf c call.held) +
      s.total (Call.droppedOf c)
  /-- what a call discarded was of its own client -/
  discarded : ∀ call ∈ s.tasks, ∀ r ∈ call.discarded, r.clientId = call.request.clientId
  positive : ∀ call ∈ s.tasks, ∀ m ∈ call.matches, 0 < m.size ∧ m.requester ≠ m.destination
  /-- the messages delivered are those of the matches, each once -/
  delivered : s.shared.ledger.messages = s.total Call.sent
  /-- the rows are those of the matches, each once -/
  peerBackups : s.shared.ledger.rows = s.total Call.saved
  /-- a call that returned has announced its matches to both clients and saved them in both
  directions -/
  announced : ∀ call ∈ s.tasks, ∀ result, call.phase = .returned result →
    call.sent = (call.matches.map Match.messages).sum ∧
      call.saved = (call.matches.map Match.rows).sum
  queue : ∀ r ∈ s.shared.queue, r.Valid
  noPanic : ∀ call ∈ s.tasks, call.phase ≠ .returned .panic

/-! ## 4. What one step of a call does -/

/-- The destination `d` is popped, and `m` bytes of it are to be matched with the `n` that the
call still needs. -/
def Sized (request : Request) (n : ℕ) (d : Request) (m : ℕ) : Prop :=
  d.Valid ∧ d.clientId ≠ request.clientId ∧ m = min n d.storageRequired

/-- The amounts of a call are in range. -/
def Call.Valid (call : Call) : Prop :=
  match call.phase with
  | .popping => ∃ n : ℕ, call.storageToFulfill = n ∧ Request.Valid ⟨n, call.request.clientId⟩
  | .notifyingDestination d m | .notifyingRequester d m | .savingRequester d m
  | .savingDestination d m =>
    ∃ n : ℕ, call.storageToFulfill = n ∧ Request.Valid ⟨n, call.request.clientId⟩ ∧
      Sized call.request n d m
  | .pushingDestination r | .pushingRequest r => r.Valid
  | .returned result => result ≠ .panic

/-- The steps of a call whose notification of the requester and insertions succeed. -/
inductive Call.Step : Shared → Call → Shared → Call → Prop
  | drained (l : Ledger) (r : Request) (n : ℕ) (co : List Match) (un di : List Request) :
      Step ⟨[], l⟩ ⟨r, n, .popping, co, un, di⟩
        ⟨[], l⟩ ⟨r, n, .pushingRequest ⟨n, r.clientId⟩, co, un, di⟩
  | discarded (q : List Request) (l : Ledger) (r d : Request) (n : ℕ) (co : List Match)
      (un di : List Request) : d.clientId = r.clientId →
      Step ⟨d :: q, l⟩ ⟨r, n, .popping, co, un, di⟩ ⟨q, l⟩ ⟨r, n, .popping, co, un, di ++ [d]⟩
  | popped (q : List Request) (l : Ledger) (r d : Request) (n : ℕ) (co : List Match)
      (un di : List Request) : Sized r n d (min n d.storageRequired) →
      Step ⟨d :: q, l⟩ ⟨r, n, .popping, co, un, di⟩
        ⟨q, l⟩ ⟨r, n, .notifyingDestination d (min n d.storageRequired), co, un, di⟩
  | unreachable (q : List Request) (l : Ledger) (r d : Request) (n m : ℕ) (co : List Match)
      (un di : List Request) :
      Step ⟨q, l⟩ ⟨r, n, .notifyingDestination d m, co, un, di⟩
        ⟨q, l⟩ ⟨r, n, .popping, co, un ++ [d], di⟩
  | notifiedDestination (q : List Request) (l : Ledger) (r d : Request) (n m : ℕ)
      (co : List Match) (un di : List Request) : Sized r n d m → 
      Step ⟨q, l⟩ ⟨r, n, .notifyingDestination d m, co, un, di⟩
        ⟨q, l.deliver d.clientId ⟨m, r.clientId⟩⟩ ⟨r, n, .notifyingRequester d m, co, un, di⟩
  | notifiedRequester (q : List Request) (l : Ledger) (r d : Request) (n m : ℕ)
      (co : List Match) (un di : List Request) :
      Step ⟨q, l⟩ ⟨r, n, .notifyingRequester d m, co, un, di⟩
        ⟨q, l.deliver r.clientId ⟨m, d.clientId⟩⟩ ⟨r, n, .savingRequester d m, co, un, di⟩
  | savedRequester (q : List Request) (l : Ledger) (r d : Request) (n m : ℕ)
      (co : List Match) (un di : List Request) :
      Step ⟨q, l⟩ ⟨r, n, .savingRequester d m, co, un, di⟩
        ⟨q, l.insert ⟨r.clientId, d.clientId, m⟩⟩ ⟨r, n, .savingDestination d m, co, un, di⟩
  | less (q : List Request) (l : Ledger) (r d : Request) (n : ℕ) (co : List Match)
      (un di : List Request) : n < d.storageRequired →
      Step ⟨q, l⟩ ⟨r, n, .savingDestination d n, co, un, di⟩
        ⟨q, l.insert ⟨d.clientId, r.clientId, n⟩⟩
        ⟨r, n, .pushingDestination ⟨d.storageRequired - n, d.clientId⟩,
          co ++ [⟨r.clientId, d.clientId, n⟩], un, di⟩
  | equal (q : List Request) (l : Ledger) (r d : Request) (n : ℕ) (co : List Match)
      (un di : List Request) : n = d.storageRequired →
      Step ⟨q, l⟩ ⟨r, n, .savingDestination d n, co, un, di⟩
        ⟨q, l.insert ⟨d.clientId, r.clientId, n⟩⟩
        ⟨r, n, .returned .ok, co ++ [⟨r.clientId, d.clientId, n⟩], un, di⟩
  | greater (q : List Request) (l : Ledger) (r d : Request) (n : ℕ) (co : List Match)
      (un di : List Request) : d.storageRequired < n →
      Step ⟨q, l⟩ ⟨r, n, .savingDestination d d.storageRequired, co, un, di⟩
        ⟨q, l.insert ⟨d.clientId, r.clientId, d.storageRequired⟩⟩
        ⟨r, (n - d.storageRequired : ℕ), .popping,
          co ++ [⟨r.clientId, d.clientId, d.storageRequired⟩], un, di⟩
  | pushedDestination (q : List Request) (l : Ledger) (r rest : Request) (z : ℤ)
      (co : List Match) (un di : List Request) :
      Step ⟨q, l⟩ ⟨r, z, .pushingDestination rest, co, un, di⟩
        ⟨q ++ [rest], l⟩ ⟨r, z, .returned .ok, co, un, di⟩
  | pushedRequest (q : List Request) (l : Ledger) (r rest : Request) (z : ℤ)
      (co : List Match) (un di : List Request) :
      Step ⟨q, l⟩ ⟨r, z, .pushingRequest rest, co, un, di⟩
        ⟨q ++ [rest], l⟩ ⟨r, z, .returned .ok, co, un, di⟩

theorem Request.Valid.le_i64Max {r : Request} (h : r.Valid) : r.storageRequired ≤ i64Max := by
  have := h.2
  simp only [maxBackupStorageRequestSize] at this
  simp only [i64Max]
  omega

/-- A match is no larger than the request it is for. -/
theorem Sized.le {r d : Request} {n m : ℕ} (h : Sized r n d m) :
    m ≤ n ∧ m ≤ d.storageRequired := by
  obtain ⟨-, -, rfl⟩ := h
  exact ⟨Nat.min_le_left _ _, Nat.min_le_right _ _⟩

theorem Sized.le_i64Max {r d : Request} {n m : ℕ} (h : Sized r n d m) : m ≤ i64Max :=
  h.le.2.trans h.1.le_i64Max

/-- The three ways the comparison goes, at the sizes a call has. -/
theorem Call.compare_step {q : List Request} {l : Ledger} {r d : Request} {n m : ℕ}
    (h : Sized r n d m) (co : List Match) (un di : List Request) :
    Call.Step ⟨q, l⟩ ⟨r, n, .savingDestination d m, co, un, di⟩
      ⟨q, l.insert ⟨d.clientId, r.clientId, m⟩⟩
      (Call.compare ⟨r, n, .savingDestination d m, co, un, di⟩ d m) := by
  obtain ⟨hd, -, rfl⟩ := h
  simp only [Call.compare, i64_of_le hd.le_i64Max]
  rcases lt_trichotomy n d.storageRequired with hlt | heq | hgt
  · have hmin : min n d.storageRequired = n := by omega
    rw [if_pos (by exact_mod_cast hlt), hmin]
    exact .less q l r d n co un di hlt
  · have hmin : min n d.storageRequired = n := by omega
    rw [if_neg (by omega), if_pos (by exact_mod_cast heq), hmin]
    exact .equal q l r d n co un di heq
  · have hmin : min n d.storageRequired = d.storageRequired := by omega
    have hsub : (n : ℤ) - d.storageRequired = (n - d.storageRequired : ℕ) := by omega
    rw [if_neg (by omega), if_neg (by omega), hmin, hsub]
    exact .greater q l r d n co un di hgt

/-- A step of a valid call over a valid queue, in which only the notification of a destination
may fail, is one of `Call.Step`. -/
theorem Call.advance_step {s s' : Shared} {call call' : Call} {outcome : Except Error Unit}
    (hv : call.Valid) (hq : ∀ r ∈ s.queue, r.Valid)
    (hok : outcome = .ok () ∨ ∃ d m, call.phase = .notifyingDestination d m)
    (h : call.advance outcome s = some (s', call')) : Call.Step s call s' call' := by
  obtain ⟨r, z, phase, co, un, di⟩ := call
  obtain ⟨q, l⟩ := s
  cases phase with
  | popping =>
    obtain ⟨n, rfl, hn⟩ := hv
    cases q with
    | nil =>
      simp only [Call.advance, u64_of_le hn.le_i64Max, Option.some.injEq, Prod.mk.injEq] at h
      obtain ⟨rfl, rfl⟩ := h
      exact .drained l r n co un di
    | cons d q =>
      simp only [Call.advance, u64_of_le hn.le_i64Max] at h
      split at h
      · rename_i hown
        simp only [Option.some.injEq, Prod.mk.injEq] at h
        obtain ⟨rfl, rfl⟩ := h
        exact .discarded q l r d n co un di hown
      · rename_i hother
        simp only [Option.some.injEq, Prod.mk.injEq] at h
        obtain ⟨rfl, rfl⟩ := h
        exact .popped q l r d n co un di ⟨hq d List.mem_cons_self, hother, rfl⟩
  | notifyingDestination d m =>
    obtain ⟨n, rfl, -, hm⟩ := hv
    cases outcome with
    | ok _ =>
      simp only [Call.advance, notifyClient, Option.some.injEq, Prod.mk.injEq] at h
      obtain ⟨rfl, rfl⟩ := h
      exact .notifiedDestination q l r d n m co un di hm
    | error e =>
      simp only [Call.advance, notifyClient, Option.some.injEq, Prod.mk.injEq] at h
      obtain ⟨rfl, rfl⟩ := h
      exact .unreachable q l r d n m co un di
  | notifyingRequester d m =>
    obtain ⟨n, rfl, -, hm⟩ := hv
    obtain rfl : outcome = .ok () := by simpa using hok
    simp only [Call.advance, notifyClient, Option.some.injEq, Prod.mk.injEq] at h
    obtain ⟨rfl, rfl⟩ := h
    exact .notifiedRequester q l r d n m co un di
  | savingRequester d m =>
    obtain ⟨n, rfl, -, hm⟩ := hv
    obtain rfl : outcome = .ok () := by simpa using hok
    simp only [Call.advance, i64_of_le hm.le_i64Max, saveStorageNegotiated, Option.some.injEq,
      Prod.mk.injEq] at h
    obtain ⟨rfl, rfl⟩ := h
    exact .savedRequester q l r d n m co un di
  | savingDestination d m =>
    obtain ⟨n, rfl, -, hm⟩ := hv
    obtain rfl : outcome = .ok () := by simpa using hok
    simp only [Call.advance, i64_of_le hm.le_i64Max, saveStorageNegotiated, Option.some.injEq,
      Prod.mk.injEq] at h
    obtain ⟨rfl, rfl⟩ := h
    exact Call.compare_step hm co un di
  | pushingDestination rest =>
    simp only [Call.advance, Option.some.injEq, Prod.mk.injEq] at h
    obtain ⟨rfl, rfl⟩ := h
    exact .pushedDestination q l r rest z co un di
  | pushingRequest rest =>
    simp only [Call.advance, Option.some.injEq, Prod.mk.injEq] at h
    obtain ⟨rfl, rfl⟩ := h
    exact .pushedRequest q l r rest z co un di
  | returned result => simp [Call.advance] at h

/-! ## 5. What one step keeps -/

section Step

variable {s s' : Shared} {call call' : Call}

theorem storageOf_cons (c : ClientId) (r : Request) (l : List Request) :
    storageOf c (r :: l)
      = (if r.clientId = c then r.storageRequired else 0) + storageOf c l := by
  simp [storageOf]

theorem storageOf_append (c : ClientId) (l l' : List Request) :
    storageOf c (l ++ l') = storageOf c l + storageOf c l' := by
  simp [storageOf]

@[simp] theorem storageOf_nil (c : ClientId) : storageOf c [] = 0 := rfl

/-- A step keeps the amounts of the call and of the queue in range. -/
theorem Call.Step.valid (h : Call.Step s call s' call') (hv : call.Valid)
    (hq : ∀ r ∈ s.queue, r.Valid) : call'.Valid ∧ ∀ r ∈ s'.queue, r.Valid := by
  cases h with
  | drained l r n co un di =>
    obtain ⟨n', hn, hval⟩ := hv
    obtain rfl : n = n' := Nat.cast_injective (R := ℤ) hn
    exact ⟨hval, hq⟩
  | discarded q l r d n co un di hown =>
    exact ⟨hv, fun x hx => hq x (List.mem_cons_of_mem _ hx)⟩
  | popped q l r d n co un di hm =>
    obtain ⟨n', hn, hval⟩ := hv
    obtain rfl : n = n' := Nat.cast_injective (R := ℤ) hn
    exact ⟨⟨n, rfl, hval, hm⟩, fun x hx => hq x (List.mem_cons_of_mem _ hx)⟩
  | unreachable q l r d n m co un di =>
    obtain ⟨n', hn, hval, -⟩ := hv
    exact ⟨⟨n', hn, hval⟩, hq⟩
  | notifiedDestination q l r d n m co un di hm => exact ⟨hv, hq⟩
  | notifiedRequester => exact ⟨hv, hq⟩
  | savedRequester => exact ⟨hv, hq⟩
  | less q l r d n co un di hlt =>
    obtain ⟨_, _, _, hm⟩ := hv
    have hd := hm.1.2
    refine ⟨⟨?_, ?_⟩, hq⟩
    · simp only
      omega
    · simp only
      omega
  | equal => exact ⟨by simp [Call.Valid], hq⟩
  | greater q l r d n co un di hgt =>
    obtain ⟨n', hn, hval, -⟩ := hv
    obtain rfl : n = n' := Nat.cast_injective (R := ℤ) hn
    have := hval.2
    simp only at this
    exact ⟨⟨n - d.storageRequired, rfl, ⟨by simp only; omega, by simp only; omega⟩⟩, hq⟩
  | pushedDestination q l r rest z co un di =>
    exact ⟨by simp [Call.Valid], Pool.forall_mem_spawn hq hv⟩
  | pushedRequest q l r rest z co un di =>
    exact ⟨by simp [Call.Valid], Pool.forall_mem_spawn hq hv⟩

/-- The storage of `c` that the call accounts for. -/
def Call.account (c : ClientId) (call : Call) : ℕ :=
  call.matchedFor c + storageOf c call.held + call.droppedOf c

/-- A step moves storage between the queue and the accounts of the call. -/
theorem Call.Step.account (h : Call.Step s call s' call') (hv : call.Valid) (c : ClientId) :
    storageOf c s'.queue + call'.account c = storageOf c s.queue + call.account c := by
  cases h with
  | drained l r n co un di =>
    simp [Call.account, Call.matchedFor, Call.matches, Call.current, Call.held, Call.droppedOf]
  | discarded q l r d n co un di hown =>
    simp only [Call.account, Call.matchedFor, Call.matches, Call.current, Call.held,
      Call.droppedOf, storageOf_cons, storageOf_append, storageOf_nil]
    omega
  | popped q l r d n co un di hm =>
    simp only [Call.account, Call.matchedFor, Call.matches, Call.current, Call.held,
      Call.droppedOf, storageOf_cons, storageOf_nil]
    omega
  | unreachable q l r d n m co un di =>
    simp only [Call.account, Call.matchedFor, Call.matches, Call.current, Call.held,
      Call.droppedOf, storageOf_cons, storageOf_append, storageOf_nil]
    omega
  | notifiedDestination q l r d n m co un di hm =>
    -- `m` bytes turn from held to matched, for both clients
    have hle := hm.le
    simp only [Call.account, Call.matchedFor, Call.matches, Call.current, Call.held,
      Call.droppedOf, storageOf_cons, storageOf_nil, Match.storageOf, List.map_append,
      List.sum_append, List.map_cons, List.map_nil, List.sum_cons, List.sum_nil, Int.toNat_natCast]
    split <;> split <;> omega
  | notifiedRequester => rfl
  | savedRequester => rfl
  | less q l r d n co un di hlt =>
    simp [Call.account, Call.matchedFor, Call.matches, Call.current, Call.held, Call.droppedOf,
      storageOf_cons]
  | equal q l r d n co un di heq =>
    simp [Call.account, Call.matchedFor, Call.matches, Call.current, Call.held, Call.droppedOf,
      storageOf_cons, heq]
  | greater q l r d n co un di hgt =>
    simp [Call.account, Call.matchedFor, Call.matches, Call.current, Call.held, Call.droppedOf,
      storageOf_cons, -Nat.cast_sub]
  | pushedDestination q l r rest z co un di =>
    simp only [Call.account, Call.matchedFor, Call.matches, Call.current, Call.held,
      Call.droppedOf, storageOf_cons, storageOf_append, storageOf_nil]
    omega
  | pushedRequest q l r rest z co un di =>
    simp only [Call.account, Call.matchedFor, Call.matches, Call.current, Call.held,
      Call.droppedOf, storageOf_cons, storageOf_append, storageOf_nil]
    omega

/-- The requests of its own client that a call discards. -/
theorem Call.Step.discarded_own (h : Call.Step s call s' call')
    (hd : ∀ r ∈ call.discarded, r.clientId = call.request.clientId) :
    ∀ r ∈ call'.discarded, r.clientId = call'.request.clientId := by
  cases h with
  | discarded q l r d n co un di hown => exact Pool.forall_mem_spawn hd hown
  | _ => exact hd

/-- Matches are positive and join two clients. -/
theorem Call.Step.positive (h : Call.Step s call s' call') (hv : call.Valid)
    (hp : ∀ m ∈ call.matches, 0 < m.size ∧ m.requester ≠ m.destination) :
    ∀ m ∈ call'.matches, 0 < m.size ∧ m.requester ≠ m.destination := by
  cases h with
  | notifiedDestination q l r d n m co un di hm =>
    obtain ⟨n', hn, hval, -⟩ := hv
    obtain rfl : n = n' := Nat.cast_injective (R := ℤ) hn
    simp only [Call.matches, Call.current, List.append_nil] at hp ⊢
    refine Pool.forall_mem_spawn hp ⟨?_, fun heq => hm.2.1 heq.symm⟩
    have hn0 := hval.1
    have hd0 := hm.1.1
    have hmin := hm.2.2
    simp only at hn0 ⊢
    omega
  | less q l r d n co un di hlt => simpa [Call.matches, Call.current] using hp
  | equal q l r d n co un di heq => simpa [Call.matches, Call.current] using hp
  | greater q l r d n co un di hgt => simpa [Call.matches, Call.current] using hp
  | _ => exact hp

@[simp] theorem messages_deliver (l : Ledger) (c : ClientId) (m : BackupMatched) :
    (l.deliver c m).messages = l.messages + {(c, m)} := rfl

@[simp] theorem messages_insert (l : Ledger) (row : PeerBackup) :
    (l.insert row).messages = l.messages := rfl

@[simp] theorem rows_insert (l : Ledger) (row : PeerBackup) :
    (l.insert row).rows = l.rows + {row} := rfl

/-- What a step delivers is what the call has sent more. -/
theorem Call.Step.sent (h : Call.Step s call s' call') :
    s'.ledger.messages + call.sent = s.ledger.messages + call'.sent := by
  cases h with
  | notifiedDestination q l r d n m co un di hm =>
    simp only [Call.sent, messages_deliver, add_zero]
    rw [add_assoc, add_comm {_}]
  | notifiedRequester q l r d n m co un di =>
    simp only [Call.sent, messages_deliver, Match.messages_eq]
    abel
  | less q l r d n co un di hlt => simp [Call.sent]
  | equal q l r d n co un di heq => simp [Call.sent]
  | greater q l r d n co un di hgt => simp [Call.sent]
  | _ => rfl

/-- What a step inserts is what the call has saved more. -/
theorem Call.Step.saved (h : Call.Step s call s' call') :
    s'.ledger.rows + call.saved = s.ledger.rows + call'.saved := by
  cases h with
  | savedRequester q l r d n m co un di =>
    simp only [Call.saved, rows_insert, add_zero]
    rw [add_assoc, add_comm {_}]
  | less q l r d n co un di hlt =>
    simp only [Call.saved, rows_insert, Match.rows_eq, List.map_append,
      List.map_cons, List.map_nil, List.sum_append, List.sum_cons, List.sum_nil]
    abel
  | equal q l r d n co un di heq =>
    simp only [Call.saved, rows_insert, Match.rows_eq, List.map_append,
      List.map_cons, List.map_nil, List.sum_append, List.sum_cons, List.sum_nil]
    abel
  | greater q l r d n co un di hgt =>
    simp only [Call.saved, rows_insert, Match.rows_eq, List.map_append,
      List.map_cons, List.map_nil, List.sum_append, List.sum_cons, List.sum_nil]
    abel
  | _ => rfl

/-- A call that returned has no match under way. -/
theorem Call.returned_all (call : Call) {result : Result} (h : call.phase = .returned result) :
    call.sent = (call.matches.map Match.messages).sum ∧
      call.saved = (call.matches.map Match.rows).sum := by
  obtain ⟨r, z, phase, co, un, di⟩ := call
  subst h
  simp [Call.sent, Call.saved, Call.matches, Call.current]

end Step

/-! ## 6. Conservation over runs -/

theorem Call.Step.request {s s' : Shared} {call call' : Call} (h : Call.Step s call s' call') :
    call'.request = call.request := by
  cases h <;> rfl

/-- The call as it starts: its amounts are in range, and it holds what it was asked for. -/
theorem Call.start_spec (r : Request) (c : ClientId) :
    (Call.start r).Valid ∧ (Call.start r).account c = storageOf c (Call.start r).accepted ∧
      (Call.start r).matches = [] ∧ (Call.start r).discarded = [] ∧
      (Call.start r).sent = 0 ∧ (Call.start r).saved = 0 := by
  by_cases h0 : r.storageRequired = 0
  · simp [Call.start, h0, Call.Valid, Call.account, Call.matchedFor, Call.matches, Call.current,
      Call.held, Call.droppedOf, Call.accepted, Call.sent, Call.saved, storageOf_cons]
  · by_cases hbig : maxBackupStorageRequestSize < r.storageRequired
    · simp [Call.start, h0, hbig, Call.Valid, Call.account, Call.matchedFor, Call.matches,
        Call.current, Call.held, Call.droppedOf, Call.accepted, Call.sent, Call.saved,
        Nat.not_le.mpr hbig]
    · have hval : r.Valid := ⟨by omega, by omega⟩
      have hstart : Call.start r = ⟨r, r.storageRequired, .popping, [], [], []⟩ := by
        simp only [Call.start, if_neg h0, if_neg hbig, i64_of_le hval.le_i64Max]
      rw [hstart]
      simp only [Call.account, Call.matchedFor, Call.matches, Call.current, Call.held,
        Call.droppedOf, Call.accepted, Call.sent, Call.saved, storageOf_nil, if_pos hval.2,
        Int.toNat_natCast]
      refine ⟨⟨r.storageRequired, rfl, hval⟩, ?_, rfl, trivial, rfl, rfl⟩
      simp

/-- The invariant of the runs: amounts are in range, and the accounts balance. -/
structure Accounts (s : Matching) : Prop where
  queue : ∀ r ∈ s.shared.queue, r.Valid
  calls : ∀ call ∈ s.tasks, call.Valid
  storage : ∀ c, s.total (fun call => storageOf c call.accepted) =
    storageOf c s.shared.queue + s.total (Call.account c)
  discarded : ∀ call ∈ s.tasks, ∀ r ∈ call.discarded, r.clientId = call.request.clientId
  positive : ∀ call ∈ s.tasks, ∀ m ∈ call.matches, 0 < m.size ∧ m.requester ≠ m.destination
  delivered : s.shared.ledger.messages = s.total Call.sent
  peerBackups : s.shared.ledger.rows = s.total Call.saved

theorem accounts_emptyQueue : Accounts emptyQueue where
  queue := by simp [emptyQueue]
  calls := by simp [emptyQueue]
  storage := by simp [emptyQueue, Matching.total]
  discarded := by simp [emptyQueue]
  positive := by simp [emptyQueue]
  delivered := rfl
  peerBackups := rfl

/-- A new call brings in what it was asked for. -/
theorem Accounts.spawn {s : Matching} (h : Accounts s) (r : Request) :
    Accounts (s.spawn (.start r)) where
  queue := h.queue
  calls := Pool.forall_mem_spawn h.calls (Call.start_spec r r.clientId).1
  storage c := by
    have hspec := (Call.start_spec r c).2.1
    simp only [Matching.total, Pool.spawn_tasks, Pool.spawn_shared, Pool.sum_map_spawn, hspec]
    have := h.storage c
    simp only [Matching.total] at this
    omega
  discarded := Pool.forall_mem_spawn h.discarded
    (by simp [(Call.start_spec r r.clientId).2.2.2.1])
  positive := Pool.forall_mem_spawn h.positive
    (by simp [(Call.start_spec r r.clientId).2.2.1])
  delivered := by
    obtain ⟨-, -, -, -, hsent, -⟩ := Call.start_spec r r.clientId
    simp only [Matching.total, Pool.spawn_tasks, Pool.spawn_shared, Pool.sum_map_spawn, hsent,
      add_zero]
    exact h.delivered
  peerBackups := by
    obtain ⟨-, -, -, -, -, hsaved⟩ := Call.start_spec r r.clientId
    simp only [Matching.total, Pool.spawn_tasks, Pool.spawn_shared, Pool.sum_map_spawn, hsaved,
      add_zero]
    exact h.peerBackups

/-- A step of one call keeps the accounts: what the queue and the ledger gain, the call has
moved (`Call.Step.account`, `Call.Step.sent`, `Call.Step.saved`). -/
theorem Accounts.advance {s : Matching} (h : Accounts s) {i : ℕ} {call call' : Call}
    {sh : Shared} (hi : s.tasks[i]? = some call) (hst : Call.Step s.shared call sh call') :
    Accounts ⟨sh, s.tasks.set i call'⟩ := by
  have hmem : call ∈ s.tasks := List.mem_of_getElem? hi
  have hv := hst.valid (h.calls call hmem) h.queue
  constructor
  · exact hv.2
  · exact Pool.forall_mem_set h.calls hv.1
  · intro c
    have hacc : call'.accepted = call.accepted := by simp only [Call.accepted, hst.request]
    have hA := Pool.sum_map_set (fun call => storageOf c call.accepted) hi call'
    have hB := Pool.sum_map_set (Call.account c) hi call'
    have hs := h.storage c
    have hstep := hst.account (h.calls call hmem) c
    simp only [hacc] at hA
    simp only [Matching.total] at hs ⊢
    omega
  · exact Pool.forall_mem_set h.discarded (hst.discarded_own (h.discarded call hmem))
  · exact Pool.forall_mem_set h.positive (hst.positive (h.calls call hmem) (h.positive call hmem))
  · have hsum := Pool.sum_map_set Call.sent hi call'
    have hd := h.delivered
    simp only [Matching.total] at hd ⊢
    refine add_right_cancel (b := call.sent) ?_
    rw [hst.sent, hsum, hd]
  · have hsum := Pool.sum_map_set Call.saved hi call'
    have hd := h.peerBackups
    simp only [Matching.total] at hd ⊢
    refine add_right_cancel (b := call.saved) ?_
    rw [hst.saved, hsum, hd]

/-- Every event keeps the accounts. -/
theorem Accounts.step {s s' : Matching} {a : Action} (h : Accounts s)
    (hok : OnlyDestinationsFail s a) (hst : matchingStep s a = some s') : Accounts s' := by
  cases a with
  | request r =>
    simp only [matchingStep, Option.some.injEq] at hst
    exact hst ▸ h.spawn r
  | advance i outcome =>
    obtain ⟨call, sh, call', hi, hadv, rfl⟩ := Pool.advance_eq_some.mp hst
    have hmem : call ∈ s.tasks := List.mem_of_getElem? hi
    refine h.advance hi (Call.advance_step (h.calls call hmem) h.queue ?_ hadv)
    rcases hok with hok | ⟨call₁, d, m, hi₁, hphase⟩
    · exact Or.inl hok
    · obtain rfl : call = call₁ := by
        rw [hi] at hi₁
        exact Option.some.inj hi₁
      exact Or.inr ⟨d, m, hphase⟩
  | expire => exact absurd hok id

/-- Balanced accounts, with the account of a call written out. -/
theorem Accounts.conserved {s : Matching} (h : Accounts s) : Conserved s where
  storage c := by
    have hs := h.storage c
    have hsum : s.total (Call.account c) = s.total (Call.matchedFor c)
        + (s.total fun call => storageOf c call.held) + s.total (Call.droppedOf c) := by
      simp only [Matching.total, ← List.sum_map_add]
      rfl
    omega
  discarded := h.discarded
  positive := h.positive
  delivered := h.delivered
  peerBackups := h.peerBackups
  announced call _ _ hret := call.returned_all hret
  queue := h.queue
  noPanic call hmem hpanic := by
    have hv := h.calls call hmem
    simp [Call.Valid, hpanic] at hv

/-- Conservation in storage matching.  In every run of concurrent calls in which only the
notification of a destination fails and nothing expires, at every moment the storage that a
client was granted a request for is matched, queued, held by a call or dropped; matches are
positive, join two clients and are announced and saved once in each direction when their call
has returned; and the amounts stay in range. -/
theorem fulfill_conserves (s : Matching)
    (h : Reach matchingStep OnlyDestinationsFail emptyQueue s) : Conserved s :=
  (h.invariant accounts_emptyQueue fun _ _ _ hs hok hst => hs.step hok hst).conserved

/-- Bob's request finds Alice's in the queue, is matched with all of it, and waits with the
rest. -/
def aliceThenBob : List Action :=
  [.request ⟨10, alice⟩, .advance 0 (.ok ()), .advance 0 (.ok ()), .request ⟨30, bob⟩]
    ++ List.replicate 7 (.advance 1 (.ok ()))

theorem aliceThenBob_conserves :
    ∃ s, run matchingStep emptyQueue aliceThenBob = some s ∧ s.shared.queue = [⟨20, bob⟩] ∧
      s.total (Call.matchedFor alice) = 10 ∧ Conserved s := by
  have hrun : run matchingStep emptyQueue aliceThenBob = some _ := rfl
  refine ⟨_, hrun, by decide, by decide, fulfill_conserves _ (reach_of_run ?_ hrun)⟩
  intro a ha s
  simp only [aliceThenBob, List.mem_append, List.mem_cons, List.mem_replicate, List.not_mem_nil,
    or_false] at ha
  rcases ha with (rfl | rfl | rfl | rfl) | ⟨-, rfl⟩ <;> simp [OnlyDestinationsFail]

/-! ## 7. Requests that are left waiting -/

/-- The entries belong to one client. -/
def OneClient (queue : List Request) : Prop :=
  ∀ r ∈ queue, ∀ r' ∈ queue, r.clientId = r'.clientId

/-- Once all calls have returned, no two requests of different clients are waiting. -/
def NoMissedMatch (s : Matching) : Prop :=
  (∀ call ∈ s.tasks, ∃ result, call.phase = .returned result) → OneClient s.shared.queue

/-- What is queued, and what the calls still have to put back. -/
def Matching.waiting (s : Matching) : List Request :=
  s.shared.queue ++ s.tasks.flatMap Call.putBack

theorem Matching.mem_waiting {s : Matching} {r : Request} :
    r ∈ s.waiting ↔ r ∈ s.shared.queue ∨ ∃ call ∈ s.tasks, r ∈ call.putBack := by
  simp [Matching.waiting]

/-- A step puts on the queue what the call had to put back, and takes on for putting back only
what it popped; a call that finds the queue empty takes on its own request. -/
theorem Call.Step.putBack {s s' : Shared} {call call' : Call} (h : Call.Step s call s' call')
    {r : Request} (hr : r ∈ s'.queue ∨ r ∈ call'.putBack) :
    (∃ r' : Request, r'.clientId = r.clientId ∧ (r' ∈ s.queue ∨ r' ∈ call.putBack)) ∨
    (s.queue = [] ∧ s'.queue = [] ∧ call.phase = .popping ∧
      r.clientId = call.request.clientId) := by
  cases h with
  | drained l r₀ n co un di =>
    refine Or.inr ⟨rfl, rfl, rfl, ?_⟩
    simp only [List.not_mem_nil, Call.putBack, List.mem_singleton, false_or] at hr
    rw [hr]
  | discarded q l r₀ d n co un di hown =>
    simp only [Call.putBack, List.not_mem_nil, or_false] at hr
    exact Or.inl ⟨r, rfl, Or.inl (List.mem_cons_of_mem _ hr)⟩
  | popped q l r₀ d n co un di hm =>
    rcases hr with hr | hr
    · exact Or.inl ⟨r, rfl, Or.inl (List.mem_cons_of_mem _ hr)⟩
    · simp only [Call.putBack] at hr
      split at hr
      · rw [List.mem_singleton] at hr
        exact Or.inl ⟨d, by rw [hr], Or.inl List.mem_cons_self⟩
      · simp at hr
  | unreachable q l r₀ d n m co un di =>
    simp only [Call.putBack, List.not_mem_nil, or_false] at hr
    exact Or.inl ⟨r, rfl, Or.inl hr⟩
  | notifiedDestination q l r₀ d n m co un di hm => exact Or.inl ⟨r, rfl, hr⟩
  | notifiedRequester q l r₀ d n m co un di => exact Or.inl ⟨r, rfl, hr⟩
  | savedRequester q l r₀ d n m co un di => exact Or.inl ⟨r, rfl, hr⟩
  | less q l r₀ d n co un di hlt =>
    refine Or.inl ⟨r, rfl, ?_⟩
    simpa only [Call.putBack, if_pos hlt] using hr
  | equal q l r₀ d n co un di heq =>
    simp only [Call.putBack, List.not_mem_nil, or_false] at hr
    exact Or.inl ⟨r, rfl, Or.inl hr⟩
  | greater q l r₀ d n co un di hgt =>
    simp only [Call.putBack, List.not_mem_nil, or_false] at hr
    exact Or.inl ⟨r, rfl, Or.inl hr⟩
  | pushedDestination q l r₀ rest z co un di =>
    refine Or.inl ⟨r, rfl, ?_⟩
    simpa [Call.putBack] using hr
  | pushedRequest q l r₀ rest z co un di =>
    refine Or.inl ⟨r, rfl, ?_⟩
    simpa [Call.putBack] using hr

/-- A new call has nothing to put back. -/
theorem Call.putBack_start (r : Request) : (Call.start r).putBack = [] := by
  unfold Call.start
  split
  · rfl
  · split
    · rfl
    · split <;> rfl

/-- The invariant: what is queued or will be put back belongs to one client. -/
theorem oneClient_step {s s' : Matching} {a : Action} (hacc : Accounts s)
    (hone : OneClient s.waiting) (hok : AllConnected s a) (hdr : DrainedAlone s a)
    (hst : matchingStep s a = some s') : OneClient s'.waiting := by
  cases a with
  | request r =>
    simp only [matchingStep, Option.some.injEq] at hst
    subst hst
    simpa [Matching.waiting, Call.putBack_start] using hone
  | expire => exact absurd hok id
  | advance i outcome =>
    obtain ⟨call, sh, call', hi, hadv, rfl⟩ := Pool.advance_eq_some.mp hst
    have hmem : call ∈ s.tasks := List.mem_of_getElem? hi
    have hstep := Call.advance_step (hacc.calls call hmem) hacc.queue (Or.inl hok) hadv
    -- where an entry that waits after the step comes from
    have hfrom : ∀ r ∈ Matching.waiting ⟨sh, s.tasks.set i call'⟩,
        (∃ r' ∈ s.waiting, r'.clientId = r.clientId) ∨ (s.shared.queue = [] ∧ sh.queue = [] ∧
          call.phase = .popping ∧ r.clientId = call.request.clientId) := by
      intro r hr
      rcases Matching.mem_waiting.mp hr with hput | ⟨x, hx, hput⟩
      · rcases hstep.putBack (Or.inl hput) with ⟨r', hid, hr'⟩ | hdrained
        · refine Or.inl ⟨r', Matching.mem_waiting.mpr ?_, hid⟩
          exact hr'.imp id fun hr' => ⟨call, hmem, hr'⟩
        · exact Or.inr hdrained
      · rcases (Pool.mem_set_iff_of_getElem? hi).mp hx with rfl | ⟨j, -, hj⟩
        · rcases hstep.putBack (Or.inr hput) with ⟨r', hid, hr'⟩ | hdrained
          · refine Or.inl ⟨r', Matching.mem_waiting.mpr ?_, hid⟩
            exact hr'.imp id fun hr' => ⟨call, hmem, hr'⟩
          · exact Or.inr hdrained
        · exact Or.inl ⟨r, Matching.mem_waiting.mpr
            (Or.inr ⟨x, List.mem_of_getElem? hj, hput⟩), rfl⟩
    by_cases hdrains : s.shared.queue = [] ∧ call.phase = .popping
    · -- the queue is empty: whatever waits is the call's, or of the same client
      have hown : ∀ r ∈ s.waiting, r.clientId = call.request.clientId := by
        intro r hr
        rcases Matching.mem_waiting.mp hr with hr | ⟨x, hx, hr⟩
        · simp [hdrains.1] at hr
        · obtain ⟨j, hj⟩ := List.mem_iff_getElem?.mp hx
          by_cases hji : j = i
          · rw [hji, hi, Option.some.injEq] at hj
            subst hj
            simp [Call.putBack, hdrains.2] at hr
          · exact hdr call hi hdrains.2 hdrains.1 j x hji hj r hr
      have hall : ∀ r ∈ Matching.waiting ⟨sh, s.tasks.set i call'⟩,
          r.clientId = call.request.clientId := by
        intro r hr
        rcases hfrom r hr with ⟨r', hr', hid⟩ | ⟨-, -, -, hid⟩
        · exact hid ▸ hown r' hr'
        · exact hid
      intro r hr r' hr'
      rw [hall r hr, hall r' hr']
    · have hall : ∀ r ∈ Matching.waiting ⟨sh, s.tasks.set i call'⟩,
          ∃ r' ∈ s.waiting, r'.clientId = r.clientId := by
        intro r hr
        rcases hfrom r hr with h | ⟨hq, -, hphase, -⟩
        · exact h
        · exact absurd ⟨hq, hphase⟩ hdrains
      intro r hr r' hr'
      obtain ⟨x, hx, hxid⟩ := hall r hr
      obtain ⟨x', hx', hxid'⟩ := hall r' hr'
      rw [← hxid, ← hxid']
      exact hone x hx x' hx'

/-- When no match is missed.  In every run with all clients connected in which a call finds the
queue empty only while no other call has storage of a different client to put back, no two
requests of different clients are left waiting. -/
theorem runs_leave_one_client (s : Matching)
    (h : Reach matchingStep (fun s a => AllConnected s a ∧ DrainedAlone s a) emptyQueue s) :
    NoMissedMatch s := by
  have hinv : Accounts s ∧ OneClient s.waiting := by
    refine h.invariant (I := fun s => Accounts s ∧ OneClient s.waiting)
      ⟨accounts_emptyQueue, by simp [OneClient, emptyQueue, Matching.waiting]⟩ ?_
    rintro s₁ a s₂ ⟨hacc, hone⟩ ⟨hok, hdr⟩ hst
    refine ⟨hacc.step ?_ hst, oneClient_step hacc hone hok hdr hst⟩
    cases a with
    | request r => trivial
    | advance i outcome => exact Or.inl hok
    | expire => exact hok
  intro _ r hr r' hr'
  exact hinv.2 r (Matching.mem_waiting.mpr (Or.inl hr)) r' (Matching.mem_waiting.mpr (Or.inl hr'))

/-- A step with everyone connected, taken while no other call has anything to put back. -/
def undisturbed (s : Matching) : Action → Bool
  | .request _ => true
  | .advance i outcome => outcome.isOk &&
      s.tasks.zipIdx.all fun x => decide (x.2 = i) || x.1.putBack.isEmpty
  | .expire => false

theorem undisturbed_ok (s : Matching) (a : Action) (h : undisturbed s a = true) :
    AllConnected s a ∧ DrainedAlone s a := by
  cases a with
  | request r => exact ⟨trivial, trivial⟩
  | expire => simp [undisturbed] at h
  | advance i outcome =>
    simp only [undisturbed, Bool.and_eq_true, List.all_eq_true] at h
    refine ⟨?_, fun call _ _ _ j other hj hother r hr => ?_⟩
    · cases outcome with
      | ok _ => rfl
      | error e => simp [Except.isOk, Except.toBool] at h
    · have hx := h.2 (other, j) (List.mem_zipIdx_iff_getElem?.mpr hother)
      simp only [Bool.or_eq_true, decide_eq_true_eq, List.isEmpty_iff] at hx
      rw [hx.resolve_left hj] at hr
      simp at hr

/-- Alice's request is queued before Bob's is made, so the two are matched. -/
theorem aliceThenBob_noMissedMatch :
    ∃ s, runWhen matchingStep undisturbed emptyQueue aliceThenBob = some s ∧
      s.shared.queue = [⟨20, bob⟩] ∧ NoMissedMatch s := by
  have hrun : runWhen matchingStep undisturbed emptyQueue aliceThenBob = some _ := rfl
  exact ⟨_, hrun, by decide, runs_leave_one_client _ (reach_of_runWhen undisturbed_ok hrun)⟩

/-- Alice's and Bob's calls both find the queue empty before either of them pushes. -/
def drainedTogether : List Action :=
  [.request ⟨10, alice⟩, .request ⟨30, bob⟩, .advance 0 (.ok ()), .advance 1 (.ok ()),
    .advance 0 (.ok ()), .advance 1 (.ok ())]

theorem drainedTogether_run :
    run matchingStep emptyQueue drainedTogether
      = some ⟨⟨[⟨10, alice⟩, ⟨30, bob⟩], ⟨[], []⟩⟩,
          [⟨⟨10, alice⟩, 10, .returned .ok, [], [], []⟩,
            ⟨⟨30, bob⟩, 30, .returned .ok, [], [], []⟩]⟩ := by
  decide

/-- Two requests that could be matched with each other are left side by side. -/
theorem two_clients_wait :
    ¬ ∀ s, Reach matchingStep AllConnected emptyQueue s → NoMissedMatch s := by
  intro h
  have hok : ∀ a ∈ drainedTogether, ∀ s, AllConnected s a := by
    intro a ha s
    simp only [drainedTogether, List.mem_cons, List.not_mem_nil, or_false] at ha
    rcases ha with rfl | rfl | rfl | rfl | rfl | rfl <;> simp [AllConnected]
  have hreach := reach_of_run hok drainedTogether_run
  have hone := h _ hreach (by
    intro call hcall
    simp only [List.mem_cons, List.not_mem_nil, or_false] at hcall
    rcases hcall with rfl | rfl <;> exact ⟨.ok, rfl⟩)
  exact absurd (hone ⟨10, alice⟩ (by simp) ⟨30, bob⟩ (by simp)) (by decide)

/-! ## 8. A call that runs alone -/

/-- A step of a call that nothing interleaves with. -/
def SoloStep (x y : Shared × Call) : Prop := ∃ outcome, x.2.advance outcome x.1 = some y

/-- Where a call stands after the effects of one match. -/
def Call.afterMatch (call : Call) (d : Request) (m : ℕ) : MatchEnd → Call
  | .unreachable => { call with phase := .popping, unreachable := call.unreachable ++ [d] }
  | .failed e => { call with phase := .returned (.err e) }
  | .panic => { call with phase := .returned .panic }
  | .complete => call.compare d m

/-- Alone, a call performs the effects of a match as `performMatch` does. -/
theorem performMatch_solo (e : Effects) (r d : Request) (m : ℕ) (q : List Request) (l : Ledger)
    (z : ℤ) (co : List Match) (un di : List Request) :
    Relation.ReflTransGen SoloStep (⟨q, l⟩, ⟨r, z, .notifyingDestination d m, co, un, di⟩)
      (⟨q, (performMatch e r.clientId d.clientId m l).1⟩,
        Call.afterMatch ⟨r, z, .savingDestination d m, co, un, di⟩ d m
          (performMatch e r.clientId d.clientId m l).2) := by
  obtain ⟨nd, nr, sr, sd⟩ := e
  cases nd with
  | error e => exact .single ⟨.error e, by simp [Call.advance, notifyClient, performMatch,
      Call.afterMatch]⟩
  | ok _ =>
    have hnd : SoloStep (⟨q, l⟩, ⟨r, z, .notifyingDestination d m, co, un, di⟩)
        (⟨q, l.deliver d.clientId ⟨m, r.clientId⟩⟩,
          ⟨r, z, .notifyingRequester d m, co, un, di⟩) :=
      ⟨.ok (), by simp [Call.advance, notifyClient]⟩
    refine .head hnd ?_
    cases nr with
    | error e => exact .single ⟨.error e, by simp [Call.advance, notifyClient, performMatch,
        Call.afterMatch]⟩
    | ok _ =>
      have hnr : SoloStep (⟨q, l.deliver d.clientId ⟨m, r.clientId⟩⟩,
            ⟨r, z, .notifyingRequester d m, co, un, di⟩)
          (⟨q, l.notified r.clientId d.clientId m⟩,
            ⟨r, z, .savingRequester d m, co, un, di⟩) :=
        ⟨.ok (), by simp [Call.advance, notifyClient, Ledger.notified]⟩
      refine .head hnr ?_
      cases hi : i64 m with
      | none =>
        exact .single ⟨.ok (), by simp [Call.advance, hi, performMatch, notifyClient,
          Call.afterMatch, Ledger.notified]⟩
      | some size =>
        cases sr with
        | error e => exact .single ⟨.error e, by simp [Call.advance, hi, performMatch,
            notifyClient, saveStorageNegotiated, Call.afterMatch, Ledger.notified]⟩
        | ok _ =>
          have hsr : SoloStep (⟨q, l.notified r.clientId d.clientId m⟩,
                ⟨r, z, .savingRequester d m, co, un, di⟩)
              (⟨q, (l.notified r.clientId d.clientId m).insert ⟨r.clientId, d.clientId, size⟩⟩,
                ⟨r, z, .savingDestination d m, co, un, di⟩) :=
            ⟨.ok (), by simp [Call.advance, hi, saveStorageNegotiated]⟩
          refine .head hsr ?_
          cases sd with
          | error e => exact .single ⟨.error e, by simp [Call.advance, hi, performMatch,
              notifyClient, saveStorageNegotiated, Call.afterMatch, Ledger.notified]⟩
          | ok _ => exact .single ⟨.ok (), by simp [Call.advance, hi, performMatch,
              notifyClient, saveStorageNegotiated, Call.afterMatch, Ledger.notified]⟩

/-- Alone, a call that is about to pop ends as the loop of `fulfill` does.  The induction is on
the queue. -/
theorem fulfillLoop_solo (r : Request) (queue : List Request) (effects : ℕ → Effects) (z : ℤ)
    (l : Ledger) (popped : List Popped) (co : List Match) (un di : List Request) :
    ∃ call : Call, call.phase = .returned (fulfillLoop r queue effects z l popped).result ∧
      Relation.ReflTransGen SoloStep (⟨queue, l⟩, ⟨r, z, .popping, co, un, di⟩)
        (⟨(fulfillLoop r queue effects z l popped).queue,
          (fulfillLoop r queue effects z l popped).ledger⟩, call) := by
  induction queue generalizing effects z l popped co un di with
  | nil =>
    simp only [fulfillLoop]
    cases hz : u64 z with
    | none =>
      exact ⟨⟨r, z, .returned .panic, co, un, di⟩, rfl,
        .single ⟨.ok (), by simp [Call.advance, hz]⟩⟩
    | some rest =>
      have hdrained : SoloStep (⟨[], l⟩, ⟨r, z, .popping, co, un, di⟩)
          (⟨[], l⟩, ⟨r, z, .pushingRequest ⟨rest, r.clientId⟩, co, un, di⟩) :=
        ⟨.ok (), by simp [Call.advance, hz]⟩
      exact ⟨⟨r, z, .returned .ok, co, un, di⟩, rfl,
        .head hdrained (.single ⟨.ok (), by simp [Call.advance]⟩)⟩
  | cons d queue ih =>
    simp only [fulfillLoop]
    by_cases hown : d.clientId = r.clientId
    · rw [if_pos hown]
      obtain ⟨call, hret, hrun⟩ := ih effects z l (popped ++ [⟨d, false, 0⟩]) co un (di ++ [d])
      exact ⟨call, hret, .head ⟨.ok (), by simp [Call.advance, hown]⟩ hrun⟩
    · rw [if_neg hown]
      cases hz : u64 z with
      | none =>
        exact ⟨⟨r, z, .returned .panic, co, un, di⟩, rfl,
          .single ⟨.ok (), by simp [Call.advance, hz, hown]⟩⟩
      | some need =>
        have hpop : SoloStep (⟨d :: queue, l⟩, ⟨r, z, .popping, co, un, di⟩)
            (⟨queue, l⟩, ⟨r, z, .notifyingDestination d (min need d.storageRequired),
              co, un, di⟩) :=
          ⟨.ok (), by simp [Call.advance, hz, hown]⟩
        have hmatch := performMatch_solo (effects 0) r d (min need d.storageRequired) queue l z
          co un di
        rcases hpm : performMatch (effects 0) r.clientId d.clientId (min need d.storageRequired) l
          with ⟨l', ending⟩
        rw [hpm] at hmatch
        have hrun := Relation.ReflTransGen.head hpop hmatch
        simp only [hpm]
        cases ending with
        | unreachable =>
          obtain ⟨call, hret, hrest⟩ := ih (fun i => effects (i + 1)) z l'
            (popped ++ [⟨d, false, 0⟩]) co (un ++ [d]) di
          exact ⟨call, hret, hrun.trans hrest⟩
        | failed e => exact ⟨⟨r, z, .returned (.err e), co, un, di⟩, rfl, hrun⟩
        | panic => exact ⟨⟨r, z, .returned .panic, co, un, di⟩, rfl, hrun⟩
        | complete =>
          simp only [Call.afterMatch, Call.compare] at hrun
          cases hi : i64 d.storageRequired with
          | none =>
            simp only [hi] at hrun
            exact ⟨_, rfl, hrun⟩
          | some required =>
            simp only [hi] at hrun ⊢
            by_cases hless : z < required
            · simp only [if_pos hless] at hrun ⊢
              exact ⟨_, rfl, hrun.tail ⟨.ok (), rfl⟩⟩
            · by_cases heq : z = required
              · simp only [if_neg hless, if_pos heq] at hrun ⊢
                exact ⟨_, rfl, hrun⟩
              · simp only [if_neg hless, if_neg heq] at hrun ⊢
                obtain ⟨call, hret, hrest⟩ := ih (fun i => effects (i + 1)) (z - required) l'
                  (popped ++ [⟨d, true, min need d.storageRequired⟩])
                  (co ++ [⟨r.clientId, d.clientId, min need d.storageRequired⟩]) un di
                exact ⟨call, hret, hrun.trans hrest⟩

/-- A call that nothing interleaves with leaves the queue and the ledger that `fulfill` leaves,
and returns what it returns. -/
theorem fulfill_solo (r : Request) (effects : ℕ → Effects) (queue : List Request) (l : Ledger) :
    ∃ call : Call, call.phase = .returned (fulfill r effects queue l).result ∧
      Relation.ReflTransGen SoloStep (⟨queue, l⟩, Call.start r)
        (⟨(fulfill r effects queue l).queue, (fulfill r effects queue l).ledger⟩, call) := by
  unfold fulfill Call.start
  split
  · exact ⟨_, rfl, .refl⟩
  · split
    · exact ⟨_, rfl, .refl⟩
    · cases i64 r.storageRequired with
      | none => exact ⟨_, rfl, .refl⟩
      | some z => exact fulfillLoop_solo r queue effects z l [] [] [] []

end Backuwup.Server
