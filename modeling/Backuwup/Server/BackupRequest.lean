/-
# Matching storage requests (`server/src/backup_request.rs`)

`Queue::fulfill` pops queued requests of other clients and matches each with the incoming
one.  A match has four fallible effects: the destination is notified, the requester is
notified, and the match is inserted into `peer_backups` in both directions.  The destination
has been popped before the first of them, a failure of the first one is handled, and a failure
of any later one returns at once.

The model runs one call of `fulfill` on a queue content.  The queue is a first-in first-out
list (`SumQueue`, entries that expire before they are popped being left out of the content),
and the effects of the `i`-th match are an argument, so every choice of failures is a run.

The question settled here is when the call leaves the match state balanced
(`fulfill_balanced_iff`): exactly when no match whose destination was told of it loses one of
its other three effects.
-/
import Backuwup.Shared.Types
import Mathlib.Algebra.BigOperators.Group.Finset.Basic
import Mathlib.Algebra.BigOperators.Group.List.Basic
import Mathlib.Tactic.Linarith

namespace Backuwup.Server

/-! ## 1. The code -/

/-- The errors of `handlers::Error` that `fulfill` can return. -/
inductive Error
  | badRequest
  | clientNotConnected (client : ClientId)
  | serialization
  | io
  | database
deriving DecidableEq

structure Request where
  storageRequired : ℕ
  clientId : ClientId
deriving DecidableEq

structure PeerBackup where
  source : ClientId
  destination : ClientId
  sizeNegotiated : ℤ
deriving DecidableEq

/-- What the matches leave behind: the messages delivered, each with its recipient, and the
rows of `peer_backups`. -/
structure Ledger where
  delivered : List (ClientId × BackupMatched)
  peerBackups : List PeerBackup
deriving DecidableEq

/-- The outcomes of the four effects of one match. -/
structure Effects where
  notifyDestination : Except Error Unit
  notifyRequester : Except Error Unit
  saveRequester : Except Error Unit
  saveDestination : Except Error Unit

def i64Max : ℕ := 9223372036854775807

def u64Max : ℕ := 18446744073709551615

/-- The checked cast `cast::i64`. -/
def i64 (n : ℕ) : Option ℤ := if n ≤ i64Max then some n else none

/-- The checked cast `cast::u64`. -/
def u64 (z : ℤ) : Option ℕ := if 0 ≤ z ∧ z.toNat ≤ u64Max then some z.toNat else none

/-- A message reaches a client. -/
def Ledger.deliver (l : Ledger) (client : ClientId) (message : BackupMatched) : Ledger :=
  { l with delivered := l.delivered ++ [(client, message)] }

/-- A row is inserted into `peer_backups`. -/
def Ledger.insert (l : Ledger) (row : PeerBackup) : Ledger :=
  { l with peerBackups := l.peerBackups ++ [row] }

/-- `ClientConnections::notify_client`: a message counts as delivered when sending it
succeeded. -/
def notifyClient (outcome : Except Error Unit) (client : ClientId) (message : BackupMatched)
    (l : Ledger) : Except Error Ledger :=
  match outcome with
  | .ok _ => .ok (l.deliver client message)
  | .error e => .error e

def saveStorageNegotiated (outcome : Except Error Unit) (source destination : ClientId)
    (size : ℤ) (l : Ledger) : Except Error Ledger :=
  match outcome with
  | .ok _ => .ok (l.insert ⟨source, destination, size⟩)
  | .error e => .error e

inductive MatchEnd
  /-- the destination could not be notified and is dropped -/
  | unreachable
  /-- a later effect failed, and `?` leaves the function -/
  | failed (e : Error)
  /-- a checked cast failed -/
  | panic
  | complete
deriving DecidableEq

/-- The effects of one match of `storageMatch` bytes, in order. -/
def performMatch (e : Effects) (requester destination : ClientId) (storageMatch : ℕ)
    (l : Ledger) : Ledger × MatchEnd :=
  match notifyClient e.notifyDestination destination ⟨storageMatch, requester⟩ l with
  | .error _ => (l, .unreachable)
  | .ok l1 =>
    match notifyClient e.notifyRequester requester ⟨storageMatch, destination⟩ l1 with
    | .error err => (l1, .failed err)
    | .ok l2 =>
      match i64 storageMatch with
      | none => (l2, .panic)
      | some size =>
        match saveStorageNegotiated e.saveRequester requester destination size l2 with
        | .error err => (l2, .failed err)
        | .ok l3 =>
          match saveStorageNegotiated e.saveDestination destination requester size l3 with
          | .error err => (l3, .failed err)
          | .ok l4 => (l4, .complete)

/-- How the call ended. -/
inductive Result
  | ok
  | err (e : Error)
  | panic
deriving DecidableEq

/-- A popped destination: whether it was told of a match, and how much of its requirement a
match with all four effects covers. -/
structure Popped where
  destination : Request
  notified : Bool
  covered : ℕ
deriving DecidableEq

/-- The state after the call, with the destinations it popped. -/
structure Outcome where
  queue : List Request
  ledger : Ledger
  popped : List Popped
  result : Result
deriving DecidableEq

/-- The loop of `fulfill` over the remaining queue; `effects i` belongs to the `i`-th match
attempted from here on. -/
def fulfillLoop (request : Request) :
    List Request → (ℕ → Effects) → ℤ → Ledger → List Popped → Outcome
  | [], _, storageToFulfill, l, popped =>
    -- the queue is drained: the remainder of the incoming request is pushed
    match u64 storageToFulfill with
    | none => ⟨[], l, popped, .panic⟩
    | some rest => ⟨[⟨rest, request.clientId⟩], l, popped, .ok⟩
  | destination :: queue, effects, storageToFulfill, l, popped =>
    if destination.clientId = request.clientId then
      -- requests of the same client are discarded
      fulfillLoop request queue effects storageToFulfill l (popped ++ [⟨destination, false, 0⟩])
    else
      match u64 storageToFulfill with
      | none => ⟨queue, l, popped, .panic⟩
      | some need =>
        let storageMatch := min need destination.storageRequired
        match performMatch (effects 0) request.clientId destination.clientId storageMatch l with
        | (l', .unreachable) =>
          fulfillLoop request queue (fun i => effects (i + 1)) storageToFulfill l'
            (popped ++ [⟨destination, false, 0⟩])
        | (l', .failed e) => ⟨queue, l', popped ++ [⟨destination, true, 0⟩], .err e⟩
        | (l', .panic) => ⟨queue, l', popped ++ [⟨destination, true, 0⟩], .panic⟩
        | (l', .complete) =>
          match i64 destination.storageRequired with
          | none => ⟨queue, l', popped ++ [⟨destination, true, storageMatch⟩], .panic⟩
          | some required =>
            if storageToFulfill < required then
              ⟨queue ++ [⟨destination.storageRequired - storageMatch, destination.clientId⟩], l',
                popped ++ [⟨destination, true, storageMatch⟩], .ok⟩
            else if storageToFulfill = required then
              ⟨queue, l', popped ++ [⟨destination, true, storageMatch⟩], .ok⟩
            else
              fulfillLoop request queue (fun i => effects (i + 1)) (storageToFulfill - required)
                l' (popped ++ [⟨destination, true, storageMatch⟩])

def fulfill (request : Request) (effects : ℕ → Effects) (queue : List Request) (l : Ledger) :
    Outcome :=
  if request.storageRequired = 0 then ⟨queue, l, [], .ok⟩
  else if maxBackupStorageRequestSize < request.storageRequired then
    ⟨queue, l, [], .err .badRequest⟩
  else
    match i64 request.storageRequired with
    | none => ⟨queue, l, [], .panic⟩
    | some storageToFulfill => fulfillLoop request queue effects storageToFulfill l []

/-! ## 2. What a balanced match state is -/

/-- Total size of the match messages delivered to `client` that name `about`. -/
def Ledger.deliveredTotal (l : Ledger) (client about : ClientId) : ℤ :=
  ((l.delivered.filter fun m => m.1 = client ∧ m.2.destinationId = about).map
    fun m => (m.2.storageAvailable : ℤ)).sum

/-- Total size of the rows `(source, destination)`. -/
def Ledger.negotiatedTotal (l : Ledger) (source destination : ClientId) : ℤ :=
  ((l.peerBackups.filter fun r => r.source = source ∧ r.destination = destination).map
    fun r => r.sizeNegotiated).sum

/-- Between any two distinct clients, the messages in both directions and the rows in both
directions have all grown by the same amount. -/
def Balanced (l l' : Ledger) : Prop :=
  ∀ a b, a ≠ b → ∃ g : ℤ,
    l'.deliveredTotal a b = l.deliveredTotal a b + g ∧
    l'.deliveredTotal b a = l.deliveredTotal b a + g ∧
    l'.negotiatedTotal a b = l.negotiatedTotal a b + g ∧
    l'.negotiatedTotal b a = l.negotiatedTotal b a + g

/-- What no complete match covers of a popped destination is queued again, unless the
destination was not told of a match or is the requester itself. -/
def Requeued (request : Request) (queue : List Request) (popped : List Popped) : Prop :=
  ∀ p ∈ popped, p.destination.clientId ≠ request.clientId → p.notified = true →
    p.covered < p.destination.storageRequired →
    (⟨p.destination.storageRequired - p.covered, p.destination.clientId⟩ : Request) ∈ queue

/-- The match state is consistent after a call that returned. -/
def Consistent (request : Request) (l : Ledger) (o : Outcome) : Prop :=
  o.result ≠ .panic → Balanced l o.ledger ∧ Requeued request o.queue o.popped

/-- The destination was told of the match, and another effect of it failed. -/
def Effects.Lost (e : Effects) : Prop :=
  e.notifyDestination.isOk = true ∧
    (e.notifyRequester.isOk && e.saveRequester.isOk && e.saveDestination.isOk) = false

/-- The queued requests that the call tries to match, in order. -/
def others (request : Request) (queue : List Request) : List Request :=
  queue.filter fun r => r.clientId ≠ request.clientId

/-- How much storage the destinations told of a match before the `i`-th attempt require. -/
def notifiedBefore (effects : ℕ → Effects) (destinations : List Request) (i : ℕ) : ℕ :=
  ∑ j ∈ Finset.range i,
    if (effects j).notifyDestination.isOk then (destinations[j]?.map (·.storageRequired)).getD 0
    else 0

/-- No match of positive size is lost.  The `i`-th attempt takes place while the storage of
the destinations told before it is below the request and no earlier attempt was lost. -/
def NoMatchLost (need : ℕ) (effects : ℕ → Effects) (destinations : List Request) : Prop :=
  ∀ i d, destinations[i]? = some d → 0 < d.storageRequired →
    notifiedBefore effects destinations i < need → (∀ j < i, ¬ (effects j).Lost) →
      ¬ (effects i).Lost

/-! ## 3. Growth of the ledger -/

theorem Balanced.refl (l : Ledger) : Balanced l l := fun _ _ _ => ⟨0, by simp⟩

/-- After a balanced step, a later ledger is balanced against the first exactly when it is
balanced against the second. -/
theorem Balanced.iff_of_left {l l1 l2 : Ledger} (h : Balanced l l1) :
    Balanced l l2 ↔ Balanced l1 l2 := by
  constructor
  · intro h2 a b hab
    obtain ⟨g1, h11, h12, h13, h14⟩ := h a b hab
    obtain ⟨g2, h21, h22, h23, h24⟩ := h2 a b hab
    exact ⟨g2 - g1, by omega, by omega, by omega, by omega⟩
  · intro h2 a b hab
    obtain ⟨g1, h11, h12, h13, h14⟩ := h a b hab
    obtain ⟨g2, h21, h22, h23, h24⟩ := h2 a b hab
    exact ⟨g1 + g2, by omega, by omega, by omega, by omega⟩

/-- A delivered message counts for its recipient and the client it names. -/
@[simp] theorem deliveredTotal_deliver (l : Ledger) (c : ClientId) (m : BackupMatched)
    (x y : ClientId) :
    (l.deliver c m).deliveredTotal x y
      = l.deliveredTotal x y
        + if c = x ∧ m.destinationId = y then (m.storageAvailable : ℤ) else 0 := by
  simp only [Ledger.deliveredTotal, Ledger.deliver, List.filter_append, List.map_append,
    List.sum_append]
  by_cases h : c = x ∧ m.destinationId = y <;> simp [h]

/-- An inserted row counts for its source and destination. -/
@[simp] theorem negotiatedTotal_insert (l : Ledger) (r : PeerBackup) (x y : ClientId) :
    (l.insert r).negotiatedTotal x y
      = l.negotiatedTotal x y
        + if r.source = x ∧ r.destination = y then r.sizeNegotiated else 0 := by
  simp only [Ledger.negotiatedTotal, Ledger.insert, List.filter_append, List.map_append,
    List.sum_append]
  by_cases h : r.source = x ∧ r.destination = y <;> simp [h]

@[simp] theorem deliveredTotal_insert (l : Ledger) (r : PeerBackup) (x y : ClientId) :
    (l.insert r).deliveredTotal x y = l.deliveredTotal x y := rfl

@[simp] theorem negotiatedTotal_deliver (l : Ledger) (c : ClientId) (m : BackupMatched)
    (x y : ClientId) : (l.deliver c m).negotiatedTotal x y = l.negotiatedTotal x y := rfl

/-! ## 4. What one match does -/

theorem i64_of_le {n : ℕ} (h : n ≤ i64Max) : i64 n = some (n : ℤ) := if_pos h

theorem u64_of_le {n : ℕ} (h : n ≤ i64Max) : u64 (n : ℤ) = some n := by
  simp only [i64Max] at h
  rw [u64, if_pos ⟨by omega, by simp only [u64Max, Int.toNat_natCast]; omega⟩]
  simp

/-- The ledger after the two notifications of a match of `m` bytes. -/
def Ledger.notified (l : Ledger) (requester destination : ClientId) (m : ℕ) : Ledger :=
  (l.deliver destination ⟨m, requester⟩).deliver requester ⟨m, destination⟩

/-- The ledger after all four effects of a match of `m` bytes. -/
def Ledger.complete (l : Ledger) (requester destination : ClientId) (m : ℕ) : Ledger :=
  ((l.notified requester destination m).insert ⟨requester, destination, m⟩).insert
    ⟨destination, requester, m⟩

/-- A complete match moves the two messages and the two rows together. -/
theorem balanced_complete (l : Ledger) (requester destination : ClientId) (m : ℕ) :
    Balanced l (l.complete requester destination m) := by
  intro a b hab
  refine ⟨(if destination = a ∧ requester = b then (m : ℤ) else 0)
    + if requester = a ∧ destination = b then (m : ℤ) else 0, ?_⟩
  simp only [Ledger.complete, Ledger.notified, deliveredTotal_insert, deliveredTotal_deliver,
    negotiatedTotal_insert, negotiatedTotal_deliver, and_comm (b := requester = b),
    and_comm (b := destination = b)]
  refine ⟨by ring, by ring, by ring, by ring⟩

/-- A ledger in which the destination was told of a match, and the row from the destination to
the requester is missing, is balanced only if the match has size zero. -/
theorem balanced_partial_iff {l l' : Ledger} {requester destination : ClientId} {m : ℕ}
    (hne : destination ≠ requester)
    (hd : l'.deliveredTotal destination requester = l.deliveredTotal destination requester + m)
    (hn : l'.negotiatedTotal destination requester = l.negotiatedTotal destination requester)
    (h0 : m = 0 → Balanced l l') : Balanced l l' ↔ m = 0 := by
  refine ⟨fun hb => ?_, h0⟩
  obtain ⟨g, hg1, -, hg3, -⟩ := hb destination requester hne
  omega

/-- The three ways a match of castable size ends: the destination is dropped with nothing
done, an effect after its notification fails, or the match is complete. -/
theorem performMatch_cases (e : Effects) {requester destination : ClientId}
    (hne : destination ≠ requester) {m : ℕ} (hm : m ≤ i64Max) (l : Ledger) :
    (¬ e.Lost ∧ e.notifyDestination.isOk = false ∧
      performMatch e requester destination m l = (l, .unreachable)) ∨
    (e.Lost ∧ ∃ l' err, performMatch e requester destination m l = (l', .failed err) ∧
      (Balanced l l' ↔ m = 0)) ∨
    (¬ e.Lost ∧ e.notifyDestination.isOk = true ∧
      performMatch e requester destination m l
        = (l.complete requester destination m, .complete)) := by
  obtain ⟨nd, nr, sr, sd⟩ := e
  cases nd with
  | error err =>
    exact Or.inl ⟨by simp [Effects.Lost, Except.isOk, Except.toBool], rfl,
      by simp [performMatch, notifyClient]⟩
  | ok _ =>
    refine Or.inr ?_
    cases nr with
    | error err =>
      refine Or.inl ⟨by simp [Effects.Lost, Except.isOk, Except.toBool],
        l.deliver destination ⟨m, requester⟩, err, by simp [performMatch, notifyClient],
        balanced_partial_iff hne (by simp) (by simp) ?_⟩
      rintro rfl a b -
      exact ⟨0, by simp⟩
    | ok _ =>
      cases sr with
      | error err =>
        refine Or.inl ⟨by simp [Effects.Lost, Except.isOk, Except.toBool],
          l.notified requester destination m, err,
          by simp [performMatch, notifyClient, i64_of_le hm, saveStorageNegotiated,
            Ledger.notified],
          balanced_partial_iff hne (by simp [Ledger.notified, hne.symm])
            (by simp [Ledger.notified]) ?_⟩
        rintro rfl a b -
        exact ⟨0, by simp [Ledger.notified]⟩
      | ok _ =>
        cases sd with
        | error err =>
          refine Or.inl ⟨by simp [Effects.Lost, Except.isOk, Except.toBool],
            (l.notified requester destination m).insert ⟨requester, destination, m⟩, err,
            by simp [performMatch, notifyClient, i64_of_le hm, saveStorageNegotiated,
              Ledger.notified],
            balanced_partial_iff hne (by simp [Ledger.notified, hne.symm])
              (by simp [Ledger.notified, hne.symm]) ?_⟩
          rintro rfl a b -
          exact ⟨0, by simp [Ledger.notified]⟩
        | ok _ =>
          exact Or.inr ⟨by simp [Effects.Lost, Except.isOk, Except.toBool], rfl,
            by simp [performMatch, notifyClient, i64_of_le hm, saveStorageNegotiated,
              Ledger.complete, Ledger.notified]⟩

/-! ## 5. The condition along the queue -/

theorem others_cons_self {request d : Request} (queue : List Request)
    (h : d.clientId = request.clientId) : others request (d :: queue) = others request queue := by
  simp [others, h]

theorem others_cons_other {request d : Request} (queue : List Request)
    (h : d.clientId ≠ request.clientId) :
    others request (d :: queue) = d :: others request queue := by
  simp [others, h]

/-- The storage told before attempt `i + 1` is the first destination's, if it was told, and
what was told before attempt `i` of the rest. -/
theorem notifiedBefore_cons (effects : ℕ → Effects) (d : Request) (ds : List Request) (i : ℕ) :
    notifiedBefore effects (d :: ds) (i + 1)
      = (if (effects 0).notifyDestination.isOk then d.storageRequired else 0)
        + notifiedBefore (fun j => effects (j + 1)) ds i := by
  rw [notifiedBefore, Finset.sum_range_succ', Nat.add_comm]
  simp [notifiedBefore]

/-- Nothing can be lost when no destination is left. -/
theorem noMatchLost_nil (need : ℕ) (effects : ℕ → Effects) : NoMatchLost need effects [] := by
  intro i d hd
  simp at hd

/-- A lost first attempt leaves the condition true only if it was of size zero: the call ends
there. -/
theorem noMatchLost_cons_lost {need : ℕ} (hneed : 0 < need) {effects : ℕ → Effects}
    (h : (effects 0).Lost) (d : Request) (ds : List Request) :
    NoMatchLost need effects (d :: ds) ↔ d.storageRequired = 0 := by
  constructor
  · intro hn
    by_contra hd
    exact hn 0 d rfl (by omega) (by simpa [notifiedBefore] using hneed) (by simp) h
  · intro hd i d' hi hpos _ hbefore
    cases i with
    | zero =>
      simp only [List.getElem?_cons_zero, Option.some.injEq] at hi
      subst hi
      omega
    | succ i => exact absurd h (hbefore 0 (by omega))

/-- A first attempt that was not lost leaves the condition to the rest, for the need that is
left after it. -/
theorem noMatchLost_cons_kept {need : ℕ} {effects : ℕ → Effects} (h : ¬ (effects 0).Lost)
    (d : Request) (ds : List Request) (rest : ℕ)
    (hrest : need - (if (effects 0).notifyDestination.isOk then d.storageRequired else 0)
      = rest) :
    NoMatchLost need effects (d :: ds) ↔ NoMatchLost rest (fun i => effects (i + 1)) ds := by
  constructor
  · intro hn i d' hi hpos hreached hbefore
    refine hn (i + 1) d' (by simpa using hi) hpos ?_ ?_
    · rw [notifiedBefore_cons]
      omega
    · intro j hj
      cases j with
      | zero => exact h
      | succ j => exact hbefore j (by omega)
  · intro hn i d' hi hpos hreached hbefore
    cases i with
    | zero => exact h
    | succ i =>
      refine hn i d' (by simpa using hi) hpos ?_ fun j hj => hbefore (j + 1) (by omega)
      rw [notifiedBefore_cons] at hreached
      omega

/-- Once the need is covered, no further attempt takes place. -/
theorem noMatchLost_zero (effects : ℕ → Effects) (ds : List Request) :
    NoMatchLost 0 effects ds := fun _ _ _ _ h => absurd h (Nat.not_lt_zero _)

/-! ## 6. One call of `fulfill` -/

/-- The destinations popped so far leave nothing behind: each was matched in full, was not told
of a match, or belongs to the requester. -/
def Settled (request : Request) (popped : List Popped) : Prop :=
  ∀ p ∈ popped, p.destination.clientId ≠ request.clientId → p.notified = true →
    p.destination.storageRequired ≤ p.covered

theorem Settled.append {request : Request} {popped : List Popped} {p : Popped}
    (h : Settled request popped)
    (hp : p.destination.clientId ≠ request.clientId → p.notified = true →
      p.destination.storageRequired ≤ p.covered) :
    Settled request (popped ++ [p]) := by
  intro q hq
  rcases List.mem_append.mp hq with hq | hq
  · exact h q hq
  · rw [List.mem_singleton] at hq
    exact hq ▸ hp

theorem Settled.requeued {request : Request} {popped : List Popped} (h : Settled request popped)
    (queue : List Request) : Requeued request queue popped := by
  intro p hp hother hnotified hle
  have := h p hp hother hnotified
  omega

/-- Only the last destination can leave a remainder, and it is requeued with it. -/
theorem Settled.requeued_append {request : Request} {popped : List Popped}
    (h : Settled request popped) {queue : List Request} {p : Popped}
    (hp : (⟨p.destination.storageRequired - p.covered, p.destination.clientId⟩ : Request)
      ∈ queue) : Requeued request queue (popped ++ [p]) := by
  intro q hq hother hnotified hle
  rcases List.mem_append.mp hq with hq | hq
  · have := h q hq hother hnotified
    omega
  · rw [List.mem_singleton] at hq
    exact hq ▸ hp

/-- The loop leaves the match state consistent exactly when it loses no match.  The induction
is on the queue: an attempt that was not lost is balanced (`Balanced.iff_of_left`), and a lost
one ends the call with a ledger that is balanced only at size zero. -/
theorem fulfillLoop_consistent_iff (request : Request) (queue : List Request)
    (effects : ℕ → Effects) (need : ℕ) (l : Ledger) (popped : List Popped)
    (hpos : 0 < need) (hle : need ≤ i64Max) (hs : Settled request popped) :
    Consistent request l (fulfillLoop request queue effects need l popped)
      ↔ NoMatchLost need effects (others request queue) := by
  induction queue generalizing effects need l popped with
  | nil =>
    simp only [fulfillLoop, u64_of_le hle, others, List.filter_nil]
    exact ⟨fun _ => noMatchLost_nil need effects, fun _ _ => ⟨.refl l, hs.requeued _⟩⟩
  | cons d queue ih =>
    by_cases hself : d.clientId = request.clientId
    · rw [others_cons_self queue hself]
      simp only [fulfillLoop, if_pos hself]
      exact ih effects need l _ hpos hle
        (hs.append fun hne => absurd hself hne)
    · rw [others_cons_other queue hself]
      have hm : min need d.storageRequired ≤ i64Max := le_trans (Nat.min_le_left _ _) hle
      simp only [fulfillLoop, if_neg hself, u64_of_le hle]
      rcases performMatch_cases (effects 0) hself hm l with
        ⟨hkept, htold, hpm⟩ | ⟨hlost, l', err, hpm, hbal⟩ | ⟨hkept, htold, hpm⟩
      · -- the destination is dropped: nothing changed, and the need is the same
        rw [hpm, noMatchLost_cons_kept hkept d _ need (by simp [htold])]
        exact ih _ need l _ hpos hle
          (hs.append fun _ hf => absurd hf (by simp))
      · -- a later effect failed: the call returns with the match half done
        rw [hpm, noMatchLost_cons_lost hpos hlost]
        have hzero : min need d.storageRequired = 0 ↔ d.storageRequired = 0 := by omega
        constructor
        · intro hc
          exact hzero.mp (hbal.mp (hc (by simp)).1)
        · intro h0 _
          refine ⟨hbal.mpr (hzero.mpr h0), (hs.append fun _ _ => ?_).requeued _⟩
          simp [h0]
      · -- the match is complete
        have hgrow := balanced_complete l request.clientId d.clientId (min need d.storageRequired)
        rw [hpm]
        simp only
        cases hreq : i64 d.storageRequired with
        | none =>
          -- the cast of an oversized requirement panics after the match
          have hbig : ¬ d.storageRequired ≤ i64Max := fun h => by simp [i64_of_le h] at hreq
          rw [noMatchLost_cons_kept hkept d _ 0 (by rw [htold]; simp; omega)]
          exact ⟨fun _ => noMatchLost_zero _ _, fun _ h => absurd rfl h⟩
        | some required =>
          have hreq' : required = d.storageRequired := by
            rw [i64] at hreq
            split at hreq
            · exact (Option.some.inj hreq).symm
            · exact absurd hreq (by simp)
          subst hreq'
          simp only
          by_cases hless : (need : ℤ) < d.storageRequired
          · rw [if_pos hless,
              noMatchLost_cons_kept hkept d _ 0 (by rw [htold]; simp; omega)]
            exact ⟨fun _ => noMatchLost_zero _ _,
              fun _ _ => ⟨hgrow, hs.requeued_append (List.mem_append_right _ (by simp))⟩⟩
          · have hcov : d.storageRequired ≤ min need d.storageRequired := by omega
            rw [if_neg hless]
            by_cases heq : (need : ℤ) = d.storageRequired
            · rw [if_pos heq,
                noMatchLost_cons_kept hkept d _ 0 (by rw [htold]; simp; omega)]
              exact ⟨fun _ => noMatchLost_zero _ _,
                fun _ _ => ⟨hgrow, (hs.append fun _ _ => hcov).requeued _⟩⟩
            · have hsub : (need : ℤ) - d.storageRequired
                  = ((need - d.storageRequired : ℕ) : ℤ) := by omega
              rw [if_neg heq, hsub, noMatchLost_cons_kept hkept d _
                (need - d.storageRequired) (by rw [htold]; simp)]
              have hs' : Settled request (popped ++ [⟨d, true, min need d.storageRequired⟩]) :=
                hs.append fun _ _ => hcov
              rw [← ih (fun i => effects (i + 1))
                (need - d.storageRequired)
                (l.complete request.clientId d.clientId (min need d.storageRequired)) _
                (by omega) (by omega) hs']
              simp only [Consistent, hgrow.iff_of_left]

/-- When a call leaves the match state consistent.  Whatever the queue holds and whichever
effects fail, the state after `fulfill` returned is consistent if and only if no match of
positive size was told to its destination and then lost another of its effects. -/
theorem fulfill_consistent_iff (request : Request) (effects : ℕ → Effects)
    (queue : List Request) (l : Ledger) :
    Consistent request l (fulfill request effects queue l) ↔
      (request.storageRequired ≤ maxBackupStorageRequestSize →
        NoMatchLost request.storageRequired effects (others request queue)) := by
  unfold fulfill
  split
  · rename_i h0
    rw [h0]
    exact ⟨fun _ _ => noMatchLost_zero _ _, fun _ _ => ⟨.refl l, by simp [Requeued]⟩⟩
  · split
    · rename_i hbig
      exact ⟨fun _ h => absurd h (by omega), fun _ _ => ⟨.refl l, by simp [Requeued]⟩⟩
    · rename_i h0 hmax
      have hle : request.storageRequired ≤ i64Max := by
        simp only [maxBackupStorageRequestSize] at hmax
        simp only [i64Max]
        omega
      rw [i64_of_le hle]
      simp only
      rw [fulfillLoop_consistent_iff request queue effects _ l [] (by omega) hle
        (by simp [Settled])]
      exact ⟨fun h _ => h, fun h => h (by omega)⟩

/-! ## 7. A half match

The destination is told of the match, the requester cannot be notified, and the call returns:
no row is saved, and the rest of the destination's request is gone from the queue. -/

/-- The requester and the destination of the half match. -/
def alice : ClientId := .fill 1

/-- The destination of the half match. -/
def bob : ClientId := .fill 2

/-- The requester's connection fails; everything else works. -/
def requesterGone : Effects where
  notifyDestination := .ok ()
  notifyRequester := .error (.clientNotConnected alice)
  saveRequester := .ok ()
  saveDestination := .ok ()

theorem requesterGone_run :
    fulfill ⟨10, alice⟩ (fun _ => requesterGone) [⟨30, bob⟩] ⟨[], []⟩
      = ⟨[], ⟨[(bob, ⟨10, alice⟩)], []⟩, [⟨⟨30, bob⟩, true, 0⟩],
          .err (.clientNotConnected alice)⟩ := by
  decide

/-- A match told to its destination only: the state after the call is not consistent. -/
theorem fulfill_not_consistent :
    ¬ Consistent ⟨10, alice⟩ ⟨[], []⟩
      (fulfill ⟨10, alice⟩ (fun _ => requesterGone) [⟨30, bob⟩] ⟨[], []⟩) := by
  rw [requesterGone_run]
  intro h
  have hb : Balanced ⟨[], []⟩ ⟨[(bob, ⟨10, alice⟩)], []⟩ := (h (by decide)).1
  obtain ⟨g, hg1, -, hg3, -⟩ := hb bob alice (by decide)
  have hd : (Ledger.mk [(bob, ⟨10, alice⟩)] []).deliveredTotal bob alice = 10 := by decide
  have hd0 : (Ledger.mk [] []).deliveredTotal bob alice = 0 := by decide
  have hn : (Ledger.mk [(bob, ⟨10, alice⟩)] []).negotiatedTotal bob alice = 0 := by decide
  have hn0 : (Ledger.mk [] []).negotiatedTotal bob alice = 0 := by decide
  rw [hd, hd0] at hg1
  rw [hn, hn0] at hg3
  omega

end Backuwup.Server
