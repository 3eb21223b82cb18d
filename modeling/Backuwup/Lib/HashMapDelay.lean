/-
# Maps whose entries have a time-out

What a program relies on that keeps a `HashMapDelay` (`delay_map` 0.3.0) and does not poll it as a
stream.  The container is a parameter: `HashMapDelay` has the calls and `LawfulHashMapDelay` what
they do to the entries that are found.  By themselves `get`, `insert` and `remove` do not look at
the time-outs, and an `insert` under a key that is there renews the time-out and keeps the value.

A history says what was inserted and removed, the latest first; `Accounts` says that the entries of
a map are those that `standing` reads off its history.
-/
import Mathlib.Data.List.Basic
import Mathlib.Data.Nat.Notation
import Mathlib.Logic.Function.Basic

/-! ## 1. The calls -/

/-- The calls, for keys and values of any type; the time at which an entry is inserted is that of
the clock. -/
class HashMapDelay (D : Type → Type → Type) where
  new {κ ν : Type} (timeout : ℕ) : D κ ν
  get {κ ν : Type} [DecidableEq κ] (m : D κ ν) (k : κ) : Option ν
  insert {κ ν : Type} [DecidableEq κ] (m : D κ ν) (now : ℕ) (k : κ) (v : ν) : D κ ν
  /-- with the value that has been removed -/
  remove {κ ν : Type} [DecidableEq κ] (m : D κ ν) (k : κ) : Option ν × D κ ν

/-- What the calls do to the entries. -/
class LawfulHashMapDelay (D : Type → Type → Type) [HashMapDelay D] : Prop where
  get_new {κ ν : Type} [DecidableEq κ] (timeout : ℕ) (k : κ) :
    HashMapDelay.get (HashMapDelay.new timeout : D κ ν) k = none
  /-- The value of an entry that is there stays. -/
  get_insert {κ ν : Type} [DecidableEq κ] (m : D κ ν) (now : ℕ) (k k' : κ) (v : ν) :
    HashMapDelay.get (HashMapDelay.insert m now k v) k' =
      if k' = k then some ((HashMapDelay.get m k).getD v) else HashMapDelay.get m k'
  remove_fst {κ ν : Type} [DecidableEq κ] (m : D κ ν) (k : κ) :
    (HashMapDelay.remove m k).1 = HashMapDelay.get m k
  get_remove {κ ν : Type} [DecidableEq κ] (m : D κ ν) (k k' : κ) :
    HashMapDelay.get (HashMapDelay.remove m k).2 k' =
      if k' = k then none else HashMapDelay.get m k'

attribute [simp] LawfulHashMapDelay.get_new LawfulHashMapDelay.remove_fst

namespace HashMapDelay

/-! ## 2. Histories -/

/-- A call that changes the entries; `β` has the value, and what else is known of the insertion. -/
inductive Change (κ β : Type)
  | inserted (k : κ) (b : β)
  | removed (k : κ)

variable {κ ν β : Type} [DecidableEq κ]

/-- The insertion that the entry under the key is from: the first one since it was last removed. -/
def standing (k : κ) : List (Change κ β) → Option β
  | [] => none
  | .inserted k' b :: before =>
    if k' = k then some ((standing k before).getD b) else standing k before
  | .removed k' :: before => if k' = k then none else standing k before

@[simp] theorem standing_nil (k : κ) : standing k ([] : List (Change κ β)) = none := rfl

theorem standing_inserted (k k' : κ) (b : β) (before : List (Change κ β)) :
    standing k (.inserted k' b :: before) =
      if k' = k then some ((standing k before).getD b) else standing k before := rfl

theorem standing_removed (k k' : κ) (before : List (Change κ β)) :
    standing k (.removed k' :: before) = if k' = k then none else standing k before := rfl

theorem mem_of_standing {k : κ} {b : β} {changes : List (Change κ β)}
    (h : standing k changes = some b) : .inserted k b ∈ changes := by
  induction changes with
  | nil => cases h
  | cons change before ih =>
    cases change with
    | inserted k' b' =>
      rw [standing_inserted] at h
      split at h
      · rename_i hk
        cases hbefore : standing k before with
        | none =>
          rw [hbefore] at h
          cases h
          exact hk ▸ List.mem_cons_self
        | some b₀ =>
          rw [hbefore] at h
          cases h
          exact List.mem_cons_of_mem _ (ih hbefore)
      · exact List.mem_cons_of_mem _ (ih h)
    | removed k' =>
      rw [standing_removed] at h
      split at h
      · cases h
      · exact List.mem_cons_of_mem _ (ih h)

/-- The entries are those of the history. -/
def Accounts {D : Type → Type → Type} [HashMapDelay D] (value : β → ν)
    (changes : List (Change κ β)) (m : D κ ν) : Prop :=
  ∀ k, get m k = (standing k changes).map value

section

variable {D : Type → Type → Type} [HashMapDelay D] [LawfulHashMapDelay D] {value : β → ν}
  {changes : List (Change κ β)} {m : D κ ν}

theorem accounts_new (timeout : ℕ) : Accounts value [] (new timeout : D κ ν) :=
  fun k => LawfulHashMapDelay.get_new timeout k

theorem Accounts.insert (h : Accounts value changes m) (now : ℕ) (k : κ) (b : β) :
    Accounts value (.inserted k b :: changes) (HashMapDelay.insert m now k (value b)) := by
  intro k'
  rw [LawfulHashMapDelay.get_insert, standing_inserted]
  by_cases hk : k' = k
  · subst hk
    rw [if_pos rfl, if_pos rfl, h]
    cases standing k' changes <;> rfl
  · rw [if_neg hk, if_neg (Ne.symm hk), h]

theorem Accounts.remove (h : Accounts value changes m) (k : κ) :
    Accounts value (.removed k :: changes) (HashMapDelay.remove m k).2 := by
  intro k'
  rw [LawfulHashMapDelay.get_remove, standing_removed]
  by_cases hk : k' = k
  · rw [if_pos hk, if_pos hk.symm, Option.map_none]
  · rw [if_neg hk, if_neg (Ne.symm hk), h]

omit [LawfulHashMapDelay D] in
/-- An entry that is found is from an insertion of its value. -/
theorem Accounts.standing_of_get (h : Accounts value changes m) {k : κ} {v : ν}
    (hget : get m k = some v) : ∃ b, standing k changes = some b ∧ value b = v := by
  rw [h, Option.map_eq_some_iff] at hget
  exact hget

end

end HashMapDelay

/-! ## 3. A map with these calls -/

/-- The lifetime of an entry, and the entries with their deadlines. -/
structure DelayMap (κ ν : Type) where
  timeout : ℕ
  entry : κ → Option (ν × ℕ)

instance : HashMapDelay DelayMap where
  new timeout := ⟨timeout, fun _ => none⟩
  get m k := (m.entry k).map Prod.fst
  insert m now k v :=
    { m with
      entry := Function.update m.entry k
        (some (((m.entry k).map Prod.fst).getD v, now + m.timeout)) }
  remove m k := ((m.entry k).map Prod.fst, { m with entry := Function.update m.entry k none })

instance : LawfulHashMapDelay DelayMap where
  get_new timeout k := rfl
  get_insert m now k k' v := by
    by_cases h : k' = k
    · subst h
      simp [HashMapDelay.get, HashMapDelay.insert]
    · simp [HashMapDelay.get, HashMapDelay.insert, h]
  remove_fst m k := rfl
  get_remove m k k' := by
    by_cases h : k' = k <;> simp [HashMapDelay.get, HashMapDelay.remove, h]
