/-
# Sorting by a key and binary search

The index of the packfiles is a list of pairs, sorted by the first component and searched by
bisection.  Both algorithms are the ones of the Rust standard library up to the order of equal
keys: `sortByKey` orders a list by its keys, and `binarySearch` bisects the half-open window
`[left, right)`.

The results relate a search to membership: on a list sorted by key a search finds an entry with
the key if there is one (`lookup_sortByKey_isSome`), and whatever it finds is an entry of the list
(`lookup_eq_some_mem`).
-/
import Mathlib.Data.List.Sort
import Mathlib.Order.Defs.LinearOrder

namespace Search

variable {κ α : Type*} [LinearOrder κ]

/-! ## 1. Bisection -/

/-- The loop over the window `[left, right)`; each round of it drops an element of the window,
so `fuel` rounds are enough for a window of that length. -/
def bisect (key : α → κ) (k : κ) (xs : List α) : ℕ → ℕ → ℕ → Option α
  | 0, _, _ => none
  | fuel + 1, left, right =>
    if left < right then
      let mid := left + (right - left) / 2
      match xs[mid]? with
      | none => none
      | some x =>
        if key x < k then bisect key k xs fuel (mid + 1) right
        else if k < key x then bisect key k xs fuel left mid
        else some x
    else none

/-- `binary_search_by_key`, returning the element found. -/
def binarySearch (key : α → κ) (k : κ) (xs : List α) : Option α :=
  bisect key k xs xs.length 0 xs.length

/-- What a search returns is in the list and has the key. -/
theorem bisect_some {key : α → κ} {k : κ} {xs : List α} {x : α} {fuel left right : ℕ}
    (h : bisect key k xs fuel left right = some x) : x ∈ xs ∧ key x = k := by
  induction fuel generalizing left right with
  | zero => cases h
  | succ fuel ih =>
    rw [bisect] at h
    split at h
    · simp only at h
      split at h
      · cases h
      · rename_i y hy
        split at h
        · exact ih h
        · rename_i hlt
          split at h
          · exact ih h
          · rename_i hgt
            obtain rfl := Option.some.inj h
            exact ⟨List.mem_of_getElem? hy, le_antisymm (not_lt.mp hgt) (not_lt.mp hlt)⟩
    · cases h

/-- On a list sorted by key, an element of the window with the key is not missed. -/
theorem bisect_isSome {key : α → κ} {k : κ} {xs : List α}
    (hs : xs.Pairwise fun a b => key a ≤ key b) {i : ℕ} (hi : i < xs.length)
    (hk : key xs[i] = k) {fuel left right : ℕ} (hf : right - left ≤ fuel)
    (hlen : right ≤ xs.length) (hl : left ≤ i) (hr : i < right) :
    (bisect key k xs fuel left right).isSome = true := by
  induction fuel generalizing left right with
  | zero => omega
  | succ fuel ih =>
    have hlr : left < right := by omega
    have hmid : left + (right - left) / 2 < xs.length := by omega
    have hle : ∀ {p q : ℕ} (hp : p < xs.length) (hq : q < xs.length), p ≤ q →
        key xs[p] ≤ key xs[q] := by
      intro p q hp hq hpq
      rcases Nat.lt_or_eq_of_le hpq with hpq | rfl
      · exact List.pairwise_iff_getElem.mp hs p q hp hq hpq
      · exact le_refl _
    rw [bisect, if_pos hlr]
    simp only [List.getElem?_eq_getElem hmid]
    split
    · -- the key at `mid` is too small, so `i` is to its right
      rename_i hlt
      have : left + (right - left) / 2 < i := by
        by_contra hge
        exact absurd (hle hi hmid (not_lt.mp hge)) (not_le.mpr (hk ▸ hlt))
      exact ih (by omega) hlen (by omega) hr
    · split
      · rename_i hgt
        have : i < left + (right - left) / 2 := by
          by_contra hge
          exact absurd (hle hmid hi (not_lt.mp hge)) (not_le.mpr (hk ▸ hgt))
        exact ih (by omega) (by omega) hl this
      · rfl

theorem binarySearch_isSome {key : α → κ} {k : κ} {xs : List α}
    (hs : xs.Pairwise fun a b => key a ≤ key b) {x : α} (hx : x ∈ xs) (hk : key x = k) :
    (binarySearch key k xs).isSome = true := by
  obtain ⟨i, hi, rfl⟩ := List.mem_iff_getElem.mp hx
  exact bisect_isSome hs hi hk (by omega) (le_refl _) (Nat.zero_le _) hi

/-! ## 2. A sorted list as a map -/

def sortByKey (key : α → κ) (xs : List α) : List α :=
  xs.insertionSort fun a b => key a ≤ key b

theorem mem_sortByKey {key : α → κ} {xs : List α} {x : α} : x ∈ sortByKey key xs ↔ x ∈ xs :=
  (List.perm_insertionSort _ xs).mem_iff

theorem sortByKey_pairwise (key : α → κ) (xs : List α) :
    (sortByKey key xs).Pairwise fun a b => key a ≤ key b := by
  have : Std.Total fun a b : α => key a ≤ key b := ⟨fun a b => le_total (key a) (key b)⟩
  have : IsTrans α fun a b : α => key a ≤ key b := ⟨fun _ _ _ => le_trans⟩
  exact List.pairwise_insertionSort _ xs

/-- Look a key up in a list sorted by key. -/
def lookup (k : κ) (xs : List (κ × α)) : Option α := (binarySearch Prod.fst k xs).map Prod.snd

/-- A lookup in the sorted list misses no key. -/
theorem lookup_sortByKey_isSome {xs : List (κ × α)} {k : κ} {a : α} (h : (k, a) ∈ xs) :
    (lookup k (sortByKey Prod.fst xs)).isSome = true := by
  rw [lookup, Option.isSome_map]
  exact binarySearch_isSome (sortByKey_pairwise Prod.fst xs) (mem_sortByKey.mpr h) rfl

/-- What a lookup finds is an entry of the list. -/
theorem lookup_eq_some_mem {xs : List (κ × α)} {k : κ} {a : α} (h : lookup k xs = some a) :
    (k, a) ∈ xs := by
  obtain ⟨⟨k', a'⟩, hx, rfl⟩ := Option.map_eq_some_iff.mp h
  obtain ⟨hmem, rfl⟩ := bisect_some hx
  exact hmem

example : lookup 4 (sortByKey Prod.fst [(7, 'c'), (4, 'b'), (1, 'a')]) = some 'b' := by decide

end Search
