/-
# Tasks over one shared state

Several tasks run over one shared state, and one of them moves at a time.  A pool holds the
shared state and the tasks in the order they were started; `advance` moves the `i`-th task by a
partial step function of the shared state and that task, and `spawn` starts another task.

What a development needs of it is how a quantity summed over the tasks, or what they hold, changes
when one of them moves (`sum_map_set`, `filterMap_set_perm`), and that a property of every task or
of some task is kept when the task that moved keeps it (`forall_mem_set`, `exists_mem_set`).
-/
import Mathlib.Algebra.BigOperators.Group.List.Basic
import Mathlib.Data.List.Basic

/-- A shared state with the tasks that run over it. -/
structure Pool (σ τ : Type*) where
  shared : σ
  tasks : List τ
deriving DecidableEq

namespace Pool

variable {σ τ : Type*}

/-! ## 1. The moves -/

/-- Start a task. -/
def spawn (p : Pool σ τ) (t : τ) : Pool σ τ := { p with tasks := p.tasks ++ [t] }

/-- Move the `i`-th task. -/
def advance (f : σ → τ → Option (σ × τ)) (i : ℕ) (p : Pool σ τ) : Option (Pool σ τ) :=
  p.tasks[i]?.bind fun t => (f p.shared t).map fun r => ⟨r.1, p.tasks.set i r.2⟩

@[simp] theorem spawn_shared (p : Pool σ τ) (t : τ) : (p.spawn t).shared = p.shared := rfl

@[simp] theorem spawn_tasks (p : Pool σ τ) (t : τ) : (p.spawn t).tasks = p.tasks ++ [t] := rfl

/-- What a move did: one task and the shared state took one step, the others stood still. -/
theorem advance_eq_some {f : σ → τ → Option (σ × τ)} {i : ℕ} {p p' : Pool σ τ} :
    p.advance f i = some p' ↔ ∃ t s' t', p.tasks[i]? = some t ∧ f p.shared t = some (s', t') ∧
      p' = ⟨s', p.tasks.set i t'⟩ := by
  simp only [advance, Option.bind_eq_some_iff, Option.map_eq_some_iff]
  constructor
  · rintro ⟨t, ht, ⟨s', t'⟩, hf, rfl⟩
    exact ⟨t, s', t', ht, hf, rfl⟩
  · rintro ⟨t, s', t', ht, hf, rfl⟩
    exact ⟨t, ht, (s', t'), hf, rfl⟩

/-! ## 2. Properties of all tasks -/

/-- A task of the pool after one was replaced is the new one, or an old one in another place. -/
theorem mem_set_iff_of_getElem? {l : List τ} {i : ℕ} {t t' x : τ} (hi : l[i]? = some t) :
    x ∈ l.set i t' ↔ x = t' ∨ ∃ j, j ≠ i ∧ l[j]? = some x := by
  rw [List.mem_iff_getElem?]
  have hlt : i < l.length := (List.getElem?_eq_some_iff.mp hi).1
  constructor
  · rintro ⟨j, hj⟩
    by_cases hji : j = i
    · subst hji
      rw [List.getElem?_set_self hlt, Option.some.injEq] at hj
      exact Or.inl hj.symm
    · rw [List.getElem?_set_ne (Ne.symm hji)] at hj
      exact Or.inr ⟨j, hji, hj⟩
  · rintro (rfl | ⟨j, hji, hj⟩)
    · exact ⟨i, List.getElem?_set_self hlt⟩
    · exact ⟨j, by rw [List.getElem?_set_ne (Ne.symm hji)]; exact hj⟩

/-- A task of the pool after one was replaced, by its place. -/
theorem getElem?_set_cases {l : List τ} {i j : ℕ} {t x : τ} (h : (l.set i t)[j]? = some x) :
    (j = i ∧ x = t) ∨ (j ≠ i ∧ l[j]? = some x) := by
  by_cases hji : i = j
  · subst hji
    rw [List.getElem?_set_self'] at h
    obtain ⟨-, -, rfl⟩ := Option.map_eq_some_iff.mp h
    exact Or.inl ⟨rfl, rfl⟩
  · rw [List.getElem?_set_ne hji] at h
    exact Or.inr ⟨Ne.symm hji, h⟩

/-- A task of the pool after another was started, by its place. -/
theorem getElem?_spawn_cases {l : List τ} {j : ℕ} {t x : τ} (h : (l ++ [t])[j]? = some x) :
    l[j]? = some x ∨ x = t := by
  rw [List.getElem?_append] at h
  split at h
  · exact Or.inl h
  · exact Or.inr (List.mem_singleton.mp (List.mem_of_getElem? h))

/-- What a task keeps when it is replaced, all tasks keep. -/
theorem map_set {κ : Type*} (f : τ → κ) {l : List τ} {i : ℕ} {t t' : τ} (hi : l[i]? = some t)
    (h : f t' = f t) : (l.set i t').map f = l.map f := by
  obtain ⟨hlt, rfl⟩ := List.getElem?_eq_some_iff.mp hi
  have hlen : i < (l.map f).length := by simpa using hlt
  have hkey : (l.map f)[i] = f t' := by rw [List.getElem_map, h]
  rw [List.map_set, ← hkey, List.set_getElem_self]

/-- A property of every task is kept when the new task has it. -/
theorem forall_mem_set {P : τ → Prop} {l : List τ} {i : ℕ} {t' : τ}
    (h : ∀ x ∈ l, P x) (h' : P t') : ∀ x ∈ l.set i t', P x := by
  intro x hx
  rcases List.mem_or_eq_of_mem_set hx with hx | rfl
  · exact h x hx
  · exact h'

/-- If some task has a property, then so does one after a task was replaced that has kept it. -/
theorem exists_mem_set {P : τ → Prop} {l : List τ} {i : ℕ} {t t' : τ} (hi : l[i]? = some t)
    (h : ∃ x ∈ l, P x) (h' : P t → P t') : ∃ x ∈ l.set i t', P x := by
  obtain ⟨x, hx, hP⟩ := h
  obtain ⟨j, hj⟩ := List.mem_iff_getElem?.mp hx
  by_cases hji : j = i
  · subst hji
    obtain rfl := Option.some.inj (hi.symm.trans hj)
    exact ⟨t', List.mem_set (List.getElem?_eq_some_iff.mp hi).1 t', h' hP⟩
  · exact ⟨x, (mem_set_iff_of_getElem? hi).mpr (Or.inr ⟨j, hji, hj⟩), hP⟩

theorem forall_mem_spawn {P : τ → Prop} {l : List τ} {t : τ}
    (h : ∀ x ∈ l, P x) (h' : P t) : ∀ x ∈ l ++ [t], P x := by
  intro x hx
  rcases List.mem_append.mp hx with hx | hx
  · exact h x hx
  · exact List.mem_singleton.mp hx ▸ h'

/-! ## 3. What the tasks hold -/

/-- Replacing one task exchanges what it holds. -/
theorem filterMap_set_perm {κ : Type*} (f : τ → Option κ) {l : List τ} {i : ℕ} {t : τ}
    (hi : l[i]? = some t) (t' : τ) : ∃ others,
      (l.filterMap f).Perm ((f t).toList ++ others) ∧
      ((l.set i t').filterMap f).Perm ((f t').toList ++ others) := by
  obtain ⟨hlt, rfl⟩ := List.getElem?_eq_some_iff.mp hi
  have hcons : ∀ x others, (x :: others).filterMap f = (f x).toList ++ others.filterMap f := by
    intro x others
    rw [List.filterMap_cons]
    cases f x <;> rfl
  refine ⟨(l.eraseIdx i).filterMap f, ?_, ?_⟩
  · rw [← hcons]
    exact ((List.getElem_cons_eraseIdx_perm hlt).filterMap f).symm
  · rw [← hcons]
    exact (List.set_perm_cons_eraseIdx hlt t').filterMap f

/-! ## 4. Sums over the tasks -/

variable {M : Type*} [AddCommMonoid M]

/-- Replacing one task exchanges its share of a sum. -/
theorem sum_map_set (φ : τ → M) {l : List τ} {i : ℕ} {t : τ} (hi : l[i]? = some t) (t' : τ) :
    ((l.set i t').map φ).sum + φ t = (l.map φ).sum + φ t' := by
  induction l generalizing i with
  | nil => simp at hi
  | cons x l ih =>
    cases i with
    | zero =>
      rw [List.getElem?_cons_zero, Option.some.injEq] at hi
      subst hi
      simp only [List.set_cons_zero, List.map_cons, List.sum_cons]
      rw [add_comm, add_comm (φ t'), ← add_assoc]
    | succ i =>
      rw [List.getElem?_cons_succ] at hi
      simp only [List.set_cons_succ, List.map_cons, List.sum_cons, add_assoc]
      rw [ih hi]

@[simp] theorem sum_map_spawn (φ : τ → M) (l : List τ) (t : τ) :
    ((l ++ [t]).map φ).sum = (l.map φ).sum + φ t := by
  simp

end Pool
