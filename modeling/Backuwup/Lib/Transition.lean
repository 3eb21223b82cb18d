/-
# Runs of a labelled partial step function

A system is given by `step : σ → α → Option σ`: an action that the state does not admit
returns `none`.  This module has the two views of a run that the developments over it use.

* `run` executes a list of actions, so a concrete run is evaluated.
* `Reach step ok s₀` is the set of states reachable from `s₀` by steps whose actions all meet
  the side condition `ok` in the state they are taken from.

`Reach.invariant` is the induction rule, and `reach_of_run` turns an executed run into a
reachable state.  `run_iff_meets` is for a property that a step keeps exactly if it meets the
side condition, and `throughout_iff_meets` for one that has to hold in every state of the run.
-/
import Mathlib.Data.List.Basic

namespace Transition

variable {σ α : Type*}

/-! ## 1. Executing a run -/

/-- Execute the actions in order; the first refused action stops the run. -/
def run (step : σ → α → Option σ) : σ → List α → Option σ
  | s, [] => some s
  | s, a :: as => (step s a).bind fun s' => run step s' as

@[simp] theorem run_nil (step : σ → α → Option σ) (s : σ) : run step s [] = some s := rfl

theorem run_cons (step : σ → α → Option σ) (s : σ) (a : α) (as : List α) :
    run step s (a :: as) = (step s a).bind fun s' => run step s' as := rfl

/-- A run that begins with an admitted action continues from the state after it. -/
theorem run_cons_of_step {step : σ → α → Option σ} {s s' : σ} {a : α} (as : List α)
    (h : step s a = some s') : run step s (a :: as) = run step s' as := by
  rw [run_cons, h, Option.bind_some]

theorem run_append (step : σ → α → Option σ) (s : σ) (as bs : List α) :
    run step s (as ++ bs) = (run step s as).bind fun s' => run step s' bs := by
  induction as generalizing s with
  | nil => rfl
  | cons a as ih => simp only [List.cons_append, run_cons, Option.bind_assoc, ih]

/-! ## 2. Reachable states -/

/-- The states reached from `s₀` by steps whose actions meet `ok`. -/
inductive Reach (step : σ → α → Option σ) (ok : σ → α → Prop) (s₀ : σ) : σ → Prop
  | refl : Reach step ok s₀ s₀
  | tail {s s' : σ} (a : α) :
      Reach step ok s₀ s → ok s a → step s a = some s' → Reach step ok s₀ s'

variable {step : σ → α → Option σ} {ok : σ → α → Prop} {s₀ s s' : σ}

/-- The invariant rule: what holds at the start and survives every admitted step holds of
every reachable state. -/
theorem Reach.invariant {I : σ → Prop} (h0 : I s₀)
    (hstep : ∀ s a s', I s → ok s a → step s a = some s' → I s')
    (h : Reach step ok s₀ s) : I s := by
  induction h with
  | refl => exact h0
  | tail a _ hok hst ih => exact hstep _ a _ ih hok hst

theorem Reach.trans (h : Reach step ok s₀ s) (h' : Reach step ok s s') :
    Reach step ok s₀ s' := by
  induction h' with
  | refl => exact h
  | tail a _ hok hst ih => exact .tail a ih hok hst

/-- Steps that are taken in one system are taken in another. -/
theorem Reach.map {σ' α' : Type*} {step' : σ' → α' → Option σ'} {ok' : σ' → α' → Prop}
    (f : σ → σ') (g : α → α')
    (hf : ∀ s a s', ok s a → step s a = some s' →
      ok' (f s) (g a) ∧ step' (f s) (g a) = some (f s'))
    (h : Reach step ok s₀ s) : Reach step' ok' (f s₀) (f s) := by
  induction h with
  | refl => exact .refl
  | tail a _ hok hst ih =>
    obtain ⟨hok', hst'⟩ := hf _ a _ hok hst
    exact ih.tail (g a) hok' hst'

/-- A run meets every weaker side condition. -/
theorem Reach.mono {ok' : σ → α → Prop} (hok : ∀ s a, ok s a → ok' s a)
    (h : Reach step ok s₀ s) : Reach step ok' s₀ s :=
  h.map id id fun s a _ ha hst => ⟨hok s a ha, hst⟩

/-- A run that begins with a conforming step. -/
theorem Reach.head (a : α) (hok : ok s₀ a) (hst : step s₀ a = some s)
    (h : Reach step ok s s') : Reach step ok s₀ s' :=
  (Reach.tail a .refl hok hst).trans h

/-- An executed run of actions that meet the side condition anywhere reaches its final state. -/
theorem reach_of_run {as : List α} (hok : ∀ a ∈ as, ∀ s, ok s a)
    (h : run step s₀ as = some s) : Reach step ok s₀ s := by
  induction as generalizing s₀ with
  | nil =>
    rw [run_nil, Option.some.injEq] at h
    exact h ▸ .refl
  | cons a as ih =>
    rw [run_cons, Option.bind_eq_some_iff] at h
    obtain ⟨s₁, h1, h2⟩ := h
    have hrest := ih (fun b hb => hok b (List.mem_cons_of_mem _ hb)) h2
    exact .head a (hok a List.mem_cons_self s₀) h1 hrest

/-- With no side condition, every executed run reaches its final state. -/
theorem reach_of_run_true {as : List α} (h : run step s₀ as = some s) :
    Reach step (fun _ _ => True) s₀ s :=
  reach_of_run (fun _ _ _ => trivial) h

/-! ## 3. Executing a run with its side condition -/

/-- Execute the actions in order, checking each before it is taken. -/
def runWhen (step : σ → α → Option σ) (check : σ → α → Bool) : σ → List α → Option σ
  | s, [] => some s
  | s, a :: as => if check s a then (step s a).bind fun s' => runWhen step check s' as else none

/-- A checked run reaches its final state by steps that meet the side condition, if the check is
enough for each action of the run. -/
theorem reach_of_runWhen_of_mem {check : σ → α → Bool} {as : List α}
    (hok : ∀ a ∈ as, ∀ s, check s a = true → ok s a) (h : runWhen step check s₀ as = some s) :
    Reach step ok s₀ s := by
  induction as generalizing s₀ with
  | nil =>
    rw [runWhen, Option.some.injEq] at h
    exact h ▸ .refl
  | cons a as ih =>
    rw [runWhen] at h
    split at h
    · rename_i hcheck
      obtain ⟨s₁, h1, h2⟩ := Option.bind_eq_some_iff.mp h
      have hrest := ih (fun b hb => hok b (List.mem_cons_of_mem _ hb)) h2
      exact .head a (hok a List.mem_cons_self s₀ hcheck) h1 hrest
    · cases h

theorem reach_of_runWhen {check : σ → α → Bool} {as : List α}
    (hok : ∀ s a, check s a = true → ok s a) (h : runWhen step check s₀ as = some s) :
    Reach step ok s₀ s :=
  reach_of_runWhen_of_mem (fun a _ s => hok s a) h

/-- A run that passes a stricter check. -/
theorem runWhen_mono {check strict : σ → α → Bool} {as : List α}
    (himp : ∀ s a, strict s a = true → check s a = true)
    (h : runWhen step strict s₀ as = some s) : runWhen step check s₀ as = some s := by
  induction as generalizing s₀ with
  | nil => exact h
  | cons a as ih =>
    rw [runWhen] at h
    split at h
    · rename_i hstrict
      obtain ⟨s₁, h1, h2⟩ := Option.bind_eq_some_iff.mp h
      rw [runWhen, if_pos (himp s₀ a hstrict), h1, Option.bind_some]
      exact ih h2
    · simp at h

/-! ## 4. Runs that keep a property exactly if they meet a condition -/

/-- Every action of the list meets `ok` in the state it is taken from. -/
def Meets (step : σ → α → Option σ) (ok : σ → α → Prop) : σ → List α → Prop
  | _, [] => True
  | s, a :: as => ok s a ∧ ∀ s', step s a = some s' → Meets step ok s' as

/-- A checked run meets the side condition. -/
theorem meets_of_runWhen {check : σ → α → Bool} {as : List α}
    (hok : ∀ s a, check s a = true → ok s a) (h : runWhen step check s₀ as = some s) :
    run step s₀ as = some s ∧ Meets step ok s₀ as := by
  induction as generalizing s₀ with
  | nil => exact ⟨h, trivial⟩
  | cons a as ih =>
    rw [runWhen] at h
    split at h
    · rename_i hcheck
      obtain ⟨s₁, h1, h2⟩ := Option.bind_eq_some_iff.mp h
      obtain ⟨hrun, hrest⟩ := ih h2
      refine ⟨(run_cons_of_step as h1).trans hrun, hok s₀ a hcheck, ?_⟩
      intro s' hs'
      obtain rfl := Option.some.inj (h1.symm.trans hs')
      exact hrest
    · simp at h

/-- Every list of actions meets the condition that holds of all. -/
theorem meets_true (step : σ → α → Option σ) (s : σ) (as : List α) :
    Meets step (fun _ _ => True) s as := by
  induction as generalizing s with
  | nil => trivial
  | cons a as ih => exact ⟨trivial, fun s' _ => ih s'⟩

/-- A run whose actions meet the condition. -/
theorem reach_of_meets {as : List α} (hmeets : Meets step ok s₀ as)
    (h : run step s₀ as = some s) : Reach step ok s₀ s := by
  induction as generalizing s₀ with
  | nil =>
    rw [run_nil, Option.some.injEq] at h
    exact h ▸ .refl
  | cons a as ih =>
    rw [run_cons, Option.bind_eq_some_iff] at h
    obtain ⟨s₁, h1, h2⟩ := h
    exact .head a hmeets.1 h1 (ih (hmeets.2 s₁ h1) h2)

/-- In runs whose actions meet `given`: if such a step keeps `P` exactly if its action meets `ok`,
then so does the run. -/
theorem run_iff_meets_of {given : σ → α → Prop} {I P : σ → Prop} {as : List α} (hI : I s₀)
    (hgiven : Meets step given s₀ as)
    (hinv : ∀ s a s', I s → given s a → step s a = some s' → I s')
    (hiff : ∀ s a s', I s → given s a → step s a = some s' → (P s' ↔ P s ∧ ok s a))
    (h : run step s₀ as = some s) : P s ↔ P s₀ ∧ Meets step ok s₀ as := by
  induction as generalizing s₀ with
  | nil =>
    rw [run_nil, Option.some.injEq] at h
    subst h
    exact ⟨fun hP => ⟨hP, trivial⟩, And.left⟩
  | cons a as ih =>
    rw [run_cons, Option.bind_eq_some_iff] at h
    obtain ⟨s₁, h1, h2⟩ := h
    rw [ih (hinv s₀ a s₁ hI hgiven.1 h1) (hgiven.2 s₁ h1) h2, hiff s₀ a s₁ hI hgiven.1 h1]
    constructor
    · rintro ⟨⟨hP, hok⟩, hrest⟩
      refine ⟨hP, hok, ?_⟩
      intro s' hs'
      obtain rfl := Option.some.inj (h1.symm.trans hs')
      exact hrest
    · rintro ⟨hP, hok, hrest⟩
      exact ⟨⟨hP, hok⟩, hrest s₁ h1⟩

/-- If a step keeps `P` exactly if its action meets `ok`, then so does a run. -/
theorem run_iff_meets {I P : σ → Prop} {as : List α} (hI : I s₀)
    (hinv : ∀ s a s', I s → step s a = some s' → I s')
    (hiff : ∀ s a s', I s → step s a = some s' → (P s' ↔ P s ∧ ok s a))
    (h : run step s₀ as = some s) : P s ↔ P s₀ ∧ Meets step ok s₀ as :=
  run_iff_meets_of hI (meets_true step s₀ as) (fun s a s' hs _ => hinv s a s' hs)
    (fun s a s' hs _ => hiff s a s' hs) h

/-- The property holds in every state that the actions lead to. -/
def Throughout (step : σ → α → Option σ) (P : σ → Prop) : σ → List α → Prop
  | s, [] => P s
  | s, a :: as => P s ∧ ∀ s', step s a = some s' → Throughout step P s' as

/-- If a step from a state with `P` keeps it exactly if its action meets `ok`, then a run has `P`
throughout exactly if it meets `ok`. -/
theorem throughout_iff_meets {I P : σ → Prop} {as : List α} (hI : I s₀) (hP : P s₀)
    (hinv : ∀ s a s', I s → step s a = some s' → I s')
    (hiff : ∀ s a s', I s → P s → step s a = some s' → (P s' ↔ ok s a))
    (h : run step s₀ as = some s) : Throughout step P s₀ as ↔ Meets step ok s₀ as := by
  induction as generalizing s₀ with
  | nil => exact iff_of_true hP trivial
  | cons a as ih =>
    rw [run_cons, Option.bind_eq_some_iff] at h
    obtain ⟨s₁, h1, h2⟩ := h
    have hstep := hiff s₀ a s₁ hI hP h1
    have honly : ∀ {Q : σ → Prop}, (∀ s', step s₀ a = some s' → Q s') ↔ Q s₁ := by
      intro Q
      constructor
      · intro hQ
        exact hQ s₁ h1
      · intro hQ s' hs'
        exact Option.some.inj (h1.symm.trans hs') ▸ hQ
    have hrest : P s₁ → (Throughout step P s₁ as ↔ Meets step ok s₁ as) := fun hP₁ =>
      ih (hinv s₀ a s₁ hI h1) hP₁ h2
    rw [Throughout, Meets, honly, honly]
    constructor
    · rintro ⟨-, hall⟩
      have hP₁ : P s₁ := by
        cases as with
        | nil => exact hall
        | cons b bs => exact hall.1
      exact ⟨hstep.mp hP₁, (hrest hP₁).mp hall⟩
    · rintro ⟨hok, hmeets⟩
      exact ⟨hP, (hrest (hstep.mpr hok)).mpr hmeets⟩

end Transition
