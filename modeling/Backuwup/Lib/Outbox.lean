/-
# An outbox

Contents are put into a store under names and are sent to somebody who acknowledges them.  That
is all an `Outbox` says: nothing is replaced, only what is held is acknowledged, and only what has
been acknowledged is taken out.  So whatever is held once is held or acknowledged ever after
(`safe_of_runs`), whoever puts and whoever sends, and in whatever order.
-/
import Backuwup.Lib.Transition
import Mathlib.Data.List.Basic
import Mathlib.Logic.Function.Basic

/-- What is held, and what has been acknowledged. -/
@[ext] structure Outbox (κ β : Type*) where
  held : κ → Option β
  acknowledged : List (κ × β)

namespace Outbox

open Transition

inductive Action (κ β : Type*)
  | put (name : κ) (content : β)
  | ack (name : κ)
  | remove (name : κ)

section

variable {κ β : Type*} [DecidableEq κ] [DecidableEq β]

def step (s : Outbox κ β) : Action κ β → Option (Outbox κ β)
  | .put name content =>
    match s.held name with
    | none => some { s with held := Function.update s.held name (some content) }
    | some _ => none
  | .ack name =>
    (s.held name).map fun content =>
      { s with acknowledged := s.acknowledged ++ [(name, content)] }
  | .remove name =>
    match s.held name with
    | none => none
    | some content =>
      if (name, content) ∈ s.acknowledged then
        some { s with held := Function.update s.held name none }
      else none

def Runs (s s' : Outbox κ β) : Prop := Reach step (fun _ _ => True) s s'

variable {s s' : Outbox κ β} {name : κ} {content : β}

theorem Runs.refl (s : Outbox κ β) : Runs s s := Reach.refl

theorem Runs.trans {s'' : Outbox κ β} (h : Runs s s') (h' : Runs s' s'') : Runs s s'' :=
  Reach.trans h h'

theorem Runs.of_eq {s'' : Outbox κ β} (h : Runs s s') (hheld : s''.held = s'.held)
    (hacknowledged : s''.acknowledged = s'.acknowledged) : Runs s s'' :=
  Outbox.ext hheld hacknowledged ▸ h

theorem Runs.put (h : s.held name = none) :
    Runs s { s with held := Function.update s.held name (some content) } :=
  .tail (.put name content) .refl trivial (by simp only [step, h])

theorem Runs.ack (h : s.held name = some content) :
    Runs s { s with acknowledged := s.acknowledged ++ [(name, content)] } :=
  .tail (.ack name) .refl trivial (by simp only [step, h, Option.map_some])

theorem Runs.remove (h : s.held name = some content) (hack : (name, content) ∈ s.acknowledged) :
    Runs s { s with held := Function.update s.held name none } :=
  .tail (.remove name) .refl trivial (by simp only [step, h, hack, if_true])

/-- The content is held, or somebody has acknowledged it. -/
def Safe (s : Outbox κ β) (name : κ) (content : β) : Prop :=
  s.held name = some content ∨ (name, content) ∈ s.acknowledged

theorem safe_step {a : Action κ β} (h : s.Safe name content) (hst : step s a = some s') :
    s'.Safe name content := by
  cases a with
  | put other new =>
    simp only [step] at hst
    split at hst
    · rename_i hfree
      obtain rfl := Option.some.inj hst
      refine h.imp_left fun hheld => (Function.update_of_ne ?_ _ _).trans hheld
      rintro rfl
      cases hfree.symm.trans hheld
    · cases hst
  | ack other =>
    obtain ⟨sent, -, rfl⟩ := Option.map_eq_some_iff.mp hst
    exact h.imp_right fun hack => List.mem_append_left _ hack
  | remove other =>
    simp only [step] at hst
    split at hst
    · cases hst
    · rename_i gone hgone
      obtain ⟨hack, hst⟩ := Option.ite_none_right_eq_some.mp hst
      obtain rfl := Option.some.inj hst
      rcases h with hheld | hack'
      · by_cases heq : name = other
        · -- what is taken out has been acknowledged
          subst heq
          obtain rfl := Option.some.inj (hheld.symm.trans hgone)
          exact Or.inr hack
        · exact Or.inl ((Function.update_of_ne heq _ _).trans hheld)
      · exact Or.inr hack'

/-- What is held once is never lost. -/
theorem safe_of_runs (h : Runs s s') (hsafe : s.Safe name content) : s'.Safe name content :=
  h.invariant (I := fun s => s.Safe name content) hsafe fun _ _ _ hs _ hst => safe_step hs hst

end

end Outbox
