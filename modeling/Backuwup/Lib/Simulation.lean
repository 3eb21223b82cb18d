/-
# Forward simulation with stuttering

A system that does more than another one is compared with it along a map of its states.  A step of
the larger system is either a step of the smaller one, or it leaves the image where it is; then a
run of the larger system is a run of the smaller one, and what the smaller one keeps in every run
holds of the image.

The map may use what the larger system keeps, so the comparison of a step starts from an invariant
of the larger system (`I`).  Where the smaller system keeps what the larger one forgets, a
relation takes the place of the map (`Reach.simulated`).
-/
import Backuwup.Lib.Transition

namespace Transition

variable {σ α τ β : Type*} {step : σ → α → Option σ} {ok : σ → α → Prop}
  {step' : τ → β → Option τ} {ok' : τ → β → Prop} {I : σ → Prop} {f : σ → τ} {s₀ s s' : σ}

/-- The image takes a step or stands still. -/
def Follows (step' : τ → β → Option τ) (ok' : τ → β → Prop) (t t' : τ) : Prop :=
  t' = t ∨ ∃ b, ok' t b ∧ step' t b = some t'

theorem Follows.refl (t : τ) : Follows step' ok' t t := Or.inl rfl

theorem Follows.of_step {t t' : τ} {b : β} (hok : ok' t b) (hst : step' t b = some t') :
    Follows step' ok' t t' := Or.inr ⟨b, hok, hst⟩

/-- What a step keeps, the image keeps. -/
theorem Follows.keeps {I : τ → Prop} {t t' : τ} (h : Follows step' ok' t t') (hI : I t)
    (hstep : ∀ t b t', I t → ok' t b → step' t b = some t' → I t') : I t' := by
  rcases h with rfl | ⟨b, hok, hst⟩
  · exact hI
  · exact hstep _ b _ hI hok hst

/-- A run of the larger system is a run of the smaller one. -/
theorem Reach.simulates (h0 : I s₀)
    (hinv : ∀ s a s', I s → ok s a → step s a = some s' → I s')
    (hsim : ∀ s a s', I s → ok s a → step s a = some s' → Follows step' ok' (f s) (f s'))
    (h : Reach step ok s₀ s) : I s ∧ Reach step' ok' (f s₀) (f s) := by
  induction h with
  | refl => exact ⟨h0, .refl⟩
  | tail a _ hok hst ih =>
    obtain ⟨hI, hreach⟩ := ih
    refine ⟨hinv _ a _ hI hok hst, ?_⟩
    rcases hsim _ a _ hI hok hst with heq | ⟨b, hok', hst'⟩
    · exact heq ▸ hreach
    · exact hreach.tail b hok' hst'

/-- A run of the larger system is matched by a run of the smaller one, if each of its steps is
matched by some steps, along a relation of the states. -/
theorem Reach.simulated {R : σ → τ → Prop} {t₀ : τ} (h0 : I s₀) (hR : R s₀ t₀)
    (hinv : ∀ s a s', I s → ok s a → step s a = some s' → I s')
    (hsim : ∀ s a s' t, I s → R s t → ok s a → step s a = some s' →
      ∃ t', Reach step' ok' t t' ∧ R s' t')
    (h : Reach step ok s₀ s) : I s ∧ ∃ t, Reach step' ok' t₀ t ∧ R s t := by
  induction h with
  | refl => exact ⟨h0, t₀, .refl, hR⟩
  | tail a _ hok hst ih =>
    obtain ⟨hI, t, hreach, hRt⟩ := ih
    obtain ⟨t', hsteps, hRt'⟩ := hsim _ a _ t hI hRt hok hst
    exact ⟨hinv _ a _ hI hok hst, t', hreach.trans hsteps, hRt'⟩

end Transition
