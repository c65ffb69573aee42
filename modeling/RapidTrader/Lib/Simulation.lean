import Mathlib

namespace Lib
set_option autoImplicit true

/-- The runs of a system whose steps may show an action, with the actions they show. -/
inductive Runs (step : σ → Option α → σ → Prop) : σ → List α → σ → Prop
  | refl : Runs step s [] s
  | tail : Runs step s h s' → step s' a s'' → Runs step s (h ++ a.toList) s''

namespace Runs
variable {step : σ → Option α → σ → Prop} {step' : τ → Option α → τ → Prop}

theorem single (hs : step s a s') : Runs step s a.toList s' := .tail .refl hs

theorem trans (h : Runs step s l s') (h' : Runs step s' l' s'') : Runs step s (l ++ l') s'' := by
  induction h' with
  | refl => exact (List.append_nil l).symm ▸ h
  | tail _ hs ih => exact (List.append_assoc ..) ▸ ih.tail hs

/-- What every step keeps holds at the end of a run. -/
theorem induct {P : σ → Prop} (hstep : ∀ s a s', P s → step s a s' → P s')
    (h : Runs step s l s') (hs : P s) : P s' := by
  induction h with
  | refl => exact hs
  | tail _ ht ih => exact hstep _ _ _ ih ht

/-- Forward simulation: if every step of one system is answered by a run of the other that shows
the same, so is every run. -/
theorem simulate {R : σ → τ → Prop} (hstep : ∀ s a s' t, R s t → step s a s' →
      ∃ t', Runs step' t a.toList t' ∧ R s' t') (h : Runs step s l s') (hr : R s t) :
    ∃ t', Runs step' t l t' ∧ R s' t' := by
  induction h with
  | refl => exact ⟨t, .refl, hr⟩
  | tail _ hs ih =>
    obtain ⟨t₁, ht₁, hr₁⟩ := ih
    obtain ⟨t₂, ht₂, hr₂⟩ := hstep _ _ _ _ hr₁ hs
    exact ⟨t₂, ht₁.trans ht₂, hr₂⟩

end Runs

end Lib
