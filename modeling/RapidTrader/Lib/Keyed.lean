import Mathlib

namespace Lib
set_option autoImplicit true

/-- Take commands one after the other, as long as none fails. -/
def runAll (step : γ → σ → Option σ) : σ → List γ → Option σ
  | s, [] => some s
  | s, c :: cs => (step c s).bind fun s' => runAll step s' cs

section Runs
variable {step : γ → σ → Option σ}

theorem runAll_cons (s : σ) (c : γ) (cs : List γ) :
    runAll step s (c :: cs) = (step c s).bind fun s' => runAll step s' cs := rfl

theorem runAll_append (s : σ) (cs ds : List γ) :
    runAll step s (cs ++ ds) = (runAll step s cs).bind fun s' => runAll step s' ds := by
  induction cs generalizing s with
  | nil => rfl
  | cons c cs ih =>
    rw [List.cons_append, runAll_cons, runAll_cons, Option.bind_assoc]
    exact congrArg _ (funext fun s' => ih s')

theorem runAll_concat (s : σ) (cs : List γ) (c : γ) :
    runAll step s (cs ++ [c]) = (runAll step s cs).bind (step c) := by
  rw [runAll_append]
  refine congrArg _ (funext fun s' => ?_)
  rw [runAll_cons]
  exact Option.bind_fun_some _

theorem exists_runAll_append (h : runAll step s (cs ++ ds) = some s') :
    ∃ s₁, runAll step s cs = some s₁ ∧ runAll step s₁ ds = some s' := by
  rw [runAll_append] at h
  exact Option.bind_eq_some_iff.1 h

end Runs

/-- A machine whose commands each concern at most one key. What a command does to the view of its
key depends on that view alone, and it leaves the views of the other keys as they are. -/
structure Keyed (step : γ → σ → Option σ) (key : γ → Option κ) (view : κ → σ → ρ)
    (Good : σ → Prop) : Prop where
  own : Good s → Good t → key c = some k → view k s = view k t → step c s = some s' →
    ∃ t', step c t = some t' ∧ view k s' = view k t'
  frame : Good s → step c s = some s' → key c ≠ some k → view k s' = view k s
  free : key c = none → ∃ s', step c s = some s'
  good : Good s → step c s = some s' → Good s'

namespace Keyed
variable {step : γ → σ → Option σ} {key : γ → Option κ} {view : κ → σ → ρ} {Good : σ → Prop}

theorem runAll_good (h : Keyed step key view Good) (hs : Good s)
    (hr : runAll step s cs = some s') : Good s' := by
  induction cs generalizing s with
  | nil =>
    cases hr
    exact hs
  | cons c cs ih =>
    obtain ⟨s₁, hc, hr⟩ := Option.bind_eq_some_iff.1 hr
    exact ih (h.good hs hc) hr

variable [DecidableEq κ]

/-- The commands of a key do to its view what the whole run does. -/
theorem run_filter (h : Keyed step key view Good) (hs : Good s) (ht : Good t)
    (hv : view k s = view k t) (hr : runAll step s cs = some s') :
    ∃ t', runAll step t (cs.filter (key · = some k)) = some t' ∧ view k s' = view k t' := by
  induction cs generalizing s t with
  | nil =>
    cases hr
    exact ⟨t, rfl, hv⟩
  | cons c cs ih =>
    obtain ⟨s₁, hc, hr⟩ := Option.bind_eq_some_iff.1 hr
    have hs₁ := h.good hs hc
    by_cases hk : key c = some k
    · obtain ⟨t₁, hc', hv'⟩ := h.own hs ht hk hv hc
      obtain ⟨t', hr', hv'⟩ := ih hs₁ (h.good ht hc') hv' hr
      refine ⟨t', ?_, hv'⟩
      rw [List.filter_cons, if_pos (decide_eq_true hk), runAll_cons, hc']
      exact hr'
    · obtain ⟨t', hr', hv'⟩ := ih hs₁ ht ((h.frame hs hc hk).trans hv) hr
      refine ⟨t', ?_, hv'⟩
      rw [List.filter_cons, if_neg (by simpa using hk)]
      exact hr'

/-- Runs with the same commands for a key end with the same view of it. -/
theorem view_eq (h : Keyed step key view Good) (hs : Good s) (ht : Good t)
    (hv : view k s = view k t)
    (hf : cs.filter (key · = some k) = ds.filter (key · = some k))
    (hr : runAll step s cs = some s') (hr' : runAll step t ds = some t') :
    view k s' = view k t' := by
  obtain ⟨u, hu, hvu⟩ := h.run_filter hs hs rfl hr
  obtain ⟨u', hu', hvu'⟩ := h.run_filter ht hs hv.symm hr'
  rw [← hf, hu] at hu'
  cases hu'
  rw [hvu, hvu']

/-- A run completes if the commands of each key alone do. -/
theorem exists_run (h : Keyed step key view Good) (hs : Good s)
    (hf : ∀ k, ∃ u, runAll step s (cs.filter (key · = some k)) = some u) :
    ∃ s', runAll step s cs = some s' := by
  induction cs using List.reverseRecOn with
  | nil => exact ⟨s, rfl⟩
  | append_singleton cs c ih =>
    obtain ⟨s₁, hs₁⟩ : ∃ s₁, runAll step s cs = some s₁ := by
      apply ih
      intro k
      obtain ⟨u, hu⟩ := hf k
      rw [List.filter_append] at hu
      obtain ⟨u₁, hu₁, _⟩ := exists_runAll_append hu
      exact ⟨u₁, hu₁⟩
    rw [runAll_concat, hs₁, Option.bind_some]
    cases hk : key c with
    | none => exact h.free hk
    | some k =>
      obtain ⟨u, hu⟩ := hf k
      rw [List.filter_append, List.filter_cons, if_pos (decide_eq_true hk), List.filter_nil,
        runAll_concat] at hu
      obtain ⟨u₁, hu₁, hc⟩ := Option.bind_eq_some_iff.1 hu
      obtain ⟨u₁', hu₁', hv⟩ := h.run_filter hs hs rfl hs₁
      rw [hu₁] at hu₁'
      cases hu₁'
      obtain ⟨s', hs', _⟩ := h.own (h.runAll_good hs hu₁) (h.runAll_good hs hs₁) hk hv.symm hc
      exact ⟨s', hs'⟩

end Keyed

end Lib
