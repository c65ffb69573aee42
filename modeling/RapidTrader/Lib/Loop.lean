import Mathlib

namespace Lib
set_option autoImplicit true

/-- `Ends E Q x` holds when `x` returns a value satisfying `Q` or stops with an error
satisfying `E`. -/
def Ends (E : ε → Prop) (Q : α → Prop) : Except ε α → Prop
  | .ok a => Q a
  | .error e => E e

theorem Ends.bind {x : Except ε α} {f : α → Except ε β} (hx : Ends E P x)
    (hf : ∀ a, x = .ok a → P a → Ends E Q (f a)) : Ends E Q (x >>= f) := by
  cases x with
  | ok a => exact hf a rfl hx
  | error e => exact hx

theorem Ends.mono {x : Except ε α} (hx : Ends E P x) (hE : ∀ e, E e → E' e)
    (hP : ∀ a, x = .ok a → P a → Q a) : Ends E' Q x := by
  cases x with
  | ok a => exact hP a rfl hx
  | error e => exact hE e hx

theorem Ends.of_ok {x : Except ε α} (hx : Ends E P x) (h : x = .ok a) : P a := by
  rw [h] at hx
  exact hx

theorem Ends.of_error {x : Except ε α} (hx : Ends E P x) (h : x = .error e) : E e := by
  rw [h] at hx
  exact hx

@[simp] theorem ok_bind (a : α) (f : α → Except ε β) : Except.ok a >>= f = f a := rfl

theorem bind_eq_ok {x : Except ε α} {f : α → Except ε β} :
    x >>= f = .ok b ↔ ∃ a, x = .ok a ∧ f a = .ok b := by
  cases x with
  | ok a => exact ⟨fun h => ⟨a, rfl, h⟩, fun ⟨_, ha, h⟩ => by cases ha; exact h⟩
  | error e => exact ⟨fun h => (nomatch h), fun ⟨_, ha, _⟩ => (nomatch ha)⟩

theorem exists_ok_bind {x : Except ε α} {f : α → β} (h : ∃ a, x = .ok a) :
    ∃ b, (x >>= fun a => .ok (f a)) = .ok b := by
  obtain ⟨a, rfl⟩ := h
  exact ⟨f a, rfl⟩

/-- `while (test) body`, with at most `n` tests. `halt` is what is left of the state
when the bound is reached. -/
def whileLoop (test : σ → Bool) (body : σ → Except ε σ) (halt : σ → ε) : Nat → σ → Except ε σ
  | 0, s => .error (halt s)
  | n + 1, s => if test s then body s >>= whileLoop test body halt n else .ok s

section While
variable {test : σ → Bool} {body : σ → Except ε σ} {halt : σ → ε}

theorem whileLoop_exit (h : test s = false) (n : Nat) :
    whileLoop test body halt (n + 1) s = .ok s := by
  rw [whileLoop, h]
  rfl

theorem whileLoop_turn (h : test s = true) (n : Nat) :
    whileLoop test body halt (n + 1) s = body s >>= whileLoop test body halt n := by
  rw [whileLoop, h]
  rfl

/-- The rule of invariants, for both ways of ending. -/
theorem Ends.whileLoop {I : σ → Prop}
    (hbody : ∀ s, I s → test s = true → Ends E I (body s))
    (hhalt : ∀ s, I s → E (halt s)) (n : Nat) (s : σ) (hs : I s) :
    Ends E (fun s' => I s' ∧ test s' = false) (whileLoop test body halt n s) := by
  induction n generalizing s with
  | zero => exact hhalt s hs
  | succ n ih =>
    cases ht : test s with
    | false =>
      rw [whileLoop_exit ht]
      exact ⟨hs, ht⟩
    | true =>
      rw [whileLoop_turn ht]
      exact (hbody s hs ht).bind fun s' _ hs' => ih s' hs'

/-- The rule of invariants for a loop that is known to have ended. -/
theorem whileLoop_inv {I : σ → Prop}
    (hbody : ∀ s s', I s → test s = true → body s = .ok s' → I s')
    (hs : I s) (h : whileLoop test body halt n s = .ok s') : I s' ∧ test s' = false := by
  apply Ends.of_ok (E := fun _ => True) (Ends.whileLoop _ (fun _ _ => trivial) n s hs) h
  intro s hs ht
  cases hb : body s with
  | ok s' => exact hbody s s' hs ht hb
  | error e => trivial

/-- A loop takes no turn, or what every turn brings about holds at the end. -/
theorem whileLoop_idle {P : σ → Prop} (hbody : ∀ s s', body s = .ok s' → P s')
    (h : whileLoop test body halt n s = .ok s') : (s' = s ∧ test s = false) ∨ P s' := by
  cases n with
  | zero => cases h
  | succ n =>
    cases ht : test s with
    | false =>
      rw [whileLoop_exit ht] at h
      cases h
      exact .inl ⟨rfl, rfl⟩
    | true =>
      rw [whileLoop_turn ht] at h
      obtain ⟨s₁, hb, h⟩ := bind_eq_ok.1 h
      exact .inr (whileLoop_inv (fun s s' _ _ hb => hbody s s' hb) (hbody s s₁ hb) h).1

/-- The last turn of a loop that takes at least one. -/
theorem whileLoop_last {I : σ → Prop}
    (hbody : ∀ s s', I s → test s = true → body s = .ok s' → I s')
    (hs : I s) (ht : test s = true) (h : whileLoop test body halt n s = .ok s') :
    ∃ s₁, I s₁ ∧ test s₁ = true ∧ body s₁ = .ok s' ∧ test s' = false := by
  induction n generalizing s with
  | zero => cases h
  | succ n ih =>
    rw [whileLoop_turn ht] at h
    obtain ⟨s₂, hb, h⟩ := bind_eq_ok.1 h
    cases ht₂ : test s₂ with
    | true => exact ih (hbody s s₂ hs ht hb) ht₂ h
    | false =>
      cases n with
      | zero => cases h
      | succ n =>
        rw [whileLoop_exit ht₂] at h
        cases h
        exact ⟨s, hs, ht, hb, ht₂⟩

/-- The rule of total correctness: a loop whose body returns and lowers a measure ends within as
many turns. -/
theorem whileLoop_ends {I : σ → Prop} (μ : σ → Nat)
    (hbody : ∀ s, I s → test s = true → ∃ s', body s = .ok s' ∧ I s' ∧ μ s' < μ s)
    (hs : I s) (hn : μ s < n) :
    ∃ s', whileLoop test body halt n s = .ok s' ∧ I s' ∧ test s' = false := by
  induction n generalizing s with
  | zero => exact absurd hn (Nat.not_lt_zero _)
  | succ n ih =>
    cases ht : test s with
    | false => exact ⟨s, whileLoop_exit ht n, hs, ht⟩
    | true =>
      obtain ⟨s₁, hb, hs₁, hlt⟩ := hbody s hs ht
      obtain ⟨s', hw, hs'⟩ := ih hs₁ (by omega)
      refine ⟨s', ?_, hs'⟩
      rw [whileLoop_turn ht, hb]
      exact hw

end While

/-- The rule of invariants for a loop over a list. -/
theorem foldlM_inv {f : σ → α → Except ε σ} {I : σ → Prop} {xs : List α}
    (hf : ∀ s x s', I s → f s x = .ok s' → I s') (hs : I s) (h : xs.foldlM f s = .ok s') :
    I s' := by
  induction xs generalizing s with
  | nil =>
    cases h
    exact hs
  | cons x xs ih =>
    rw [List.foldlM_cons] at h
    obtain ⟨s₁, h₁, h⟩ := bind_eq_ok.1 h
    exact ih (hf s x s₁ hs h₁) h

/-- The rule of invariants for a loop that counts up. -/
theorem Ends.foldlM_range {f : σ → Nat → Except ε σ} {I : Nat → σ → Prop}
    (hf : ∀ s i, i < n → I i s → Ends E (I (i + 1)) (f s i)) (hs : I 0 s) :
    Ends E (I n) ((List.range n).foldlM f s) := by
  induction n with
  | zero => exact hs
  | succ n ih =>
    rw [List.range_succ, List.foldlM_append]
    refine (ih fun s i hi => hf s i (Nat.lt_succ_of_lt hi)).bind fun s' _ hs' => ?_
    rw [List.foldlM_cons]
    exact (hf s' n (Nat.lt_succ_self n) hs').bind fun s'' _ hs'' => hs''

end Lib
