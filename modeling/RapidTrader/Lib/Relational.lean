import RapidTrader.Lib.Loop

namespace Lib
set_option autoImplicit true

/-- `y` tracks `x`: if `x` returns a value, `y` returns one related to it. -/
def Tracks (R : α → β → Prop) (x : Except ε α) (y : Except ε' β) : Prop :=
  ∀ a, x = .ok a → ∃ b, y = .ok b ∧ R a b

namespace Tracks

theorem ok {R : α → β → Prop} (h : R a b) :
    Tracks R (Except.ok a : Except ε α) (Except.ok b : Except ε' β) := by
  intro a' ha
  cases ha
  exact ⟨b, rfl, h⟩

theorem error {R : α → β → Prop} (e : ε) (y : Except ε' β) :
    Tracks R (Except.error e : Except ε α) y := nofun

theorem bind {x : Except ε α} {y : Except ε' β} {f : α → Except ε α'} {g : β → Except ε' β'}
    (hx : Tracks R x y) (hf : ∀ a b, R a b → Tracks S (f a) (g b)) :
    Tracks S (x >>= f) (y >>= g) := by
  intro a ha
  obtain ⟨a₁, ha₁, ha⟩ := bind_eq_ok.1 ha
  obtain ⟨b₁, hb₁, hr⟩ := hx a₁ ha₁
  obtain ⟨b, hb, hs⟩ := hf a₁ b₁ hr a ha
  exact ⟨b, bind_eq_ok.2 ⟨b₁, hb₁, hb⟩, hs⟩

section While
variable {test : σ → Bool} {body : σ → Except ε σ} {halt : σ → ε}
  {test' : τ → Bool} {body' : τ → Except ε' τ} {halt' : τ → ε'}

/-- The rule for two loops in step, of which the second may be given more turns. -/
theorem whileLoop {R : σ → τ → Prop} (htest : ∀ s t, R s t → test s = test' t)
    (hbody : ∀ s t, R s t → Tracks R (body s) (body' t)) (hn : n ≤ m) (h : R s t) :
    Tracks R (Lib.whileLoop test body halt n s) (Lib.whileLoop test' body' halt' m t) := by
  induction n generalizing m s t with
  | zero => exact error _ _
  | succ n ih =>
    obtain ⟨m, rfl⟩ := Nat.exists_eq_add_of_le' (Nat.lt_of_lt_of_le (Nat.succ_pos n) hn)
    cases ht : test s with
    | false =>
      rw [whileLoop_exit ht, whileLoop_exit (htest s t h ▸ ht)]
      exact ok h
    | true =>
      rw [whileLoop_turn ht, whileLoop_turn (htest s t h ▸ ht)]
      exact (hbody s t h).bind fun s' t' hr => ih (Nat.le_of_succ_le_succ hn) hr

end While

/-- The rule for two loops over one list. -/
theorem foldlM {f : σ → α → Except ε σ} {g : τ → α → Except ε' τ} {R : σ → τ → Prop}
    (hf : ∀ s t a, R s t → Tracks R (f s a) (g t a)) (xs : List α) (h : R s t) :
    Tracks R (xs.foldlM f s) (xs.foldlM g t) := by
  induction xs generalizing s t with
  | nil => exact ok h
  | cons x xs ih =>
    rw [List.foldlM_cons, List.foldlM_cons]
    exact (hf s t x h).bind fun _ _ hr => ih hr

end Tracks

end Lib
