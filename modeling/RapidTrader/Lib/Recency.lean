import Mathlib

namespace Lib
set_option autoImplicit true

/-! ### The order of the last occurrences in a history -/

section Before
variable [DecidableEq α] {xs ys : List α} {a b c : α}

/-- The last occurrence of `a` in a history is before the last one of `b`. -/
def Before (xs : List α) (a b : α) : Prop := xs.reverse.idxOf b < xs.reverse.idxOf a

instance (xs : List α) (a b : α) : Decidable (Before xs a b) := inferInstanceAs (Decidable (_ < _))

theorem Before.asymm (h : Before xs a b) : ¬ Before xs b a := Nat.lt_asymm h

theorem before_or (ha : a ∈ xs) (hne : a ≠ b) : Before xs a b ∨ Before xs b a := by
  have hidx : xs.reverse.idxOf a ≠ xs.reverse.idxOf b := fun he =>
    hne ((List.idxOf_inj (List.mem_reverse.2 ha)).1 he)
  exact (Nat.lt_or_gt_of_ne hidx).symm

theorem before_concat (ha : a ≠ c) (hb : b ≠ c) : Before (xs ++ [c]) a b ↔ Before xs a b := by
  unfold Before
  rw [List.reverse_append, List.reverse_singleton, List.singleton_append,
    List.idxOf_cons_ne _ ha.symm, List.idxOf_cons_ne _ hb.symm, Nat.succ_lt_succ_iff]

theorem before_last (ha : a ≠ c) : Before (xs ++ [c]) a c := by
  unfold Before
  rw [List.reverse_append, List.reverse_singleton, List.singleton_append,
    List.idxOf_cons_eq _ rfl, List.idxOf_cons_ne _ ha.symm]
  exact Nat.succ_pos _

/-- Items stay in order when another one is told of. -/
theorem pairwise_before (h : ys.Pairwise (Before xs)) (hc : c ∉ ys) :
    ys.Pairwise (Before (xs ++ [c])) := by
  refine h.imp_of_mem fun {a b} ha hb hab => (before_concat ?_ ?_).2 hab
  · rintro rfl
    exact hc ha
  · rintro rfl
    exact hc hb

/-- The item told of last goes to the end. -/
theorem pairwise_before_concat (h : ys.Pairwise (Before (xs ++ [c]))) (hc : c ∉ ys) :
    (ys ++ [c]).Pairwise (Before (xs ++ [c])) := by
  refine List.pairwise_append.2 ⟨h, List.pairwise_singleton _ _, fun a ha b hb => ?_⟩
  rw [List.mem_singleton.1 hb]
  refine before_last ?_
  rintro rfl
  exact hc ha

end Before

/-! ### Histories that grow -/

/-- An item of two lists in a row is in the first or in the second one. -/
theorem append_eq_append_cons {xs ys zs ws : List α} (h : xs ++ ys = zs ++ x :: ws) :
    (∃ us, xs = zs ++ x :: us) ∨ ∃ us, zs = xs ++ us ∧ ys = us ++ x :: ws := by
  rcases List.append_eq_append_iff.1 h with ⟨us, hz, hy⟩ | ⟨us, hx, hw⟩
  · exact .inr ⟨us, hz, hy⟩
  · cases us with
    | nil => exact .inr ⟨[], by rw [hx, List.append_nil, List.append_nil], hw.symm⟩
    | cons u us =>
      cases hw
      exact .inl ⟨us, hx⟩

/-- A history has grown by items with `P`. -/
def Extends (P : α → Prop) (xs ys : List α) : Prop := ∃ zs, ys = xs ++ zs ∧ ∀ z ∈ zs, P z

namespace Extends
variable {P : α → Prop} {xs ys zs : List α}

theorem refl (P : α → Prop) (xs : List α) : Extends P xs xs :=
  ⟨[], (List.append_nil xs).symm, fun _ hz => absurd hz List.not_mem_nil⟩

theorem single (xs : List α) (hx : P x) : Extends P xs (xs ++ [x]) :=
  ⟨[x], rfl, fun z hz => by rw [List.mem_singleton.1 hz]; exact hx⟩

theorem trans (h : Extends P xs ys) (h' : Extends P ys zs) : Extends P xs zs := by
  obtain ⟨us, rfl, hus⟩ := h
  obtain ⟨vs, rfl, hvs⟩ := h'
  refine ⟨us ++ vs, List.append_assoc _ _ _, fun z hz => ?_⟩
  exact (List.mem_append.1 hz).elim (hus z) (hvs z)

/-- What is read off items without `P` only does not change. -/
theorem filterMap_eq {f : α → Option β} (h : Extends P xs ys) (hf : ∀ z, P z → f z = none) :
    ys.filterMap f = xs.filterMap f := by
  obtain ⟨us, rfl, hus⟩ := h
  rw [List.filterMap_append, List.filterMap_eq_nil_iff.2 fun z hz => hf z (hus z hz),
    List.append_nil]

/-- An item without `P` was there before. -/
theorem of_split (h : Extends P xs ys) (hs : ys = us ++ x :: vs) (hx : ¬ P x) :
    ∃ vs', xs = us ++ x :: vs' := by
  obtain ⟨zs, rfl, hzs⟩ := h
  rcases append_eq_append_cons hs with hx' | ⟨ws, _, hz⟩
  · exact hx'
  · refine absurd (hzs x ?_) hx
    rw [hz]
    exact List.mem_append_right _ List.mem_cons_self

end Extends

/-! ### Items that get new keys -/

theorem pair_sublist {xs : List α} (ha : a ∈ xs) (hb : b ∈ xs) (hne : a ≠ b) :
    [a, b].Sublist xs ∨ [b, a].Sublist xs := by
  have hsub : xs.Pairwise fun a b => [a, b].Sublist xs ∨ [b, a].Sublist xs :=
    List.pairwise_of_forall_sublist .inl
  have : Std.Symm fun a b => [a, b].Sublist xs ∨ [b, a].Sublist xs := ⟨fun _ _ h => h.symm⟩
  exact hsub.forall ha hb hne

section Rekey
variable [LE K] [LT K] [Std.IsLinearOrder K] [Std.LawfulOrderLT K] [DecidableEq P]
  {R : α → α → Prop} {k : α → K} {f : α → P} {xs : List α}

/-- Items stand in the order of their old keys, and under one key as `R` has them. Taken in this
order to the queues of their new keys, they stand there as `R` has them exactly when `R` goes with
the old keys of items that meet. -/
theorem rekeyed_iff (hasymm : ∀ a b, R a b → ¬ R b a)
    (htotal : ∀ a ∈ xs, ∀ b ∈ xs, a ≠ b → R a b ∨ R b a)
    (hxs : xs.Pairwise fun a b => k a < k b ∨ k a = k b ∧ R a b) :
    (∀ p, (xs.filter fun a => f a = p).Pairwise R) ↔
      ∀ a ∈ xs, ∀ b ∈ xs, R a b → f a = f b → k a ≤ k b := by
  constructor
  · intro h a ha b hb hab hf
    by_contra hlt
    have hne : a ≠ b := by
      rintro rfl
      exact hasymm a a hab hab
    rcases pair_sublist ha hb hne with hs | hs
    · rcases hxs.forall_sublist hs with hk | ⟨hk, _⟩
      · exact hlt (Std.le_of_lt hk)
      · exact hlt (Std.le_of_eq hk)
    · have hs' := hs.filter fun c => decide (f c = f a)
      rw [List.filter_cons_of_pos (by simp [hf]), List.filter_cons_of_pos (by simp),
        List.filter_nil] at hs'
      exact hasymm a b hab ((h (f a)).forall_sublist hs')
  · intro h p
    refine (hxs.filter _).imp_of_mem fun {a b} ha hb hab => ?_
    obtain ⟨ha, hfa⟩ := List.mem_filter.1 ha
    obtain ⟨hb, hfb⟩ := List.mem_filter.1 hb
    have hf : f a = f b := (of_decide_eq_true hfa).trans (of_decide_eq_true hfb).symm
    rcases hab with hk | ⟨_, hab⟩
    · have hne : a ≠ b := by
        rintro rfl
        exact Std.lt_irrefl hk
      refine (htotal a ha b hb hne).resolve_right fun hba => ?_
      exact Std.not_le.2 hk (h b hb a ha hba hf.symm)
    · exact hab

end Rekey

end Lib
