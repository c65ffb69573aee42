import Mathlib

namespace Lib
open Function
set_option autoImplicit true

/-! Hashing with linear probing, where the entries of a probe sequence stand in order. A slot has a
number, which is 0 if the slot is empty. An entry has a number `first` at its home slot, from `inc`
up to `2 * inc`, and `inc` more at each slot further on. -/

/-- No slot before an entry, down to its home, has a smaller number than the entry would have
there. -/
structure Ordered (inc : Nat) (info : Nat → Nat) : Prop where
  zero : info 0 < 2 * inc
  succ : ∀ j, info (j + 1) < 2 * inc ∨ info (j + 1) ≤ info j + inc

/-- The slots after `x` has been put into slot `p`, where those from there to the empty slot `e`
have been moved up, which does `g` to what they hold. -/
def shiftedUp (f : Nat → α) (g : α → α) (p e : Nat) (x : α) (j : Nat) : α :=
  if j < p then f j else if j = p then x else if j ≤ e then g (f (j - 1)) else f j

/-- The slots after slot `p` has been given up, where those from there to slot `e` have been moved
down, which does `g` to what they hold. -/
def shiftedDown (f : Nat → α) (g : α → α) (p e : Nat) (x : α) (j : Nat) : α :=
  if j < p then f j else if j < e then g (f (j + 1)) else if j = e then x else f j

section Moves
variable {f : Nat → α} {g : α → α}

theorem shiftedUp_of_lt (h : j < p) : shiftedUp f g p e x j = f j := if_pos h

theorem shiftedUp_self : shiftedUp f g p e x p = x := by
  rw [shiftedUp, if_neg (Nat.lt_irrefl p), if_pos rfl]

theorem shiftedUp_moved (h : p < j) (he : j ≤ e) : shiftedUp f g p e x j = g (f (j - 1)) := by
  rw [shiftedUp, if_neg (Nat.lt_asymm h), if_neg (Nat.ne_of_gt h), if_pos he]

theorem shiftedUp_of_gt (h : p ≤ e) (he : e < j) : shiftedUp f g p e x j = f j := by
  rw [shiftedUp, if_neg (by omega), if_neg (by omega), if_neg (by omega)]

theorem shiftedDown_of_lt (h : j < p) : shiftedDown f g p e x j = f j := if_pos h

theorem shiftedDown_moved (h : p ≤ j) (he : j < e) : shiftedDown f g p e x j = g (f (j + 1)) := by
  rw [shiftedDown, if_neg (Nat.not_lt.2 h), if_pos he]

theorem shiftedDown_end (h : p ≤ e) : shiftedDown f g p e x e = x := by
  rw [shiftedDown, if_neg (Nat.not_lt.2 h), if_neg (Nat.lt_irrefl e), if_pos rfl]

theorem shiftedDown_of_gt (h : p ≤ e) (he : e < j) : shiftedDown f g p e x j = f j := by
  rw [shiftedDown, if_neg (by omega), if_neg (by omega), if_neg (by omega)]

theorem shiftedUp_refl : shiftedUp f g p p (f p) = f := by
  funext j
  unfold shiftedUp
  split_ifs with hlt heq hle
  · rfl
  · rw [heq]
  · exact absurd hle (by omega)
  · rfl

theorem shiftedDown_refl : shiftedDown f g p p (f p) = f := by
  funext j
  unfold shiftedDown
  split_ifs with hlt heq
  · rfl
  · rw [heq]
  · rfl

theorem update_shiftedUp : update (shiftedUp f g p e x) p y = shiftedUp f g p e y := by
  funext j
  rw [update_apply]
  unfold shiftedUp
  split_ifs with heq hlt
  · omega
  all_goals rfl

theorem update_shiftedDown (h : p ≤ e) :
    update (shiftedDown f g p e x) e y = shiftedDown f g p e y := by
  funext j
  rw [update_apply]
  unfold shiftedDown
  split_ifs with heq hlt hlt'
  · omega
  · omega
  all_goals rfl

/-- Slots are moved up one after the other, the last one first. -/
theorem shiftedUp_succ (h : p ≤ e) :
    shiftedUp (update f (e + 1) (g (f e))) g p e (f p) = shiftedUp f g p (e + 1) (f p) := by
  funext j
  unfold shiftedUp
  simp only [update_apply]
  grind

/-- Slots are moved down one after the other, the first one first. -/
theorem shiftedDown_succ (h : p < e) :
    shiftedDown (update f p (g (f (p + 1)))) g (p + 1) e (f e) = shiftedDown f g p e (f e) := by
  funext j
  unfold shiftedDown
  simp only [update_apply]
  grind

end Moves

section Entries
variable {f : Nat → Option α}

/-- Where the entries are after one has been added. -/
theorem shiftedUp_eq_some (h : p ≤ e) (hempty : f e = none) :
    shiftedUp f id p e (some x) j = some y ↔
      j = p ∧ y = x ∨ ∃ i, f i = some y ∧ j = if p ≤ i ∧ i < e then i + 1 else i := by
  unfold shiftedUp
  constructor
  · intro hj
    split_ifs at hj with hlt heq hle
    · exact .inr ⟨j, hj, by rw [if_neg (by omega)]⟩
    · exact .inl ⟨heq, (Option.some.inj hj).symm⟩
    · exact .inr ⟨j - 1, hj, by rw [if_pos (by omega)]; omega⟩
    · exact .inr ⟨j, hj, by rw [if_neg (by omega)]⟩
  · rintro (⟨rfl, rfl⟩ | ⟨i, hi, rfl⟩)
    · rw [if_neg (Nat.lt_irrefl j), if_pos rfl]
    · have hne : i ≠ e := by
        rintro rfl
        rw [hempty] at hi
        cases hi
      by_cases hm : p ≤ i ∧ i < e
      · rw [if_pos hm, if_neg (by omega), if_neg (by omega), if_pos (by omega)]
        exact hi
      · rw [if_neg hm]
        by_cases hlt : i < p
        · rw [if_pos hlt]
          exact hi
        · rw [if_neg hlt, if_neg (by omega), if_neg (by omega)]
          exact hi

/-- Where the entries are after one has been removed. -/
theorem shiftedDown_eq_some (h : p ≤ e) : shiftedDown f id p e none j = some y ↔
    ∃ i, i ≠ p ∧ f i = some y ∧ j = if p < i ∧ i ≤ e then i - 1 else i := by
  unfold shiftedDown
  constructor
  · intro hj
    split_ifs at hj with hlt hlt' heq
    · exact ⟨j, by omega, hj, by rw [if_neg (by omega)]⟩
    · exact ⟨j + 1, by omega, hj, by rw [if_pos (by omega), Nat.add_sub_cancel]⟩
    · exact ⟨j, by omega, hj, by rw [if_neg (by omega)]⟩
  · rintro ⟨i, hne, hi, rfl⟩
    by_cases hm : p < i ∧ i ≤ e
    · rw [if_pos hm, if_neg (by omega), if_pos (by omega), Nat.sub_add_cancel (by omega)]
      exact hi
    · rw [if_neg hm]
      by_cases hlt : i < p
      · rw [if_pos hlt]
        exact hi
      · rw [if_neg hlt, if_neg (by omega), if_neg (by omega)]
        exact hi

end Entries

namespace Ordered
variable {inc : Nat} {info : Nat → Nat}

/-- Whoever looks for an entry from its home on passes over no slot with a smaller number. -/
theorem le_of_reaches (h : Ordered inc info) (hfirst : inc ≤ first)
    (hk : info (home + k) = first + k * inc) (hj : j ≤ k) :
    first + j * inc ≤ info (home + j) := by
  induction hj using Nat.decreasingInduction with
  | self => exact Nat.le_of_eq hk.symm
  | of_succ j _ ih =>
    have hmul : (j + 1) * inc = j * inc + inc := Nat.succ_mul j inc
    rcases h.succ (home + j) with hs | hs
    · rw [← Nat.add_assoc] at ih
      omega
    · rw [← Nat.add_assoc] at ih
      omega

/-- An entry may be put before the first slot that has a smaller number. -/
theorem shiftedUp (h : Ordered inc info) (hp : p ≤ e) (hfull : ∀ j, p ≤ j → j < e → inc ≤ info j)
    (hempty : info e = 0) (hlt : info p < x)
    (hx : x < 2 * inc ∨ ∃ q, p = q + 1 ∧ x ≤ info q + inc) :
    Ordered inc (Lib.shiftedUp info (· + inc) p e x) := by
  have hinc : 0 < inc := by
    have := h.zero
    omega
  constructor
  · rcases Nat.eq_zero_or_pos p with rfl | hpos
    · rw [shiftedUp_self]
      rcases hx with hx | ⟨q, hq, _⟩
      · exact hx
      · cases hq
    · rw [shiftedUp_of_lt hpos]
      exact h.zero
  · intro j
    rcases Nat.lt_trichotomy (j + 1) p with hj | rfl | hj
    · rw [shiftedUp_of_lt hj, shiftedUp_of_lt (by omega)]
      exact h.succ j
    · rw [shiftedUp_self, shiftedUp_of_lt (Nat.lt_succ_self j)]
      refine hx.imp_right fun ⟨q, hq, hle⟩ => ?_
      cases hq
      exact hle
    · rcases Nat.lt_or_ge e (j + 1) with he | he
      · rw [shiftedUp_of_gt hp he]
        have hs := h.succ j
        rcases Nat.lt_or_ge e j with hej | hej
        · rwa [shiftedUp_of_gt hp hej]
        · have hje : j = e := by omega
          subst hje
          rw [hempty] at hs
          left
          omega
      · rw [shiftedUp_moved hj he, Nat.add_sub_cancel]
        right
        rcases Nat.lt_or_ge p j with hpj | hpj
        · rw [shiftedUp_moved hpj (by omega)]
          obtain ⟨i, rfl⟩ := Nat.exists_eq_add_of_lt hpj
          have hs := h.succ (p + i)
          have hf := hfull (p + i) (by omega) (by omega)
          rw [Nat.add_sub_cancel]
          omega
        · have hjp : j = p := by omega
          subst hjp
          rw [shiftedUp_self]
          omega

/-- The entries after a removed one move down, up to one that is at home or an empty slot. -/
theorem shiftedDown (h : Ordered inc info) (hp : p ≤ e)
    (haway : ∀ j, p < j → j ≤ e → 2 * inc ≤ info j) (hend : info (e + 1) < 2 * inc) :
    Ordered inc (Lib.shiftedDown info (· - inc) p e 0) := by
  have hdown (j : Nat) (hj : p ≤ j) (he : j < e) : info (j + 1) - inc ≤ info j := by
    have ha := haway (j + 1) (by omega) (by omega)
    have hs := h.succ j
    omega
  have hinc : 0 < inc := by
    have := h.zero
    omega
  constructor
  · rcases Nat.eq_zero_or_pos p with rfl | hpos
    · rcases Nat.eq_zero_or_pos e with rfl | he
      · rw [shiftedDown_end (Nat.le_refl 0)]
        omega
      · rw [shiftedDown_moved (Nat.le_refl 0) he]
        exact Nat.lt_of_le_of_lt (hdown 0 (Nat.le_refl 0) he) h.zero
    · rw [shiftedDown_of_lt hpos]
      exact h.zero
  · intro j
    rcases Nat.lt_trichotomy (j + 1) e with he | rfl | he
    · rcases Nat.lt_or_ge (j + 1) p with hj | hj
      · rw [shiftedDown_of_lt hj, shiftedDown_of_lt (by omega)]
        exact h.succ j
      · rw [shiftedDown_moved hj he]
        have hd := hdown (j + 1) hj he
        rcases Nat.lt_or_ge j p with hjp | hjp
        · rw [shiftedDown_of_lt hjp]
          have hs := h.succ j
          omega
        · rw [shiftedDown_moved hjp (by omega)]
          have ha := haway (j + 1) (by omega) (by omega)
          right
          omega
    · rw [shiftedDown_end hp]
      left
      omega
    · rw [shiftedDown_of_gt hp he]
      rcases Nat.lt_or_ge e j with hej | hej
      · rw [shiftedDown_of_gt hp hej]
        exact h.succ j
      · have hje : j = e := by omega
        subst hje
        exact .inl hend

/-- The numbers may be halved, and the distance between them with them. -/
theorem halved (h : Ordered (2 * inc) info) : Ordered inc fun j => info j / 2 := by
  constructor
  · have := h.zero
    omega
  · intro j
    have := h.succ j
    omega

end Ordered

end Lib
