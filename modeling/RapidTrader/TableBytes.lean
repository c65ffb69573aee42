import RapidTrader.TableUpdate

namespace RapidTrader
open Lib Function
set_option autoImplicit true

namespace Table
variable {κ ν : Type} {hash : κ → UInt64} {t : Table κ ν}

/-! ### Eight bytes at once -/

theorem wordOf_testBit (bytes : List UInt8) (j : Nat) (hi : i < 8) :
    (wordOf bytes).testBit (8 * j + i) = (bytes.getD j 0).toNat.testBit i := by
  induction bytes generalizing j with
  | nil =>
    rw [wordOf, List.getD_nil]
    exact (Nat.zero_testBit _).trans (Nat.zero_testBit _).symm
  | cons byte bytes ih =>
    rw [wordOf, Nat.add_comm, show 256 = 2 ^ 8 from rfl,
      Nat.testBit_two_pow_mul_add _ byte.toNat_lt]
    cases j with
    | zero => rw [if_pos (by omega), Nat.mul_zero, Nat.zero_add, List.getD_cons_zero]
    | succ j =>
      rw [if_neg (by omega), List.getD_cons_succ, ← ih j]
      congr 1
      omega

theorem loadWord_testBit (mInfo : Nat → UInt8) (idx : Nat) (hj : j < 8) (hi : i < 8) :
    (loadWord mInfo idx).testBit (8 * j + i) = (mInfo (idx + j)).toNat.testBit i := by
  unfold loadWord
  rw [wordOf_testBit _ _ hi, List.getD_eq_getElem?_getD, List.getElem?_map,
    List.getElem?_range hj]
  rfl

theorem halveWord_mask : ∀ j < 8, ∀ i < 8,
    Nat.testBit 0x7f7f7f7f7f7f7f7f (8 * j + i) = decide (i < 7) := by decide

theorem toNat_testBit_ge (byte : UInt8) (hi : 8 ≤ i) : byte.toNat.testBit i = false :=
  Nat.testBit_lt_two_pow (Nat.lt_of_lt_of_le byte.toNat_lt (Nat.pow_le_pow_right (by decide) hi))

/-- No bit of a byte gets into the one before it. -/
theorem halveWord_toNat (mInfo : Nat → UInt8) (idx j : Nat) : (halveWord mInfo idx j).toNat =
    if idx ≤ j ∧ j < idx + 8 then (mInfo j).toNat / 2 else (mInfo j).toNat := by
  unfold halveWord storeWord
  split
  · next hj =>
    obtain ⟨k, rfl⟩ := Nat.exists_eq_add_of_le hj.1
    have hk : k < 8 := by omega
    rw [Nat.add_sub_cancel_left]
    apply Nat.eq_of_testBit_eq
    intro i
    rw [UInt8.toNat_ofNat', Nat.testBit_mod_two_pow, Nat.testBit_div_two]
    rcases Nat.lt_or_ge i 8 with hi | hi
    · rw [decide_eq_true hi, Bool.true_and, Nat.testBit_shiftRight, Nat.testBit_and,
        halveWord_mask k hk i hi, Nat.testBit_shiftRight]
      rcases Nat.lt_or_ge i 7 with hi' | hi'
      · rw [decide_eq_true hi', Bool.and_true, show 1 + (8 * k + i) = 8 * k + (i + 1) by omega,
          loadWord_testBit _ _ hk (by omega)]
      · rw [decide_eq_false (Nat.not_lt.2 hi'), Bool.and_false, toNat_testBit_ge _ (by omega)]
    · rw [decide_eq_false (Nat.not_lt.2 hi), Bool.false_and, toNat_testBit_ge _ (by omega)]
  · rfl

/-! ### The next slot that is not empty -/

theorem wordOf_eq_zero : wordOf bytes = 0 ↔ ∀ byte ∈ bytes, byte.toNat = 0 := by
  induction bytes with
  | nil => simp [wordOf]
  | cons byte bytes ih =>
    rw [wordOf, List.forall_mem_cons, ← ih]
    omega

theorem loadWord_eq_zero (mInfo : Nat → UInt8) (idx : Nat) :
    loadWord mInfo idx = 0 ↔ ∀ j, j < 8 → (mInfo (idx + j)).toNat = 0 := by
  unfold loadWord
  rw [wordOf_eq_zero, List.forall_mem_map]
  exact forall_congr' fun j => by rw [List.mem_range]

/-- The lowest bit of a word is in the first byte that is not 0. -/
theorem countTrailingZeroes_spec {mInfo : Nat → UInt8} (hne : loadWord mInfo idx ≠ 0) :
    ∃ k, countTrailingZeroes (loadWord mInfo idx) / 8 = k ∧ k < 8 ∧
      (mInfo (idx + k)).toNat ≠ 0 ∧ ∀ j, j < k → (mInfo (idx + j)).toNat = 0 := by
  have hex : ∃ b ∈ List.range 64, (loadWord mInfo idx).testBit b = true := by
    rw [ne_eq, loadWord_eq_zero] at hne
    push Not at hne
    obtain ⟨j, hj, hbyte⟩ := hne
    obtain ⟨i, hi⟩ := Nat.exists_testBit_of_ne_zero hbyte
    have hi' : i < 8 := by
      by_contra hge
      rw [toNat_testBit_ge _ (Nat.not_lt.1 hge)] at hi
      cases hi
    exact ⟨8 * j + i, List.mem_range.2 (by omega), (loadWord_testBit mInfo idx hj hi').trans hi⟩
  have hlt := List.findIdx_lt_length_of_exists hex
  have hbit := List.findIdx_getElem (w := hlt)
  have hbefore (b : Nat) (hb : b < countTrailingZeroes (loadWord mInfo idx)) :
      (loadWord mInfo idx).testBit b = false := by
    have := List.not_of_lt_findIdx hb
    rwa [List.getElem_range] at this
  rw [List.getElem_range] at hbit
  rw [List.length_range] at hlt
  change (loadWord mInfo idx).testBit (countTrailingZeroes (loadWord mInfo idx)) = true at hbit
  change countTrailingZeroes (loadWord mInfo idx) < 64 at hlt
  generalize countTrailingZeroes (loadWord mInfo idx) = b at *
  refine ⟨b / 8, rfl, by omega, fun hzero => ?_, fun j hj => ?_⟩
  · rw [← Nat.div_add_mod b 8, loadWord_testBit _ _ (by omega) (Nat.mod_lt b (by decide)), hzero,
      Nat.zero_testBit] at hbit
    cases hbit
  · apply Nat.zero_of_testBit_eq_false
    intro i
    rcases Nat.lt_or_ge i 8 with hi | hi
    · rw [← loadWord_testBit mInfo idx (by omega) hi]
      exact hbefore _ (by omega)
    · exact toNat_testBit_ge _ hi

theorem fastForward_eq (h : Valid hash t) (hle : idx ≤ i) (hi : i ≤ t.numElementsWithBuffer)
    (hempty : ∀ j, idx ≤ j → j < i → t.info j = 0) (hfull : t.info i ≠ 0)
    (hturns : i < idx + 8 * n) : t.fastForward n idx = .ok i := by
  induction n generalizing idx with
  | zero => omega
  | succ n ih =>
    rw [fastForward, if_pos (by rw [h.numBytesInfo_eq]; omega)]
    split
    · next hzero =>
      have hbytes := (loadWord_eq_zero t.mInfo idx).1 hzero
      have hge : idx + 8 ≤ i := by
        by_contra hlt
        obtain ⟨k, rfl⟩ := Nat.exists_eq_add_of_le hle
        exact hfull (hbytes k (by omega))
      exact ih hge (fun j hj => hempty j (by omega)) (by omega)
    · next hne =>
      obtain ⟨k, hk, _, hbyte, hbefore⟩ := countTrailingZeroes_spec hne
      have hik : i = idx + k := by
        rcases Nat.lt_trichotomy i (idx + k) with hlt | heq | hgt
        · obtain ⟨j, rfl⟩ := Nat.exists_eq_add_of_le hle
          exact absurd (hbefore j (by omega)) hfull
        · exact heq
        · exact absurd (hempty (idx + k) (Nat.le_add_right idx k) hgt) hbyte
      rw [hk, hik]
      rfl

end Table

end RapidTrader
