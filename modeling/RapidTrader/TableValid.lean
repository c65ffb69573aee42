import RapidTrader.HashTable

namespace RapidTrader
open Lib Function
set_option autoImplicit true

namespace Table
variable {κ ν : Type} {hash : κ → UInt64} {t : Table κ ν}

def info (t : Table κ ν) (j : Nat) : Nat := (t.mInfo j).toNat

/-- The number that the entry of a key has at its home. -/
def firstOf (hash : κ → UInt64) (t : Table κ ν) (key : κ) : Nat := (t.keyToIdx hash key).1

def homeOf (hash : κ → UInt64) (t : Table κ ν) (key : κ) : Nat := (t.keyToIdx hash key).2

/-- The slots that hold an entry. -/
def occupied (t : Table κ ν) : Finset Nat :=
  (Finset.range t.numElementsWithBuffer).filter fun j => t.info j ≠ 0

/-- The representation invariant of a table that has memory. -/
structure Valid (hash : κ → UInt64) (t : Table κ ν) : Prop where
  mask : 7 ≤ t.mMask
  shift : t.mInfoHashShift ≤ 4
  inc : t.mInfoInc = 2 ^ (5 - t.mInfoHashShift)
  sentinel : t.info t.numElementsWithBuffer = 1
  padding : ∀ j, t.numElementsWithBuffer < j → t.info j = 0
  free : ∀ j, t.numElementsWithBuffer ≤ j → t.mKeyVals j = none
  filled : ∀ j, j < t.numElementsWithBuffer → (t.info j = 0 ↔ t.mKeyVals j = none)
  placed : ∀ j key value, t.mKeyVals j = some (key, value) →
    t.homeOf hash key ≤ j ∧
      t.info j = t.firstOf hash key + (j - t.homeOf hash key) * t.mInfoInc
  ordered : Ordered t.mInfoInc t.info
  unique : ∀ i j key value value', t.mKeyVals i = some (key, value) →
    t.mKeyVals j = some (key, value') → i = j
  size : t.mNumElements = t.occupied.card
  room : t.mNumElements ≤ calcMaxNumElementsAllowed (t.mMask + 1)
  small : t.mMaxNumElementsAllowed ≠ 0 →
    t.mMaxNumElementsAllowed = calcMaxNumElementsAllowed (t.mMask + 1) ∧
      ∀ j, t.info j + t.mInfoInc ≤ 255

/-! ### Numbers -/

theorem calcMax_pos (h : 8 ≤ maxElements) : 6 ≤ calcMaxNumElementsAllowed maxElements := by
  unfold calcMaxNumElementsAllowed maxLoadFactor100
  split <;> omega

theorem calcMax_double (h : 8 ≤ maxElements) :
    calcMaxNumElementsAllowed maxElements < calcMaxNumElementsAllowed (maxElements * 2) := by
  unfold calcMaxNumElementsAllowed maxLoadFactor100
  split <;> split <;> omega

theorem homeOf_le (hash : κ → UInt64) (t : Table κ ν) (key : κ) : t.homeOf hash key ≤ t.mMask :=
  Nat.and_le_right

theorem firstOf_bounds (hs : t.mInfoHashShift ≤ 4) (hi : t.mInfoInc = 2 ^ (5 - t.mInfoHashShift))
    (key : κ) : t.mInfoInc ≤ t.firstOf hash key ∧ t.firstOf hash key < 2 * t.mInfoInc := by
  have hlow (h : UInt64) : (h &&& 31).toNat >>> t.mInfoHashShift < t.mInfoInc := by
    have hle : (h &&& 31).toNat < 2 ^ 5 := by
      rw [UInt64.toNat_and]
      exact Nat.lt_of_le_of_lt Nat.and_le_right (by decide)
    rw [Nat.shiftRight_eq_div_pow, hi]
    apply Nat.div_lt_of_lt_mul
    rwa [← Nat.pow_add, Nat.add_sub_cancel' (by omega)]
  unfold firstOf keyToIdx
  dsimp only
  constructor
  · exact Nat.le_add_right _ _
  · rw [Nat.two_mul]
    exact Nat.add_lt_add_left (hlow _) _

theorem info_le (t : Table κ ν) (j : Nat) : t.info j ≤ 255 := Nat.le_of_lt_succ (t.mInfo j).toNat_lt

namespace Valid

theorem inc_bounds (h : Valid hash t) : 2 ≤ t.mInfoInc ∧ t.mInfoInc ≤ 32 := by
  rw [h.inc]
  constructor
  · calc 2 = 2 ^ 1 := rfl
      _ ≤ 2 ^ (5 - t.mInfoHashShift) := Nat.pow_le_pow_right (by decide) (by have := h.shift; omega)
  · calc 2 ^ (5 - t.mInfoHashShift) ≤ 2 ^ 5 := Nat.pow_le_pow_right (by decide) (by omega)
      _ = 32 := rfl

theorem first_bounds (h : Valid hash t) (key : κ) :
    t.mInfoInc ≤ t.firstOf hash key ∧ t.firstOf hash key < 2 * t.mInfoInc :=
  firstOf_bounds h.shift h.inc key

theorem mask_lt (h : Valid hash t) : t.mMask < t.numElementsWithBuffer := by
  have := calcMax_pos (Nat.succ_le_succ h.mask)
  unfold numElementsWithBuffer calcNumElementsWithBuffer
  omega

theorem mask_ne_zero (h : Valid hash t) : t.mMask ≠ 0 := Nat.ne_of_gt (Nat.zero_lt_of_lt h.mask)

theorem numBytesInfo_eq (h : Valid hash t) : t.numBytesInfo = t.numElementsWithBuffer + 8 :=
  if_neg h.mask_ne_zero

theorem maxTurns_eq (h : Valid hash t) : t.maxTurns = t.numElementsWithBuffer + 9 :=
  congrArg (· + 1) h.numBytesInfo_eq

theorem endIdx_eq (h : Valid hash t) : t.endIdx = t.numElementsWithBuffer := if_neg h.mask_ne_zero

theorem home_lt (h : Valid hash t) (key : κ) : t.homeOf hash key < t.numElementsWithBuffer :=
  Nat.lt_of_le_of_lt (homeOf_le hash t key) h.mask_lt

theorem infoAt (h : Valid hash t) (hj : j < t.numElementsWithBuffer + 8) :
    t.infoAt j = .ok (t.info j) := if_pos (h.numBytesInfo_eq ▸ hj)

theorem node_lt (h : Valid hash t) (hn : t.mKeyVals j = some node) :
    j < t.numElementsWithBuffer := by
  by_contra hj
  rw [h.free j (Nat.not_lt.1 hj)] at hn
  cases hn

/-- A slot whose number could be that of an entry has a node. -/
theorem exists_node (h : Valid hash t) (hj : t.mInfoInc ≤ t.info j) :
    ∃ node, t.mKeyVals j = some node := by
  have hinc := h.inc_bounds
  rcases Nat.lt_trichotomy j t.numElementsWithBuffer with hlt | rfl | hlt
  · have hf := h.filled j hlt
    cases hn : t.mKeyVals j with
    | some node => exact ⟨node, rfl⟩
    | none =>
      have := hf.2 hn
      omega
  · have := h.sentinel
    omega
  · have := h.padding j hlt
    omega

theorem inc_le_info (h : Valid hash t) (hn : t.mKeyVals j = some node) :
    t.mInfoInc ≤ t.info j := by
  obtain ⟨key, value⟩ := node
  have hp := (h.placed j key value hn).2
  have hf := h.first_bounds key
  omega

theorem info_ne_zero (h : Valid hash t) (hj : j < t.numElementsWithBuffer) (hi : t.info j ≠ 0) :
    t.mInfoInc ≤ t.info j := by
  cases hn : t.mKeyVals j with
  | none => exact absurd ((h.filled j hj).2 hn) hi
  | some node => exact h.inc_le_info hn

/-- Where the entry of a key is, and what has to be passed over on the way there. -/
theorem reaches (h : Valid hash t) (hn : t.mKeyVals j = some (key, value)) :
    ∃ k, j = t.homeOf hash key + k ∧ t.info j = t.firstOf hash key + k * t.mInfoInc ∧
      ∀ i, i ≤ k → t.firstOf hash key + i * t.mInfoInc ≤ t.info (t.homeOf hash key + i) := by
  obtain ⟨hle, hi⟩ := h.placed j key value hn
  obtain ⟨k, rfl⟩ := Nat.exists_eq_add_of_le hle
  rw [Nat.add_sub_cancel_left] at hi
  exact ⟨k, rfl, hi, fun i hik => h.ordered.le_of_reaches (h.first_bounds key).1 hi hik⟩

/-- There is an empty slot at the home of a key or after it, as long as the table is not full. -/
theorem exists_empty (h : Valid hash t)
    (hroom : t.mNumElements < calcMaxNumElementsAllowed (t.mMask + 1)) (hs : s ≤ t.mMask) :
    ∃ e, s ≤ e ∧ e < t.numElementsWithBuffer ∧ t.info e = 0 := by
  by_contra hno
  have hfull (j : Nat) (hj : s ≤ j) (hlt : j < t.numElementsWithBuffer) : t.info j ≠ 0 :=
    fun he => hno ⟨j, hj, hlt, he⟩
  have hn : t.numElementsWithBuffer =
      t.mMask + 1 + min (calcMaxNumElementsAllowed (t.mMask + 1)) 255 := rfl
  rcases Nat.le_total (calcMaxNumElementsAllowed (t.mMask + 1)) 255 with hc | hc
  · -- the entries would be more than are allowed
    have hsub : Finset.Ico s t.numElementsWithBuffer ⊆ t.occupied := fun j hj => by
      obtain ⟨hle, hlt⟩ := Finset.mem_Ico.1 hj
      exact Finset.mem_filter.2 ⟨Finset.mem_range.2 hlt, hfull j hle hlt⟩
    have hcard := Finset.card_le_card hsub
    rw [Nat.card_Ico, ← h.size] at hcard
    omega
  · -- the number of the entry in the last slot would not fit into its byte
    have hlast := hfull (t.mMask + 255) (by omega) (by omega)
    obtain ⟨⟨key, value⟩, hnode⟩ := h.exists_node (h.info_ne_zero (by omega) hlast)
    obtain ⟨hle, hi⟩ := h.placed _ key value hnode
    have hhome := homeOf_le hash t key
    have hbyte := t.info_le (t.mMask + 255)
    have hinc := h.inc_bounds
    have hfirst := h.first_bounds key
    have hmul : 255 * 2 ≤ (t.mMask + 255 - t.homeOf hash key) * t.mInfoInc :=
      Nat.mul_le_mul (by omega) hinc.1
    omega

end Valid

end Table

end RapidTrader
