import RapidTrader.TableBytes

namespace RapidTrader
open Lib Function
set_option autoImplicit true

namespace Table
variable {κ ν : Type} {hash : κ → UInt64} {t : Table κ ν}

/-! ### A table with nothing in it -/

theorem initData_info (t : Table κ ν) (maxElements j : Nat) : (t.initData maxElements).info j =
    if j = calcNumElementsWithBuffer maxElements then 1 else 0 := by
  unfold info initData
  dsimp only
  rw [update_apply]
  split <;> rfl

theorem Valid.initData (hash : κ → UInt64) (t : Table κ ν) (hmax : 8 ≤ maxElements) :
    Valid hash (t.initData maxElements) := by
  have hn : (t.initData maxElements).numElementsWithBuffer =
      calcNumElementsWithBuffer maxElements := by
    show calcNumElementsWithBuffer (maxElements - 1 + 1) = _
    rw [Nat.sub_add_cancel (by omega)]
  have hlow (j : Nat) : (t.initData maxElements).info j ≤ 1 := by
    rw [initData_info]
    split <;> omega
  constructor
  case mask => exact Nat.le_sub_one_of_lt hmax
  case shift => exact Nat.zero_le 4
  case inc => rfl
  case sentinel => rw [hn, initData_info, if_pos rfl]
  case padding =>
    intro j hj
    rw [initData_info, if_neg (by omega)]
  case free => exact fun _ _ => rfl
  case filled =>
    intro j hj
    rw [initData_info, if_neg (by omega)]
    exact iff_of_true rfl rfl
  case placed =>
    intro j key value hn'
    cases hn'
  case ordered =>
    have hinc : 1 < 2 * initialInfoInc := by decide
    exact ⟨Nat.lt_of_le_of_lt (hlow 0) hinc,
      fun j => .inl (Nat.lt_of_le_of_lt (hlow (j + 1)) hinc)⟩
  case unique =>
    intro i j key value value' hi
    cases hi
  case size =>
    refine (Finset.card_eq_zero.2 (Finset.filter_eq_empty_iff.2 fun j hj => ?_)).symm
    rw [Finset.mem_range] at hj
    rw [not_not, initData_info, if_neg (by omega)]
  case room => exact Nat.zero_le _
  case small =>
    refine fun _ => ⟨?_, fun j => ?_⟩
    · show calcMaxNumElementsAllowed maxElements = calcMaxNumElementsAllowed (maxElements - 1 + 1)
      rw [Nat.sub_add_cancel (by omega)]
    · show (t.initData maxElements).info j + 32 ≤ 255
      have := hlow j
      omega

/-! ### Halving the numbers -/

theorem halveLoop_eq (t : Table κ ν) (hm : 8 * m ≤ t.numBytesInfo) : ∃ mInfo,
    (List.range m).foldlM (fun mInfo i => if 8 * i + 8 ≤ t.numBytesInfo then
      Except.ok (halveWord mInfo (8 * i)) else Except.error TableError.undefined) t.mInfo =
      .ok mInfo ∧ ∀ j, (mInfo j).toNat = if j < 8 * m then t.info j / 2 else t.info j := by
  induction m with
  | zero => exact ⟨t.mInfo, rfl, fun j => by rw [if_neg (by omega)]; rfl⟩
  | succ m ih =>
    obtain ⟨mInfo, hrun, hinfo⟩ := ih (by omega)
    refine ⟨halveWord mInfo (8 * m), ?_, fun j => ?_⟩
    · rw [List.range_succ, List.foldlM_append, hrun, ok_bind, List.foldlM_cons, if_pos (by omega)]
      rfl
    · rw [halveWord_toNat, hinfo]
      split_ifs <;> first | rfl | omega

/-- A table with half the numbers. -/
def halved (t : Table κ ν) (mInfo : Nat → UInt8) : Table κ ν :=
  { t with
    mInfoInc := (t.mInfoInc >>> 1) % 256
    mInfoHashShift := t.mInfoHashShift + 1
    mInfo := mInfo
    mMaxNumElementsAllowed := calcMaxNumElementsAllowed (t.mMask + 1) }

section Halved
variable {mInfo : Nat → UInt8}

theorem Valid.halved_inc (h : Valid hash t) (mInfo : Nat → UInt8) (hinc : 2 < t.mInfoInc) :
    t.mInfoHashShift + 1 ≤ 4 ∧ t.mInfoInc = 2 * (t.halved mInfo).mInfoInc := by
  have hs : t.mInfoHashShift ≠ 4 := fun heq => by
    rw [h.inc, heq] at hinc
    omega
  have hle := h.shift
  obtain ⟨k, hk⟩ : ∃ k, 5 - t.mInfoHashShift = k + 1 := ⟨4 - t.mInfoHashShift, by omega⟩
  have hb := h.inc_bounds
  have hpow := h.inc
  rw [hk, Nat.pow_succ] at hpow
  refine ⟨by omega, ?_⟩
  show t.mInfoInc = 2 * ((t.mInfoInc >>> 1) % 256)
  rw [Nat.shiftRight_one]
  omega

theorem Valid.halved_first (h : Valid hash t) (hinc : 2 < t.mInfoInc) (key : κ) :
    (t.halved mInfo).firstOf hash key = t.firstOf hash key / 2 := by
  have hi := (h.halved_inc mInfo hinc).2
  unfold firstOf keyToIdx
  dsimp only
  rw [show (t.halved mInfo).mInfoHashShift = t.mInfoHashShift + 1 from rfl, Nat.shiftRight_succ, hi]
  exact (Nat.mul_add_div (by decide) _ _).symm

theorem Valid.halved (h : Valid hash t) (hinc : 2 < t.mInfoInc)
    (hinfo : ∀ j, (mInfo j).toNat =
      if j = t.numElementsWithBuffer then 1 else t.info j / 2) : Valid hash (t.halved mInfo) := by
  obtain ⟨hshift, hi⟩ := h.halved_inc mInfo hinc
  have hb := h.inc_bounds
  have hnum (j : Nat) : (t.halved mInfo).info j = (mInfo j).toNat := rfl
  have hrange : (t.halved mInfo).numElementsWithBuffer = t.numElementsWithBuffer := rfl
  constructor
  case mask => exact h.mask
  case shift => exact hshift
  case inc =>
    have hpow : 2 ^ (5 - t.mInfoHashShift) = 2 ^ (5 - (t.mInfoHashShift + 1)) * 2 := by
      rw [← Nat.pow_succ]
      congr 1
      omega
    have := h.inc
    show (t.halved mInfo).mInfoInc = 2 ^ (5 - (t.mInfoHashShift + 1))
    omega
  case sentinel => rw [hrange, hnum, hinfo, if_pos rfl]
  case padding =>
    intro j hj
    rw [hrange] at hj
    rw [hnum, hinfo, if_neg (Nat.ne_of_gt hj), h.padding j hj]
  case free => exact h.free
  case filled =>
    intro j hj
    rw [hrange] at hj
    rw [hnum, hinfo, if_neg (Nat.ne_of_lt hj)]
    refine Iff.trans ?_ (h.filled j hj)
    constructor
    · intro hzero
      by_contra hne
      have := h.info_ne_zero hj hne
      omega
    · intro hzero
      rw [hzero]
  case placed =>
    intro j key value hn
    obtain ⟨hhome, heq⟩ := h.placed j key value hn
    refine ⟨hhome, ?_⟩
    show (mInfo j).toNat = _ + (j - t.homeOf hash key) * _
    rw [h.halved_first hinc, hinfo, if_neg (Nat.ne_of_lt (h.node_lt hn)), heq, hi,
      Nat.mul_left_comm, Nat.add_mul_div_left _ _ (by decide)]
  case ordered =>
    have hord := (hi ▸ h.ordered).halved
    constructor
    · rw [hnum, hinfo]
      split
      · omega
      · exact hord.zero
    · intro j
      rw [hnum, hnum, hinfo, hinfo]
      split_ifs with hn hn'
      · omega
      · exact .inl (by omega)
      · rw [h.padding (j + 1) (by omega)]
        exact .inl (by omega)
      · exact hord.succ j
  case unique => exact h.unique
  case size =>
    refine h.size.trans (congrArg Finset.card (Finset.filter_congr fun j hj => ?_))
    rw [Finset.mem_range] at hj
    rw [hnum, hinfo, if_neg (Nat.ne_of_lt hj)]
    constructor
    · intro hne
      have := h.info_ne_zero hj hne
      omega
    · intro hne hzero
      rw [hzero] at hne
      exact hne rfl
  case room => exact h.room
  case small =>
    refine fun _ => ⟨rfl, fun j => ?_⟩
    have := t.info_le j
    rw [hnum, hinfo]
    split <;> omega

/-- The numbers are halved, or they cannot be. -/
theorem tryIncreaseInfo_eq (h : Valid hash t) :
    (t.mInfoInc ≤ 2 ∧ t.tryIncreaseInfo = .ok none) ∨ (2 < t.mInfoInc ∧
      ∃ mInfo, t.tryIncreaseInfo = .ok (some (t.halved mInfo)) ∧ Valid hash (t.halved mInfo)) := by
  unfold tryIncreaseInfo
  split
  · next hinc => exact .inl ⟨hinc, rfl⟩
  · next hinc =>
    refine .inr ⟨Nat.not_le.1 hinc, ?_⟩
    have hb := h.numBytesInfo_eq
    obtain ⟨mInfo, hrun, hinfo⟩ :=
      halveLoop_eq t (m := (t.numElementsWithBuffer + 7) / 8) (by omega)
    refine ⟨update mInfo t.numElementsWithBuffer (UInt8.ofNat 1), ?_,
      h.halved (Nat.not_le.1 hinc) fun j => ?_⟩
    · dsimp only
      rw [hrun, ok_bind, setInfo_eq]
      · rfl
      · exact h.mask_ne_zero
      · exact Nat.lt_add_of_pos_right (by decide)
    · rw [toNat_update _ (by decide), update_apply]
      split
      · rfl
      · rw [hinfo]
        split
        · rfl
        · rw [h.padding j (by omega)]

end Halved

/-! ### How a table gets too crowded -/

/-- A number is no greater than that of an entry after all the others. -/
theorem Valid.info_lt (h : Valid hash t) (hn : t.mKeyVals j = some node) :
    t.info j < (t.mNumElements + 1) * t.mInfoInc := by
  have hinc := h.inc_bounds
  have hfirst := h.first_bounds node.1
  have hlt := h.node_lt hn
  obtain ⟨k, rfl, hnum, hreach⟩ := h.reaches hn
  have hsub : Finset.Icc (t.homeOf hash node.1) (t.homeOf hash node.1 + k) ⊆ t.occupied := by
    intro i hi
    obtain ⟨hle, hge⟩ := Finset.mem_Icc.1 hi
    obtain ⟨d, rfl⟩ := Nat.exists_eq_add_of_le hle
    have := hreach d (by omega)
    exact Finset.mem_filter.2 ⟨Finset.mem_range.2 (by omega), by omega⟩
  have hcard := Finset.card_le_card hsub
  rw [Nat.card_Icc, ← h.size] at hcard
  have hmul : (k + 2) * t.mInfoInc ≤ (t.mNumElements + 1) * t.mInfoInc :=
    Nat.mul_le_mul_right _ (by omega)
  rw [Nat.add_mul] at hmul
  omega

/-- It takes many entries to crowd a table whose numbers cannot be halved. -/
theorem Valid.crowded (h : Valid hash t) (hinc : t.mInfoInc ≤ 2) (hc : Crowded t) :
    127 ≤ t.mNumElements := by
  have hb := h.inc_bounds
  obtain ⟨j, hj⟩ := hc
  obtain ⟨node, hn⟩ := h.exists_node (j := j) (by omega)
  have hlt := h.info_lt hn
  rw [Nat.le_antisymm hinc hb.1] at hlt
  omega

/-- How a table of so many entries may fail. -/
def Throws (numElements : Nat) (e : TableError) : Prop := e = .overflowError ∧ 127 ≤ numElements

theorem Throws.mono (he : Throws n e) (hle : n ≤ n') : Throws n' e :=
  ⟨he.1, Nat.le_trans he.2 hle⟩

/-! ### Moving the entries into a table of another size -/

/-- A table with the same map. -/
structure Same (hash : κ → UInt64) (t t' : Table κ ν) : Prop where
  valid : Valid hash t'
  holds : ∀ key value, t'.Holds key value ↔ t.Holds key value
  count : t'.mNumElements = t.mNumElements

theorem Valid.calcMax_ne_zero (h : Valid hash t) : calcMaxNumElementsAllowed (t.mMask + 1) ≠ 0 :=
  Nat.ne_of_gt (Nat.zero_lt_of_lt (calcMax_pos (Nat.succ_le_succ h.mask)))

theorem insertMove_of_allowed (h : Valid hash t) (hno : ∀ v, ¬ t.Holds key v)
    (hroom : t.mNumElements < calcMaxNumElementsAllowed (t.mMask + 1))
    (hallowed : t.mMaxNumElementsAllowed ≠ 0) (value : ν) : ∃ t' idx,
      t.insertMove hash (key, value) = .ok t' ∧ Added hash t t' key value idx ∧
        t'.mMask = t.mMask ∧ (t'.mMaxNumElementsAllowed = 0 → Crowded t') := by
  obtain ⟨d, hspot, hskip⟩ := skip_spot h key
  have hfits := hspot.fits h hallowed
  obtain ⟨new, t₁, t₂, hrun, hset, hadded⟩ := prepareSpot_added h hno hroom hallowed hspot
    (t.firstOf hash key + d * t.mInfoInc) value
  refine ⟨t₂, _, ?_, hadded⟩
  unfold insertMove
  rw [if_neg hallowed, pure_bind]
  dsimp only
  rw [hskip, ok_bind]
  dsimp only
  rw [Nat.mod_eq_of_lt (Nat.lt_succ_of_le hfits), hrun]
  exact hset

theorem insertMove_added (h : Valid hash t) (hno : ∀ v, ¬ t.Holds key v)
    (hroom : t.mNumElements < calcMaxNumElementsAllowed (t.mMask + 1))
    (hcrowded : t.mMaxNumElementsAllowed = 0 → Crowded t) :
    Ends (Throws t.mNumElements)
      (fun t' => (∃ idx, Added hash t t' key value idx) ∧ t'.mMask = t.mMask ∧
        (t'.mMaxNumElementsAllowed = 0 → Crowded t'))
      (t.insertMove hash (key, value)) := by
  by_cases hallowed : t.mMaxNumElementsAllowed = 0
  · rcases tryIncreaseInfo_eq h with ⟨hinc, hrun⟩ | ⟨_, mInfo, hrun, hvalid⟩
    · unfold insertMove
      rw [if_pos hallowed, hrun]
      exact ⟨rfl, h.crowded hinc (hcrowded hallowed)⟩
    · have hmax : (t.halved mInfo).mMaxNumElementsAllowed ≠ 0 := h.calcMax_ne_zero
      obtain ⟨t', idx, hmove, hadded, hkept⟩ :=
        insertMove_of_allowed hvalid hno hroom hmax value
      have heq : t.insertMove hash (key, value) =
          (t.halved mInfo).insertMove hash (key, value) := by
        unfold insertMove
        rw [if_pos hallowed, if_neg hmax, hrun]
        rfl
      rw [heq, hmove]
      exact ⟨⟨idx, hadded.valid, hadded.there, hadded.holds, hadded.count⟩, hkept⟩
  · obtain ⟨t', idx, hmove, hadded, hkept⟩ :=
      insertMove_of_allowed h hno hroom hallowed value
    rw [hmove]
    exact ⟨⟨idx, hadded⟩, hkept⟩

/-- What `rehashPowerOfTwo` has moved after it has looked at `i` slots. -/
structure Moved (hash : κ → UInt64) (t : Table κ ν) (numBuckets i : Nat) (t' : Table κ ν) :
    Prop where
  valid : Valid hash t'
  holds : ∀ key value, t'.Holds key value ↔ ∃ j, j < i ∧ t.mKeyVals j = some (key, value)
  count : t'.mNumElements = ((Finset.range i).filter fun j => t.info j ≠ 0).card
  mask : t'.mMask = numBuckets - 1
  crowded : t'.mMaxNumElementsAllowed = 0 → Crowded t'

theorem Moved.next (h : Valid hash t) (hb : 8 ≤ numBuckets)
    (hroom : t.mNumElements ≤ calcMaxNumElementsAllowed numBuckets) (m : UInt64)
    (hi : i < t.numElementsWithBuffer) (hmoved : Moved hash t numBuckets i t') :
    Ends (Throws t.mNumElements) (Moved hash t numBuckets (i + 1)) (do
      if (← Table.infoAt { t with mHashMultiplier := m } i) ≠ 0 then
        t'.insertMove hash (← Table.nodeAt { t with mHashMultiplier := m } i)
      else return t') := by
  have hinfo : Table.infoAt { t with mHashMultiplier := m } i = .ok (t.info i) :=
    h.infoAt (Nat.lt_add_right 8 hi)
  rw [hinfo, ok_bind]
  have hcard := Finset.range_add_one (n := i)
  by_cases hzero : t.info i = 0
  · have hnone := (h.filled i hi).1 hzero
    rw [if_neg (not_not.2 hzero)]
    refine ⟨hmoved.valid, fun key value => (hmoved.holds key value).trans ?_, ?_, hmoved.mask,
      hmoved.crowded⟩
    · refine exists_congr fun j => and_congr_left fun hj => ?_
      have hne : j ≠ i := by
        rintro rfl
        rw [hnone] at hj
        cases hj
      omega
    · rw [hmoved.count, hcard, Finset.filter_insert, if_neg (not_not.2 hzero)]
  · obtain ⟨⟨key, value⟩, hn⟩ := h.exists_node (h.info_ne_zero hi hzero)
    have hfilter : (Finset.range (i + 1)).filter (fun j => t.info j ≠ 0) =
        insert i ((Finset.range i).filter fun j => t.info j ≠ 0) := by
      rw [hcard, Finset.filter_insert, if_pos hzero]
    have hcount : ((Finset.range (i + 1)).filter fun j => t.info j ≠ 0).card =
        t'.mNumElements + 1 := by
      rw [hfilter, Finset.card_insert_of_notMem, hmoved.count]
      exact fun hmem => Nat.lt_irrefl i (Finset.mem_range.1 (Finset.mem_filter.1 hmem).1)
    have hle : t'.mNumElements + 1 ≤ t.mNumElements := by
      rw [← hcount, h.size]
      exact Finset.card_le_card (Finset.filter_subset_filter _ (Finset.range_subset_range.2 hi))
    have hno (v : ν) : ¬ t'.Holds key v := fun hh => by
      obtain ⟨j, hj, hat⟩ := (hmoved.holds key v).1 hh
      exact Nat.ne_of_lt hj (h.unique j i key v value hat hn)
    have hnode : Table.nodeAt { t with mHashMultiplier := m } i = .ok (key, value) := nodeAt_eq hn
    rw [if_pos hzero, hnode, ok_bind]
    refine (insertMove_added hmoved.valid hno ?_ hmoved.crowded).mono
      (fun e he => he.mono (Nat.le_of_succ_le hle)) ?_
    · rw [hmoved.mask, Nat.sub_add_cancel (by omega)]
      omega
    · rintro t'' - ⟨⟨idx, hadded⟩, hmask, hcrowded⟩
      refine ⟨hadded.valid, fun key' value' => (hadded.holds key' value').trans ?_, ?_,
        hmask.trans hmoved.mask, hcrowded⟩
      · rw [hmoved.holds]
        constructor
        · rintro (heq | ⟨j, hj, hat⟩)
          · exact ⟨i, Nat.lt_succ_self i, heq ▸ hn⟩
          · exact ⟨j, Nat.lt_succ_of_lt hj, hat⟩
        · rintro ⟨j, hj, hat⟩
          rcases Nat.lt_or_eq_of_le (Nat.le_of_lt_succ hj) with hlt' | rfl
          · exact .inr ⟨j, hlt', hat⟩
          · exact .inl (Option.some.inj (hat.symm.trans hn))
      · rw [hadded.count, hcount]

theorem rehashPowerOfTwo_same (h : Valid hash t) (hb : 8 ≤ numBuckets)
    (hroom : t.mNumElements ≤ calcMaxNumElementsAllowed numBuckets) (m : UInt64) :
    Ends (Throws t.mNumElements) (fun t' => Same hash t t' ∧ t'.mMask = numBuckets - 1 ∧
        (t'.mMaxNumElementsAllowed = 0 → Crowded t'))
      (Table.rehashPowerOfTwo hash { t with mHashMultiplier := m } numBuckets) := by
  have hlt := h.mask_lt
  have hmask := h.mask
  have hstart : Moved hash t numBuckets 0
      (Table.initData { t with mHashMultiplier := m } numBuckets) := by
    have hmax := calcMax_pos hb
    refine ⟨Valid.initData hash _ hb, fun key value => ?_, rfl, rfl, fun hzero => ?_⟩
    · constructor
      · rintro ⟨j, hj⟩
        cases hj
      · rintro ⟨j, hj, _⟩
        exact absurd hj (Nat.not_lt_zero j)
    · change calcMaxNumElementsAllowed numBuckets = 0 at hzero
      omega
  unfold rehashPowerOfTwo
  rw [if_pos (by show t.numElementsWithBuffer > 1; omega)]
  refine (Ends.foldlM_range (fun t' i hi hmoved => hmoved.next h hb hroom m hi) hstart).mono
    (fun _ he => he) ?_
  intro t' _ hmoved
  refine ⟨⟨hmoved.valid, fun key value => (hmoved.holds key value).trans ?_,
    hmoved.count.trans h.size.symm⟩, hmoved.mask, hmoved.crowded⟩
  constructor
  · rintro ⟨j, _, hj⟩
    exact ⟨j, hj⟩
  · rintro ⟨j, hj⟩
    exact ⟨j, h.node_lt hj, hj⟩

/-- How many turns the loop of `insertKeyPrepareEmptySpot` may take yet. -/
def turnsLeft (t : Table κ ν) : Nat :=
  if t.mNumElements < t.mMaxNumElementsAllowed then 1
  else if t.mNumElements < calcMaxNumElementsAllowed (t.mMask + 1) ∧ 2 < t.mInfoInc then 2 else 3

theorem turnsLeft_le (t : Table κ ν) : t.turnsLeft ≤ 3 := by
  unfold turnsLeft
  split_ifs <;> decide

/-- A table that is not too large has room after its entries have been moved, or will have it once
the numbers are halved. -/
theorem turnsLeft_rehashed (hv : Valid hash t)
    (hroom : t.mNumElements < calcMaxNumElementsAllowed (t.mMask + 1))
    (hcrowded : t.mMaxNumElementsAllowed = 0 → Crowded t) :
    127 ≤ t.mNumElements ∨ t.turnsLeft < 3 := by
  unfold turnsLeft
  by_cases hmax : t.mMaxNumElementsAllowed = 0
  · by_cases hinc : 2 < t.mInfoInc
    · right
      rw [if_neg (by omega), if_pos ⟨hroom, hinc⟩]
      decide
    · exact .inl (hv.crowded (Nat.not_lt.1 hinc) (hcrowded hmax))
  · right
    rw [if_pos (by rw [(hv.small hmax).1]; exact hroom)]
    decide

theorem increaseSize_same (h : Valid hash t) (hfull : ¬ t.mNumElements < t.mMaxNumElementsAllowed) :
    Ends (Throws t.mNumElements)
      (fun t' => Same hash t t' ∧ (127 ≤ t.mNumElements ∨ t'.turnsLeft < t.turnsLeft))
      (t.increaseSize hash) := by
  have hmask := h.mask
  have hbuckets : 8 ≤ t.mMask + 1 := by omega
  have hrehash (hlast : ¬ (t.mNumElements < calcMaxNumElementsAllowed (t.mMask + 1) ∧
      2 < t.mInfoInc)) : Ends (Throws t.mNumElements)
      (fun t' => Same hash t t' ∧ (127 ≤ t.mNumElements ∨ t'.turnsLeft < t.turnsLeft))
      (if t.mNumElements * 2 < calcMaxNumElementsAllowed (t.mMask + 1) then
        t.nextHashMultiplier.rehashPowerOfTwo hash (t.mMask + 1)
      else t.rehashPowerOfTwo hash ((t.mMask + 1) * 2)) := by
    have hthree : t.turnsLeft = 3 := by
      unfold turnsLeft
      rw [if_neg hfull, if_neg hlast]
    have hroom := h.room
    have hmove {numBuckets : Nat} (hb : 8 ≤ numBuckets)
        (hlt : t.mNumElements < calcMaxNumElementsAllowed numBuckets)
        (m : UInt64) : Ends (Throws t.mNumElements)
        (fun t' => Same hash t t' ∧ (127 ≤ t.mNumElements ∨ t'.turnsLeft < t.turnsLeft))
        (Table.rehashPowerOfTwo hash { t with mHashMultiplier := m } numBuckets) := by
      refine (rehashPowerOfTwo_same h hb (Nat.le_of_lt hlt) m).mono (fun _ he => he) ?_
      rintro t' - ⟨hs, hm, hcrowded⟩
      refine ⟨hs, ?_⟩
      rw [hthree, ← hs.count]
      refine turnsLeft_rehashed hs.valid ?_ hcrowded
      rwa [hs.count, hm, Nat.sub_add_cancel (by omega)]
    split
    · exact hmove hbuckets (by omega) _
    · exact hmove (by omega) (Nat.lt_of_le_of_lt hroom (calcMax_double hbuckets)) t.mHashMultiplier
  unfold increaseSize
  rw [if_neg (by omega)]
  dsimp only
  split
  · next hlt =>
    rcases tryIncreaseInfo_eq h with ⟨hinc, hrun⟩ | ⟨hinc, mInfo, hrun, hvalid⟩
    · rw [hrun]
      exact hrehash fun hboth => absurd hboth.2 (Nat.not_lt.2 hinc)
    · rw [hrun]
      refine ⟨⟨hvalid, fun _ _ => Iff.rfl, rfl⟩, .inr ?_⟩
      have hone : (t.halved mInfo).turnsLeft = 1 := if_pos hlt
      have htwo : t.turnsLeft = 2 := by
        unfold turnsLeft
        rw [if_neg hfull, if_pos ⟨hlt, hinc⟩]
      omega
  · next hlt => exact hrehash fun hboth => hlt hboth.1

end Table

end RapidTrader
