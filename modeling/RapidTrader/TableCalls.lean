import RapidTrader.TableGrowth

namespace RapidTrader
open Lib Function
set_option autoImplicit true

namespace Table
variable {κ ν : Type} {hash : κ → UInt64} {t : Table κ ν}

/-! ### A table before its first insertion -/

theorem not_holds_new (key : κ) (value : ν) : ¬ (new : Table κ ν).Holds key value := by
  rintro ⟨j, hj⟩
  cases hj

theorem keyToIdx_new (hash : κ → UInt64) (key : κ) : ∃ s,
    (new : Table κ ν).keyToIdx hash key = (32 + s, 0) :=
  ⟨_, congrArg (Prod.mk _) (Nat.and_zero _)⟩

theorem next_new (number j : Nat) :
    (new : Table κ ν).next (number, j) = (number + 32, j + 1) := rfl

theorem infoAt_new (hj : j < 8) : (new : Table κ ν).infoAt j = .ok 0 := if_pos hj

theorem same_initData (hash : κ → UInt64) :
    Same hash (new : Table κ ν) (new.initData initialNumElements) := by
  refine ⟨Valid.initData hash new (Nat.le_refl 8), fun key value => ?_, rfl⟩
  refine iff_of_false ?_ (not_holds_new key value)
  rintro ⟨j, hj⟩
  cases hj

/-! ### Writing to a value -/

/-- The tables that come about. -/
def Sound (hash : κ → UInt64) (t : Table κ ν) : Prop := t = new ∨ Valid hash t

/-- What writing to the value of a key does. -/
structure Assigned (hash : κ → UInt64) (t t' : Table κ ν) (key : κ) (value : ν) : Prop where
  valid : Valid hash t'
  holds : ∀ key' value', t'.Holds key' value' ↔
    (key', value') = (key, value) ∨ key' ≠ key ∧ t.Holds key' value'
  count : t'.mNumElements = t.mNumElements

theorem Valid.assigned (h : Valid hash t) (hn : t.mKeyVals idx = some (key, value)) (value' : ν) :
    Valid hash (t.stored (update t.mKeyVals idx (some (key, value'))) t.mInfo
      t.mMaxNumElementsAllowed) := by
  have hkey (j : Nat) (key' : κ) (v : ν)
      (hj : update t.mKeyVals idx (some (key, value')) j = some (key', v)) :
      ∃ v', t.mKeyVals j = some (key', v') := by
    rw [update_apply] at hj
    split at hj
    · next heq =>
      cases hj
      exact ⟨value, heq ▸ hn⟩
    · exact ⟨v, hj⟩
  have hlt := h.node_lt hn
  constructor
  case mask => exact h.mask
  case shift => exact h.shift
  case inc => exact h.inc
  case sentinel => exact h.sentinel
  case padding => exact h.padding
  case free =>
    intro j hj
    exact (update_of_ne (Nat.ne_of_gt (Nat.lt_of_lt_of_le hlt hj)) _ _).trans (h.free j hj)
  case filled =>
    intro j hj
    refine (h.filled j hj).trans ?_
    rw [stored_mKeyVals, update_apply]
    split
    · next heq =>
      rw [heq, hn]
      simp
    · rfl
  case placed =>
    intro j key' v hj
    obtain ⟨v', hj'⟩ := hkey j key' v hj
    exact h.placed j key' v' hj'
  case ordered => exact h.ordered
  case unique =>
    intro i j key' v v' hi hj
    obtain ⟨w, hi'⟩ := hkey i key' v hi
    obtain ⟨w', hj'⟩ := hkey j key' v' hj
    exact h.unique i j key' w w' hi' hj'
  case size => exact h.size
  case room => exact h.room
  case small => exact h.small

theorem assign_assigned (h : Sound hash t) (hn : t.mKeyVals idx = some (key, value)) (f : ν → ν) :
    ∃ t', t.assign idx f = .ok t' ∧ Assigned hash t t' key (f value) := by
  rcases h with rfl | h
  · cases hn
  · refine ⟨_, ?_, h.assigned hn (f value), fun key' value' => ?_, rfl⟩
    · unfold assign
      rw [nodeAt_eq hn, ok_bind]
      exact setNode_eq h.mask_ne_zero (h.node_lt hn) _
    · constructor
      · rintro ⟨j, hj⟩
        rw [stored_mKeyVals, update_apply] at hj
        split at hj
        · exact .inl (Option.some.inj hj).symm
        · next hne =>
          refine .inr ⟨?_, j, hj⟩
          rintro rfl
          exact hne (h.unique j idx key' value' value hj hn)
      · rintro (heq | ⟨hne, j, hj⟩)
        · exact ⟨idx, (update_self _ _ _).trans (congrArg some heq.symm)⟩
        · refine ⟨j, (update_of_ne ?_ _ _).trans hj⟩
          rintro rfl
          rw [hn] at hj
          cases hj
          exact hne rfl

/-! ### The next element -/

theorem exists_full (h : Valid hash t) (hidx : idx ≤ t.numElementsWithBuffer) : ∃ i, idx ≤ i ∧
    i ≤ t.numElementsWithBuffer ∧ (∀ j, idx ≤ j → j < i → t.info j = 0) ∧ t.info i ≠ 0 := by
  have hend : idx ≤ t.numElementsWithBuffer ∧ t.info t.numElementsWithBuffer ≠ 0 := by
    rw [h.sentinel]
    exact ⟨hidx, Nat.one_ne_zero⟩
  have hex : ∃ i, idx ≤ i ∧ t.info i ≠ 0 := ⟨_, hend⟩
  refine ⟨Nat.find hex, (Nat.find_spec hex).1, Nat.find_min' hex hend, fun j hj hlt => ?_,
    (Nat.find_spec hex).2⟩
  by_contra hne
  exact Nat.find_min hex hlt ⟨hj, hne⟩

/-- An iterator moves on to the next slot that is not empty, or to the end. -/
theorem nextIdx_eq (h : Valid hash t) (hle : idx + 1 ≤ i) (hi : i ≤ t.numElementsWithBuffer)
    (hempty : ∀ j, idx + 1 ≤ j → j < i → t.info j = 0) (hfull : t.info i ≠ 0) :
    t.nextIdx idx = .ok i :=
  fastForward_eq h hle hi hempty hfull (by rw [h.maxTurns_eq]; omega)

/-- The iterator that is returned points to the first element behind the erased one, or is at the
end. -/
theorem eraseAt_removed (h : Valid hash t) (hn : t.mKeyVals p = some (key, value)) : ∃ i t',
    t.eraseAt p = .ok (i, t') ∧ Removed hash t t' key ∧ p ≤ i ∧ i ≤ t'.numElementsWithBuffer ∧
      (∀ j, p ≤ j → j < i → t'.info j = 0) ∧ t'.info i ≠ 0 := by
  obtain ⟨t', hrun, hr⟩ := removeAt_removed h hn
  have hlt : p < t'.numElementsWithBuffer := by
    rw [numElementsWithBuffer, hr.mask]
    exact h.node_lt hn
  unfold eraseAt
  rw [hrun, ok_bind, hr.valid.infoAt (Nat.lt_add_right 8 hlt), ok_bind]
  by_cases hinfo : t'.info p = 0
  · obtain ⟨i, hle, hi, hempty, hfull⟩ := exists_full hr.valid hlt
    rw [if_neg (not_not.2 hinfo), nextIdx_eq hr.valid hle hi hempty hfull]
    refine ⟨i, t', rfl, hr, Nat.le_of_succ_le hle, hi, fun j hj hji => ?_, hfull⟩
    rcases Nat.eq_or_lt_of_le hj with rfl | hj
    · exact hinfo
    · exact hempty j hj hji
  · rw [if_pos hinfo]
    exact ⟨p, t', rfl, hr, Nat.le_refl p, Nat.le_of_lt hlt,
      fun j hj hlt => absurd hlt (Nat.not_lt.2 hj), hinfo⟩

section Nodes
variable [DecidableEq κ]

theorem isAt_new (key : κ) {number : Nat} (hne : number ≠ 0) (hj : j < 8) :
    (new : Table κ ν).isAt key (number, j) = .ok false := by
  unfold isAt
  rw [infoAt_new hj, ok_bind, if_neg hne]
  rfl

theorem find_new (hash : κ → UInt64) (key : κ) : (new : Table κ ν).find hash key = .ok none := by
  obtain ⟨s, hs⟩ := keyToIdx_new (ν := ν) hash key
  have hloop : (new : Table κ ν).findLoop key (8 + 1) (32 + s, 0) = .ok none := by
    rw [findLoop, isAt_new key (by omega) (by decide), ok_bind, if_neg Bool.false_ne_true, next_new]
    dsimp only
    rw [isAt_new key (by omega) (by decide), ok_bind, if_neg Bool.false_ne_true, next_new]
    dsimp only
    rw [infoAt_new (by decide), ok_bind, if_neg (by omega)]
    rfl
  unfold find findIdx
  rw [hs, show (new : Table κ ν).maxTurns = 8 + 1 from rfl, hloop]
  rfl

theorem erase_new (hash : κ → UInt64) (key : κ) :
    (new : Table κ ν).erase hash key = .ok (0, new) := by
  obtain ⟨s, hs⟩ := keyToIdx_new (ν := ν) hash key
  have hloop : (new : Table κ ν).eraseLoop key (8 + 1) (32 + s, 0) = .ok none := by
    rw [eraseLoop, isAt_new key (by omega) (by decide), ok_bind, if_neg Bool.false_ne_true,
      next_new]
    dsimp only
    rw [infoAt_new (by decide), ok_bind, if_neg (by omega)]
    rfl
  unfold erase
  rw [hs, show (new : Table κ ν).maxTurns = 8 + 1 from rfl, hloop]
  rfl

theorem prepareEmptySpotLoop_new (hash : κ → UInt64) (key : κ) (turns : Nat) :
    prepareEmptySpotLoop hash key (turns + 1) (new : Table κ ν) =
      prepareEmptySpotLoop hash key turns (new.initData initialNumElements) := by
  obtain ⟨s, hs⟩ := keyToIdx_new (ν := ν) hash key
  have hnext : (new : Table κ ν).nextWhileLess (32 + s, 0) = .ok (32 + s, 0) := by
    unfold nextWhileLess
    rw [show (new : Table κ ν).maxTurns = 8 + 1 from rfl, skipWhile]
    rfl
  have hmatch : (new : Table κ ν).matchLoop key (8 + 1) (32 + s, 0) =
      .ok (false, 32 + s, 0) := by
    rw [matchLoop]
    dsimp only
    rw [infoAt_new (by decide), ok_bind, if_neg (by omega)]
    rfl
  rw [prepareEmptySpotLoop, hs, hnext, ok_bind, show (new : Table κ ν).maxTurns = 8 + 1 from rfl,
    hmatch]
  rfl

/-! ### Finding and erasing -/

theorem find_holds (h : Sound hash t) (hh : t.Holds key value) : ∃ idx,
    t.find hash key = .ok (some (idx, value)) ∧ t.mKeyVals idx = some (key, value) := by
  rcases h with rfl | h
  · exact absurd hh (not_holds_new key value)
  · obtain ⟨idx, hn⟩ := hh
    exact ⟨idx, find_found h hn, hn⟩

theorem find_not_holds (h : Sound hash t) (hno : ∀ v, ¬ t.Holds key v) :
    t.find hash key = .ok none := by
  rcases h with rfl | h
  · exact find_new hash key
  · exact find_missing h (keyAt_ne hno)

theorem erase_holds (h : Sound hash t) (hh : t.Holds key value) : ∃ t',
    t.erase hash key = .ok (1, t') ∧ Removed hash t t' key := by
  rcases h with rfl | h
  · exact absurd hh (not_holds_new key value)
  · obtain ⟨j, hn⟩ := hh
    have hlt := h.node_lt hn
    obtain ⟨t', hrun, hremoved⟩ := removeAt_removed h hn
    obtain ⟨k, rfl, _, _⟩ := h.reaches hn
    refine ⟨t', ?_, hremoved⟩
    unfold erase
    rw [keyToIdx_eq, eraseLoop_found h hn (Nat.zero_le k) (by rw [h.maxTurns_eq]; omega), ok_bind]
    dsimp only
    rw [hrun]
    rfl

theorem erase_not_holds (h : Sound hash t) (hno : ∀ v, ¬ t.Holds key v) :
    t.erase hash key = .ok (0, t) := by
  rcases h with rfl | h
  · exact erase_new hash key
  · have hhome := h.home_lt key
    unfold erase
    rw [keyToIdx_eq, eraseLoop_missing h (keyAt_ne hno) (by omega)
      (by rw [h.maxTurns_eq]; omega)]
    rfl

end Nodes

/-! ### Insertion -/

/-- What `insertKeyPrepareEmptySpot` comes to. -/
def Prepared (hash : κ → UInt64) (t : Table κ ν) (key : κ) (value : ν)
    (r : (Nat × InsertionState) × Table κ ν) : Prop :=
  match r.1.2 with
  | .keyFound => Same hash t r.2 ∧ ∃ v, r.2.mKeyVals r.1.1 = some (key, v)
  | .newNode | .overwriteNode => (∀ v, ¬ t.Holds key v) ∧
      ∃ t', r.2.setNode r.1.1 (some (key, value)) = .ok t' ∧ Added hash t t' key value r.1.1
  | .overflowError => 127 ≤ t.mNumElements

theorem Prepared.of_same (hs : Same hash t t₁) (hp : Prepared hash t₁ key value r) :
    Prepared hash t key value r := by
  obtain ⟨⟨idx, state⟩, t₂⟩ := r
  have hadded (h : (∀ v, ¬ t₁.Holds key v) ∧ ∃ t', t₂.setNode idx (some (key, value)) = .ok t' ∧
      Added hash t₁ t' key value idx) : (∀ v, ¬ t.Holds key v) ∧
      ∃ t', t₂.setNode idx (some (key, value)) = .ok t' ∧ Added hash t t' key value idx := by
    obtain ⟨hno, t', hset, hadd⟩ := h
    refine ⟨fun v hv => hno v ((hs.holds key v).2 hv), t', hset, hadd.valid, hadd.there,
      fun key' value' => (hadd.holds key' value').trans (or_congr_right (hs.holds key' value')), ?_⟩
    rw [hadd.count, hs.count]
  cases state with
  | keyFound =>
    obtain ⟨hs', hthere⟩ := hp
    exact ⟨⟨hs'.valid, fun key' value' => (hs'.holds key' value').trans (hs.holds key' value'),
      hs'.count.trans hs.count⟩, hthere⟩
  | newNode => exact hadded hp
  | overwriteNode => exact hadded hp
  | overflowError => exact Nat.le_trans hp (Nat.le_of_eq hs.count)

section Insertion
variable [DecidableEq κ]

theorem prepareEmptySpotLoop_prepared (h : Valid hash t) (key : κ) (value : ν)
    (hturns : 127 ≤ t.mNumElements ∨ t.turnsLeft ≤ turns) :
    Ends (Throws t.mNumElements) (Prepared hash t key value)
      (prepareEmptySpotLoop hash key turns t) := by
  induction turns generalizing t with
  | zero =>
    refine hturns.resolve_right fun hle => ?_
    unfold turnsLeft at hle
    split_ifs at hle <;> omega
  | succ turns ih =>
    rw [prepareEmptySpotLoop]
    by_cases hh : ∃ v, t.Holds key v
    · obtain ⟨v, idx, hn⟩ := hh
      obtain ⟨p, info, hnext, hmatch⟩ := search_found h hn
      rw [hnext, ok_bind, hmatch, ok_bind]
      exact ⟨⟨h, fun _ _ => Iff.rfl, rfl⟩, v, hn⟩
    · have hno : ∀ v, ¬ t.Holds key v := not_exists.1 hh
      obtain ⟨p, d, hnext, hspot, hmatch⟩ := search_missing h (keyAt_ne hno)
      rw [hnext, ok_bind, hmatch, ok_bind]
      dsimp only
      rw [if_neg Bool.false_ne_true]
      split
      · next hfull =>
        refine (increaseSize_same h (Nat.not_lt.2 hfull)).bind fun t₁ _ ⟨hs, hleft⟩ => ?_
        rw [← hs.count] at hleft ⊢
        refine (ih hs.valid ?_).mono (fun _ he => he) fun r _ hp => hp.of_same hs
        rw [hs.count] at hleft ⊢
        omega
      · next hlt =>
        have hallowed : t.mMaxNumElementsAllowed ≠ 0 := by omega
        have hroom : t.mNumElements < calcMaxNumElementsAllowed (t.mMask + 1) := by
          rw [← (h.small hallowed).1]
          omega
        obtain ⟨isNew, t₁, t₂, hrun, hset, hadded, _⟩ := prepareSpot_added h hno hroom hallowed
          hspot (t.firstOf hash key + d * t.mInfoInc) value
        rw [hrun, ok_bind]
        cases isNew with
        | true => exact ⟨hno, t₂, hset, hadded⟩
        | false => exact ⟨hno, t₂, hset, hadded⟩

theorem insertKeyPrepareEmptySpot_prepared (h : Sound hash t) (key : κ) (value : ν) :
    Ends (Throws t.mNumElements) (Prepared hash t key value)
      (t.insertKeyPrepareEmptySpot hash key) := by
  unfold insertKeyPrepareEmptySpot
  rcases h with rfl | h
  · have hs := same_initData (ν := ν) hash
    rw [prepareEmptySpotLoop_new]
    exact (prepareEmptySpotLoop_prepared hs.valid key value
      (.inr (Nat.le_trans (turnsLeft_le _) (by decide)))).mono (fun _ he => he)
      fun r _ hp => hp.of_same hs
  · exact prepareEmptySpotLoop_prepared h key value
      (.inr (Nat.le_trans (turnsLeft_le t) (by decide)))

/-- An insertion finds the key, or adds it, or throws. -/
theorem emplace_spec (h : Sound hash t) (key : κ) (value : ν) :
    Ends (Throws t.mNumElements) (fun r =>
      (r.1.2 = false ∧ Same hash t r.2 ∧ ∃ v, r.2.mKeyVals r.1.1 = some (key, v)) ∨
      (r.1.2 = true ∧ (∀ v, ¬ t.Holds key v) ∧ Added hash t r.2 key value r.1.1))
      (t.emplace hash key value) := by
  unfold emplace
  refine (insertKeyPrepareEmptySpot_prepared h key value).bind ?_
  rintro ⟨⟨idx, state⟩, t₁⟩ - hp
  cases state with
  | keyFound => exact .inl ⟨rfl, hp⟩
  | newNode =>
    obtain ⟨hno, t₂, hset, hadded⟩ := hp
    dsimp only
    rw [hset]
    exact .inr ⟨rfl, hno, hadded⟩
  | overwriteNode =>
    obtain ⟨hno, t₂, hset, hadded⟩ := hp
    dsimp only
    rw [hset]
    exact .inr ⟨rfl, hno, hadded⟩
  | overflowError => exact ⟨rfl, hp⟩

end Insertion

/-! ### Iteration -/

theorem filterMap_skip (h : Valid hash t) (hi : idx + k ≤ t.numElementsWithBuffer)
    (hempty : ∀ j, idx ≤ j → j < idx + k → t.info j = 0) :
    (List.range' idx (t.numElementsWithBuffer - idx)).filterMap t.mKeyVals =
      (List.range' (idx + k) (t.numElementsWithBuffer - (idx + k))).filterMap t.mKeyVals := by
  induction k with
  | zero => rfl
  | succ k ih =>
    obtain ⟨m, hm⟩ : ∃ m, t.numElementsWithBuffer - (idx + k) = m + 1 :=
      ⟨t.numElementsWithBuffer - (idx + (k + 1)), by omega⟩
    have hnone := (h.filled (idx + k) (by omega)).1 (hempty _ (by omega) (by omega))
    rw [ih (by omega) (fun j hj hlt => hempty j hj (by omega)), hm, List.range'_succ,
      List.filterMap_cons_none hnone, ← Nat.add_assoc, Nat.sub_succ, hm]
    rfl

theorem entriesLoop_eq (h : Valid hash t) (hi : i ≤ t.numElementsWithBuffer) (hfull : t.info i ≠ 0)
    (hturns : t.numElementsWithBuffer < i + turns) : t.entriesLoop turns i =
      .ok ((List.range' i (t.numElementsWithBuffer - i)).filterMap t.mKeyVals) := by
  induction turns generalizing i with
  | zero => omega
  | succ turns ih =>
    rw [entriesLoop, h.endIdx_eq]
    rcases Nat.lt_or_eq_of_le hi with hlt | rfl
    · obtain ⟨node, hn⟩ := h.exists_node (h.info_ne_zero hlt hfull)
      obtain ⟨i', hle, hi', hempty, hfull'⟩ :=
        exists_full h (show i + 1 ≤ t.numElementsWithBuffer from hlt)
      obtain ⟨m, hm⟩ : ∃ m, t.numElementsWithBuffer - i = m + 1 :=
        ⟨t.numElementsWithBuffer - (i + 1), by omega⟩
      have hforward := nextIdx_eq h hle hi' hempty hfull'
      obtain ⟨k, rfl⟩ := Nat.exists_eq_add_of_le hle
      have hskip := filterMap_skip h hi' hempty
      rw [if_neg (Nat.ne_of_lt hlt), nodeAt_eq hn, ok_bind, hforward, ok_bind,
        ih hi' hfull' (by omega), ok_bind, ← hskip, Nat.sub_succ, hm, List.range'_succ,
        List.filterMap_cons_some hn]
      rfl
    · rw [if_pos rfl, Nat.sub_self]
      rfl

/-- A loop over a table visits its entries in the order of their slots. -/
theorem entries_eq (h : Valid hash t) :
    t.entries = .ok ((List.range t.numElementsWithBuffer).filterMap t.mKeyVals) := by
  have hall : (List.range t.numElementsWithBuffer).filterMap t.mKeyVals =
      (List.range' 0 (t.numElementsWithBuffer - 0)).filterMap t.mKeyVals := by
    rw [List.range_eq_range', Nat.sub_zero]
  rw [hall]
  obtain ⟨i, _, hi, hempty, hfull⟩ := exists_full h (Nat.zero_le t.numElementsWithBuffer)
  have hbegin : t.beginIdx = .ok i := by
    unfold beginIdx
    split
    · next hzero =>
      have hocc : t.occupied = ∅ := Finset.card_eq_zero.1 (h.size.symm.trans hzero)
      have hend : i = t.numElementsWithBuffer := by
        by_contra hne
        have hmem : i ∈ t.occupied :=
          Finset.mem_filter.2 ⟨Finset.mem_range.2 (Nat.lt_of_le_of_ne hi hne), hfull⟩
        rw [hocc] at hmem
        exact absurd hmem (Finset.notMem_empty i)
      rw [h.endIdx_eq, hend]
      rfl
    · exact fastForward_eq h (Nat.zero_le i) hi hempty hfull (by rw [h.maxTurns_eq]; omega)
  have hskip := filterMap_skip (k := i) h (show 0 + i ≤ _ by omega) (by rwa [Nat.zero_add])
  unfold entries
  rw [hbegin, ok_bind, entriesLoop_eq h hi hfull (by rw [h.maxTurns_eq]; omega), hskip,
    Nat.zero_add]

theorem entries_new : (new : Table κ ν).entries = .ok [] := rfl

end Table

end RapidTrader
