import RapidTrader.TableLookup

namespace RapidTrader
open Lib Function
set_option autoImplicit true

namespace Table
variable {κ ν : Type} {hash : κ → UInt64} {t : Table κ ν}

/-- The map that a table holds. -/
def Holds (t : Table κ ν) (key : κ) (value : ν) : Prop := ∃ j, t.mKeyVals j = some (key, value)

theorem keyAt_ne (h : ∀ value, ¬ t.Holds key value) (j : Nat) : t.keyAt j ≠ some key := fun he => by
  obtain ⟨value, hn⟩ := keyAt_eq_some.1 he
  exact h value ⟨j, hn⟩

/-- A table after the entries have been moved. -/
def stored (t : Table κ ν) (mKeyVals : Nat → Option (κ × ν)) (mInfo : Nat → UInt8)
    (allowed : Nat) : Table κ ν :=
  { t with mKeyVals := mKeyVals, mInfo := mInfo, mMaxNumElementsAllowed := allowed }

section Stored
variable (t : Table κ ν) (mKeyVals : Nat → Option (κ × ν)) (mInfo : Nat → UInt8) (allowed : Nat)

@[simp] theorem stored_mKeyVals : (t.stored mKeyVals mInfo allowed).mKeyVals = mKeyVals := rfl

@[simp] theorem stored_mInfoInc : (t.stored mKeyVals mInfo allowed).mInfoInc = t.mInfoInc := rfl

@[simp] theorem stored_numElementsWithBuffer :
    (t.stored mKeyVals mInfo allowed).numElementsWithBuffer = t.numElementsWithBuffer := rfl

@[simp] theorem stored_maxTurns : (t.stored mKeyVals mInfo allowed).maxTurns = t.maxTurns := rfl

@[simp] theorem stored_info (j : Nat) :
    (t.stored mKeyVals mInfo allowed).info j = (mInfo j).toNat := rfl

@[simp] theorem stored_stored (mKeyVals' mInfo' allowed') :
    (t.stored mKeyVals mInfo allowed).stored mKeyVals' mInfo' allowed' =
      t.stored mKeyVals' mInfo' allowed' := rfl

end Stored

theorem numBytesInfo_of_mask (h : t.mMask ≠ 0) : t.numBytesInfo = t.numElementsWithBuffer + 8 :=
  if_neg h

theorem infoAt_eq (hm : t.mMask ≠ 0) (hj : j < t.numElementsWithBuffer + 8) :
    t.infoAt j = .ok (t.info j) := if_pos (numBytesInfo_of_mask hm ▸ hj)

theorem nodeAt_eq (h : t.mKeyVals j = some node) : t.nodeAt j = .ok node := by
  unfold nodeAt
  rw [h]

theorem setInfo_eq (hm : t.mMask ≠ 0) (hj : j < t.numElementsWithBuffer + 8) (x : Nat) :
    t.setInfo j x = .ok (t.stored t.mKeyVals (update t.mInfo j (UInt8.ofNat x))
      t.mMaxNumElementsAllowed) := if_pos ⟨hm, numBytesInfo_of_mask hm ▸ hj⟩

theorem setNode_eq (hm : t.mMask ≠ 0) (hj : j < t.numElementsWithBuffer) (node : Option (κ × ν)) :
    t.setNode j node = .ok (t.stored (update t.mKeyVals j node) t.mInfo
      t.mMaxNumElementsAllowed) := if_pos ⟨hm, hj⟩

theorem skipWhile_stored (mKeyVals : Nat → Option (κ × ν)) (allowed : Nat)
    (pass : Nat → Nat → Bool) (turns : Nat) (p : Nat × Nat) :
    (t.stored mKeyVals t.mInfo allowed).skipWhile pass turns p = t.skipWhile pass turns p := by
  induction turns generalizing p with
  | zero => rfl
  | succ turns ih =>
    simp only [skipWhile, ih]
    rfl

/-- A number that fits is not changed by being written. -/
theorem toNat_update (mInfo : Nat → UInt8) (hx : x ≤ 255) (j : Nat) :
    (update mInfo i (UInt8.ofNat x) j).toNat = update (fun j => (mInfo j).toNat) i x j := by
  rw [update_apply, update_apply]
  split
  · exact UInt8.toNat_ofNat_of_lt' (Nat.lt_succ_of_le hx)
  · rfl

/-! ### The loops -/

theorem shiftNodesUp_eq (hm : t.mMask ≠ 0) (hn : p + n < t.numElementsWithBuffer)
    (hnode : ∀ j, p ≤ j → j < p + n → ∃ node, t.mKeyVals j = some node) :
    shiftNodesUp p n t = .ok (t.stored (shiftedUp t.mKeyVals id p (p + n) (t.mKeyVals p)) t.mInfo
      t.mMaxNumElementsAllowed) := by
  induction n generalizing t with
  | zero =>
    rw [Nat.add_zero, shiftedUp_refl]
    rfl
  | succ n ih =>
    obtain ⟨node, hat⟩ := hnode (p + n) (by omega) (by omega)
    have hrun := ih (t := t.stored (update t.mKeyVals (p + n + 1) (some node)) t.mInfo
      t.mMaxNumElementsAllowed) hm (Nat.lt_of_succ_lt hn) (fun j hj hlt => by
        obtain ⟨node', hat'⟩ := hnode j hj (by omega)
        exact ⟨node', (update_of_ne (by omega) _ _).trans hat'⟩)
    rw [stored_stored, stored_mKeyVals, update_of_ne (by omega), ← hat,
      ← id_eq (t.mKeyVals (p + n)), shiftedUp_succ (Nat.le_add_right p n), id_eq, hat] at hrun
    rw [shiftNodesUp, nodeAt_eq hat, ok_bind, setNode_eq hm (by omega), ok_bind]
    exact hrun

theorem shiftInfoUp_eq (hm : t.mMask ≠ 0) (hn : p + n < t.numElementsWithBuffer)
    (hfit : ∀ j, p ≤ j → j < p + n → t.info j + t.mInfoInc ≤ 255) : ∃ mInfo allowed,
      shiftInfoUp p n t = .ok (t.stored t.mKeyVals mInfo allowed) ∧
      (∀ j, (mInfo j).toNat = shiftedUp t.info (· + t.mInfoInc) p (p + n) (t.info p) j) ∧
      (allowed ≠ 0 → allowed = t.mMaxNumElementsAllowed ∧
        ∀ j, p < j → j ≤ p + n → (mInfo j).toNat + t.mInfoInc ≤ 255) ∧
      (allowed = 0 → t.mMaxNumElementsAllowed = 0 ∨
        ∃ j, p < j ∧ j ≤ p + n ∧ 255 < (mInfo j).toNat + t.mInfoInc) := by
  induction n generalizing t with
  | zero =>
    rw [Nat.add_zero, shiftedUp_refl]
    exact ⟨t.mInfo, t.mMaxNumElementsAllowed, rfl, fun _ => rfl,
      fun _ => ⟨rfl, fun j _ _ => by omega⟩, .inl⟩
  | succ n ih =>
    have hx := hfit (p + n) (by omega) (by omega)
    let mInfo₁ := update t.mInfo (p + n + 1) (UInt8.ofNat (t.info (p + n) + t.mInfoInc))
    have hinfo₁ : (fun j => (mInfo₁ j).toNat) =
        update t.info (p + n + 1) (t.info (p + n) + t.mInfoInc) := funext (toNat_update t.mInfo hx)
    have hbefore (j : Nat) (hj : j < p + n + 1) : (mInfo₁ j).toNat = t.info j :=
      (congrFun hinfo₁ j).trans (update_of_ne (by omega) _ _)
    have hnew : (mInfo₁ (p + n + 1)).toNat = t.info (p + n) + t.mInfoInc :=
      (congrFun hinfo₁ _).trans (update_self _ _ _)
    obtain ⟨allowed₁, hstep, hallowed₁, hcrowded₁⟩ : ∃ allowed,
        shiftInfoUp p (n + 1) t = shiftInfoUp p n (t.stored t.mKeyVals mInfo₁ allowed) ∧
        (allowed ≠ 0 → allowed = t.mMaxNumElementsAllowed ∧
          (mInfo₁ (p + n + 1)).toNat + t.mInfoInc ≤ 255) ∧
        (allowed = 0 → t.mMaxNumElementsAllowed = 0 ∨
          255 < (mInfo₁ (p + n + 1)).toNat + t.mInfoInc) := by
      rw [shiftInfoUp, infoAt_eq hm (by omega), ok_bind, setInfo_eq hm (by omega), ok_bind,
        infoAt_eq (by exact hm) (by rw [stored_numElementsWithBuffer]; omega), ok_bind]
      split
      · next hgt => exact ⟨0, rfl, fun h => absurd rfl h, fun _ => .inr hgt⟩
      · next hle =>
        exact ⟨t.mMaxNumElementsAllowed, rfl, fun _ => ⟨rfl, Nat.not_lt.1 hle⟩, .inl⟩
    obtain ⟨mInfo, allowed, hrun, hinfo, hallowed, hcrowded⟩ :=
      ih (t := t.stored t.mKeyVals mInfo₁ allowed₁) hm (Nat.lt_of_succ_lt hn) (fun j hj hlt => by
        rw [stored_info, stored_mInfoInc, hbefore j (by omega)]
        exact hfit j hj (by omega))
    have hshifted (j : Nat) :
        (mInfo j).toNat = shiftedUp t.info (· + t.mInfoInc) p (p + (n + 1)) (t.info p) j := by
      rw [hinfo j, stored_info, hbefore p (by omega)]
      show shiftedUp (fun j => (mInfo₁ j).toNat) (· + t.mInfoInc) _ _ _ j = _
      rw [hinfo₁, shiftedUp_succ (g := (· + t.mInfoInc)) (Nat.le_add_right p n)]
      rfl
    have hlast : (mInfo (p + n + 1)).toNat = (mInfo₁ (p + n + 1)).toNat := by
      rw [hshifted, shiftedUp_moved (by omega) (by omega), hnew]
      rfl
    refine ⟨mInfo, allowed, hstep.trans hrun, hshifted, fun ha => ?_, fun ha => ?_⟩
    · obtain ⟨rfl, hold⟩ := hallowed ha
      obtain ⟨heq, hlow⟩ := hallowed₁ ha
      refine ⟨heq, fun j hj hle => ?_⟩
      rcases Nat.lt_or_eq_of_le hle with hlt | rfl
      · exact hold j hj (Nat.le_of_lt_succ hlt)
      · exact hlast ▸ hlow
    · rcases hcrowded ha with ha₁ | ⟨j, hj, hle, hgt⟩
      · refine (hcrowded₁ ha₁).imp_right fun hgt => ?_
        exact ⟨p + n + 1, by omega, Nat.le_refl _, hlast ▸ hgt⟩
      · exact .inr ⟨j, hj, Nat.le_succ_of_le hle, hgt⟩

theorem shiftDownLoop_eq (hm : t.mMask ≠ 0) (hn : p + n < t.numElementsWithBuffer)
    (hnode : ∀ j, p < j → j ≤ p + n → ∃ node, t.mKeyVals j = some node)
    (haway : ∀ j, p < j → j ≤ p + n → 2 * t.mInfoInc ≤ t.info j)
    (hend : t.info (p + n + 1) < 2 * t.mInfoInc) (hturns : n < m) : ∃ mInfo,
      shiftDownLoop m t p = .ok (t.stored (shiftedDown t.mKeyVals id p (p + n) (t.mKeyVals (p + n)))
        mInfo t.mMaxNumElementsAllowed, p + n) ∧
      ∀ j, (mInfo j).toNat = shiftedDown t.info (· - t.mInfoInc) p (p + n) (t.info (p + n)) j := by
  induction n generalizing t p m with
  | zero =>
    obtain ⟨m, rfl⟩ := Nat.exists_eq_succ_of_ne_zero (Nat.ne_of_gt hturns)
    rw [shiftDownLoop, infoAt_eq hm (by omega), ok_bind, if_neg (Nat.not_le.2 hend), Nat.add_zero,
      shiftedDown_refl, shiftedDown_refl]
    exact ⟨t.mInfo, rfl, fun _ => rfl⟩
  | succ n ih =>
    obtain ⟨m, rfl⟩ := Nat.exists_eq_succ_of_ne_zero (Nat.ne_of_gt (Nat.zero_lt_of_lt hturns))
    obtain ⟨node, hat⟩ := hnode (p + 1) (by omega) (by omega)
    have hle := haway (p + 1) (by omega) (by omega)
    have hx : t.info (p + 1) - t.mInfoInc ≤ 255 := by
      have := t.info_le (p + 1)
      omega
    let mInfo₁ := update t.mInfo p (UInt8.ofNat (t.info (p + 1) - t.mInfoInc))
    have hinfo₁ : (fun j => (mInfo₁ j).toNat) = update t.info p (t.info (p + 1) - t.mInfoInc) :=
      funext (toNat_update t.mInfo hx)
    have hafter (j : Nat) (hj : p < j) : (mInfo₁ j).toNat = t.info j :=
      (congrFun hinfo₁ j).trans (update_of_ne (by omega) _ _)
    have hidx : p + 1 + n = p + (n + 1) := by omega
    obtain ⟨mInfo, hrun, hinfo⟩ := ih (p := p + 1) (m := m)
      (t := t.stored (update t.mKeyVals p (some node)) mInfo₁ t.mMaxNumElementsAllowed) hm
      (by rw [stored_numElementsWithBuffer]; omega)
      (fun j hj hlt => by
        obtain ⟨node', hat'⟩ := hnode j (by omega) (by omega)
        exact ⟨node', (update_of_ne (by omega) _ _).trans hat'⟩)
      (fun j hj hlt => by
        rw [stored_info, stored_mInfoInc, hafter j (by omega)]
        exact haway j (by omega) (by omega))
      (by
        rw [stored_info, stored_mInfoInc, hafter _ (by omega), hidx]
        exact hend)
      (by omega)
    rw [hidx] at hrun hinfo
    refine ⟨mInfo, ?_, fun j => ?_⟩
    · rw [shiftDownLoop, infoAt_eq hm (by omega), ok_bind, if_pos hle, setInfo_eq hm (by omega),
        ok_bind, nodeAt_eq (by exact hat), ok_bind,
        setNode_eq (by exact hm) (by rw [stored_numElementsWithBuffer]; omega), ok_bind]
      refine hrun.trans ?_
      rw [stored_stored, stored_mKeyVals, update_of_ne (by omega), ← hat,
        ← shiftedDown_succ (f := t.mKeyVals) (g := id) (p := p) (e := p + (n + 1)) (by omega)]
      rfl
    · rw [hinfo j, stored_info, hafter _ (by omega), stored_mInfoInc,
        ← shiftedDown_succ (f := t.info) (g := (· - t.mInfoInc)) (p := p) (e := p + (n + 1))
          (by omega)]
      show shiftedDown (fun j => (mInfo₁ j).toNat) _ _ _ _ j = _
      rw [hinfo₁]

/-! ### Adding an entry -/

/-- The first empty slot from a slot on. -/
structure FirstEmpty (t : Table κ ν) (p e : Nat) : Prop where
  le : p ≤ e
  lt : e < t.numElementsWithBuffer
  full : ∀ j, p ≤ j → j < e → t.info j ≠ 0
  empty : t.info e = 0

theorem Spot.firstEmpty (h : Valid hash t) (hspot : Spot hash t key d)
    (hroom : t.mNumElements < calcMaxNumElementsAllowed (t.mMask + 1)) :
    ∃ e, FirstEmpty t (t.homeOf hash key + d) e := by
  obtain ⟨e, hle, hlt, hempty⟩ := h.exists_empty hroom (homeOf_le hash t key)
  have hfirst := h.first_bounds key
  have hinc := h.inc_bounds
  have hge : t.homeOf hash key + d ≤ e := by
    by_contra hno
    obtain ⟨k, rfl⟩ := Nat.exists_eq_add_of_le hle
    have := hspot.passed k (by omega)
    omega
  have hex : ∃ e, t.homeOf hash key + d ≤ e ∧ t.info e = 0 := ⟨e, hge, hempty⟩
  exact ⟨Nat.find hex, (Nat.find_spec hex).1,
    Nat.lt_of_le_of_lt (Nat.find_min' hex ⟨hge, hempty⟩) hlt,
    fun j hj hlt' hzero => Nat.find_min hex hlt' ⟨hj, hzero⟩, (Nat.find_spec hex).2⟩

/-- There is room in its byte for the number of an entry that may be added. -/
theorem Spot.fits (h : Valid hash t) (hspot : Spot hash t key d)
    (hallowed : t.mMaxNumElementsAllowed ≠ 0) :
    t.firstOf hash key + d * t.mInfoInc ≤ 255 := by
  have hfirst := h.first_bounds key
  have hinc := h.inc_bounds
  cases d with
  | zero => omega
  | succ k =>
    have hpassed := hspot.passed k (Nat.lt_succ_self k)
    have hsmall := (h.small hallowed).2 (t.homeOf hash key + k)
    rw [Nat.succ_mul]
    omega

theorem FirstEmpty.skip (h : Valid hash t) (he : FirstEmpty t p e) (info : Nat) :
    t.skipWhile (fun _ byte => byte ≠ 0) t.maxTurns (info, p) =
      .ok (info + (e - p) * t.mInfoInc, e) := by
  obtain ⟨d, rfl⟩ := Nat.exists_eq_add_of_le he.le
  have hlt := he.lt
  have hrun := skipWhile_eq (j := 0) (d := d) (p := (info, p)) (n := t.maxTurns) h
    (fun _ byte => byte ≠ 0)
    (fun k _ hk => decide_eq_true (he.full (p + k) (by omega) (by omega)))
    (decide_eq_false (not_not.2 he.empty)) (Nat.zero_le d) (by show p + d < _; omega)
    (by rw [h.maxTurns_eq]; omega)
  rw [Nat.zero_mul, Nat.add_zero, Nat.add_zero] at hrun
  rw [hrun, Nat.add_sub_cancel_left]

/-- The entries and their numbers after `prepareSpot`, whose slot keeps the entry that it had. -/
theorem prepareSpot_eq (h : Valid hash t) (he : FirstEmpty t p e)
    (hallowed : t.mMaxNumElementsAllowed ≠ 0) (hx : x ≤ 255) (info : Nat) : ∃ mInfo allowed,
      t.prepareSpot info p x = .ok (decide (e = p),
        { t.stored (shiftedUp t.mKeyVals id p e (t.mKeyVals p)) mInfo allowed with
          mNumElements := t.mNumElements + 1 }) ∧
      (∀ j, (mInfo j).toNat = shiftedUp t.info (· + t.mInfoInc) p e x j) ∧
      (allowed ≠ 0 → allowed = t.mMaxNumElementsAllowed ∧
        ∀ j, p ≤ j → j ≤ e → (mInfo j).toNat + t.mInfoInc ≤ 255) ∧
      (allowed = 0 → ∃ j, 255 < (mInfo j).toNat + t.mInfoInc) := by
  have hm := h.mask_ne_zero
  have hlt := he.lt
  obtain ⟨allowed₀, hstep, hallowed₀, hcrowded₀⟩ : ∃ allowed,
      (if x + t.mInfoInc > 0xFF then { t with mMaxNumElementsAllowed := 0 } else t) =
        t.stored t.mKeyVals t.mInfo allowed ∧
      (allowed ≠ 0 → allowed = t.mMaxNumElementsAllowed ∧ x + t.mInfoInc ≤ 255) ∧
      (allowed = 0 → 255 < x + t.mInfoInc) := by
    split
    · next hgt => exact ⟨0, rfl, fun hz => absurd rfl hz, fun _ => hgt⟩
    · next hle =>
      exact ⟨t.mMaxNumElementsAllowed, rfl, fun _ => ⟨rfl, Nat.not_lt.1 hle⟩,
        fun hz => absurd hz hallowed⟩
  obtain ⟨n, rfl⟩ := Nat.exists_eq_add_of_le he.le
  have hnode (j : Nat) (hj : p ≤ j) (hje : j < p + n) : ∃ node, t.mKeyVals j = some node :=
    h.exists_node (h.info_ne_zero (by omega) (he.full j hj hje))
  have hnodes := shiftNodesUp_eq (t := t.stored t.mKeyVals t.mInfo allowed₀) hm hlt hnode
  obtain ⟨mInfo, allowed, hinfos, hinfo, hkept, hcrowded⟩ := shiftInfoUp_eq (p := p) (n := n)
    (t := t.stored (shiftedUp t.mKeyVals id p (p + n) (t.mKeyVals p)) t.mInfo allowed₀) hm hlt
    (fun j _ _ => (h.small hallowed).2 j)
  have hup : (t.stored t.mKeyVals t.mInfo allowed₀).shiftUp (p + n) p =
      .ok (t.stored (shiftedUp t.mKeyVals id p (p + n) (t.mKeyVals p)) mInfo allowed) := by
    unfold shiftUp
    rw [Nat.add_sub_cancel_left, hnodes]
    exact hinfos
  have hself : p + n = p →
      t.stored (shiftedUp t.mKeyVals id p (p + n) (t.mKeyVals p)) mInfo allowed =
        t.stored t.mKeyVals t.mInfo allowed₀ := fun heq => by
    obtain rfl : n = 0 := by omega
    rw [shiftUp, Nat.add_zero, Nat.sub_self] at hup
    exact (Except.ok.inj hup).symm
  refine ⟨update mInfo p (UInt8.ofNat x), allowed, ?_, fun j => ?_, fun ha => ?_, fun ha => ?_⟩
  · unfold prepareSpot
    rw [hstep]
    dsimp only
    rw [skipWhile_stored, stored_maxTurns, he.skip h, ok_bind]
    dsimp only
    split
    · rw [hup, ok_bind, setInfo_eq (by exact hm) (by rw [stored_numElementsWithBuffer]; omega)]
      rfl
    · next heq =>
      rw [← hself (not_not.1 heq), pure_bind, setInfo_eq (by exact hm)
        (by rw [stored_numElementsWithBuffer]; omega)]
      rfl
  · rw [toNat_update _ hx, funext hinfo, update_shiftedUp]
    rfl
  · obtain ⟨rfl, hmoved⟩ := hkept ha
    obtain ⟨heq, hnew⟩ := hallowed₀ ha
    refine ⟨heq, fun j hj hle => ?_⟩
    rw [toNat_update _ hx, update_apply]
    split
    · exact hnew
    · exact hmoved j (by omega) hle
  · rcases hcrowded ha with ha₀ | ⟨j, hj, _, hgt⟩
    · refine ⟨p, ?_⟩
      rw [toNat_update _ hx, update_self]
      exact hcrowded₀ ha₀
    · refine ⟨j, ?_⟩
      rw [toNat_update _ hx, update_of_ne (Nat.ne_of_gt hj)]
      exact hgt

/-- A table with an entry in a spot, and those from there to the first empty slot moved up. -/
def inserted (t : Table κ ν) (p e : Nat) (node : κ × ν) (mInfo : Nat → UInt8) (allowed : Nat) :
    Table κ ν :=
  { t.stored (shiftedUp t.mKeyVals id p e (some node)) mInfo allowed with
    mNumElements := t.mNumElements + 1 }

section Inserted
variable {mInfo : Nat → UInt8}

theorem FirstEmpty.holds (h : Valid hash t) (he : FirstEmpty t p e) :
    (t.inserted p e (key, value) mInfo allowed).mKeyVals j = some (key', value') ↔
      j = p ∧ (key', value') = (key, value) ∨ ∃ i, t.mKeyVals i = some (key', value') ∧
        j = if p ≤ i ∧ i < e then i + 1 else i :=
  shiftedUp_eq_some he.le ((h.filled e he.lt).1 he.empty)

theorem FirstEmpty.occupied (h : Valid hash t) (he : FirstEmpty t p e) (hx : x ≠ 0)
    (hinfo : ∀ j, (mInfo j).toNat = shiftedUp t.info (· + t.mInfoInc) p e x j) :
    (t.inserted p e node mInfo allowed).occupied = insert e t.occupied := by
  have hinc := h.inc_bounds
  have hlt := he.lt
  ext j
  rw [Finset.mem_insert]
  unfold Table.occupied
  rw [Finset.mem_filter, Finset.mem_filter, Finset.mem_range, Finset.mem_range]
  show j < t.numElementsWithBuffer ∧ (mInfo j).toNat ≠ 0 ↔ _
  rw [hinfo]
  rcases Nat.lt_trichotomy j p with hj | rfl | hj
  · have hle := he.le
    rw [shiftedUp_of_lt hj]
    exact ⟨.inr, fun ho => ho.resolve_left (by omega)⟩
  · rw [shiftedUp_self]
    refine ⟨fun ho => ?_, fun _ => ⟨Nat.lt_of_le_of_lt he.le hlt, hx⟩⟩
    rcases Nat.lt_or_eq_of_le he.le with hje | rfl
    · exact .inr ⟨ho.1, he.full j (Nat.le_refl j) hje⟩
    · exact .inl rfl
  · rcases Nat.lt_trichotomy j e with hje | rfl | hje
    · rw [shiftedUp_moved hj (Nat.le_of_lt hje)]
      exact ⟨fun ho => .inr ⟨ho.1, he.full j (Nat.le_of_lt hj) hje⟩,
        fun _ => ⟨by omega, by omega⟩⟩
    · rw [shiftedUp_moved hj (Nat.le_refl j)]
      exact ⟨fun _ => .inl rfl, fun _ => ⟨hlt, by omega⟩⟩
    · rw [shiftedUp_of_gt he.le hje]
      exact ⟨.inr, fun ho => ho.resolve_left (by omega)⟩

/-- The new entry is where its number says, and so are the others. -/
theorem FirstEmpty.placed (h : Valid hash t) (he : FirstEmpty t (t.homeOf hash key + d) e)
    (hinfo : ∀ j, (mInfo j).toNat = shiftedUp t.info (· + t.mInfoInc) (t.homeOf hash key + d) e
      (t.firstOf hash key + d * t.mInfoInc) j)
    (hn : (t.inserted (t.homeOf hash key + d) e (key, value) mInfo allowed).mKeyVals j =
      some (key', value')) : t.homeOf hash key' ≤ j ∧
      (mInfo j).toNat = t.firstOf hash key' + (j - t.homeOf hash key') * t.mInfoInc := by
  have hinc := h.inc_bounds
  rw [hinfo]
  rcases (he.holds h).1 hn with ⟨rfl, heq⟩ | ⟨i, hi, rfl⟩
  · cases heq
    rw [shiftedUp_self, Nat.add_sub_cancel_left]
    exact ⟨Nat.le_add_right _ _, rfl⟩
  · obtain ⟨hhome, hnum⟩ := h.placed i key' value' hi
    have hne : i ≠ e := by
      rintro rfl
      have := h.inc_le_info hi
      have := he.empty
      omega
    split
    · next hmoved =>
      rw [shiftedUp_moved (by omega) (by omega), Nat.add_sub_cancel, hnum,
        Nat.succ_sub hhome, Nat.succ_mul]
      exact ⟨Nat.le_succ_of_le hhome, by omega⟩
    · next hstays =>
      refine ⟨hhome, ?_⟩
      rcases Nat.lt_or_ge i (t.homeOf hash key + d) with hip | hip
      · rw [shiftedUp_of_lt hip, hnum]
      · rw [shiftedUp_of_gt he.le (by omega), hnum]

theorem Valid.inserted (h : Valid hash t) (hno : ∀ v, ¬ t.Holds key v)
    (hroom : t.mNumElements < calcMaxNumElementsAllowed (t.mMask + 1))
    (hallowed : t.mMaxNumElementsAllowed ≠ 0) (hspot : Spot hash t key d)
    (he : FirstEmpty t (t.homeOf hash key + d) e)
    (hinfo : ∀ j, (mInfo j).toNat = shiftedUp t.info (· + t.mInfoInc) (t.homeOf hash key + d) e
      (t.firstOf hash key + d * t.mInfoInc) j)
    (hkept : allowed ≠ 0 → allowed = t.mMaxNumElementsAllowed ∧
      ∀ j, t.homeOf hash key + d ≤ j → j ≤ e → (mInfo j).toNat + t.mInfoInc ≤ 255) :
    Valid hash (t.inserted (t.homeOf hash key + d) e (key, value) mInfo allowed) := by
  have hfirst := h.first_bounds key
  have hinc := h.inc_bounds
  have hle := he.le
  have hlt := he.lt
  constructor
  case mask => exact h.mask
  case shift => exact h.shift
  case inc => exact h.inc
  case sentinel => exact (hinfo _).trans ((shiftedUp_of_gt hle hlt).trans h.sentinel)
  case padding =>
    intro j hj
    exact (hinfo j).trans ((shiftedUp_of_gt hle (Nat.lt_trans hlt hj)).trans (h.padding j hj))
  case free =>
    intro j hj
    exact (shiftedUp_of_gt hle (Nat.lt_of_lt_of_le hlt hj)).trans (h.free j hj)
  case filled =>
    intro j hj
    show (mInfo j).toNat = 0 ↔ shiftedUp t.mKeyVals id _ e (some (key, value)) j = none
    rw [hinfo]
    rcases Nat.lt_trichotomy j (t.homeOf hash key + d) with hjp | rfl | hjp
    · rw [shiftedUp_of_lt hjp, shiftedUp_of_lt hjp]
      exact h.filled j hj
    · rw [shiftedUp_self, shiftedUp_self]
      exact iff_of_false (by omega) (by simp)
    · rcases Nat.lt_or_ge e j with hje | hje
      · rw [shiftedUp_of_gt hle hje, shiftedUp_of_gt hle hje]
        exact h.filled j hj
      · rw [shiftedUp_moved hjp hje, shiftedUp_moved hjp hje]
        refine iff_of_false (by omega) fun hnone => ?_
        exact he.full (j - 1) (by omega) (by omega) ((h.filled (j - 1) (by omega)).2 hnone)
  case placed => exact fun j key' value' => he.placed h hinfo
  case ordered =>
    have hord := h.ordered.shiftedUp (x := t.firstOf hash key + d * t.mInfoInc) hle
      (fun j hj hje => h.info_ne_zero (by omega) (he.full j hj hje)) he.empty hspot.lower (by
        cases d with
        | zero => exact .inl (by omega)
        | succ k =>
          refine .inr ⟨t.homeOf hash key + k, rfl, ?_⟩
          have := hspot.passed k (Nat.lt_succ_self k)
          rw [Nat.succ_mul]
          omega)
    rwa [← funext hinfo] at hord
  case unique =>
    intro i j key' v v' hi hj
    rcases (he.holds h).1 hi with ⟨rfl, heq⟩ | ⟨i', hi', rfl⟩
    · cases heq
      rcases (he.holds h).1 hj with ⟨rfl, _⟩ | ⟨j', hj', _⟩
      · rfl
      · exact absurd ⟨j', hj'⟩ (hno v')
    · rcases (he.holds h).1 hj with ⟨rfl, heq⟩ | ⟨j', hj', rfl⟩
      · cases heq
        exact absurd ⟨i', hi'⟩ (hno v)
      · rw [h.unique i' j' key' v v' hi' hj']
  case size =>
    rw [he.occupied h (by omega) hinfo, Finset.card_insert_of_notMem, ← h.size]
    · rfl
    · exact fun hmem => (Finset.mem_filter.1 hmem).2 he.empty
  case room => exact hroom
  case small =>
    intro ha
    obtain ⟨heq, hmoved⟩ := hkept ha
    refine ⟨heq.trans (h.small hallowed).1, fun j => ?_⟩
    show (mInfo j).toNat + t.mInfoInc ≤ 255
    by_cases hj : t.homeOf hash key + d ≤ j ∧ j ≤ e
    · exact hmoved j hj.1 hj.2
    · rw [hinfo]
      rcases Nat.lt_or_ge j (t.homeOf hash key + d) with hjp | hjp
      · rw [shiftedUp_of_lt hjp]
        exact (h.small hallowed).2 j
      · rw [shiftedUp_of_gt hle (by omega)]
        exact (h.small hallowed).2 j

/-- Some number leaves no room for one more `mInfoInc` in its byte. -/
def Crowded (t : Table κ ν) : Prop := ∃ j, 255 < t.info j + t.mInfoInc

/-- What adding an entry does, if its key has none before. -/
structure Added (hash : κ → UInt64) (t t' : Table κ ν) (key : κ) (value : ν) (idx : Nat) :
    Prop where
  valid : Valid hash t'
  there : t'.mKeyVals idx = some (key, value)
  holds : ∀ key' value', t'.Holds key' value' ↔
    (key', value') = (key, value) ∨ t.Holds key' value'
  count : t'.mNumElements = t.mNumElements + 1

theorem prepareSpot_added (h : Valid hash t) (hno : ∀ v, ¬ t.Holds key v)
    (hroom : t.mNumElements < calcMaxNumElementsAllowed (t.mMask + 1))
    (hallowed : t.mMaxNumElementsAllowed ≠ 0) (hspot : Spot hash t key d) (info : Nat) (value : ν) :
    ∃ new t₁ t₂, t.prepareSpot info (t.homeOf hash key + d) (t.firstOf hash key + d * t.mInfoInc) =
      .ok (new, t₁) ∧ t₁.setNode (t.homeOf hash key + d) (some (key, value)) = .ok t₂ ∧
      Added hash t t₂ key value (t.homeOf hash key + d) ∧ t₂.mMask = t.mMask ∧
      (t₂.mMaxNumElementsAllowed = 0 → Crowded t₂) := by
  obtain ⟨e, he⟩ := hspot.firstEmpty h hroom
  obtain ⟨mInfo, allowed, hrun, hinfo, hkept, hcrowded⟩ :=
    prepareSpot_eq h he hallowed (hspot.fits h hallowed) info
  refine ⟨_, _, t.inserted (t.homeOf hash key + d) e (key, value) mInfo allowed, hrun, ?_, ?_⟩
  · have hle := he.le
    have hlt := he.lt
    rw [setNode_eq]
    · exact congrArg (fun mKeyVals => Except.ok { t.stored mKeyVals mInfo allowed with
        mNumElements := t.mNumElements + 1 }) update_shiftedUp
    · exact h.mask_ne_zero
    · show t.homeOf hash key + d < t.numElementsWithBuffer
      omega
  · refine ⟨⟨h.inserted hno hroom hallowed hspot he hinfo hkept, shiftedUp_self, ?_, rfl⟩, rfl,
      hcrowded⟩
    intro key' value'
    constructor
    · rintro ⟨j, hj⟩
      exact ((he.holds h).1 hj).imp And.right fun ⟨i, hi, _⟩ => ⟨i, hi⟩
    · rintro (heq | ⟨i, hi⟩)
      · exact ⟨_, (he.holds h).2 (.inl ⟨rfl, heq⟩)⟩
      · exact ⟨_, (he.holds h).2 (.inr ⟨i, hi, rfl⟩)⟩

end Inserted

/-! ### Removing an entry -/

/-- A table without the entry of a slot, and those from there to slot `e` moved down. -/
def erased (t : Table κ ν) (p e : Nat) (mInfo : Nat → UInt8) : Table κ ν :=
  { t.stored (shiftedDown t.mKeyVals id p e none) mInfo t.mMaxNumElementsAllowed with
    mNumElements := t.mNumElements - 1 }

/-- The last of the entries after a slot that are not at home, without a gap. -/
structure LastAway (t : Table κ ν) (p e : Nat) : Prop where
  le : p ≤ e
  lt : e < t.numElementsWithBuffer
  away : ∀ j, p < j → j ≤ e → 2 * t.mInfoInc ≤ t.info j
  next : t.info (e + 1) < 2 * t.mInfoInc

theorem Valid.lastAway (h : Valid hash t) (hp : p < t.numElementsWithBuffer) :
    ∃ e, LastAway t p e := by
  have hinc := h.inc_bounds
  have hend : p ≤ t.numElementsWithBuffer - 1 ∧
      t.info (t.numElementsWithBuffer - 1 + 1) < 2 * t.mInfoInc := by
    rw [Nat.sub_add_cancel (Nat.one_le_of_lt hp), h.sentinel]
    omega
  have hex : ∃ e, p ≤ e ∧ t.info (e + 1) < 2 * t.mInfoInc := ⟨_, hend⟩
  have hle := Nat.find_min' hex hend
  refine ⟨Nat.find hex, (Nat.find_spec hex).1, by omega, fun j hj hle' => ?_, (Nat.find_spec hex).2⟩
  have hmin := Nat.find_min hex (m := j - 1) (by omega)
  rw [Nat.sub_add_cancel (Nat.one_le_of_lt hj)] at hmin
  omega

section Erased
variable {mInfo : Nat → UInt8}

theorem LastAway.full (h : Valid hash t) (he : LastAway t p e)
    (hn : t.mKeyVals p = some node) (hj : p ≤ j) (hje : j ≤ e) : t.mInfoInc ≤ t.info j := by
  rcases Nat.lt_or_eq_of_le hj with hlt | rfl
  · have := he.away j hlt hje
    omega
  · exact h.inc_le_info hn

theorem LastAway.occupied (h : Valid hash t) (he : LastAway t p e) (hn : t.mKeyVals p = some node)
    (hinfo : ∀ j, (mInfo j).toNat = shiftedDown t.info (· - t.mInfoInc) p e 0 j) :
    (t.erased p e mInfo).occupied = t.occupied.erase e := by
  have hinc := h.inc_bounds
  have hlt := he.lt
  ext j
  rw [Finset.mem_erase]
  unfold Table.occupied
  rw [Finset.mem_filter, Finset.mem_filter, Finset.mem_range, Finset.mem_range]
  show j < t.numElementsWithBuffer ∧ (mInfo j).toNat ≠ 0 ↔ _
  rw [hinfo]
  rcases Nat.lt_trichotomy j e with hje | rfl | hje
  · rcases Nat.lt_or_ge j p with hj | hj
    · rw [shiftedDown_of_lt hj]
      exact ⟨fun ho => ⟨by omega, ho⟩, And.right⟩
    · rw [shiftedDown_moved hj hje]
      have hfull := he.full h hn hj (Nat.le_of_lt hje)
      have haway := he.away (j + 1) (by omega) hje
      exact ⟨fun ho => ⟨by omega, ho.1, by omega⟩, fun ho => ⟨ho.2.1, by omega⟩⟩
  · rw [shiftedDown_end he.le]
    exact ⟨fun ho => absurd rfl ho.2, fun ho => absurd rfl ho.1⟩
  · rw [shiftedDown_of_gt he.le hje]
    exact ⟨fun ho => ⟨by omega, ho⟩, And.right⟩

/-- No number gets greater. -/
theorem LastAway.info_le (h : Valid hash t) (he : LastAway t p e)
    (hinfo : ∀ j, (mInfo j).toNat = shiftedDown t.info (· - t.mInfoInc) p e 0 j) (j : Nat) :
    (mInfo j).toNat ≤ t.info j := by
  rw [hinfo]
  rcases Nat.lt_trichotomy j e with hje | rfl | hje
  · rcases Nat.lt_or_ge j p with hj | hj
    · exact Nat.le_of_eq (shiftedDown_of_lt hj)
    · have := h.ordered.succ j
      have := he.away (j + 1) (by omega) hje
      rw [shiftedDown_moved hj hje]
      omega
  · rw [shiftedDown_end he.le]
    exact Nat.zero_le _
  · exact Nat.le_of_eq (shiftedDown_of_gt he.le hje)

/-- The entries that are left are where their numbers say. -/
theorem LastAway.placed (h : Valid hash t) (he : LastAway t p e)
    (hinfo : ∀ j, (mInfo j).toNat = shiftedDown t.info (· - t.mInfoInc) p e 0 j)
    (hn : (t.erased p e mInfo).mKeyVals j = some (key', value')) : t.homeOf hash key' ≤ j ∧
      (mInfo j).toNat = t.firstOf hash key' + (j - t.homeOf hash key') * t.mInfoInc := by
  obtain ⟨i, hip, hi, rfl⟩ := (shiftedDown_eq_some he.le).1 hn
  obtain ⟨hhome, hnum⟩ := h.placed i key' value' hi
  have hfirst := h.first_bounds key'
  rw [hinfo]
  split
  · next hmoved =>
    have haway := he.away i hmoved.1 hmoved.2
    -- the entry is not at home, for its number is too great
    have hne : i ≠ t.homeOf hash key' := fun heq => by
      rw [heq, Nat.sub_self, Nat.zero_mul] at hnum
      rw [heq] at haway
      omega
    obtain ⟨k, hk⟩ := Nat.exists_eq_add_of_lt (Nat.lt_of_le_of_ne hhome (Ne.symm hne))
    rw [shiftedDown_moved (by omega) (by omega), Nat.sub_add_cancel (by omega), hnum, hk,
      Nat.add_sub_cancel, Nat.add_sub_cancel_left, Nat.add_assoc, Nat.add_sub_cancel_left,
      Nat.succ_mul]
    exact ⟨Nat.le_add_right _ _, by omega⟩
  · next hstays =>
    refine ⟨hhome, ?_⟩
    rcases Nat.lt_or_ge i p with hlt' | hge
    · rw [shiftedDown_of_lt hlt', hnum]
    · rw [shiftedDown_of_gt he.le (by omega), hnum]

theorem Valid.erased (h : Valid hash t) (hn : t.mKeyVals p = some node) (he : LastAway t p e)
    (hinfo : ∀ j, (mInfo j).toNat = shiftedDown t.info (· - t.mInfoInc) p e 0 j) :
    Valid hash (t.erased p e mInfo) := by
  have hinc := h.inc_bounds
  have hle := he.le
  have hlt := he.lt
  have hdown := he.info_le h hinfo
  constructor
  case mask => exact h.mask
  case shift => exact h.shift
  case inc => exact h.inc
  case sentinel => exact (hinfo _).trans ((shiftedDown_of_gt hle hlt).trans h.sentinel)
  case padding =>
    intro j hj
    exact (hinfo j).trans ((shiftedDown_of_gt hle (Nat.lt_trans hlt hj)).trans (h.padding j hj))
  case free =>
    intro j hj
    exact (shiftedDown_of_gt hle (Nat.lt_of_lt_of_le hlt hj)).trans (h.free j hj)
  case filled =>
    intro j hj
    show (mInfo j).toNat = 0 ↔ shiftedDown t.mKeyVals id p e none j = none
    rw [hinfo]
    rcases Nat.lt_trichotomy j e with hje | rfl | hje
    · rcases Nat.lt_or_ge j p with hjp | hjp
      · rw [shiftedDown_of_lt hjp, shiftedDown_of_lt hjp]
        exact h.filled j hj
      · rw [shiftedDown_moved hjp hje, shiftedDown_moved hjp hje]
        have haway := he.away (j + 1) (by omega) hje
        refine iff_of_false (by omega) fun hnone => ?_
        have := (h.filled (j + 1) (by omega)).2 hnone
        omega
    · rw [shiftedDown_end hle, shiftedDown_end hle]
      exact iff_of_true rfl rfl
    · rw [shiftedDown_of_gt hle hje, shiftedDown_of_gt hle hje]
      exact h.filled j hj
  case placed => exact fun j key' value' => he.placed h hinfo
  case ordered =>
    have hord := h.ordered.shiftedDown hle he.away he.next
    rwa [← funext hinfo] at hord
  case unique =>
    intro i j key' v v' hi hj
    obtain ⟨i', _, hi', rfl⟩ := (shiftedDown_eq_some hle).1 hi
    obtain ⟨j', _, hj', rfl⟩ := (shiftedDown_eq_some hle).1 hj
    rw [h.unique i' j' key' v v' hi' hj']
  case size =>
    rw [he.occupied h hn hinfo, Finset.card_erase_of_mem, ← h.size]
    · rfl
    · have := he.full h hn hle (Nat.le_refl e)
      exact Finset.mem_filter.2 ⟨Finset.mem_range.2 hlt, by omega⟩
  case room => exact Nat.le_trans (Nat.sub_le _ _) h.room
  case small =>
    intro ha
    refine ⟨(h.small ha).1, fun j => ?_⟩
    show (mInfo j).toNat + t.mInfoInc ≤ 255
    have := (h.small ha).2 j
    have := hdown j
    omega

/-- What removing an entry does. -/
structure Removed (hash : κ → UInt64) (t t' : Table κ ν) (key : κ) : Prop where
  valid : Valid hash t'
  holds : ∀ key' value', t'.Holds key' value' ↔ key' ≠ key ∧ t.Holds key' value'
  count : t'.mNumElements + 1 = t.mNumElements
  mask : t'.mMask = t.mMask

theorem removeAt_removed (h : Valid hash t) (hn : t.mKeyVals p = some (key, value)) :
    ∃ t', t.removeAt p = .ok t' ∧ Removed hash t t' key := by
  have hp := h.node_lt hn
  obtain ⟨e, he⟩ := h.lastAway hp
  have hlt := he.lt
  have hm := h.mask_ne_zero
  obtain ⟨n, rfl⟩ := Nat.exists_eq_add_of_le he.le
  obtain ⟨mInfo, hloop, hinfo⟩ := shiftDownLoop_eq (m := t.maxTurns) hm hlt
    (fun j hj hje => h.exists_node (he.full h hn (Nat.le_of_lt hj) hje)) he.away he.next
    (by rw [h.maxTurns_eq]; omega)
  have hinfo' (j : Nat) : (update mInfo (p + n) (UInt8.ofNat 0) j).toNat =
      shiftedDown t.info (· - t.mInfoInc) p (p + n) 0 j := by
    rw [toNat_update _ (Nat.zero_le 255), funext hinfo, update_shiftedDown he.le]
  refine ⟨t.erased p (p + n) (update mInfo (p + n) (UInt8.ofNat 0)), ?_, ?_⟩
  · unfold removeAt shiftDown
    rw [nodeAt_eq hn, ok_bind, hloop, ok_bind]
    dsimp only
    rw [setInfo_eq (by exact hm) (by rw [stored_numElementsWithBuffer]; omega), ok_bind,
      setNode_eq (by exact hm) (by exact hlt), ok_bind, stored_stored, stored_stored,
      stored_mKeyVals, stored_mKeyVals, update_shiftedDown he.le]
    rfl
  · refine ⟨h.erased hn he hinfo', ?_, ?_, rfl⟩
    · intro key' value'
      constructor
      · rintro ⟨j, hj⟩
        obtain ⟨i, hne, hi, _⟩ := (shiftedDown_eq_some he.le).1 hj
        refine ⟨?_, i, hi⟩
        rintro rfl
        exact hne (h.unique i p key' value' value hi hn)
      · rintro ⟨hne, i, hi⟩
        refine ⟨_, (shiftedDown_eq_some he.le).2 ⟨i, ?_, hi, rfl⟩⟩
        rintro rfl
        rw [hn] at hi
        cases hi
        exact hne rfl
    · have hmem : p ∈ t.occupied := by
        have := h.inc_bounds
        have := h.inc_le_info hn
        exact Finset.mem_filter.2 ⟨Finset.mem_range.2 hp, by omega⟩
      have hpos := Finset.card_pos.2 ⟨p, hmem⟩
      rw [← h.size] at hpos
      exact Nat.sub_add_cancel hpos

end Erased

end Table

end RapidTrader
