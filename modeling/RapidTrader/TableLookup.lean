import RapidTrader.TableValid

namespace RapidTrader
open Lib Function
set_option autoImplicit true

namespace Table
variable {κ ν : Type} {hash : κ → UInt64} {t : Table κ ν}

/-- The key of the entry in a slot. -/
def keyAt (t : Table κ ν) (j : Nat) : Option κ := (t.mKeyVals j).map Prod.fst

theorem keyAt_eq_some {t : Table κ ν} :
    t.keyAt j = some key ↔ ∃ value, t.mKeyVals j = some (key, value) := by
  unfold keyAt
  rw [Option.map_eq_some_iff]
  exact ⟨fun ⟨⟨k, v⟩, hn, hk⟩ => ⟨v, hk ▸ hn⟩, fun ⟨v, hn⟩ => ⟨(key, v), hn, rfl⟩⟩

theorem next_add (info idx k : Nat) :
    t.next (info + k * t.mInfoInc, idx + k) = (info + (k + 1) * t.mInfoInc, idx + (k + 1)) := by
  unfold next
  rw [Nat.succ_mul]
  simp only [Nat.add_assoc]

theorem keyToIdx_eq (hash : κ → UInt64) (t : Table κ ν) (key : κ) : t.keyToIdx hash key =
    (t.firstOf hash key + 0 * t.mInfoInc, t.homeOf hash key + 0) := by
  rw [Nat.zero_mul]
  rfl

/-- A loop over the bytes of `mInfo` ends at the first one that is not passed over. -/
theorem skipWhile_eq (h : Valid hash t) (pass : Nat → Nat → Bool) {p : Nat × Nat}
    (hpass : ∀ k, j ≤ k → k < d → pass (p.1 + k * t.mInfoInc) (t.info (p.2 + k)) = true)
    (hstop : pass (p.1 + d * t.mInfoInc) (t.info (p.2 + d)) = false) (hj : j ≤ d)
    (hd : p.2 + d < t.numElementsWithBuffer + 8) (hn : d < j + n) :
    t.skipWhile pass n (p.1 + j * t.mInfoInc, p.2 + j) =
      .ok (p.1 + d * t.mInfoInc, p.2 + d) := by
  induction n generalizing j with
  | zero => exact absurd hn (by omega)
  | succ n ih =>
    rw [skipWhile, h.infoAt (by omega), ok_bind]
    rcases Nat.lt_or_eq_of_le hj with hlt | rfl
    · rw [if_pos (hpass j (Nat.le_refl j) hlt), next_add]
      exact ih (fun k hk => hpass k (by omega)) hlt (by omega)
    · rw [if_neg (by rw [hstop]; exact Bool.false_ne_true)]
      rfl

/-- It ends as soon as some byte is not passed over. -/
theorem exists_skipWhile (h : Valid hash t) (pass : Nat → Nat → Bool) (p : Nat × Nat) (m : Nat)
    (hm : p.2 + m < t.numElementsWithBuffer + 8)
    (hstop : pass (p.1 + m * t.mInfoInc) (t.info (p.2 + m)) = false) : ∃ d, d ≤ m ∧
      (∀ k, k < d → pass (p.1 + k * t.mInfoInc) (t.info (p.2 + k)) = true) ∧
      pass (p.1 + d * t.mInfoInc) (t.info (p.2 + d)) = false ∧
      t.skipWhile pass t.maxTurns p = .ok (p.1 + d * t.mInfoInc, p.2 + d) := by
  have hex : ∃ d, pass (p.1 + d * t.mInfoInc) (t.info (p.2 + d)) = false := ⟨m, hstop⟩
  have hle : Nat.find hex ≤ m := Nat.find_min' hex hstop
  have hbefore (k : Nat) (hk : k < Nat.find hex) :
      pass (p.1 + k * t.mInfoInc) (t.info (p.2 + k)) = true :=
    Bool.eq_true_of_not_eq_false (Nat.find_min hex hk)
  refine ⟨Nat.find hex, hle, hbefore, Nat.find_spec hex, ?_⟩
  have hrun := skipWhile_eq (j := 0) (n := t.maxTurns) h pass (fun k _ hk => hbefore k hk)
    (Nat.find_spec hex) (Nat.zero_le _) (by omega)
    (by rw [h.maxTurns_eq]; omega)
  rwa [Nat.zero_mul, Nat.add_zero, Nat.add_zero] at hrun

section Nodes
variable [DecidableEq κ]

/-- On the way from its home, a key is found in the slot of its entry and in no other. -/
theorem isAt_eq (h : Valid hash t) (key : κ)
    (hk : t.homeOf hash key + k < t.numElementsWithBuffer + 8) :
    t.isAt key (t.firstOf hash key + k * t.mInfoInc, t.homeOf hash key + k) =
      .ok (t.keyAt (t.homeOf hash key + k) = some key) := by
  have hfirst := h.first_bounds key
  unfold isAt
  rw [h.infoAt hk, ok_bind]
  dsimp only
  by_cases hi : t.firstOf hash key + k * t.mInfoInc = t.info (t.homeOf hash key + k)
  · obtain ⟨⟨key', value⟩, hn⟩ := h.exists_node (j := t.homeOf hash key + k) (by omega)
    rw [if_pos hi]
    unfold nodeAt keyAt
    rw [hn]
    dsimp only
    rw [ok_bind, Option.map_some]
    simp only [Option.some.injEq]
    rfl
  · have hno : t.keyAt (t.homeOf hash key + k) ≠ some key := fun he => by
      obtain ⟨value, hn⟩ := keyAt_eq_some.1 he
      obtain ⟨_, hp⟩ := h.placed _ key value hn
      rw [Nat.add_sub_cancel_left] at hp
      exact hi hp.symm
    rw [if_neg hi, decide_eq_false hno]
    rfl

/-- What the loops of `findIdx` and `erase` do where the key is not. -/
theorem isAt_before (h : Valid hash t) (hn : t.mKeyVals (t.homeOf hash key + k) = some (key, value))
    (hj : j < k) : t.isAt key (t.firstOf hash key + j * t.mInfoInc, t.homeOf hash key + j) =
      .ok false := by
  have hlt := h.node_lt hn
  rw [isAt_eq h key (by omega), decide_eq_false]
  intro he
  obtain ⟨value', hn'⟩ := keyAt_eq_some.1 he
  have := h.unique _ _ key value' value hn' hn
  omega

theorem isAt_there (h : Valid hash t)
    (hn : t.mKeyVals (t.homeOf hash key + k) = some (key, value)) :
    t.isAt key (t.firstOf hash key + k * t.mInfoInc, t.homeOf hash key + k) = .ok true := by
  have hlt := h.node_lt hn
  rw [isAt_eq h key (by omega), decide_eq_true (keyAt_eq_some.2 ⟨value, hn⟩)]

theorem isAt_missing (h : Valid hash t) (hno : ∀ j, t.keyAt j ≠ some key)
    (hk : t.homeOf hash key + k < t.numElementsWithBuffer + 8) :
    t.isAt key (t.firstOf hash key + k * t.mInfoInc, t.homeOf hash key + k) = .ok false := by
  rw [isAt_eq h key hk, decide_eq_false (hno _)]

theorem findLoop_found (h : Valid hash t)
    (hn : t.mKeyVals (t.homeOf hash key + k) = some (key, value)) (hj : j ≤ k)
    (hturns : k < j + 2 * n) :
    t.findLoop key n (t.firstOf hash key + j * t.mInfoInc, t.homeOf hash key + j) =
      .ok (some (t.homeOf hash key + k)) := by
  have hlt := h.node_lt hn
  have hreach (i : Nat) (hi : i ≤ k) :
      t.firstOf hash key + i * t.mInfoInc ≤ t.info (t.homeOf hash key + i) := by
    obtain ⟨k', hk', _, hr⟩ := h.reaches hn
    exact hr i (by omega)
  induction n generalizing j with
  | zero => exact absurd hturns (by omega)
  | succ n ih =>
    rw [findLoop]
    rcases Nat.lt_or_eq_of_le hj with hj₁ | rfl
    · rw [isAt_before h hn hj₁, ok_bind, if_neg Bool.false_ne_true, next_add]
      dsimp only
      rcases Nat.lt_or_eq_of_le hj₁ with hj₂ | rfl
      · rw [isAt_before h hn hj₂, ok_bind, if_neg Bool.false_ne_true, next_add]
        dsimp only
        rw [h.infoAt (by omega), ok_bind, if_pos (hreach _ (by omega))]
        exact ih (by omega) (by omega)
      · rw [isAt_there h hn]
        rfl
    · rw [isAt_there h hn]
      rfl

theorem findLoop_missing (h : Valid hash t) (hno : ∀ j, t.keyAt j ≠ some key)
    (hj : t.homeOf hash key + j ≤ t.numElementsWithBuffer)
    (hturns : t.numElementsWithBuffer < t.homeOf hash key + j + n) :
    t.findLoop key n (t.firstOf hash key + j * t.mInfoInc, t.homeOf hash key + j) =
      .ok none := by
  have hfirst := h.first_bounds key
  have hinc := h.inc_bounds
  induction n generalizing j with
  | zero => exact absurd hturns (by omega)
  | succ n ih =>
    rw [findLoop, isAt_missing h hno (by omega), ok_bind, if_neg Bool.false_ne_true, next_add]
    dsimp only
    rw [isAt_missing h hno (by omega), ok_bind, if_neg Bool.false_ne_true, next_add]
    dsimp only
    rw [h.infoAt (by omega), ok_bind]
    rcases Nat.lt_or_ge t.numElementsWithBuffer (t.homeOf hash key + (j + 1 + 1)) with hlt | hge
    · rw [if_neg]
      · rfl
      · rw [h.padding _ hlt]
        omega
    · split
      · exact ih (by omega) (by omega)
      · rfl

theorem eraseLoop_found (h : Valid hash t)
    (hn : t.mKeyVals (t.homeOf hash key + k) = some (key, value)) (hj : j ≤ k)
    (hturns : k < j + n) :
    t.eraseLoop key n (t.firstOf hash key + j * t.mInfoInc, t.homeOf hash key + j) =
      .ok (some (t.homeOf hash key + k)) := by
  have hlt := h.node_lt hn
  have hreach (i : Nat) (hi : i ≤ k) :
      t.firstOf hash key + i * t.mInfoInc ≤ t.info (t.homeOf hash key + i) := by
    obtain ⟨k', hk', _, hr⟩ := h.reaches hn
    exact hr i (by omega)
  induction n generalizing j with
  | zero => exact absurd hturns (by omega)
  | succ n ih =>
    rw [eraseLoop]
    rcases Nat.lt_or_eq_of_le hj with hj₁ | rfl
    · rw [isAt_before h hn hj₁, ok_bind, if_neg Bool.false_ne_true, next_add]
      dsimp only
      rw [h.infoAt (by omega), ok_bind, if_pos (hreach _ hj₁)]
      exact ih hj₁ (by omega)
    · rw [isAt_there h hn]
      rfl

theorem eraseLoop_missing (h : Valid hash t) (hno : ∀ j, t.keyAt j ≠ some key)
    (hj : t.homeOf hash key + j ≤ t.numElementsWithBuffer)
    (hturns : t.numElementsWithBuffer < t.homeOf hash key + j + n) :
    t.eraseLoop key n (t.firstOf hash key + j * t.mInfoInc, t.homeOf hash key + j) =
      .ok none := by
  have hfirst := h.first_bounds key
  have hinc := h.inc_bounds
  induction n generalizing j with
  | zero => exact absurd hturns (by omega)
  | succ n ih =>
    rw [eraseLoop, isAt_missing h hno (by omega), ok_bind, if_neg Bool.false_ne_true, next_add]
    dsimp only
    rw [h.infoAt (by omega), ok_bind]
    rcases Nat.lt_or_ge t.numElementsWithBuffer (t.homeOf hash key + (j + 1)) with hlt | hge
    · rw [if_neg]
      · rfl
      · rw [h.padding _ hlt]
        omega
    · split
      · exact ih (by omega) (by omega)
      · rfl

theorem find_found (h : Valid hash t) (hn : t.mKeyVals j = some (key, value)) :
    t.find hash key = .ok (some (j, value)) := by
  have hlt := h.node_lt hn
  obtain ⟨k, rfl, _, _⟩ := h.reaches hn
  have hend : t.homeOf hash key + k ≠ t.endIdx := by
    rw [h.endIdx_eq]
    omega
  have hidx : t.findIdx hash key = .ok (t.homeOf hash key + k) := by
    unfold findIdx
    rw [keyToIdx_eq, findLoop_found h hn (Nat.zero_le k) (by rw [h.maxTurns_eq]; omega)]
    rfl
  unfold find
  rw [hidx, ok_bind, if_neg hend]
  unfold nodeAt
  rw [hn]
  rfl

theorem find_missing (h : Valid hash t) (hno : ∀ j, t.keyAt j ≠ some key) :
    t.find hash key = .ok none := by
  have hhome := h.home_lt key
  have hidx : t.findIdx hash key = .ok t.endIdx := by
    unfold findIdx
    rw [keyToIdx_eq, findLoop_missing h hno (by omega) (by rw [h.maxTurns_eq]; omega)]
    rfl
  unfold find
  rw [hidx, ok_bind, if_pos rfl]
  rfl

/-! ### Where a key belongs -/

/-- The first slot, `d` slots after the home of a key, that has a smaller number than the entry of
the key would have there. -/
structure Spot (hash : κ → UInt64) (t : Table κ ν) (key : κ) (d : Nat) : Prop where
  passed : ∀ k, k < d →
    t.firstOf hash key + k * t.mInfoInc ≤ t.info (t.homeOf hash key + k)
  lower : t.info (t.homeOf hash key + d) < t.firstOf hash key + d * t.mInfoInc

theorem matchLoop_found (h : Valid hash t)
    (hn : t.mKeyVals (t.homeOf hash key + k) = some (key, value)) (hj : j ≤ k)
    (he : t.firstOf hash key + j * t.mInfoInc = t.info (t.homeOf hash key + j))
    (hturns : k < j + n) :
    t.matchLoop key n (t.firstOf hash key + j * t.mInfoInc, t.homeOf hash key + j) =
      .ok (true, t.firstOf hash key + k * t.mInfoInc, t.homeOf hash key + k) := by
  have hlt := h.node_lt hn
  have hfirst := h.first_bounds key
  induction n generalizing j with
  | zero => exact absurd hturns (by omega)
  | succ n ih =>
    rw [matchLoop, h.infoAt (by omega), ok_bind, if_pos he]
    rcases Nat.lt_or_eq_of_le hj with hlt' | rfl
    · obtain ⟨⟨key', value'⟩, hn'⟩ := h.exists_node (j := t.homeOf hash key + j) (by omega)
      have hkey : key' ≠ key := by
        rintro rfl
        have := h.unique _ _ key' value' value hn' hn
        omega
      unfold nodeAt
      rw [hn']
      dsimp only
      rw [ok_bind, if_neg hkey, next_add]
      -- the numbers rise by `mInfoInc` up to the entry
      obtain ⟨k', hk', _, hreach⟩ := h.reaches hn
      have hr := hreach (j + 1) (by omega)
      have hmul : (j + 1) * t.mInfoInc = j * t.mInfoInc + t.mInfoInc := Nat.succ_mul ..
      have hs := h.ordered.succ (t.homeOf hash key + j)
      rw [Nat.add_assoc] at hs
      exact ih hlt' (by omega) (by omega)
    · unfold nodeAt
      rw [hn]
      dsimp only
      rw [ok_bind, if_pos rfl]
      rfl

theorem matchLoop_missing (h : Valid hash t) (hno : ∀ j, t.keyAt j ≠ some key)
    (hpassed : ∀ i, i < j →
      t.firstOf hash key + i * t.mInfoInc ≤ t.info (t.homeOf hash key + i))
    (hle : t.info (t.homeOf hash key + j) ≤ t.firstOf hash key + j * t.mInfoInc)
    (hj : t.homeOf hash key + j ≤ t.numElementsWithBuffer)
    (hturns : t.numElementsWithBuffer < t.homeOf hash key + j + n) : ∃ d, Spot hash t key d ∧
      t.matchLoop key n (t.firstOf hash key + j * t.mInfoInc, t.homeOf hash key + j) =
        .ok (false, t.firstOf hash key + d * t.mInfoInc, t.homeOf hash key + d) := by
  have hfirst := h.first_bounds key
  induction n generalizing j with
  | zero => exact absurd hturns (by omega)
  | succ n ih =>
    rw [matchLoop, h.infoAt (by omega), ok_bind]
    by_cases he : t.firstOf hash key + j * t.mInfoInc = t.info (t.homeOf hash key + j)
    · obtain ⟨⟨key', value'⟩, hn'⟩ := h.exists_node (j := t.homeOf hash key + j) (by omega)
      have hlt := h.node_lt hn'
      have hkey : key' ≠ key := fun hk =>
        hno _ (keyAt_eq_some.2 ⟨value', hk ▸ hn'⟩)
      unfold nodeAt
      rw [if_pos he, hn']
      dsimp only
      rw [ok_bind, if_neg hkey, next_add]
      have hmul : (j + 1) * t.mInfoInc = j * t.mInfoInc + t.mInfoInc := Nat.succ_mul ..
      have hs := h.ordered.succ (t.homeOf hash key + j)
      rw [Nat.add_assoc] at hs
      refine ih (fun i hi => ?_) (by omega) (by omega) (by omega)
      rcases Nat.lt_or_eq_of_le (Nat.le_of_lt_succ hi) with hlt' | rfl
      · exact hpassed i hlt'
      · omega
    · rw [if_neg he]
      exact ⟨j, ⟨hpassed, by omega⟩, rfl⟩

/-- The search of an insertion for a key that has an entry. -/
theorem search_found (h : Valid hash t) (hn : t.mKeyVals j = some (key, value)) :
    ∃ p q, t.nextWhileLess (t.keyToIdx hash key) = .ok p ∧
      t.matchLoop key t.maxTurns p = .ok (true, q, j) := by
  have hlt := h.node_lt hn
  obtain ⟨k, rfl, hk, hreach⟩ := h.reaches hn
  obtain ⟨d, hd, _, hstop, hrun⟩ := exists_skipWhile h (fun info byte => info < byte)
    (t.keyToIdx hash key) k (by show t.homeOf hash key + k < _; omega)
    (decide_eq_false (by
      show ¬ t.firstOf hash key + k * t.mInfoInc < t.info (t.homeOf hash key + k)
      omega))
  have hd' : ¬ t.firstOf hash key + d * t.mInfoInc < t.info (t.homeOf hash key + d) :=
    of_decide_eq_false hstop
  exact ⟨_, _, hrun, matchLoop_found h hn hd (by have := hreach d hd; omega)
    (by rw [h.maxTurns_eq]; omega)⟩

/-- The search of an insertion for a key that has no entry. -/
theorem search_missing (h : Valid hash t) (hno : ∀ j, t.keyAt j ≠ some key) :
    ∃ p d, t.nextWhileLess (t.keyToIdx hash key) = .ok p ∧ Spot hash t key d ∧
      t.matchLoop key t.maxTurns p =
        .ok (false, t.firstOf hash key + d * t.mInfoInc, t.homeOf hash key + d) := by
  have hhome := h.home_lt key
  have hfirst := h.first_bounds key
  have hinc := h.inc_bounds
  have hn : t.homeOf hash key + (t.numElementsWithBuffer - t.homeOf hash key) =
      t.numElementsWithBuffer := by omega
  obtain ⟨d, hd, hpass, hstop, hrun⟩ := exists_skipWhile h (fun info byte => info < byte)
    (t.keyToIdx hash key) (t.numElementsWithBuffer - t.homeOf hash key)
    (by show t.homeOf hash key + _ < _; omega)
    (decide_eq_false (by
      show ¬ t.firstOf hash key + _ < t.info (t.homeOf hash key + _)
      rw [hn, h.sentinel]
      omega))
  have hd' : ¬ t.firstOf hash key + d * t.mInfoInc < t.info (t.homeOf hash key + d) :=
    of_decide_eq_false hstop
  obtain ⟨d', hspot, hloop⟩ := matchLoop_missing (n := t.maxTurns) h hno
    (fun i hi => Nat.le_of_lt (of_decide_eq_true (hpass i hi))) (by omega) (by omega)
    (by rw [h.maxTurns_eq]; omega)
  exact ⟨_, d', hrun, hspot, hloop⟩

end Nodes

/-- The search of `insert_move`, for a key that is not there. -/
theorem skip_spot (h : Valid hash t) (key : κ) : ∃ d, Spot hash t key d ∧
    t.skipWhile (fun info byte => info ≤ byte) t.maxTurns (t.keyToIdx hash key) =
      .ok (t.firstOf hash key + d * t.mInfoInc, t.homeOf hash key + d) := by
  have hhome := h.home_lt key
  have hfirst := h.first_bounds key
  have hinc := h.inc_bounds
  have hn : t.homeOf hash key + (t.numElementsWithBuffer - t.homeOf hash key) =
      t.numElementsWithBuffer := by omega
  obtain ⟨d, _, hpass, hstop, hrun⟩ := exists_skipWhile h (fun info byte => info ≤ byte)
    (t.keyToIdx hash key) (t.numElementsWithBuffer - t.homeOf hash key)
    (by show t.homeOf hash key + _ < _; omega)
    (decide_eq_false (by
      show ¬ t.firstOf hash key + _ ≤ t.info (t.homeOf hash key + _)
      rw [hn, h.sentinel]
      omega))
  exact ⟨d, ⟨fun k hk => of_decide_eq_true (hpass k hk),
    Nat.lt_of_not_le (of_decide_eq_false hstop)⟩, hrun⟩

end Table

end RapidTrader
