import RapidTrader.Matching

namespace RapidTrader
open Lib
set_option autoImplicit true

namespace Book

/-- The best level of the other side crosses the price of an incoming order. -/
def crossed (b : Book) (o : Order) : Bool :=
  match b.bestOpposite o.side with
  | some (key, _) => crosses o.side key o.price
  | none => false

/-- The volume the best level shows to an incoming order. -/
def bestVolume (b : Book) (side : OrderSide) : UInt64 :=
  match b.bestOpposite side with
  | some (_, level) => level.volume
  | none => 0

theorem canTrade_eq (b : Book) (o : Order) : b.canTrade o = (b.crossed o && !o.isFilled) := by
  unfold canTrade crossed
  cases b.bestOpposite o.side <;> rfl

/-- Each turn of the loop of `canMatchOrder` looks at the best level again. -/
theorem canMatchLoop_succ (b : Book) (o : Order) (fuel : Nat) (a : UInt64) :
    b.canMatchLoop o (fuel + 1) a =
      if b.crossed o then
        if o.openQuantity ≤ a + min (b.bestVolume o.side) (o.openQuantity - a) then some true
        else b.canMatchLoop o fuel (a + min (b.bestVolume o.side) (o.openQuantity - a))
      else some false := by
  unfold crossed bestVolume
  rw [canMatchLoop]
  cases b.bestOpposite o.side <;> rfl

/-- So when it returns, it has only found out whether the best level crosses. -/
theorem canMatchLoop_eq_some {b : Book} (h : b.canMatchLoop o fuel a = some x) :
    x = b.crossed o := by
  induction fuel generalizing a with
  | zero => cases h
  | succ fuel ih =>
    rw [canMatchLoop_succ] at h
    cases hc : b.crossed o with
    | false =>
      rw [hc] at h
      cases h
      rfl
    | true =>
      rw [hc, if_pos rfl] at h
      split at h
      · cases h
        rfl
      · rw [← hc]
        exact ih h

/-- It counts the best level until the order seems covered. -/
theorem canMatchLoop_of_volume {b : Book} (hc : b.crossed o = true)
    (hv : b.bestVolume o.side ≠ 0) (ha : a ≤ o.openQuantity)
    (hn : o.openQuantity.toNat - a.toNat < fuel) : b.canMatchLoop o fuel a = some true := by
  induction fuel generalizing a with
  | zero => omega
  | succ fuel ih =>
    rw [canMatchLoop_succ, hc, if_pos rfl]
    split
    · rfl
    · rename_i hlt
      have hne : (b.bestVolume o.side).toNat ≠ 0 := fun he => hv (UInt64.toNat_inj.1 he)
      have hle := UInt64.le_iff_toNat_le.1 ha
      have hsub := UInt64.toNat_sub_of_le _ _ ha
      have hbound := o.openQuantity.toNat_lt
      have hmin : (min (b.bestVolume o.side) (o.openQuantity - a)).toNat =
          min (b.bestVolume o.side).toNat (o.openQuantity.toNat - a.toNat) := by
        rw [min_uint64, ← hsub]
        split
        · rename_i h
          rw [UInt64.le_iff_toNat_le] at h
          omega
        · rename_i h
          rw [UInt64.le_iff_toNat_le] at h
          omega
      have hadd : (a + min (b.bestVolume o.side) (o.openQuantity - a)).toNat =
          a.toNat + min (b.bestVolume o.side).toNat (o.openQuantity.toNat - a.toNat) := by
        rw [UInt64.toNat_add, hmin]
        omega
      rw [UInt64.le_iff_toNat_le, hadd] at hlt
      apply ih
      · rw [UInt64.le_iff_toNat_le, hadd]
        omega
      · rw [hadd]
        omega

/-- A best level whose volume has wrapped to zero keeps it counting for ever. -/
theorem canMatchLoop_eq_none {b : Book} (hc : b.crossed o = true)
    (hv : b.bestVolume o.side = 0) (ho : o.openQuantity ≠ 0) (fuel : Nat) :
    b.canMatchLoop o fuel 0 = none := by
  have hmin : min (0 : UInt64) (o.openQuantity - 0) = 0 := by
    rw [min_uint64, if_pos]
    exact UInt64.le_iff_toNat_le.2 (Nat.zero_le _)
  have hlt : ¬ o.openQuantity ≤ 0 := by
    intro hle
    apply ho
    rw [← UInt64.toNat_inj]
    exact Nat.le_zero.1 (UInt64.le_iff_toNat_le.1 hle)
  induction fuel with
  | zero => rfl
  | succ fuel ih =>
    rw [canMatchLoop_succ, hc, if_pos rfl, hv, hmin]
    exact (if_neg hlt).trans ih

end Book

/-- Fill or kill, for a call of `match` with enough fuel: an order that can be filled is filled, and
otherwise nothing changes. -/
structure AllOrNothing (b : MapOrderBook) (o : Order) : Prop where
  returns : ∃ n, ∀ fuel, n ≤ fuel → ∃ r, b.matchOrder fuel o = .ok r
  filled : o.openQuantity.toNat ≤ b.available o → b.matchOrder fuel o = .ok (b', o') →
    o'.openQuantity = 0
  untouched : b.available o < o.openQuantity.toNat → b.matchOrder fuel o = .ok (b', o') →
    o' = o ∧ b'.toBook = b.toBook

section FillOrKill
variable {b : MapOrderBook} {o : Order}

theorem matchOrder_fok (hk : o.isFok = true) (fuel : Nat) : b.matchOrder fuel o =
    match b.canMatchOrder fuel o with
    | none => .error (b.note (.matching o b.toBook))
    | some true => MapOrderBook.matchLoop fuel (b.note (.matching o b.toBook), o)
    | some false => .ok (b.note (.matching o b.toBook), o) := by
  unfold MapOrderBook.matchOrder
  dsimp only
  rw [toBook_note, hk]
  cases b.canMatchOrder fuel o with
  | none => rfl
  | some possible => cases possible <;> rfl

theorem matchOrder_of_crossed (hk : o.isFok = true) (hc : b.crossed o = true)
    (h : b.matchOrder fuel o = .ok r) :
    MapOrderBook.matchLoop fuel (b.note (.matching o b.toBook), o) = .ok r := by
  rw [matchOrder_fok hk] at h
  cases hm : b.canMatchOrder fuel o with
  | none =>
    rw [hm] at h
    cases h
  | some possible =>
    rw [hm, Book.canMatchLoop_eq_some hm, hc] at h
    exact h

theorem matchOrder_of_not_crossed (hk : o.isFok = true) (hc : b.crossed o = false)
    (h : b.matchOrder fuel o = .ok (b', o')) : o' = o ∧ b'.toBook = b.toBook := by
  rw [matchOrder_fok hk] at h
  cases hm : b.canMatchOrder fuel o with
  | none =>
    rw [hm] at h
    cases h
  | some possible =>
    rw [hm, Book.canMatchLoop_eq_some hm, hc] at h
    cases h
    exact ⟨rfl, rfl⟩

theorem Inv.note (hi : Inv ⟨b, o?⟩) (n : Note) : Inv ⟨b.note n, o?⟩ :=
  ⟨hi.linked, hi.restable, hi.inHand⟩

/-- `match` returns for a fill-or-kill order unless the best level crosses and shows no volume. -/
theorem matchOrder_returns (hi : Inv ⟨b, some o⟩) (ho : o.IsMatchable) (hp : o.IsPriced)
    (hk : o.isFok = true) (hv : b.canTrade o = true → b.bestVolume o.side ≠ 0)
    (hn : o.openQuantity.toNat < fuel) : ∃ r, b.matchOrder fuel o = .ok r := by
  have hloop := matchLoop_ends (hi.note (.matching o b.toBook)) ho hp hn
  have hcan : ∃ x, b.canMatchOrder fuel o = some x := by
    obtain ⟨fuel, rfl⟩ := Nat.exists_eq_add_of_lt (Nat.zero_lt_of_lt hn)
    rw [Nat.zero_add] at hn ⊢
    unfold Book.canMatchOrder
    cases hc : b.crossed o with
    | false =>
      rw [Book.canMatchLoop_succ, hc]
      exact ⟨_, rfl⟩
    | true =>
      by_cases hz : o.openQuantity = 0
      · rw [Book.canMatchLoop_succ, hc, if_pos rfl, if_pos]
        · exact ⟨_, rfl⟩
        · rw [hz]
          exact UInt64.le_iff_toNat_le.2 (Nat.zero_le _)
      · have hct : b.canTrade o = true := by
          rw [Book.canTrade_eq, hc, Bool.true_and, Bool.not_eq_true']
          exact decide_eq_false hz
        refine ⟨true, Book.canMatchLoop_of_volume hc (hv hct) ?_ ?_⟩
        · exact UInt64.le_iff_toNat_le.2 (Nat.zero_le _)
        · exact Nat.lt_of_le_of_lt (Nat.sub_le _ _) hn
  obtain ⟨x, hx⟩ := hcan
  rw [matchOrder_fok hk, hx]
  cases x with
  | true => exact hloop
  | false => exact ⟨_, rfl⟩

/-- An order that trades is filled or takes all that is available, and the rest stays undone. -/
theorem matchOrder_open (hi : Inv ⟨b, some o⟩) (ho : o.IsMatchable) (hp : o.IsPriced)
    (hk : o.isFok = true) (hc : b.crossed o = true) (h : b.matchOrder fuel o = .ok (b', o')) :
    o'.openQuantity.toNat = o.openQuantity.toNat - b.available o :=
  matchLoop_open (hi.note (.matching o b.toBook)) ho hp (matchOrder_of_crossed hk hc h)

theorem Inv.allOrNothing (hi : Inv ⟨b, some o⟩) (ho : o.IsMatchable) (hp : o.IsPriced)
    (hk : o.isFok = true) : AllOrNothing b o ↔ (b.canTrade o = true →
      b.bestVolume o.side ≠ 0 ∧ o.openQuantity.toNat ≤ b.available o) := by
  constructor
  · intro h hct
    obtain ⟨n, hn⟩ := h.returns
    obtain ⟨⟨b', o'⟩, hr⟩ := hn n (Nat.le_refl n)
    rw [Book.canTrade_eq, Bool.and_eq_true, Bool.not_eq_true'] at hct
    have hz : o.openQuantity ≠ 0 := of_decide_eq_false hct.2
    constructor
    · intro hv
      rw [matchOrder_fok hk, Book.canMatchOrder,
        Book.canMatchLoop_eq_none hct.1 hv hz] at hr
      cases hr
    · by_contra hlt
      obtain ⟨rfl, _⟩ := h.untouched (by omega) hr
      have hopen := matchOrder_open hi ho hp hk hct.1 hr
      have hpos : 0 < b.available o' := hi.available_pos hp (by
        rw [Book.canTrade_eq, Bool.and_eq_true, Bool.not_eq_true']
        exact hct)
      omega
  · intro h
    constructor
    · refine ⟨o.openQuantity.toNat + 1, fun fuel hn => ?_⟩
      exact matchOrder_returns hi ho hp hk (fun hct => (h hct).1) (by omega)
    · intro fuel b' o' ha hr
      cases hc : b.crossed o with
      | true =>
        have hopen := matchOrder_open hi ho hp hk hc hr
        rw [← UInt64.toNat_inj, UInt64.toNat_zero]
        omega
      | false =>
        obtain ⟨rfl, _⟩ := matchOrder_of_not_crossed hk hc hr
        by_contra hz
        have hct : b.canTrade o' = false := by rw [Book.canTrade_eq, hc, Bool.false_and]
        have hzero : b.available o' = 0 := by
          apply SortedMap.total_eq_zero
          intro i w hw
          have hl : Linked b.toBook := hi.linked
          rw [hl.meets_eq_false hp hct (decide_eq_false hz) hw]
          rfl
        rw [hzero] at ha
        exact hz (UInt64.toNat_inj.1 (Nat.le_zero.1 ha))
    · intro fuel b' o' ha hr
      cases hc : b.crossed o with
      | false => exact matchOrder_of_not_crossed hk hc hr
      | true =>
        have hct : b.canTrade o = true := by
          rw [Book.canTrade_eq, hc, Bool.true_and, Bool.not_eq_true']
          apply decide_eq_false
          intro hz
          rw [hz, UInt64.toNat_zero] at ha
          omega
        have := (h hct).2
        omega

end FillOrKill

/-- Every call of `match` that the trace tells of was made in good order. -/
def CalledInOrder (c : Config) : Prop :=
  ∀ o before, .matching o before ∈ c.book.trace → ∀ trace,
    Inv ⟨⟨before, trace⟩, some o⟩ ∧ o.IsMatchable ∧ o.IsPriced

theorem CalledInOrder.step (h : CalledInOrder c) (hi : Inv c) (hs : Step Proper c c') :
    CalledInOrder c' := by
  obtain ⟨ns, htr, hns⟩ := hi.step_marked hs
  intro o before hn trace
  rw [htr] at hn
  rcases List.mem_append.1 hn with hn | hn
  · exact h o before hn trace
  · cases hns _ hn with
    | matching hw ho hp =>
      refine ⟨⟨hi.linked, hi.restable, fun he => ?_⟩, ho, hp⟩
      cases he
      exact hi.inHand hw

/-- Wherever a run calls `match` with a fill-or-kill order, the order is filled or killed exactly
when it cannot trade at all or the best level shows volume and the order can be filled. -/
theorem allOrNothing_iff (h : Visited Op.Legal symbolId b) (hn : .matching o before ∈ b.trace)
    (hk : o.isFok = true) (trace : List Note) : AllOrNothing ⟨before, trace⟩ o ↔
      (before.canTrade o = true →
        before.bestVolume o.side ≠ 0 ∧ o.openQuantity.toNat ≤ before.available o) := by
  obtain ⟨c, rfl, _, hc⟩ := h.induct
    (guards_legal (J := CalledInOrder) fun hi hc hs => hc.step hi hs) (fun _ _ h => nomatch h)
  obtain ⟨hi, ho, hp⟩ := hc o before hn trace
  exact hi.allOrNothing ho hp hk

/-- A fill-or-kill bid of `quantity` meets an ask of 100 at its price. -/
def fokOps (quantity : UInt64) : List Op :=
  [.addOrder (.new .limit .ask .gtc 1 10 0 0 100 1),
    .addOrder (.new .limit .bid .fok 1 10 0 0 quantity 2)]

/-- The quantities of a fill-or-kill order in a call of `match`: open before it, available to it,
and open after it. -/
def Note.fokQuantities : Note → Option (UInt64 × Nat × UInt64)
  | .matching o before => if o.isFok then
      match MapOrderBook.matchOrder 20 ⟨before, []⟩ o with
      | .ok (_, o') => some (o.openQuantity, before.available o, o'.openQuantity)
      | .error _ => none
    else none
  | _ => none

theorem Note.fokQuantities_eq_some {n : Note} (h : n.fokQuantities = some (q, a, q')) :
    ∃ o before b' o', n = .matching o before ∧ o.isFok = true ∧ o.openQuantity = q ∧
      before.available o = a ∧ o'.openQuantity = q' ∧
      MapOrderBook.matchOrder 20 ⟨before, []⟩ o = .ok (b', o') := by
  unfold fokQuantities at h
  split at h
  · rename_i o before
    split at h
    · rename_i hk
      split at h
      · rename_i b' o' hr
        cases h
        exact ⟨o, before, b', o', rfl, hk, rfl, rfl, rfl, hr⟩
      · cases h
    · cases h
  · cases h

/-- A bid of 100 is filled. -/
theorem allOrNothing_iff_fokOps : ∃ b o before, (MapOrderBook.new 1).run 20 (fokOps 100) = .ok b ∧
    .matching o before ∈ b.trace ∧ o.isFok = true ∧ (AllOrNothing ⟨before, []⟩ o ↔
      (before.canTrade o = true →
        before.bestVolume o.side ≠ 0 ∧ o.openQuantity.toNat ≤ before.available o)) := by
  obtain ⟨b, hb, hr, hf⟩ := exists_reachable_of_run Op.Legal 1 20 (fokOps 100) (by decide +kernel)
    (f := fun b => b.trace.findSome? Note.fokQuantities) (o := (100, 100, 0)) (by decide +kernel)
  obtain ⟨n, hn, hq⟩ := List.exists_of_findSome?_eq_some hf
  obtain ⟨o, before, b', o', rfl, hk, _⟩ := Note.fokQuantities_eq_some hq
  exact ⟨b, o, before, hb, hn, hk, allOrNothing_iff (.done hr) hn hk []⟩

/-- A bid of 150 is neither filled nor left alone: 50 stay open. -/
theorem fokOps_partially_executed : ∃ b o before b' o', Reachable Op.Legal 1 b ∧
    .matching o before ∈ b.trace ∧ o.isFok = true ∧ before.available o < o.openQuantity.toNat ∧
    MapOrderBook.matchOrder 20 ⟨before, []⟩ o = .ok (b', o') ∧ o.openQuantity = 150 ∧
    o'.openQuantity = 50 ∧ ¬ AllOrNothing ⟨before, []⟩ o := by
  obtain ⟨b, hb, hr, hf⟩ := exists_reachable_of_run Op.Legal 1 20 (fokOps 150) (by decide +kernel)
    (f := fun b => b.trace.findSome? Note.fokQuantities) (o := (150, 100, 50)) (by decide +kernel)
  obtain ⟨n, hn, hq⟩ := List.exists_of_findSome?_eq_some hf
  obtain ⟨o, before, b', o', rfl, hk, ho, ha, ho', hm⟩ := Note.fokQuantities_eq_some hq
  have hlt : before.available o < o.openQuantity.toNat := by
    rw [ha, ho]
    decide
  refine ⟨b, o, before, b', o', hr, hn, hk, hlt, hm, ho, ho', fun h => ?_⟩
  obtain ⟨rfl, _⟩ := h.untouched hlt hm
  rw [ho] at ho'
  exact absurd ho' (by decide)

end RapidTrader
