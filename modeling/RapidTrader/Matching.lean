import RapidTrader.Runs

namespace RapidTrader
open Lib
set_option autoImplicit true

/-- An incoming order may trade with a resting one: a limit order of the other side whose price
crosses, or has any price if the incoming order is a market order. -/
def Order.meets (o r : Order) : Bool :=
  r.isLimit && decide (r.side ≠ o.side) && (o.isMarket || Book.crosses o.side r.price o.price)

/-- The open quantity of all the resting orders that an incoming order may trade with. -/
def Book.available (b : Book) (o : Order) : Nat :=
  b.orders.total fun _ w => if o.meets w.order then w.order.openQuantity.toNat else 0

theorem Order.SameTerms.meets (ho : Order.SameTerms o o') (hr : Order.SameTerms r r') :
    o'.meets r' = o.meets r := by
  simp only [Order.meets, Order.isLimit, Order.isMarket, ho.type, ho.side, ho.price, hr.type,
    hr.side, hr.price]

theorem Order.SameTerms.isMatchable (h : Order.SameTerms o o') :
    o'.IsMatchable ↔ o.IsMatchable := by
  unfold Order.IsMatchable
  rw [h.type]

theorem Order.SameTerms.isPriced (h : Order.SameTerms o o') : o'.IsPriced ↔ o.IsPriced := by
  unfold Order.IsPriced Order.isAsk
  rw [h.type, h.price, h.side]

theorem crosses_of_isMarket {o : Order} (hp : o.IsPriced) (hm : o.type = .market) (key : UInt64) :
    Book.crosses o.side key o.price = true := by
  rw [hp hm]
  unfold Order.isAsk
  cases o.side with
  | ask =>
    have hle : (0 : UInt64) ≤ key := UInt64.le_iff_toNat_le.2 (Nat.zero_le _)
    exact decide_eq_true hle
  | bid => exact decide_eq_true (le_maxPrice key)

theorem meets_iff {o : Order} (hp : o.IsPriced) (r : Order) : o.meets r = true ↔
    r.type = .limit ∧ r.side ≠ o.side ∧ Book.crosses o.side r.price o.price = true := by
  simp only [Order.meets, Order.isLimit, Order.isMarket, Bool.and_eq_true, Bool.or_eq_true,
    decide_eq_true_eq, and_assoc]
  constructor
  · rintro ⟨ht, hs, hm | hc⟩
    · exact ⟨ht, hs, crosses_of_isMarket hp hm _⟩
    · exact ⟨ht, hs, hc⟩
  · rintro ⟨ht, hs, hc⟩
    exact ⟨ht, hs, .inr hc⟩

namespace Linked

/-- The limit orders of the other side are the ones in the levels an incoming order looks at. -/
theorem opposite_iff (h : Linked b) (hw : b.orders.find? i = some w) (side : OrderSide) :
    w.order.type = .limit ∧ w.order.side ≠ side ↔
      w.levelIt = ⟨Book.oppositeMap side, w.order.price⟩ := by
  have hh := h.home hw
  have hm := Order.levelMap?_eq_some.1 (Order.home?_levelMap? hh)
  constructor
  · rintro ⟨ht, hs⟩
    rw [Order.home?, Order.levelMap?, ht] at hh
    simp only [Option.map_some, Option.some.injEq, Order.isLimit, ht, decide_true,
      ↓reduceIte] at hh
    rw [← hh, Order.isAsk]
    cases side <;> cases hs' : w.order.side <;> simp_all [Book.oppositeMap]
  · intro hit
    rw [hit] at hm
    cases side with
    | ask => exact ⟨hm.1, by rw [hm.2]; decide⟩
    | bid => exact ⟨hm.1, by rw [hm.2]; decide⟩

theorem price_of_opposite (h : Linked b) (hw : b.orders.find? i = some w)
    (hit : w.levelIt = ⟨Book.oppositeMap side, key⟩) : w.order.price = key := by
  obtain ⟨t, _, he⟩ := Option.map_eq_some_iff.1 (h.home hw)
  have hl : w.order.type = .limit := by
    have hm := Order.levelMap?_eq_some.1 (Order.home?_levelMap? (h.home hw))
    rw [hit] at hm
    cases side <;> exact hm.1
  rw [hit, Order.isLimit, decide_eq_true hl] at he
  exact congrArg LevelIt.key he

/-- The order an incoming order trades with is one it meets. -/
theorem meets_traded (h : Linked b.toBook) (hp : o.IsPriced) (hc : b.canTrade o = true)
    (ht : Traded b o key l i w b' o') : o.meets w.order = true := by
  obtain ⟨_, key', l', hb, hcr⟩ := canTrade_eq_true hc
  rw [ht.best] at hb
  cases hb
  obtain ⟨i', w', hfr, hw, hit, _⟩ := h.front (bestOpposite_eq_some ht.best).1
  rw [ht.front] at hfr
  cases hfr
  rw [ht.changed.order] at hw
  cases hw
  have hprice := h.price_of_opposite ht.changed.order hit
  have hl := (h.opposite_iff ht.changed.order o.side).2 (by rw [hit, hprice])
  exact (meets_iff hp _).2 ⟨hl.1, hl.2, hprice ▸ hcr⟩

/-- An unfilled order that cannot trade meets no order. -/
theorem meets_eq_false (h : Linked b) (hp : o.IsPriced) (hc : b.canTrade o = false)
    (hf : o.isFilled = false) (hw : b.orders.find? i = some w) : o.meets w.order = false := by
  rw [Bool.eq_false_iff]
  intro hm
  obtain ⟨ht, hs, hcr⟩ := (meets_iff hp _).1 hm
  have hit := (h.opposite_iff hw o.side).1 ⟨ht, hs⟩
  obtain ⟨l, hl, _⟩ := h.held hw
  rw [hit] at hl
  rw [canTrade_eq_false hc hf hl] at hcr
  cases hcr

end Linked

/-- The quantity a trade executes. -/
def matched (o r : Order) : UInt64 := min o.openQuantity r.openQuantity

theorem matched_le (o r : Order) :
    matched o r ≤ o.openQuantity ∧ matched o r ≤ r.openQuantity := by
  rw [matched, min_uint64]
  grind

theorem matched_ne {o r : Order} (ho : o.openQuantity ≠ 0) (hr : r.openQuantity ≠ 0) :
    matched o r ≠ 0 := by
  rw [matched, min_uint64]
  split <;> assumption

theorem toNat_openQuantity_execute {o : Order} (hq : quantity ≤ o.openQuantity) (price : UInt64) :
    (o.execute price quantity).openQuantity.toNat + quantity.toNat = o.openQuantity.toNat := by
  have hsub : (o.execute price quantity).openQuantity.toNat =
      o.openQuantity.toNat - quantity.toNat := UInt64.toNat_sub_of_le _ _ hq
  have := UInt64.le_iff_toNat_le.1 hq
  omega

/-- A trade takes the same quantity off the incoming order and off what is available to it. -/
theorem Traded.available (h : Linked b.toBook) (hp : o.IsPriced) (hc : b.canTrade o = true)
    (ht : Traded b o key l i w b' o') :
    o'.openQuantity.toNat + (matched o w.order).toNat = o.openQuantity.toNat ∧
      b'.available o' + (matched o w.order).toNat = b.available o := by
  have hle := matched_le o w.order
  have hm := h.meets_traded hp hc ht
  have hst : o.SameTerms o' := by
    rw [ht.order]
    exact .execute _ _ _
  have hcong (b : Book) : b.available o' = b.available o := by
    simp only [Book.available, hst.meets (.refl _)]
  have hrest := toNat_openQuantity_execute hle.2 w.order.price
  have hmeets : o.meets (w.order.execute w.order.price (matched o w.order)) = true := by
    rw [(Order.SameTerms.refl o).meets (.execute w.order _ _)]
    exact hm
  constructor
  · rw [ht.order]
    exact toNat_openQuantity_execute hle.1 _
  · rw [hcong]
    have hb : b.available o = w.order.openQuantity.toNat + (b.orders.erase i).total
        (fun _ w => if o.meets w.order then w.order.openQuantity.toNat else 0) := by
      rw [Book.available, SortedMap.total_of_find? _ ht.changed.order, hm]
      rfl
    have ho := ht.changed.orders
    rw [hb, Book.available, ho]
    split
    · rename_i hf
      have hz : (w.order.execute w.order.price (matched o w.order)).openQuantity = 0 :=
        of_decide_eq_true hf
      rw [hz, UInt64.toNat_zero] at hrest
      omega
    · rw [SortedMap.total_insert]
      change (if o.meets (w.order.execute w.order.price (matched o w.order)) = true then
        (w.order.execute w.order.price (matched o w.order)).openQuantity.toNat else 0) + _ + _ = _
      rw [hmeets, if_pos rfl]
      omega

/-- The order an incoming order trades with is not filled, so the trade is of something. -/
theorem Traded.matched_ne (hi : Inv ⟨b, some o⟩) (hc : b.canTrade o = true)
    (ht : Traded b o key l i w b' o') : matched o w.order ≠ 0 := by
  apply RapidTrader.matched_ne
  · exact of_decide_eq_false (canTrade_eq_true hc).1
  · exact (hi.restable ht.changed.order).open_ne

/-- An order that can trade has something available. -/
theorem Inv.available_pos (hi : Inv ⟨b, some o⟩) (hp : o.IsPriced) (hc : b.canTrade o = true) :
    0 < b.available o := by
  have hl : Linked b.toBook := hi.linked
  obtain ⟨⟨b', o'⟩, hm⟩ := hl.matchFront_ok hc
  obtain ⟨key, l, i, w, ht⟩ := hl.traded hm
  have ha := (ht.available hl hp hc).2
  have hne : (matched o w.order).toNat ≠ 0 := fun he =>
    ht.matched_ne hi hc (UInt64.toNat_inj.1 he)
  omega

/-- The loops of `match`. -/
abbrev MapOrderBook.matchLoop (fuel : Nat) :
    MapOrderBook × Order → Exec (MapOrderBook × Order) :=
  whileLoop (fun s => s.1.canTrade s.2) (fun s => s.1.matchFront s.2) Prod.fst fuel

theorem matchOrder_not_fok {b : MapOrderBook} (hk : o.isFok = false) (fuel : Nat) :
    b.matchOrder fuel o = MapOrderBook.matchLoop fuel (b.note (.matching o b.toBook), o) := by
  unfold MapOrderBook.matchOrder
  rw [hk]
  rfl

/-- What holds in the loops of `match` for an order that started as `o` with `available` to trade
with. -/
structure Sweep (o : Order) (available : Nat) (s : MapOrderBook × Order) : Prop where
  inv : Inv ⟨s.1, some s.2⟩
  terms : o.SameTerms s.2
  balance : s.2.openQuantity.toNat + available = o.openQuantity.toNat + s.1.available s.2

section Loop
variable {b : MapOrderBook} {o : Order}

theorem Sweep.start (hi : Inv ⟨b, some o⟩) : Sweep o (b.available o) (b, o) := ⟨hi, .refl o, rfl⟩

theorem Sweep.turn (ho : o.IsMatchable) (hp : o.IsPriced) (h : Sweep o available s)
    (hc : s.1.canTrade s.2 = true) (hm : s.1.matchFront s.2 = .ok s') :
    Sweep o available s' ∧ s'.2.openQuantity.toNat < s.2.openQuantity.toNat := by
  have ho' := h.terms.isMatchable.2 ho
  have hp' := h.terms.isPriced.2 hp
  have hl : Linked s.1.toBook := h.inv.linked
  obtain ⟨key, l, i, w, ht⟩ := hl.traded hm
  obtain ⟨hopen, havail⟩ := ht.available hl hp' hc
  have hb := h.balance
  have hne : (matched s.2 w.order).toNat ≠ 0 := fun he =>
    ht.matched_ne h.inv hc (UInt64.toNat_inj.1 he)
  refine ⟨⟨h.inv.workStep (.traded ho' hc hm), h.terms.trans (matchFront_sameTerms _ hm), ?_⟩, ?_⟩
  · omega
  · omega

/-- The loops of `match` end after at most as many turns as the order has open. -/
theorem matchLoop_ends (hi : Inv ⟨b, some o⟩) (ho : o.IsMatchable) (hp : o.IsPriced)
    (hn : o.openQuantity.toNat < fuel) : ∃ s, MapOrderBook.matchLoop fuel (b, o) = .ok s := by
  have hturn (s : MapOrderBook × Order) (hs : Sweep o (b.available o) s)
      (hc : s.1.canTrade s.2 = true) : ∃ s', s.1.matchFront s.2 = .ok s' ∧
        Sweep o (b.available o) s' ∧ s'.2.openQuantity.toNat < s.2.openQuantity.toNat := by
    obtain ⟨s', hm⟩ := hs.inv.linked.matchFront_ok hc
    obtain ⟨hs', hlt⟩ := hs.turn ho hp hc hm
    exact ⟨s', hm, hs', hlt⟩
  obtain ⟨s, hs, _⟩ := whileLoop_ends (I := Sweep o (b.available o))
    (fun s : MapOrderBook × Order => s.2.openQuantity.toNat) hturn (.start hi) hn
  exact ⟨s, hs⟩

/-- The loops of `match` fill the order or take all that is available to it. -/
theorem matchLoop_open (hi : Inv ⟨b, some o⟩) (ho : o.IsMatchable) (hp : o.IsPriced)
    (h : MapOrderBook.matchLoop fuel (b, o) = .ok s) :
    s.2.openQuantity.toNat = o.openQuantity.toNat - b.available o := by
  obtain ⟨hs, hc⟩ := whileLoop_inv (I := Sweep o (b.available o))
    (fun s s' hs hc hm => (hs.turn ho hp hc hm).1) (.start hi) h
  have hbal := hs.balance
  by_cases hf : s.2.isFilled = true
  · have hz : s.2.openQuantity = 0 := of_decide_eq_true hf
    rw [hz, UInt64.toNat_zero] at hbal ⊢
    omega
  · have hz : s.1.available s.2 = 0 := by
      apply SortedMap.total_eq_zero
      intro i w hw
      rw [hs.inv.linked.meets_eq_false (hs.terms.isPriced.2 hp) hc (by simpa using hf) hw]
      rfl
    omega

end Loop

end RapidTrader
