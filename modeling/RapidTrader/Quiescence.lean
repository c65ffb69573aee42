import RapidTrader.Cascade

namespace RapidTrader
open Lib
set_option autoImplicit true

/-! ### Stop prices as natural numbers -/

theorem toNat_newStopPrice_ask {o : Order} (b : Book) (ho : o.side = .ask) :
    (b.newStopPrice o).toNat = b.lastTradedPrice.toNat - o.trailAmount.toNat := by
  unfold Book.newStopPrice Order.isAsk Book.lastTradedPriceBid
  rw [if_pos (decide_eq_true ho)]
  dsimp only
  split
  · rename_i h
    exact UInt64.toNat_sub_of_le _ _ (UInt64.le_of_lt h)
  · rename_i h
    rw [UInt64.lt_iff_toNat_lt] at h
    rw [UInt64.toNat_zero]
    omega

theorem toNat_newStopPrice_bid {o : Order} (b : Book) (ho : o.side = .bid) :
    (b.newStopPrice o).toNat =
      min (b.lastTradedPriceAsk.toNat + o.trailAmount.toNat) maxPrice.toNat := by
  unfold Book.newStopPrice Order.isAsk
  rw [if_neg (by rw [ho]; decide)]
  dsimp only
  have hle := le_maxPrice o.trailAmount
  have hsub := UInt64.toNat_sub_of_le _ _ hle
  have hle' := UInt64.le_iff_toNat_le.1 hle
  rw [toNat_maxPrice] at *
  split
  · rename_i h
    rw [UInt64.lt_iff_toNat_lt, hsub] at h
    rw [UInt64.toNat_add]
    omega
  · rename_i h
    rw [UInt64.lt_iff_toNat_lt, hsub] at h
    rw [toNat_maxPrice]
    omega

/-! ### Quiescence -/

/-- No stop order that could be activated rests. -/
structure Quiescent (b : Book) : Prop where
  ask : b.orders.find? i = some w → w.order.IsStopType → w.order.side = .ask →
    w.order.stopPrice < b.lastTradedPrice
  bid : b.orders.find? i = some w → w.order.IsStopType → w.order.side = .bid →
    b.lastTradedPriceAsk < w.order.stopPrice

theorem Quiescent.of_lastTradedPrice (h : Quiescent b) (hp : b.lastTradedPrice = 0)
    (hw : b.orders.find? i = some w) : ¬ w.order.IsStopType := by
  intro ho
  cases hs : w.order.side with
  | ask =>
    have := h.ask hw ho hs
    rw [hp] at this
    grind
  | bid =>
    have := h.bid hw ho hs
    rw [Book.lastTradedPriceAsk, if_pos hp, UInt64.lt_iff_toNat_lt, toNat_maxPrice] at this
    have := w.order.stopPrice.toNat_lt
    omega

/-- A stop order rests under its stop price, in one of the two maps of its side. -/
theorem Linked.stop_map (h : Linked b) (hw : b.orders.find? i = some w)
    (ho : w.order.IsStopType) : w.levelIt.key = w.order.stopPrice ∧
      match w.order.side with
      | .ask => w.levelIt.levels = .stopAsk ∨ w.levelIt.levels = .trailingStopAsk
      | .bid => w.levelIt.levels = .stopBid ∨ w.levelIt.levels = .trailingStopBid := by
  have hh := h.home hw
  have hst := Order.isStop_of_home? hh ho
  have hm := Order.levelMap?_eq_some.1 (Order.home?_levelMap? hh)
  constructor
  · obtain ⟨t, _, he⟩ := Option.map_eq_some_iff.1 hh
    have hl : w.order.isLimit = false := by
      rcases ho with ho | ho | ho | ho <;> simp [Order.isLimit, ho]
    rw [hl] at he
    rw [← he]
    rfl
  · cases ht : w.levelIt.levels <;> rw [ht] at hm <;> first
      | exact absurd ht hst.1
      | exact absurd ht hst.2
      | rw [hm.2]; simp

/-- An order in a map that has nothing to activate is not triggered. -/
theorem Linked.not_triggers (h : Linked b) (hw : b.orders.find? i = some w)
    (ho : w.order.IsStopType) (hc : b.canActivate w.levelIt.levels p = false) :
    Book.triggers w.levelIt.levels.side w.order.stopPrice p = false := by
  obtain ⟨l, hl, _⟩ := h.held hw
  rw [← (h.stop_map hw ho).1]
  exact triggers_of_canActivate hc hl

/-- The orders after an update are the old ones or, if they are trailing and the market has moved
away from them, moved ones. -/
theorem Updated.find?_cases (hu : Updated b side b')
    (hw : (b'.remember side).orders.find? i = some w') :
    ∃ w, b.orders.find? i = some w ∧
      ((w' = w ∧ ¬ (b.relevels side = true ∧ w.levelIt.levels = trailingMap side)) ∨
        b.relevels side = true ∧ w.levelIt.levels = trailingMap side ∧
          w' = b.moved (trailingMap side) w) := by
  rw [orders_remember, hu.orders] at hw
  obtain ⟨w, hw₀, rfl⟩ := Option.map_eq_some_iff.1 hw
  refine ⟨w, hw₀, ?_⟩
  split
  · rename_i h
    exact .inr ⟨h.1, h.2, rfl⟩
  · exact .inl ⟨rfl, ‹_›⟩

theorem lastTradedPriceAsk_congr {b b' : Book} (h : b'.lastTradedPrice = b.lastTradedPrice) :
    b'.lastTradedPriceAsk = b.lastTradedPriceAsk := by
  unfold Book.lastTradedPriceAsk
  rw [h]

/-- A bid that has been moved rests above the market again. -/
theorem lt_newStopPrice {b : Book} (hr : b.relevels .bid = true) (ho : o.side = .bid)
    (ht : o.trailAmount ≠ 0) : b.lastTradedPriceAsk < b.newStopPrice o := by
  unfold Book.relevels at hr
  simp only [Bool.and_eq_true, decide_eq_true_eq] at hr
  have h₁ := UInt64.lt_iff_toNat_lt.1 hr.1
  have h₂ := b.trailingAskPrice.toNat_lt
  have h₃ : 0 < o.trailAmount.toNat := by
    have : 0 < o.trailAmount := by grind
    exact UInt64.lt_iff_toNat_lt.1 this
  rw [UInt64.lt_iff_toNat_lt, toNat_newStopPrice_bid b ho, toNat_maxPrice]
  omega

theorem quiescent_of_cascade (hi : Inv ⟨b, none⟩) (h : b.activateStopOrders fuel = .ok b') :
    Quiescent b'.toBook := by
  obtain ⟨b₀, b₁, b₂, b₃, hi₀, hp⟩ := activateStopOrders_last (I := fun b => Inv ⟨b, none⟩)
    (fun hi hp => (hp.inv hi).2.2.2) hi h
  obtain ⟨hi₁, hi₂, hi₃, hi'⟩ := hp.inv hi₀
  obtain ⟨rfl, rfl, hsb, htb, hsa, hta⟩ := hp.idle
  obtain ⟨u, hu, hua⟩ := updateStopOrders_updated hi₀.linked .ask
  obtain ⟨v, hv, hvb⟩ := updateStopOrders_updated hi₂.linked .bid
  rw [hp.updatedAsks] at hu
  rw [hp.updatedBids] at hv
  cases hu
  cases hv
  have hpu : (u.remember .ask).lastTradedPrice = b₁.lastTradedPrice := by
    rw [lastTradedPrice_remember, hua.prices.lastTradedPrice]
  have hpv : (v.remember .bid).lastTradedPrice = (u.remember .ask).lastTradedPrice := by
    rw [lastTradedPrice_remember, hvb.prices.lastTradedPrice]
  constructor
  · intro i w' hw' ho hs
    obtain ⟨w, hw, hmv⟩ := hvb.find?_cases hw'
    have hne : w' = w := by
      refine (hmv.resolve_right ?_).1
      rintro ⟨-, ht, rfl⟩
      have hm := (hi₂.linked.stop_map hw ho).2
      rw [show w.order.side = .ask from hs, ht] at hm
      rcases hm with hm | hm <;> cases hm
    subst hne
    have hm := (hi₂.linked.stop_map hw ho).2
    rw [hs] at hm
    have hc : (u.remember .ask).canActivate w'.levelIt.levels
        (u.remember .ask).lastTradedPriceBid = false := by
      rcases hm with hm | hm <;> rw [hm] <;> assumption
    have ht := hi₂.linked.not_triggers hw ho hc
    have hside : w'.levelIt.levels.side = .ask := by
      rcases hm with hm | hm <;> rw [hm] <;> rfl
    rw [hside] at ht
    simp only [Book.triggers, Book.lastTradedPriceBid] at ht
    rw [hpv]
    grind
  · intro i w' hw' ho hs
    rw [lastTradedPriceAsk_congr hpv]
    obtain ⟨w, hw, ⟨rfl, _⟩ | ⟨hr, ht, rfl⟩⟩ := hvb.find?_cases hw'
    · obtain ⟨w₀, hw₀, hmv⟩ := hua.find?_cases hw
      have hne : w' = w₀ := by
        refine (hmv.resolve_right ?_).1
        rintro ⟨-, ht, rfl⟩
        have hm := (hi₀.linked.stop_map hw₀ ho).2
        rw [show w₀.order.side = .bid from hs, ht] at hm
        rcases hm with hm | hm <;> cases hm
      subst hne
      have hm := (hi₀.linked.stop_map hw₀ ho).2
      rw [hs] at hm
      have hc : b₁.canActivate w'.levelIt.levels b₁.lastTradedPriceAsk = false := by
        rcases hm with hm | hm <;> rw [hm] <;> assumption
      have ht := hi₀.linked.not_triggers hw₀ ho hc
      have hside : w'.levelIt.levels.side = .bid := by
        rcases hm with hm | hm <;> rw [hm] <;> rfl
      rw [hside] at ht
      simp only [Book.triggers, decide_eq_false_iff_not] at ht
      rw [lastTradedPriceAsk_congr hpu]
      grind
    · have htr := Order.isTrailing_of_home? (hi₂.linked.home hw)
        (ht ▸ isTrailing_trailingMap .bid)
      exact lt_newStopPrice hr hs ((hi₂.restable hw).trail_ne htr)

/-- After every completed operation no stop order that could be activated rests, and before the
first trade no stop order rests at all. -/
theorem quiescent_of_reachable (h : Reachable Op.Legal symbolId b) : Quiescent b.toBook ∧
    (b.lastTradedPrice = 0 → ∀ i w, b.orders.find? i = some w → ¬ w.order.IsStopType) := by
  have hq : Quiescent b.toBook := by
    cases h with
    | new => exact ⟨fun h => (nomatch h), fun h => (nomatch h)⟩
    | apply hr hl hop =>
      obtain ⟨b₁, hi₁, hc⟩ := apply_cascade hr.inv hl hop
      exact quiescent_of_cascade hi₁ hc
  exact ⟨hq, fun hp _ _ hw => hq.of_lastTradedPrice hp hw⟩

theorem quiescent_of_reachable_mixedOps :
    ∃ b, (MapOrderBook.new 1).run 20 mixedOps = .ok b ∧ Quiescent b.toBook := by
  obtain ⟨b, hb, hr⟩ := exists_reachable Op.Legal 1 20 mixedOps (by decide +kernel)
    (by decide +kernel)
  exact ⟨b, hb, (quiescent_of_reachable hr).1⟩

end RapidTrader
