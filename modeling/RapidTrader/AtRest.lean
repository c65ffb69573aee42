import RapidTrader.Idle

namespace RapidTrader
open Lib
set_option autoImplicit true

namespace Quiescent

theorem changed (h : Quiescent b.toBook) (hst : w.order.SameTerms o)
    (hc : Changed b i w l o amount b.lastTradedPrice notes b') : Quiescent b'.toBook := by
  have hfind {k w'} (hk : b'.orders.find? k = some w') :
      ∃ w₀, b.orders.find? k = some w₀ ∧ w₀.order.SameTerms w'.order := by
    rw [hc.find?_orders] at hk
    split at hk
    · rename_i hki
      split at hk
      · cases hk
      · cases hk
        exact ⟨w, hki ▸ hc.order, hst⟩
    · exact ⟨w', hk, .refl _⟩
  constructor
  · intro k w' hk ho hs
    obtain ⟨w₀, h₀, ht⟩ := hfind hk
    rw [ht.stopPrice, hc.lastTradedPrice]
    exact h.ask h₀ (ht.isStopType.1 ho) (ht.side ▸ hs)
  · intro k w' hk ho hs
    obtain ⟨w₀, h₀, ht⟩ := hfind hk
    rw [ht.stopPrice, lastTradedPriceAsk_congr hc.lastTradedPrice]
    exact h.bid h₀ (ht.isStopType.1 ho) (ht.side ▸ hs)

theorem deleted (h : Quiescent b.toBook) (hd : Deleted b i w l n b') : Quiescent b'.toBook := by
  have hfind {k w'} (hk : b'.orders.find? k = some w') : b.orders.find? k = some w' := by
    rw [hd.find?_orders] at hk
    split at hk
    · cases hk
    · exact hk
  constructor
  · intro k w' hk ho hs
    rw [hd.prices.lastTradedPrice]
    exact h.ask (hfind hk) ho hs
  · intro k w' hk ho hs
    rw [lastTradedPriceAsk_congr hd.prices.lastTradedPrice]
    exact h.bid (hfind hk) ho hs

/-- A stop order that is not triggered at once comes to rest out of reach of the market. -/
theorem inserted (h : Quiescent b.toBook) (hi : Inserted b it o b')
    (ht : o.IsStopType → b.stopTriggered o = false) : Quiescent b'.toBook := by
  constructor
  · intro k w hk ho hs
    rw [hi.prices.lastTradedPrice]
    rw [hi.find?_orders] at hk
    split at hk
    · cases hk
      have ht := ht ho
      rw [Book.stopTriggered, Order.isAsk, if_pos (decide_eq_true hs)] at ht
      exact UInt64.not_le.1 (of_decide_eq_false ht)
    · exact h.ask hk ho hs
  · intro k w hk ho hs
    rw [lastTradedPriceAsk_congr hi.prices.lastTradedPrice]
    rw [hi.find?_orders] at hk
    split at hk
    · cases hk
      have ht := ht ho
      have hs' : o.side = .bid := hs
      rw [Book.stopTriggered, Order.isAsk, if_neg (by rw [hs']; decide)] at ht
      exact UInt64.not_le.1 (of_decide_eq_false ht)
    · exact h.bid hk ho hs

end Quiescent

/-- The book between operations: no stop order could be activated, and both remembered prices are
the last price, except that no price is remembered for the bids before the first trade. -/
structure AtRest (b : Book) : Prop where
  linked : Linked b
  quiescent : Quiescent b
  trailingBidPrice : b.trailingBidPrice = b.lastTradedPrice
  trailingAskPrice : b.trailingAskPrice = b.lastTradedPrice ∨ b.lastTradedPrice = 0

namespace AtRest

theorem idle (h : AtRest b) : Idle b :=
  .of_tracked h.linked h.quiescent h.trailingBidPrice h.trailingAskPrice

theorem idled {b : MapOrderBook} (h : AtRest b.toBook) : AtRest b.idled.toBook :=
  ⟨h.linked.congr (orders_idled b) (level?_idled b) rfl, ⟨h.quiescent.ask, h.quiescent.bid⟩, rfl,
    .inl rfl⟩

theorem deleted (h : AtRest b.toBook) (hd : Deleted b i w l n b') : AtRest b'.toBook := by
  refine ⟨h.linked.deleted hd, h.quiescent.deleted hd, ?_, ?_⟩
  · rw [hd.prices.trailingBidPrice, hd.prices.lastTradedPrice]
    exact h.trailingBidPrice
  · rw [hd.prices.trailingAskPrice, hd.prices.lastTradedPrice]
    exact h.trailingAskPrice

theorem changed (h : AtRest b.toBook) (hst : w.order.SameTerms o)
    (hc : Changed b i w l o amount b.lastTradedPrice notes b') : AtRest b'.toBook := by
  refine ⟨h.linked.changed hst hc, h.quiescent.changed hst hc, ?_, ?_⟩
  · rw [hc.trailingBidPrice, hc.lastTradedPrice]
    exact h.trailingBidPrice
  · rw [hc.trailingAskPrice, hc.lastTradedPrice]
    exact h.trailingAskPrice

theorem inserted (h : AtRest b.toBook) (hn : b.orders.find? o.id = none)
    (hh : o.home? = some it) (hi : Inserted b it o b')
    (ht : o.IsStopType → b.stopTriggered o = false) : AtRest b'.toBook := by
  refine ⟨h.linked.inserted hn hh hi, h.quiescent.inserted hi ht, ?_, ?_⟩
  · rw [hi.prices.trailingBidPrice, hi.prices.lastTradedPrice]
    exact h.trailingBidPrice
  · rw [hi.prices.trailingAskPrice, hi.prices.lastTradedPrice]
    exact h.trailingAskPrice

end AtRest

theorem Reachable.atRest (h : Reachable Op.Legal symbolId b) : AtRest b.toBook :=
  ⟨h.inv.linked, (quiescent_of_reachable h).1, h.tracked.trailingBidPrice,
    h.tracked.trailingAskPrice⟩

end RapidTrader
