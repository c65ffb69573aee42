import RapidTrader.Quiescence

namespace RapidTrader
open Lib Relation
set_option autoImplicit true

/-- What matching and activating leave alone: no stop order appears or changes, the remembered
prices stay, and the last price does not become zero. -/
structure StopFrame (b b' : Book) : Prop where
  stops : b'.orders.find? i = some w → w.order.IsStopType → b.orders.find? i = some w
  trailingBidPrice : b'.trailingBidPrice = b.trailingBidPrice
  trailingAskPrice : b'.trailingAskPrice = b.trailingAskPrice
  price : b'.lastTradedPrice = b.lastTradedPrice ∨ b'.lastTradedPrice ≠ 0

namespace StopFrame

theorem refl (b : Book) : StopFrame b b := ⟨fun h _ => h, rfl, rfl, .inl rfl⟩

theorem trans (h : StopFrame b b') (h' : StopFrame b' b'') : StopFrame b b'' := by
  refine ⟨fun hw ho => h.stops (h'.stops hw ho) ho,
    h'.trailingBidPrice.trans h.trailingBidPrice, h'.trailingAskPrice.trans h.trailingAskPrice, ?_⟩
  rcases h'.price with he | he
  · rw [he]
    exact h.price
  · exact .inr he

theorem deleted (hd : Deleted b i w l n b') : StopFrame b.toBook b'.toBook := by
  refine ⟨fun {k w'} hk _ => ?_, hd.prices.trailingBidPrice, hd.prices.trailingAskPrice,
    .inl hd.prices.lastTradedPrice⟩
  rw [hd.find?_orders] at hk
  split at hk
  · cases hk
  · exact hk

end StopFrame

theorem Order.not_isStopType {o : Order} (ho : o.type = .limit) : ¬ o.IsStopType := by
  rintro (h | h | h | h) <;> rw [ho] at h <;> cases h

/-- The resting order of a trade is a limit order. -/
theorem Traded.isLimit (h : Linked b.toBook) (ht : Traded b o key l i w b' o') :
    w.order.type = .limit := by
  obtain ⟨i', w', hfr, hw, _, _, hh⟩ := h.front (bestOpposite_eq_some ht.best).1
  rw [ht.front] at hfr
  cases hfr
  rw [ht.changed.order] at hw
  cases hw
  have hm := Order.levelMap?_eq_some.1 (Order.home?_levelMap? hh)
  cases hs : o.side <;> rw [hs] at hm <;> exact hm.1

theorem Inv.workStep_stopFrame (h : Inv c) (hs : WorkStep c c') :
    StopFrame c.book.toBook c'.book.toBook := by
  cases hs with
  | priced _ => exact .refl _
  | matching _ => exact .refl _
  | traded _ _ hm =>
    obtain ⟨key, l, i, w, ht⟩ := h.linked.traded hm
    have hl := ht.isLimit h.linked
    refine ⟨fun {k w'} hk ho => ?_, ht.changed.trailingBidPrice, ht.changed.trailingAskPrice,
      .inr ?_⟩
    · rw [ht.changed.find?_orders] at hk
      split at hk
      · split at hk
        · cases hk
        · cases hk
          exact absurd ho (Order.not_isStopType hl)
      · exact hk
    · rw [ht.changed.lastTradedPrice]
      exact (h.restable ht.changed.order).price_ne (.inl hl)
  | rested ht _ _ _ =>
    obtain ⟨it, _, hi⟩ := insertLimitOrder_inserted ht (h.inHand rfl).fresh
    refine ⟨fun {k w'} hk ho => ?_, hi.prices.trailingBidPrice, hi.prices.trailingAskPrice,
      .inl hi.prices.lastTradedPrice⟩
    rw [hi.find?_orders] at hk
    split at hk
    · cases hk
      exact absurd ho (Order.not_isStopType ht)
    · exact hk
  | dropped _ => exact .refl _
  | activating _ _ _ _ hd =>
    obtain ⟨w', l, hd⟩ := deleteOrderWith_deleted hd
    have hf := StopFrame.deleted hd
    exact hf
  | activated => exact .refl _

theorem Inv.workSteps_stopFrame (h : Inv c) (hs : WorkSteps c c') :
    StopFrame c.book.toBook c'.book.toBook := by
  induction hs with
  | refl => exact .refl _
  | tail hs hstep ih => exact ih.trans ((h.steps (WorkSteps.steps hs)).workStep_stopFrame hstep)

/-- The three ways a submission goes: the order is matched, perhaps after having been activated at
once, or it is inserted among the stop orders or among the trailing ones. -/
inductive Submitted (b : MapOrderBook) (o : Order) (b' : MapOrderBook) : Prop
  | matched (b₀ : MapOrderBook) (o₀ : Order) : b₀.toBook = b.toBook → Inv ⟨b₀, some o₀⟩ →
      WorkSteps ⟨b₀, some o₀⟩ ⟨b', none⟩ → Submitted b o b'
  | stop : o.type = .stop ∨ o.type = .stopLimit → b.stopTriggered o = false →
      b' = b.insertStopOrder o → Submitted b o b'
  | trailing : o.IsTrailing → b.stopTriggered (b.calculateStopPrice o) = false →
      b' = b.insertTrailingStopOrder (b.calculateStopPrice o) → Submitted b o b'

theorem activated_submitted (h : Inv ⟨b, some o⟩) (ho : o.IsStopType)
    (ht : b.stopTriggered o = true) (hs : (if o.activate.isMarket then
      (b.emit (.orderUpdated o.activate)).addMarketOrder fuel o.activate
    else (b.emit (.orderUpdated o.activate)).addLimitOrder fuel o.activate) = .ok b') :
    Submitted b o' b' := by
  refine .matched (b.emit (.orderUpdated o.activate)) o.activate rfl
    (h.step (.triggered ho ht)) ?_
  rcases Order.activate_type ho with ⟨ha, _⟩ | ⟨ha, _⟩
  · have hm : o.activate.isMarket = true := decide_eq_true ha
    rw [if_pos hm] at hs
    exact (addMarketOrder_runs fuel _ _ ha).of_ok hs
  · have hm : ¬ o.activate.isMarket = true := by simp [Order.isMarket, ha]
    rw [if_neg hm] at hs
    exact (addLimitOrder_runs fuel _ _ ha).of_ok hs

theorem addStopOrder_submitted (h : Inv ⟨b, some o⟩) (ho : o.IsStopType)
    (hs : b.addStopOrder fuel o = .ok b') : Submitted b o b' := by
  have htr (o : Order) : (o.isTrailingStop || o.isTrailingStopLimit) = true ↔ o.IsTrailing := by
    simp [Order.isTrailingStop, Order.isTrailingStopLimit, Order.IsTrailing]
  unfold MapOrderBook.addStopOrder at hs
  by_cases ht : o.IsTrailing
  · have ht' : (b.calculateStopPrice o).IsTrailing := ht
    rw [if_pos ((htr o).2 ht)] at hs
    dsimp only at hs
    cases htg : b.stopTriggered (b.calculateStopPrice o) with
    | true =>
      rw [htg, if_pos rfl] at hs
      exact activated_submitted (h.step (.trailed ht)) (.inr (.inr ht')) htg hs
    | false =>
      rw [htg, if_neg Bool.false_ne_true, if_pos ((htr _).2 ht')] at hs
      cases hs
      exact .trailing ht htg rfl
  · rw [if_neg (fun h => ht ((htr o).1 h))] at hs
    dsimp only at hs
    cases htg : b.stopTriggered o with
    | true =>
      rw [htg, if_pos rfl] at hs
      exact activated_submitted h ho htg hs
    | false =>
      rw [htg, if_neg Bool.false_ne_true, if_neg (fun h => ht ((htr o).1 h))] at hs
      cases hs
      refine .stop ?_ htg rfl
      rcases ho with ho | ho | ho
      · exact .inl ho
      · exact .inr ho
      · exact absurd ho ht

theorem submitOrder_submitted (h : Inv ⟨b, none⟩) (ha : Proper b.toBook (.submit o))
    (hs : b.submitOrder fuel o = .ok b') : Submitted (b.emit (.orderAdded o)) o b' := by
  have hi := h.step (.added ha)
  unfold MapOrderBook.submitOrder at hs
  dsimp only at hs
  cases ht : o.type with
  | limit =>
    rw [ht] at hs
    exact .matched _ o rfl hi ((addLimitOrder_runs fuel _ o ht).of_ok hs)
  | market =>
    rw [ht] at hs
    exact .matched _ o rfl hi ((addMarketOrder_runs fuel _ o ht).of_ok hs)
  | stop =>
    rw [ht] at hs
    exact addStopOrder_submitted hi (.inl ht) hs
  | stopLimit =>
    rw [ht] at hs
    exact addStopOrder_submitted hi (.inr (.inl ht)) hs
  | trailingStop =>
    rw [ht] at hs
    exact addStopOrder_submitted hi (.inr (.inr (.inl ht))) hs
  | trailingStopLimit =>
    rw [ht] at hs
    exact addStopOrder_submitted hi (.inr (.inr (.inr ht))) hs

end RapidTrader
