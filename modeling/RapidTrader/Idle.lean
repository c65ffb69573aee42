import RapidTrader.TrailingDistance

namespace RapidTrader
open Lib
set_option autoImplicit true

/-- There is nothing for the cascade to do. -/
structure Idle (b : Book) : Prop where
  bids : t = .stopBid ∨ t = .trailingStopBid → b.canActivate t b.lastTradedPriceAsk = false
  asks : t = .stopAsk ∨ t = .trailingStopAsk → b.canActivate t b.lastTradedPriceBid = false
  relevels : ∀ side, b.relevels side = false

namespace MapOrderBook

/-- The book after an update that moves nothing. -/
def skipUpdate (b : MapOrderBook) (side : OrderSide) : MapOrderBook :=
  (b.note (.updating side b.toBook)).remember side

/-- The book after a cascade that does nothing but remember prices. -/
def idled (b : MapOrderBook) : MapOrderBook := (b.skipUpdate .ask).skipUpdate .bid

end MapOrderBook

theorem orders_idled (b : MapOrderBook) : b.idled.orders = b.orders := rfl

theorem level?_idled (b : MapOrderBook) (it : LevelIt) : b.idled.level? it = b.level? it := by
  unfold MapOrderBook.idled MapOrderBook.skipUpdate
  rw [level?_remember, toBook_note, level?_remember, toBook_note]

theorem updateStopOrders_skip {b : MapOrderBook} (h : b.relevels side = false) :
    b.updateStopOrders side = .ok (b.skipUpdate side) := by
  rw [updateStopOrders_eq, h]
  rfl

theorem activateLevels_skip {b : MapOrderBook} (h : b.canActivate t p = false) (n : Nat)
    (f : Bool) : MapOrderBook.activateLevels (n + 1) t p (b, f) = .ok (b, f) :=
  whileLoop_exit (s := (b, f)) h n

namespace Idle

theorem skipUpdate {b : MapOrderBook} (h : Idle b.toBook) : Idle (b.skipUpdate .ask).toBook := by
  constructor
  · exact h.bids
  · exact h.asks
  · intro side
    cases side with
    | ask =>
      have hlt : decide (b.lastTradedPrice < b.lastTradedPrice) = false :=
        decide_eq_false (UInt64.lt_irrefl _)
      change (decide (b.lastTradedPrice < b.lastTradedPrice) && _) = false
      rw [hlt]
      rfl
    | bid => exact h.relevels .bid

theorem activatePass {b : MapOrderBook} (h : Idle b.toBook) (n : Nat) :
    b.activatePass (n + 1) = .ok (b.idled, false) := by
  have hbids : b.activateBidStopOrders (n + 1) = .ok (b, false) := by
    unfold MapOrderBook.activateBidStopOrders
    rw [activateLevels_skip (h.bids (.inl rfl)), ok_bind]
    exact activateLevels_skip (h.bids (.inr rfl)) n false
  have hasks : (b.skipUpdate .ask).activateAskStopOrders (n + 1) =
      .ok (b.skipUpdate .ask, false) := by
    unfold MapOrderBook.activateAskStopOrders
    rw [activateLevels_skip (h.skipUpdate.asks (.inl rfl)), ok_bind]
    exact activateLevels_skip (h.skipUpdate.asks (.inr rfl)) n false
  have hu : b.updateAskStopOrders = .ok (b.skipUpdate .ask) :=
    updateStopOrders_skip (h.relevels .ask)
  have hu' : (b.skipUpdate .ask).updateBidStopOrders = .ok b.idled :=
    updateStopOrders_skip (h.skipUpdate.relevels .bid)
  unfold MapOrderBook.activatePass
  rw [hbids, ok_bind]
  dsimp only
  rw [hu, ok_bind, hasks, ok_bind]
  dsimp only
  rw [hu', ok_bind]
  rfl

/-- The cascade makes one pass and stops. -/
theorem activateStopOrders {b : MapOrderBook} (h : Idle b.toBook) (hn : 2 ≤ fuel) :
    b.activateStopOrders fuel = .ok b.idled := by
  obtain ⟨n, rfl⟩ := Nat.exists_eq_add_of_le' hn
  have hloop : whileLoop Prod.snd (fun s : MapOrderBook × Bool => s.1.activatePass (n + 2)) Prod.fst
      (n + 2) (b, true) = .ok (b.idled, false) := by
    rw [whileLoop_turn rfl, h.activatePass (n + 1), ok_bind]
    exact whileLoop_exit rfl n
  unfold MapOrderBook.activateStopOrders
  rw [hloop, ok_bind]
  rfl

end Idle

/-- A level whose turn has come holds a stop order of its price. -/
theorem Linked.exists_of_canActivate {b : Book} (h : Linked b) (ht : t.IsStop)
    (hc : b.canActivate t p = true) : ∃ i w, b.orders.find? i = some w ∧ w.order.IsStopType ∧
      w.levelIt.levels = t ∧ Book.triggers t.side w.order.stopPrice p = true := by
  unfold Book.canActivate at hc
  split at hc
  · rename_i key l hf
    obtain ⟨i, w, _, hw, hit, _, hh⟩ := h.front (firstStop_eq_some hf)
    have hst := Order.isStopType_of_home? hh ht
    have hkey := (h.stop_map hw hst).1
    rw [hit] at hkey
    refine ⟨i, w, hw, hst, by rw [hit], ?_⟩
    rw [← hkey]
    exact hc
  · cases hc

/-- Between operations there is nothing to do, as long as the last price stays. -/
theorem Idle.of_tracked {b : Book} (hl : Linked b) (hq : Quiescent b)
    (hask : b.trailingBidPrice = b.lastTradedPrice)
    (hbid : b.trailingAskPrice = b.lastTradedPrice ∨ b.lastTradedPrice = 0) : Idle b := by
  constructor
  · intro t ht
    rw [← Bool.not_eq_true]
    intro hc
    obtain ⟨i, w, hw, hst, hmap, htr⟩ := hl.exists_of_canActivate (by
      rcases ht with rfl | rfl <;> exact ⟨nofun, nofun⟩) hc
    have hm := Order.levelMap?_eq_some.1 (Order.home?_levelMap? (hl.home hw))
    have hs : w.order.side = .bid := by
      rcases ht with rfl | rfl <;> rw [hmap] at hm <;> exact hm.2
    have hlt := hq.bid hw hst hs
    have hle : w.order.stopPrice ≤ b.lastTradedPriceAsk := by
      rcases ht with rfl | rfl <;> exact of_decide_eq_true htr
    exact absurd hlt (UInt64.not_lt.2 hle)
  · intro t ht
    rw [← Bool.not_eq_true]
    intro hc
    obtain ⟨i, w, hw, hst, hmap, htr⟩ := hl.exists_of_canActivate (by
      rcases ht with rfl | rfl <;> exact ⟨nofun, nofun⟩) hc
    have hm := Order.levelMap?_eq_some.1 (Order.home?_levelMap? (hl.home hw))
    have hs : w.order.side = .ask := by
      rcases ht with rfl | rfl <;> rw [hmap] at hm <;> exact hm.2
    have hlt := hq.ask hw hst hs
    have hle : b.lastTradedPrice ≤ w.order.stopPrice := by
      rcases ht with rfl | rfl <;> exact of_decide_eq_true htr
    exact absurd hlt (UInt64.not_lt.2 hle)
  · intro side
    cases side with
    | ask =>
      have : decide (b.trailingBidPrice < b.lastTradedPriceBid) = false := by
        rw [hask]
        exact decide_eq_false (UInt64.lt_irrefl _)
      rw [Book.relevels, this]
      rfl
    | bid =>
      have : decide (b.lastTradedPriceAsk < b.trailingAskPrice) = false := by
        apply decide_eq_false
        unfold Book.lastTradedPriceAsk
        rcases hbid with hb | hb
        · rw [hb]
          split
          · exact UInt64.not_lt.2 (le_maxPrice _)
          · exact UInt64.lt_irrefl _
        · rw [if_pos hb]
          exact UInt64.not_lt.2 (le_maxPrice _)
      rw [Book.relevels, this]
      rfl

end RapidTrader
