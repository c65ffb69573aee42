import RapidTrader.AtRest
import RapidTrader.Everywhere
import RapidTrader.Queues

namespace RapidTrader
open Lib
set_option autoImplicit true

/-- What lies between `b` and `b'` touches no order but the one of `w`, which rests in `b`: all its
events tell of that order and none is of an execution, every other order rests as it did, its place
in its queue included, and only the level of `w` may change. -/
structure TouchesOnly (b : MapOrderBook) (w : OrderWrapper) (b' : MapOrderBook) : Prop where
  events : ∃ es, events b'.trace = events b.trace ++ es ∧ ∀ e ∈ es,
    (∃ o, e.order? = some o ∧ o.id = w.order.id) ∧ ∀ o, e ≠ .executedOrder o
  lastTradedPrice : b'.lastTradedPrice = b.lastTradedPrice
  orders : i ≠ w.order.id → b'.orders.find? i = b.orders.find? i
  queues : (b'.queue it).filter (fun i => i ≠ w.order.id) =
    (b.queue it).filter (fun i => i ≠ w.order.id)
  levels : it ≠ w.levelIt → b'.level? it = b.level? it

theorem events_map_event (es : List Event) : events (es.map .event) = es := by
  rw [events, List.filterMap_map]
  exact List.filterMap_some

theorem events_idled (b : MapOrderBook) : events b.idled.trace = events b.trace := by
  have h : b.idled.trace = b.trace ++ [.updating .ask b.toBook] ++
      [.updating .bid (b.skipUpdate .ask).toBook] := rfl
  rw [h, events_append, events_append]
  exact (List.append_nil _).trans (List.append_nil _)

theorem queue_idled (b : MapOrderBook) (it : LevelIt) : b.idled.queue it = b.queue it := by
  rw [Book.queue, level?_idled, Book.queue]

namespace TouchesOnly

/-- A cascade that finds nothing to do touches nothing else. -/
theorem idled (h : TouchesOnly b w b') : TouchesOnly b w b'.idled := by
  obtain ⟨he, hp, ho, hq, hl⟩ := h
  refine ⟨?_, hp, fun hi => ?_, fun {it} => ?_, fun hit => ?_⟩
  · rw [events_idled]
    exact he
  · rw [orders_idled]
    exact ho hi
  · rw [queue_idled]
    exact hq
  · rw [level?_idled]
    exact hl hit

theorem deleted (hl : Linked b.toBook) (hd : Deleted b i w l true b') : TouchesOnly b w b' := by
  have hid := hl.id hd.order
  refine ⟨⟨[.orderDeleted w.order], ?_, ?_⟩, hd.prices.lastTradedPrice, fun hk => ?_,
    fun {it} => ?_, fun hit => ?_⟩
  · rw [hd.trace, if_pos rfl, events_append]
    rfl
  · intro e he
    rw [List.mem_singleton.1 he]
    exact ⟨⟨_, rfl, rfl⟩, fun o h => by cases h⟩
  · rw [hd.find?_orders, if_neg (hid ▸ hk)]
  · rw [hd.queue hl, hid, List.filter_filter]
    simp only [Bool.and_self]
  · rw [hd.levels (hl.home hd.order), if_neg hit]

theorem changed (hl : Linked b.toBook) (ht : w.order.SameTerms o)
    (hc : Changed b i w l o amount b.lastTradedPrice (b.trace ++ [.event (.orderUpdated o)]) b') :
    TouchesOnly b w b' := by
  have hid := hl.id hc.order
  refine ⟨⟨.orderUpdated o :: if o.isFilled then [.orderDeleted o] else [], ?_, ?_⟩,
    hc.lastTradedPrice, fun hk => ?_, fun {it} => ?_, fun hit => ?_⟩
  · rw [hc.trace, List.append_assoc, events_append]
    cases o.isFilled <;> rfl
  · intro e he
    rcases List.mem_cons.1 he with rfl | he
    · exact ⟨⟨o, rfl, ht.id⟩, fun o h => by cases h⟩
    · split at he
      · rw [List.mem_singleton.1 he]
        exact ⟨⟨o, rfl, ht.id⟩, fun o h => by cases h⟩
      · cases he
  · rw [hc.find?_orders, if_neg (hid ▸ hk)]
  · rw [hc.queue hl ht, hid]
    split
    · rw [List.filter_filter]
      simp only [Bool.and_self]
    · rfl
  · rw [hc.levels (ht.home?.trans (hl.home hc.order)), if_neg hit]

end TouchesOnly

/-- Deleting a resting order and cancelling any quantity of it return, and touch that order only:
the cascades which the two operations end with find nothing to do. -/
theorem removals_touch_one (h : Reachable Op.Legal symbolId b) (hw : b.orders.find? i = some w)
    (hf : 2 ≤ fuel) : (∃ b', b.deleteOrder fuel i = .ok b' ∧ TouchesOnly b w b') ∧
      ∀ q, ∃ b', b.cancelOrder fuel i q = .ok b' ∧ TouchesOnly b w b' := by
  have hr := h.atRest
  have hl := hr.linked
  obtain ⟨l, hlev, _⟩ := hl.held hw
  have hh := hl.home hw
  constructor
  · obtain ⟨b₁, hd⟩ := deleteOrderWith_ok hw hlev hh true
    obtain ⟨w', l', hdel⟩ := deleteOrderWith_deleted hd
    have hw' := hdel.order
    rw [hw] at hw'
    cases hw'
    refine ⟨b₁.idled, ?_, (TouchesOnly.deleted hl hdel).idled⟩
    unfold MapOrderBook.deleteOrder
    rw [hd, ok_bind, (hr.deleted hdel).idle.activateStopOrders hf]
  · intro q
    obtain ⟨b₁, hx⟩ := cancelResting_ok hw hlev hh q
    obtain ⟨w', l', hc⟩ := cancelResting_changed hx
    have hw' := hc.order
    rw [hw] at hw'
    cases hw'
    refine ⟨b₁.idled, ?_, (TouchesOnly.changed hl (.setQuantity _ _) hc).idled⟩
    unfold MapOrderBook.cancelOrder
    rw [hx, ok_bind, (hr.changed (.setQuantity _ _) hc).idle.activateStopOrders hf]

/-- A trailing stop order leaves a book in which a limit order rests. -/
theorem removals_touch_one_mixedOps : ∃ b w b', (MapOrderBook.new 1).run 20 mixedOps = .ok b ∧
    b.orders.find? 5 = some w ∧ b.deleteOrder 20 5 = .ok b' ∧ TouchesOnly b w b' := by
  obtain ⟨b, hb, hr, hf⟩ := exists_reachable_of_run Op.Legal 1 20 mixedOps (by decide +kernel)
    (f := fun b => (b.orders.find? 5).map fun w => w.order.type) (o := .trailingStop)
    (by decide +kernel)
  obtain ⟨w, hw, _⟩ := Option.map_eq_some_iff.1 hf
  obtain ⟨⟨b', hd, ht⟩, _⟩ := removals_touch_one hr hw (show 2 ≤ 20 by decide)
  exact ⟨b, w, b', hb, hw, hd, ht⟩

end RapidTrader
