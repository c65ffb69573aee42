import RapidTrader.TrailingDistance
import RapidTrader.Untouched
import RapidTrader.Volume

namespace RapidTrader
open Lib
set_option autoImplicit true

/-- A trailing order of a side. -/
def Order.Trails (side : OrderSide) (o : Order) : Prop := o.IsTrailing ∧ o.side = side

/-- The stop price a trailing order is due, as a number: the market price less or plus the trail
amount, cut off at the ends of the 64-bit range. -/
def Book.duePrice (b : Book) (o : Order) : Nat :=
  match o.side with
  | .ask => b.lastTradedPrice.toNat - o.trailAmount.toNat
  | .bid => min (b.lastTradedPriceAsk.toNat + o.trailAmount.toNat) maxPrice.toNat

theorem toNat_newStopPrice (b : Book) (o : Order) :
    (b.newStopPrice o).toNat = b.duePrice o := by
  unfold Book.duePrice
  cases hs : o.side with
  | ask => exact toNat_newStopPrice_ask b hs
  | bid => exact toNat_newStopPrice_bid b hs

/-- Re-levelling moves the trailing orders of a side to the levels of the stop prices they are due,
tells so once of each of them, and changes nothing else. -/
structure Relocates (b : MapOrderBook) (side : OrderSide) (b' : MapOrderBook) : Prop where
  repInv : RepInv b'.toBook
  trailing : (∃ w, b'.orders.find? i = some w ∧ w.order.Trails side) ↔
    ∃ w, b.orders.find? i = some w ∧ w.order.Trails side
  moved : b.orders.find? i = some w → w.order.Trails side → ∃ o,
    b'.orders.find? i = some ⟨o, ⟨trailingMap side, o.stopPrice⟩⟩ ∧
    o.stopPrice.toNat = b.duePrice w.order ∧ o = w.order.setStopPrice o.stopPrice ∧
    ∀ it, (b'.queue it).count i = if it = ⟨trailingMap side, o.stopPrice⟩ then 1 else 0
  volume : b'.level? ⟨trailingMap side, key⟩ = some l → l.empty = false ∧
    (∀ i ∈ l.orders, b'.orders.find? i ≠ none) ∧
    l.volume.toNat = (l.orders.map fun i => (b'.openQuantityOf i).toNat).sum % 2 ^ 64
  orders : (∀ w, b.orders.find? i = some w → ¬ w.order.Trails side) →
    b'.orders.find? i = b.orders.find? i
  levels : t ≠ trailingMap side → b'.levels t = b.levels t
  lastTradedPrice : b'.lastTradedPrice = b.lastTradedPrice
  events : ∃ os : List Order, (os.map Order.id).Nodup ∧
    (∀ o, o ∈ os ↔ ∃ it, b'.orders.find? o.id = some ⟨o, it⟩ ∧ o.Trails side) ∧
    events b'.trace = events b.trace ++ os.map .orderUpdated

namespace Updated

/-- An order moves exactly when it is a trailing order of the side. -/
theorem find?_orders (hu : Updated b side b') (hl : Linked b.toBook)
    (hr : b.relevels side = true) (hw : b.orders.find? i = some w) :
    (w.order.Trails side → b'.orders.find? i = some (b.moved (trailingMap side) w)) ∧
      (¬ w.order.Trails side → b'.orders.find? i = some w) := by
  have hm := hl.trailing_map hw side
  rw [hu.orders, hw, Option.map_some]
  refine ⟨fun ht => ?_, fun ht => ?_⟩
  · rw [if_pos ⟨hr, hm.2 ht⟩]
  · rw [if_neg fun hc => ht (hm.1 hc.2)]

theorem find?_eq_none (hu : Updated b side b') (hn : b.orders.find? i = none) :
    b'.orders.find? i = none := by
  rw [hu.orders, hn]
  rfl

theorem repInv (hu : Updated b side b') (h : RepInv b.toBook) :
    RepInv (b'.remember side).toBook := by
  have hl : Linked (b'.remember side).toBook :=
    hu.linked.congr (orders_remember b' side) (level?_remember b' side) (symbolId_remember b' side)
  have hcases {i w'} (hw' : (b'.remember side).orders.find? i = some w') :
      ∃ w, b.orders.find? i = some w ∧ ∃ p, w'.order = w.order.setStopPrice p := by
    obtain ⟨w, hw, ⟨rfl, _⟩ | ⟨_, _, rfl⟩⟩ := hu.find?_cases hw'
    · exact ⟨w', hw, w'.order.stopPrice, rfl⟩
    · exact ⟨w, hw, b.newStopPrice w.order, rfl⟩
  refine hl.repInv ?_ ?_
  · intro i w' hw' ht
    obtain ⟨w, hw, p, he⟩ := hcases hw'
    rw [he] at ht ⊢
    have hty : w.order.type = .limit := ht
    have hh := h.holds hw
    unfold LevelMap.Holds at hh
    split at hh
    · exact hh.2.1
    · exact hh.2.1
    all_goals simp [Order.IsTrailing, hty] at hh
  · intro i w' hw'
    obtain ⟨w, hw, p, he⟩ := hcases hw'
    rw [he]
    exact h.unfilled hw

end Updated

/-- The orders an update tells of are the trailing orders of its side, as they are afterwards. -/
theorem Releveled.told (hm : Releveled (b.note (.updating side b.toBook)) (trailingMap side) ws b')
    (hws : ∀ w, w ∈ ws ↔ b.orders.find? w.order.id = some w ∧
      w.levelIt.levels = trailingMap side)
    (hl : Linked b.toBook) (hu : Updated b side b') (hr : b.relevels side = true) (o : Order) :
    o ∈ ws.map (fun w => b.calculateStopPrice w.order) ↔
      ∃ it, b'.orders.find? o.id = some ⟨o, it⟩ ∧ o.Trails side := by
  rw [List.mem_map]
  constructor
  · rintro ⟨w, hw, rfl⟩
    obtain ⟨hfind, ht⟩ := (hws w).1 hw
    exact ⟨_, hm.moved w hw, (hl.trailing_map hfind side).1 ht⟩
  · rintro ⟨it, hfind, ht⟩
    cases hw : b.orders.find? o.id with
    | none =>
      rw [hu.find?_eq_none hw] at hfind
      cases hfind
    | some w =>
      obtain ⟨hmove, hkeep⟩ := hu.find?_orders hl hr hw
      by_cases htw : w.order.Trails side
      · have he := hfind.symm.trans (hmove htw)
        have ho : o = b.calculateStopPrice w.order :=
          congrArg OrderWrapper.order (Option.some.inj he)
        have hid : o.id = w.order.id := (hl.id hw).symm
        exact ⟨w, (hws w).2 ⟨hid ▸ hw, (hl.trailing_map hw side).2 htw⟩, ho.symm⟩
      · have he := hfind.symm.trans (hkeep htw)
        have ho : o = w.order := congrArg OrderWrapper.order (Option.some.inj he)
        exact absurd (ho ▸ ht) htw

/-- When an update function moves its trailing orders, it moves each of them to where it is due and
does nothing else. -/
theorem updateStopOrders_relocates (h : RepInv b.toBook) (hr : b.relevels side = true) :
    ∃ b', b.updateStopOrders side = .ok b' ∧ Relocates b side b' := by
  have hl := h.linked
  obtain ⟨b₁, hb₁, hu⟩ := updateStopOrders_updated hl side
  obtain ⟨ws, hws, hm⟩ := hu.moved hr
  refine ⟨_, hb₁, ?_⟩
  have hrep := hu.repInv h
  have hqueue (it : LevelIt) : (b₁.remember side).queue it = b₁.queue it := by
    rw [Book.queue, level?_remember, Book.queue]
  constructor
  · exact hrep
  · intro i
    rw [orders_remember]
    constructor
    · rintro ⟨w', hw', ht⟩
      cases hw : b.orders.find? i with
      | none =>
        rw [hu.find?_eq_none hw] at hw'
        cases hw'
      | some w =>
        refine ⟨w, rfl, ?_⟩
        by_contra htw
        rw [(hu.find?_orders hl hr hw).2 htw] at hw'
        cases hw'
        exact htw ht
    · rintro ⟨w, hw, ht⟩
      exact ⟨_, (hu.find?_orders hl hr hw).1 ht, ht⟩
  · intro i w hw ht
    have hmove := (hu.find?_orders hl hr hw).1 ht
    refine ⟨b.calculateStopPrice w.order, ?_, toNat_newStopPrice b.toBook w.order, rfl, ?_⟩
    · rw [orders_remember]
      exact hmove
    · intro it
      rw [hqueue]
      exact hu.linked.count_queue hmove it
  · intro key l hlev
    refine ⟨hrep.nonempty hlev, fun i hi => ?_, ?_⟩
    · obtain ⟨w, hw, _⟩ := hrep.linked.owned hlev hi
      rw [hw]
      exact Option.some_ne_none w
    · rw [level?_remember] at hlev
      rw [hm.volume hlev, Book.actualVolume, toNat_sum, List.map_map]
      congr 2
      apply List.map_congr_left
      intro i _
      rw [Function.comp_apply, openQuantityOf_congr]
      rw [orders_remember]
  · intro i hi
    rw [orders_remember]
    cases hw : b.orders.find? i with
    | none => exact hu.find?_eq_none hw
    | some w => exact (hu.find?_orders hl hr hw).2 (hi w hw)
  · intro t ht
    apply SortedMap.ext_find?
    intro key
    have hlev : (b₁.remember side).level? ⟨t, key⟩ = b.level? ⟨t, key⟩ := by
      rw [level?_remember, hm.levels, if_neg ht]
      rfl
    exact hlev
  · rw [lastTradedPrice_remember]
    exact hu.prices.lastTradedPrice
  · refine ⟨ws.map fun w => b.calculateStopPrice w.order, ?_, fun o => ?_, ?_⟩
    · have hnd := (List.nodup_flatMap.1 h.once).1 (trailingMap side) (trailingMap side).mem_all
      rw [show (b.levels (trailingMap side)).entries.flatMap (fun e => e.2.orders) = _ from hm.ids]
        at hnd
      rw [List.map_map]
      exact hnd
    · rw [orders_remember]
      exact hm.told hws hl hu hr o
    · have hupd : events [Note.updating side b.toBook] = [] := rfl
      have hmoves : ws.map (fun w => Note.event (.orderUpdated (b.calculateStopPrice w.order))) =
          ((ws.map fun w => b.calculateStopPrice w.order).map .orderUpdated).map .event := by
        rw [List.map_map, List.map_map]
        rfl
      rw [trace_remember, hm.trace, trace_note, toBook_note, hmoves, events_append, events_append,
        hupd, List.append_nil, events_map_event]

/-- The trailing stop order 5 follows the market from 80 to 120. -/
theorem updateStopOrders_relocates_mixedOps : ∃ b b' : MapOrderBook,
    (MapOrderBook.new 1).run 20 mixedOps = .ok b ∧
    ({ b with lastTradedPrice := 120 } : MapOrderBook).updateStopOrders .ask = .ok b' ∧
    Relocates { b with lastTradedPrice := 120 } .ask b' := by
  obtain ⟨b, hb, hr, hf⟩ := exists_reachable_of_run Op.Legal 1 20 mixedOps (by decide +kernel)
    (f := fun b => some (({ b with lastTradedPrice := 120 } : MapOrderBook).relevels .ask))
    (o := true) (by decide +kernel)
  obtain ⟨b', hb', hrel⟩ := updateStopOrders_relocates ((repInv_of_reachable hr).setPrice 120)
    (Option.some.inj hf)
  exact ⟨b, b', hb, hb', hrel⟩

end RapidTrader
