import RapidTrader.Runs

namespace RapidTrader
open Lib
set_option autoImplicit true

/-- All ids in the lists of all levels. -/
def Book.listedIds (b : Book) : List UInt64 :=
  [LevelMap.ask, .bid, .stopAsk, .stopBid, .trailingStopAsk, .trailingStopBid].flatMap
    (fun t => (b.levels t).entries.flatMap (fun e => e.2.orders))

/-- The orders each map is for. -/
def LevelMap.Holds : LevelMap → Order → Prop
  | .ask, o => o.type = .limit ∧ o.timeInForce = .gtc ∧ o.side = .ask
  | .bid, o => o.type = .limit ∧ o.timeInForce = .gtc ∧ o.side = .bid
  | .stopAsk, o => (o.type = .stop ∨ o.type = .stopLimit) ∧ o.side = .ask
  | .stopBid, o => (o.type = .stop ∨ o.type = .stopLimit) ∧ o.side = .bid
  | .trailingStopAsk, o => o.IsTrailing ∧ o.side = .ask
  | .trailingStopBid, o => o.IsTrailing ∧ o.side = .bid

/-- The representation invariant of the seven containers. -/
structure RepInv (b : Book) : Prop where
  listed : ∀ i, i ∈ b.listedIds ↔ b.orders.find? i ≠ none
  once : b.listedIds.Nodup
  id : b.orders.find? i = some w → w.order.id = i
  levelIt : b.orders.find? i = some w → ∃ l, b.level? w.levelIt = some l ∧ i ∈ l.orders
  holds : b.orders.find? i = some w → w.levelIt.levels.Holds w.order
  key : b.orders.find? i = some w →
    w.levelIt.key = if w.order.type = .limit then w.order.price else w.order.stopPrice
  unfilled : b.orders.find? i = some w → w.order.openQuantity ≠ 0
  price : b.level? it = some l → l.price = it.key
  side : b.level? it = some l → l.side = it.levels.side
  symbolId : b.level? it = some l → l.symbolId = b.symbolId
  nonempty : b.level? it = some l → l.empty = false

theorem Order.home?_eq_some {o : Order} : o.home? = some it ↔
    o.levelMap? = some it.levels ∧
      it.key = if o.type = .limit then o.price else o.stopPrice := by
  obtain ⟨t, key⟩ := it
  unfold Order.home? Order.isLimit
  simp only [decide_eq_true_eq, Option.map_eq_some_iff, LevelIt.mk.injEq]
  constructor
  · rintro ⟨_, ht, rfl, rfl⟩
    exact ⟨ht, rfl⟩
  · rintro ⟨ht, rfl⟩
    exact ⟨t, ht, rfl, rfl⟩

theorem LevelMap.mem_all (t : LevelMap) :
    t ∈ [LevelMap.ask, .bid, .stopAsk, .stopBid, .trailingStopAsk, .trailingStopBid] := by
  cases t <;> simp

namespace Linked

theorem mem_listedIds (h : Linked b) : i ∈ b.listedIds ↔ b.orders.find? i ≠ none := by
  simp only [Book.listedIds, List.mem_flatMap]
  constructor
  · rintro ⟨t, -, ⟨key, l⟩, he, hi⟩
    obtain ⟨w, hw, _⟩ := h.owned (level?_of_mem he) hi
    simp [hw]
  · intro hi
    obtain ⟨w, hw⟩ := Option.ne_none_iff_exists'.1 hi
    obtain ⟨l, hl, hi⟩ := h.held hw
    exact ⟨w.levelIt.levels, w.levelIt.levels.mem_all, ⟨w.levelIt.key, l⟩,
      SortedMap.find?_eq_some.1 hl, hi⟩

theorem nodup_listedIds (h : Linked b) : b.listedIds.Nodup := by
  refine List.nodup_flatMap.2 ⟨fun t _ => ?_, ?_⟩
  · obtain ⟨ws, hws, hnd, _⟩ := h.orders_of_map t
    rw [hws]
    exact hnd
  · refine List.Pairwise.imp_of_mem (R := (· ≠ ·)) ?_ (by decide)
    intro t t' _ _ hne i hi hi'
    obtain ⟨⟨key, l⟩, he, hm⟩ := List.mem_flatMap.1 hi
    obtain ⟨⟨key', l'⟩, he', hm'⟩ := List.mem_flatMap.1 hi'
    obtain ⟨w, hw, hit⟩ := h.owned (level?_of_mem he) hm
    obtain ⟨w', hw', hit'⟩ := h.owned (level?_of_mem he') hm'
    rw [hw] at hw'
    cases hw'
    rw [hit] at hit'
    cases hit'
    exact hne rfl

end Linked

/-- Beside the links the representation invariant only asks that limit orders which rest are GTC and
that orders which rest are not filled. -/
theorem Linked.repInv (h : Linked b)
    (hg : ∀ {i w}, b.orders.find? i = some w → w.order.type = .limit → w.order.timeInForce = .gtc)
    (ho : ∀ {i w}, b.orders.find? i = some w → w.order.openQuantity ≠ 0) : RepInv b := by
  refine ⟨fun i => h.mem_listedIds, h.nodup_listedIds, h.id, h.held, ?_, ?_, ho, ?_, ?_, ?_, ?_⟩
  · intro i w hw
    have hm := Order.levelMap?_eq_some.1 (Order.home?_levelMap? (h.home hw))
    unfold LevelMap.Holds
    split <;> rename_i ht <;> rw [ht] at hm
    · exact ⟨hm.1, hg hw hm.1, hm.2⟩
    · exact ⟨hm.1, hg hw hm.1, hm.2⟩
    all_goals exact hm
  · exact fun hw => (Order.home?_eq_some.1 (h.home hw)).2
  · exact fun hit => (h.sound hit).price
  · exact fun hit => (h.sound hit).side
  · exact fun hit => (h.sound hit).symbolId
  · intro it l hit
    simpa [Level.empty] using (h.sound hit).nonempty

theorem Inv.repInv (h : Inv c) : RepInv c.book.toBook :=
  h.linked.repInv (fun hw => (h.restable hw).gtc) fun hw => (h.restable hw).open_ne

/-- The lists that a list without duplicates is put together from share no element. -/
theorem eq_of_mem_flatMap {xs : List α} {f : α → List β} (h : (xs.flatMap f).Nodup) (hx : x ∈ xs)
    (hy : y ∈ xs) (hi : i ∈ f x) (hi' : i ∈ f y) : x = y := by
  by_contra hne
  have hsymm : Std.Symm (Function.onFun List.Disjoint f) := ⟨fun _ _ hd => List.Disjoint.symm hd⟩
  exact (List.nodup_flatMap.1 h).2.forall hx hy hne hi hi'

namespace RepInv

/-- No order is in the lists of two levels. -/
theorem levelIt_unique (h : RepInv b) (hl : b.level? it = some l) (hl' : b.level? it' = some l')
    (hi : i ∈ l.orders) (hi' : i ∈ l'.orders) : it = it' := by
  obtain ⟨t, key⟩ := it
  obtain ⟨t', key'⟩ := it'
  have he : (key, l) ∈ (b.levels t).entries := SortedMap.find?_eq_some.1 hl
  have he' : (key', l') ∈ (b.levels t').entries := SortedMap.find?_eq_some.1 hl'
  have ht : t = t' := eq_of_mem_flatMap h.once t.mem_all t'.mem_all
    (List.mem_flatMap.2 ⟨_, he, hi⟩) (List.mem_flatMap.2 ⟨_, he', hi'⟩)
  subst ht
  have hnd := (List.nodup_flatMap.1 h.once).1 t t.mem_all
  rw [(Prod.mk.inj (eq_of_mem_flatMap hnd he he' hi hi')).1]

theorem linked (h : RepInv b) : Linked b := by
  refine ⟨h.id, ?_, h.levelIt, ?_, ?_⟩
  · intro i w hw
    have hh := h.holds hw
    refine Order.home?_eq_some.2 ⟨Order.levelMap?_eq_some.2 ?_, h.key hw⟩
    unfold LevelMap.Holds at hh
    split at hh <;> rename_i ht <;> rw [ht]
    · exact ⟨hh.1, hh.2.2⟩
    · exact ⟨hh.1, hh.2.2⟩
    all_goals exact hh
  · intro it l i hl hi
    have hin : i ∈ b.listedIds :=
      List.mem_flatMap.2 ⟨it.levels, it.levels.mem_all,
        List.mem_flatMap.2 ⟨(it.key, l), SortedMap.find?_eq_some.1 hl, hi⟩⟩
    obtain ⟨w, hw⟩ := Option.ne_none_iff_exists'.1 ((h.listed i).1 hin)
    obtain ⟨l', hl', hi'⟩ := h.levelIt hw
    exact ⟨w, hw, h.levelIt_unique hl' hl hi' hi⟩
  · intro it l hl
    refine ⟨?_, ?_, h.price hl, h.side hl, h.symbolId hl⟩
    · have hnd := (List.nodup_flatMap.1 h.once).1 it.levels it.levels.mem_all
      exact (List.nodup_flatMap.1 hnd).1 (it.key, l) (SortedMap.find?_eq_some.1 hl)
    · simpa [Level.empty] using h.nonempty hl

/-- The invariant does not speak of the last price. -/
theorem setPrice {b : MapOrderBook} (h : RepInv b.toBook) (p : UInt64) :
    RepInv ({ b with lastTradedPrice := p } : MapOrderBook).toBook :=
  ⟨h.listed, h.once, h.id, h.levelIt, h.holds, h.key, h.unfilled, h.price, h.side, h.symbolId,
    h.nonempty⟩

end RepInv

/-- The representation invariant holds after every completed operation. -/
theorem repInv_of_reachable (h : Reachable Op.Legal symbolId b) : RepInv b.toBook := h.inv.repInv

theorem repInv_of_reachable_mixedOps :
    ∃ b, (MapOrderBook.new 1).run 20 mixedOps = .ok b ∧ RepInv b.toBook := by
  obtain ⟨b, hb, hr⟩ := exists_reachable Op.Legal 1 20 mixedOps (by decide +kernel)
    (by decide +kernel)
  exact ⟨b, hb, repInv_of_reachable hr⟩

end RapidTrader
