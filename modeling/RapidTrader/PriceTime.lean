import RapidTrader.FillOrKill
import RapidTrader.Idle
import RapidTrader.NaiveBook
import RapidTrader.Queues
import RapidTrader.StopFrame

namespace RapidTrader
open Lib
set_option autoImplicit true

/-- The level a resting limit order belongs to. -/
def NaiveOrder.home (r : NaiveOrder) : LevelIt :=
  ⟨match r.side with
    | .ask => .ask
    | .bid => .bid, r.price⟩

/-- The orders of the book are limit orders, `os` to the naive book, and every level serves its
orders as they come there. -/
structure Mirrors (b : Book) (os : List NaiveOrder) : Prop where
  limit : b.orders.find? i = some w → w.order.type = .limit
  resting : ∀ r, r ∈ os ↔ ∃ w, b.orders.find? r.id = some w ∧ w.order.naive = r
  nodup : (os.map NaiveOrder.id).Nodup
  queues : ∀ it, b.queue it = (os.filter (fun r => r.home = it)).map NaiveOrder.id

theorem Order.home?_naive {o : Order} (ho : o.type = .limit) : o.home? = some o.naive.home := by
  unfold Order.home? Order.levelMap? Order.isAsk Order.isLimit NaiveOrder.home Order.naive
  rw [ho]
  cases o.side <;> rfl

theorem Order.SameTerms.naive (h : Order.SameTerms o o') :
    o'.naive = { o.naive with openQuantity := o'.openQuantity.toNat } := by
  unfold Order.naive
  rw [h.id, h.side, h.price]

theorem Order.isFilled_eq (o : Order) : o.isFilled = decide (o.openQuantity.toNat = 0) := by
  unfold Order.isFilled
  rw [decide_eq_decide, ← UInt64.toNat_inj]
  rfl

namespace Mirrors

theorem empty (symbolId : UInt32) : Mirrors (MapOrderBook.new symbolId).toBook [] := by
  refine ⟨fun hw => (nomatch hw), fun o => ⟨fun h => (nomatch h), ?_⟩, .nil, ?_⟩
  · rintro ⟨w, hw, _⟩
    cases hw
  · rintro ⟨t, key⟩
    cases t <;> rfl

theorem mem (h : Mirrors b os) (hl : Linked b) (hw : b.orders.find? i = some w) :
    w.order.naive ∈ os :=
  (h.resting _).2 ⟨w, by rw [show w.order.naive.id = i from hl.id hw]; exact hw, rfl⟩

theorem find? (h : Mirrors b os) (hl : Linked b) (i : UInt64) :
    os.find? (fun r => r.id = i) = (b.orders.find? i).map (fun w => w.order.naive) := by
  cases hw : b.orders.find? i with
  | none =>
    apply List.find?_eq_none.2
    intro r hr
    obtain ⟨w, hw', _⟩ := (h.resting r).1 hr
    have hne : r.id ≠ i := by
      intro he
      rw [he, hw] at hw'
      cases hw'
    simpa using hne
  | some w =>
    cases hr : os.find? (fun r => r.id = i) with
    | none =>
      have := List.find?_eq_none.1 hr _ (h.mem hl hw)
      have hid : w.order.naive.id = i := hl.id hw
      simp [hid] at this
    | some r =>
      have hid : r.id = i := by simpa using List.find?_some hr
      obtain ⟨w', hw', he⟩ := (h.resting r).1 (List.mem_of_find?_eq_some hr)
      rw [hid, hw] at hw'
      cases hw'
      rw [← he]
      rfl

theorem removed (h : Mirrors b os) (ho : b'.orders = b.orders.erase i)
    (hq : ∀ it, b'.queue it = (b.queue it).filter (fun k => k ≠ i)) :
    Mirrors b' (os.filter (fun r => r.id ≠ i)) := by
  refine ⟨fun {k w} hw => ?_, fun o => ?_, ?_, fun it => ?_⟩
  · rw [ho, SortedMap.find?_erase] at hw
    split at hw
    · cases hw
    · exact h.limit hw
  · rw [List.mem_filter, h.resting, ho, SortedMap.find?_erase, decide_eq_true_eq]
    by_cases hi : o.id = i <;> simp [hi]
  · exact h.nodup.sublist (List.filter_sublist.map NaiveOrder.id)
  · rw [hq, h.queues, List.filter_map, List.filter_filter, List.filter_filter]
    congr 1
    apply List.filter_congr
    intro o _
    exact Bool.and_comm _ _

/-- An order is written back with the same terms. -/
theorem rewritten (h : Mirrors b os) (hw : b.orders.find? i = some w) (hid : w.order.id = i)
    (ht : w.order.SameTerms o) (ho : b'.orders = b.orders.insert i { w with order := o })
    (hq : ∀ it, b'.queue it = b.queue it) :
    Mirrors b' (os.map (fun r => if r.id = i then { r with openQuantity := o.openQuantity.toNat }
      else r)) := by
  have hsame (r : NaiveOrder) :
      (if r.id = i then { r with openQuantity := o.openQuantity.toNat } else r).id = r.id ∧
      (if r.id = i then { r with openQuantity := o.openQuantity.toNat } else r).home = r.home := by
    split <;> exact ⟨rfl, rfl⟩
  have hids : (NaiveOrder.id ∘ fun r : NaiveOrder =>
      if r.id = i then { r with openQuantity := o.openQuantity.toNat } else r) =
      NaiveOrder.id := funext fun r => (hsame r).1
  have hrest (r : NaiveOrder) (hr : r.id = i) (hmem : r ∈ os) : w.order.naive = r := by
    obtain ⟨w', hw', he⟩ := (h.resting r).1 hmem
    rw [hr, hw] at hw'
    cases hw'
    exact he
  refine ⟨fun {k w'} hk => ?_, fun r => ?_, ?_, fun it => ?_⟩
  · rw [ho, SortedMap.find?_insert] at hk
    split at hk
    · cases hk
      exact ht.type.trans (h.limit hw)
    · exact h.limit hk
  · rw [List.mem_map, ho, SortedMap.find?_insert]
    constructor
    · rintro ⟨r', hr', rfl⟩
      rw [(hsame r').1]
      split
      · rename_i hr
        refine ⟨_, rfl, ?_⟩
        rw [ht.naive, hrest r' hr hr']
      · exact (h.resting r').1 hr'
    · split
      · rename_i hr
        rintro ⟨_, hw', rfl⟩
        cases hw'
        refine ⟨w.order.naive, (h.resting _).2 ⟨w, ?_, rfl⟩, ?_⟩
        · rw [show w.order.naive.id = i from hid]
          exact hw
        · rw [if_pos (show w.order.naive.id = i from hid), ht.naive]
      · rename_i hr
        intro hr'
        exact ⟨r, (h.resting r).2 hr', if_neg hr⟩
  · rw [List.map_map, hids]
    exact h.nodup
  · rw [hq, h.queues, List.filter_map, List.map_map, hids]
    congr 1
    apply List.filter_congr
    intro r _
    rw [Function.comp_apply, (hsame r).2]

theorem inserted (h : Mirrors b.toBook os) (ho : o.type = .limit) (hn : b.orders.find? o.id = none)
    (hi : Inserted b o.naive.home o b') : Mirrors b'.toBook (os ++ [o.naive]) := by
  have hfresh : ∀ r ∈ os, r.id ≠ o.id := by
    intro r hr he
    obtain ⟨w, hw, _⟩ := (h.resting r).1 hr
    rw [he, hn] at hw
    cases hw
  refine ⟨fun {k w} hk => ?_, fun r => ?_, ?_, fun it' => ?_⟩
  · rw [hi.find?_orders] at hk
    split at hk
    · cases hk
      exact ho
    · exact h.limit hk
  · rw [List.mem_append, List.mem_singleton, hi.find?_orders]
    constructor
    · rintro (hr | rfl)
      · rw [if_neg (hfresh r hr)]
        exact (h.resting r).1 hr
      · exact ⟨_, if_pos rfl, rfl⟩
    · rintro ⟨w, hw, rfl⟩
      split at hw
      · cases hw
        exact .inr rfl
      · exact .inl ((h.resting _).2 ⟨w, hw, rfl⟩)
  · rw [List.map_append, List.map_singleton]
    refine List.nodup_append.2 ⟨h.nodup, List.nodup_singleton _, ?_⟩
    intro k hk k' hk'
    obtain ⟨r, hr, rfl⟩ := List.mem_map.1 hk
    rw [List.mem_singleton.1 hk']
    exact hfresh r hr
  · rw [List.filter_append, List.map_append, ← h.queues, hi.queue]
    split
    · rename_i hit
      rw [hit, List.filter_cons, if_pos (decide_eq_true rfl)]
      rfl
    · rename_i hit
      have hne : ¬ decide (o.naive.home = it') = true := by
        rw [decide_eq_true_eq]
        exact fun he => hit he.symm
      rw [List.filter_cons, if_neg hne, List.filter_nil, List.map_nil, List.append_nil]

theorem deleted (h : Mirrors b.toBook os) (hl : Linked b.toBook) (hd : Deleted b i w l n b') :
    Mirrors b'.toBook (os.filter (fun r => r.id ≠ i)) :=
  h.removed hd.orders (hd.queue hl)

theorem changed {n : NaiveBook} (h : Mirrors b.toBook n.orders) (hl : Linked b.toBook)
    (ht : w.order.SameTerms o) (hc : Changed b i w l o amount price notes b') :
    Mirrors b'.toBook (n.leave i o.openQuantity.toNat).orders := by
  have hid := hl.id hc.order
  have ho := hc.orders
  have hq := hc.queue hl ht
  have hfilled := o.isFilled_eq
  unfold NaiveBook.leave
  dsimp only
  split
  · rename_i hz
    rw [decide_eq_true hz] at hfilled
    simp only [hfilled, ↓reduceIte] at ho hq
    exact h.removed ho hq
  · rename_i hz
    rw [decide_eq_false hz] at hfilled
    simp only [hfilled, Bool.false_eq_true, ↓reduceIte] at ho hq
    exact h.rewritten hc.order hid ht ho hq

end Mirrors

/-! ### Trading -/

/-- The trades a trace tells of. -/
def tradeRecords (trace : List Note) : List TradeRecord :=
  trace.filterMap fun
    | .trade bidId askId price quantity => some ⟨bidId, askId, price, quantity.toNat⟩
    | _ => none

/-- The executions that are told to the event handler. -/
def fillsOf (trace : List Note) : List Fill :=
  trace.filterMap fun
    | .event (.executedOrder o) =>
      some ⟨o.id, o.lastExecutedQuantity.toNat, o.openQuantity.toNat⟩
    | _ => none

/-- The two books hold the same orders in the same queues, they have made the same trades, and the
owners of the orders have been told the same. -/
structure Simulates (b : MapOrderBook) (n : NaiveBook) : Prop where
  mirrors : Mirrors b.toBook n.orders
  lastTradedPrice : b.lastTradedPrice = n.lastTradedPrice
  trades : tradeRecords b.trace = n.trades
  fills : fillsOf b.trace = n.fills

theorem tradeRecords_append (ns ns' : List Note) :
    tradeRecords (ns ++ ns') = tradeRecords ns ++ tradeRecords ns' := List.filterMap_append

theorem fillsOf_append (ns ns' : List Note) : fillsOf (ns ++ ns') = fillsOf ns ++ fillsOf ns' :=
  List.filterMap_append

/-- Notes that tell of no trade and of no execution. -/
def Silent (ns : List Note) : Prop := tradeRecords ns = [] ∧ fillsOf ns = []

/-- The deletion of an order tells of no trade and of no execution. -/
theorem told_deleted (ns : List Note) (c : Bool) (o : Order) :
    tradeRecords (ns ++ if c then [.event (.orderDeleted o)] else []) = tradeRecords ns ∧
      fillsOf (ns ++ if c then [.event (.orderDeleted o)] else []) = fillsOf ns := by
  have hs : Silent (if c then [.event (.orderDeleted o)] else []) := by
    cases c <;> exact ⟨rfl, rfl⟩
  rw [tradeRecords_append, fillsOf_append, hs.1, hs.2, List.append_nil, List.append_nil]
  exact ⟨rfl, rfl⟩

theorem toNat_min (x y : UInt64) : (min x y).toNat = min x.toNat y.toNat := by
  rw [min_uint64]
  split
  · rename_i hle
    rw [UInt64.le_iff_toNat_le] at hle
    omega
  · rename_i hle
    rw [UInt64.le_iff_toNat_le] at hle
    omega

theorem toNat_matched (o r : Order) :
    (matched o r).toNat = NaiveBook.traded o.taker r.naive := toNat_min _ _

theorem toNat_open_taker (o r : Order) (price : UInt64) :
    (o.execute price (matched o r)).openQuantity.toNat =
      o.openQuantity.toNat - NaiveBook.traded o.taker r.naive := by
  have := toNat_openQuantity_execute (matched_le o r).1 price
  rw [← toNat_matched]
  omega

theorem toNat_open_maker (o r : Order) (price : UInt64) :
    (r.execute price (matched o r)).openQuantity.toNat =
      r.openQuantity.toNat - NaiveBook.traded o.taker r.naive := by
  have := toNat_openQuantity_execute (matched_le o r).2 price
  rw [← toNat_matched]
  omega

/-- What is left of an order in both books. -/
theorem taker_execute (o r : Order) (price : UInt64) :
    (o.execute price (matched o r)).taker = NaiveBook.left o.taker r.naive := by
  have hopen := toNat_open_taker o r price
  unfold NaiveBook.left
  rw [show o.taker.openQuantity = o.openQuantity.toNat from rfl, ← hopen]
  rfl

theorem tradeNotes_told (n : NaiveBook) (o r : Order) :
    n.trades ++ tradeRecords (tradeNotes (o.execute r.price (matched o r))
      (r.execute r.price (matched o r)) r.price (matched o r)) =
        (n.trade o.taker r.naive).trades ∧
    n.fills ++ fillsOf (tradeNotes (o.execute r.price (matched o r))
      (r.execute r.price (matched o r)) r.price (matched o r)) =
        (n.trade o.taker r.naive).fills := by
  have ho := toNat_open_taker o r r.price
  have hr := toNat_open_maker o r r.price
  have hq := toNat_matched o r
  have hlo : (o.execute r.price (matched o r)).lastExecutedQuantity = matched o r := rfl
  have hlr : (r.execute r.price (matched o r)).lastExecutedQuantity = matched o r := rfl
  have hs : (o.execute r.price (matched o r)).side = o.side := rfl
  have hs' : o.taker.side = o.side := rfl
  unfold tradeNotes NaiveBook.trade
  rw [hs, hs']
  cases o.side <;>
  · simp only [tradeRecords, fillsOf, List.filterMap_cons, List.filterMap_nil, ho, hr, hlo, hlr, hq]
    exact ⟨rfl, rfl⟩

theorem takes_of_isPriced {o : Order} (hp : o.IsPriced) (price : UInt64) :
    NaiveBook.takes o.taker price = Book.crosses o.side price o.price := by
  unfold NaiveBook.takes Order.taker
  dsimp only
  by_cases hm : o.type = .market
  · rw [crosses_of_isMarket hp hm, if_pos hm]
  · rw [if_neg hm]
    cases o.side <;> rfl

namespace Simulates

/-- The orders of the other side are those in the levels an incoming order looks at. -/
theorem home_iff (r : NaiveOrder) (side : OrderSide) (key : UInt64) :
    r.home = ⟨Book.oppositeMap side, key⟩ ↔ r.side ≠ side ∧ r.price = key := by
  unfold NaiveOrder.home
  rw [LevelIt.mk.injEq]
  cases r.side <;> cases side <;> simp [Book.oppositeMap]

theorem level_of_others (h : Simulates b n) (hl : Linked b.toBook) (hr : r ∈ n.others side) :
    ∃ l, b.level? ⟨Book.oppositeMap side, r.price⟩ = some l := by
  obtain ⟨hmem, hs⟩ := List.mem_filter.1 hr
  have hh := (home_iff r side r.price).2 ⟨of_decide_eq_true hs, rfl⟩
  obtain ⟨w, hw, rfl⟩ := (h.mirrors.resting r).1 hmem
  obtain ⟨l, hlev, _⟩ := hl.held hw
  have hit := (hl.home hw).symm.trans (Order.home?_naive (h.mirrors.limit hw))
  rw [hh, Option.some.injEq] at hit
  exact ⟨l, hit ▸ hlev⟩

theorem best_none (h : Simulates b n) (hl : Linked b.toBook)
    (hb : b.bestOpposite side = none) : n.best side = none := by
  have hnil : n.others side = [] := by
    apply List.eq_nil_iff_forall_not_mem.2
    intro r hr
    obtain ⟨l, hlev⟩ := h.level_of_others hl hr
    rw [bestOpposite_eq_none hb] at hlev
    cases hlev
  rw [NaiveBook.best, hnil]
  rfl

/-- The front of the best level is the earliest of the best orders. -/
theorem best_some (h : Simulates b n) (hl : Linked b.toBook)
    (hb : b.bestOpposite side = some (key, l)) (hfr : l.front = some i)
    (hw : b.orders.find? i = some w) :
    n.best side = some w.order.naive ∧ w.order.price = key := by
  obtain ⟨hlev, hbest⟩ := bestOpposite_eq_some hb
  obtain ⟨i', w', hfr', hw', hit, hid, _⟩ := hl.front hlev
  rw [hfr] at hfr'
  cases hfr'
  rw [hw] at hw'
  cases hw'
  have hprice := hl.price_of_opposite hw hit
  have hothers : w.order.naive ∈ n.others side := by
    have hhome := (hl.home hw).symm.trans (Order.home?_naive (h.mirrors.limit hw))
    rw [hit, Option.some.injEq] at hhome
    exact List.mem_filter.2 ⟨h.mirrors.mem hl hw,
      decide_eq_true ((home_iff _ side key).1 hhome.symm).1⟩
  have hkey : w.order.naive.price = key := hprice
  -- no order is better than the front, and every order of another price is worse
  have hall (r : NaiveOrder) (hr : r ∈ n.others side) :
      (n.others side).all (fun r' => !NaiveBook.better side r'.price r.price) =
        decide (r.price = key) := by
    have hworse (r' : NaiveOrder) (hr' : r' ∈ n.others side) :
        Book.crosses side key r'.price = true := by
      obtain ⟨l', hlev'⟩ := h.level_of_others hl hr'
      refine hbest _ l' hlev' _ ?_
      cases side <;> exact decide_eq_true (UInt64.le_refl _)
    rw [Bool.eq_iff_iff, List.all_eq_true, decide_eq_true_iff]
    constructor
    · intro hb
      have hw := hb _ hothers
      have hr := hworse r hr
      cases side <;> simp only [NaiveBook.better, Book.crosses, hkey, Bool.not_eq_true',
        decide_eq_false_iff_not, decide_eq_true_eq] at hw hr <;> grind
    · intro hr r' hr'
      have hr' := hworse r' hr'
      cases side <;> simp only [NaiveBook.better, Book.crosses, Bool.not_eq_true',
        decide_eq_false_iff_not, decide_eq_true_eq] at hr' ⊢ <;> grind
  refine ⟨?_, hprice⟩
  have hqueue := h.mirrors.queues ⟨Book.oppositeMap side, key⟩
  rw [queue_of_level? hlev] at hqueue
  have hfilter : (n.others side).filter
      (fun r => (n.others side).all (fun r' => !NaiveBook.better side r'.price r.price)) =
      n.orders.filter (fun r => r.home = ⟨Book.oppositeMap side, key⟩) := by
    rw [List.filter_congr hall, NaiveBook.others, List.filter_filter]
    apply List.filter_congr
    intro r hr
    rw [Bool.eq_iff_iff, Bool.and_eq_true, decide_eq_true_iff, decide_eq_true_iff,
      decide_eq_true_iff, home_iff, and_comm]
  unfold NaiveBook.best
  rw [← List.head?_filter, hfilter]
  rw [Level.front, hqueue, List.head?_map] at hfr
  obtain ⟨r, hr, hid'⟩ := Option.map_eq_some_iff.1 hfr
  rw [hr]
  obtain ⟨w', hw', rfl⟩ := (h.mirrors.resting r).1 (List.mem_filter.1 (List.mem_of_head? hr)).1
  rw [hid', hw] at hw'
  cases hw'
  rfl

/-- An order can trade exactly when it is open and takes the best price. -/
theorem canTrade_iff (h : Simulates b n) (hl : Linked b.toBook) (hp : o.IsPriced) :
    b.canTrade o = true ↔ ∃ r, n.best o.side = some r ∧ o.taker.openQuantity ≠ 0 ∧
      NaiveBook.takes o.taker r.price = true := by
  unfold Book.canTrade
  cases hb : b.bestOpposite o.side with
  | none =>
    rw [h.best_none hl hb]
    exact ⟨fun he => (nomatch he), fun ⟨_, hr, _⟩ => nomatch hr⟩
  | some e =>
    obtain ⟨key, l⟩ := e
    obtain ⟨i, w, hfr, hw, _⟩ := hl.front (bestOpposite_eq_some hb).1
    obtain ⟨hbest, hprice⟩ := h.best_some hl hb hfr hw
    have hkey : w.order.naive.price = key := hprice
    have hopen : o.taker.openQuantity = o.openQuantity.toNat := rfl
    rw [Bool.and_eq_true, Bool.not_eq_true', o.isFilled_eq, decide_eq_false_iff_not, ← hopen, hbest]
    constructor
    · intro ht
      exact ⟨_, rfl, ht.2, by rw [takes_of_isPriced hp, hkey]; exact ht.1⟩
    · rintro ⟨r, hr, hne, htakes⟩
      cases hr
      rw [takes_of_isPriced hp, hkey] at htakes
      exact ⟨htakes, hne⟩

theorem sweep_exit (h : Simulates b n) (hl : Linked b.toBook) (hp : o.IsPriced)
    (hc : b.canTrade o = false) : n.sweep o.taker = (n, o.taker) := by
  cases hr : n.best o.side with
  | none => exact NaiveBook.sweep_none hr
  | some r =>
    rw [NaiveBook.sweep_some hr, if_neg]
    intro ht
    rw [(h.canTrade_iff hl hp).2 ⟨r, hr, ht⟩] at hc
    cases hc

/-- Both books trade with the same order. -/
theorem traded (h : Simulates b n) (hl : Linked b.toBook) (ht : Traded b o key l i w b' o') :
    n.best o.side = some w.order.naive ∧ Simulates b' (n.trade o.taker w.order.naive) ∧
      o'.taker = NaiveBook.left o.taker w.order.naive := by
  have hst : w.order.SameTerms (w.order.execute w.order.price (matched o w.order)) :=
    .execute _ _ _
  have hm := h.mirrors.changed hl hst ht.changed
  have hid : w.order.naive.id = i := hl.id ht.changed.order
  have htold := tradeNotes_told n o w.order
  have htrace : b'.trace = b.trace ++ tradeNotes (o.execute w.order.price (matched o w.order))
      (w.order.execute w.order.price (matched o w.order)) w.order.price (matched o w.order) ++
      if (w.order.execute w.order.price (matched o w.order)).isFilled then
        [.event (.orderDeleted (w.order.execute w.order.price (matched o w.order)))]
      else [] := ht.changed.trace
  refine ⟨(h.best_some hl ht.best ht.front ht.changed.order).1, ⟨?_, ?_, ?_, ?_⟩, ?_⟩
  · rw [NaiveBook.orders_trade, hid]
    change Mirrors b'.toBook (n.leave i (w.order.openQuantity.toNat - _)).orders
    rw [← toNat_open_maker o w.order w.order.price]
    exact hm
  · rw [ht.changed.lastTradedPrice]
    unfold NaiveBook.trade
    cases o.taker.side <;> rfl
  · rw [htrace, (told_deleted _ _ _).1, tradeRecords_append, h.trades]
    exact htold.1
  · rw [htrace, (told_deleted _ _ _).2, fillsOf_append, h.fills]
    exact htold.2
  · rw [ht.order]
    exact taker_execute o w.order w.order.price

theorem note (h : Simulates b n) (m : Note) (hm : Silent [m]) : Simulates (b.note m) n := by
  refine ⟨h.mirrors, h.lastTradedPrice, ?_, ?_⟩
  · rw [trace_note, tradeRecords_append, hm.1, List.append_nil]
    exact h.trades
  · rw [trace_note, fillsOf_append, hm.2, List.append_nil]
    exact h.fills

/-- The loops of `match` make the trades of the naive book. -/
theorem matchLoop {b : MapOrderBook} (h : Simulates b n) (hi : Inv ⟨b, some o⟩)
    (ho : o.IsMatchable) (hp : o.IsPriced)
    (hm : MapOrderBook.matchLoop fuel (b, o) = .ok (b', o')) :
    Inv ⟨b', some o'⟩ ∧ Simulates b' (n.sweep o.taker).1 ∧ o'.taker = (n.sweep o.taker).2 := by
  have hturn (s s' : MapOrderBook × Order)
      (hs : Sweep o (b.available o) s ∧
        ∃ m, Simulates s.1 m ∧ m.sweep s.2.taker = n.sweep o.taker)
      (hc : s.1.canTrade s.2 = true) (hf : s.1.matchFront s.2 = .ok s') :
      Sweep o (b.available o) s' ∧
        ∃ m, Simulates s'.1 m ∧ m.sweep s'.2.taker = n.sweep o.taker := by
    obtain ⟨hs, m, hsim, hsweep⟩ := hs
    refine ⟨(hs.turn ho hp hc hf).1, ?_⟩
    have hl : Linked s.1.toBook := hs.inv.linked
    obtain ⟨key, l, i, w, ht⟩ := hl.traded hf
    obtain ⟨hbest, hsim', he⟩ := hsim.traded hl ht
    refine ⟨_, hsim', ?_⟩
    obtain ⟨r, hr, hcond⟩ := (hsim.canTrade_iff hl (hs.terms.isPriced.2 hp)).1 hc
    rw [hbest] at hr
    cases hr
    have hstep := NaiveBook.sweep_some (o := s.2.taker) hbest
    rw [if_pos hcond] at hstep
    rw [he, ← hsweep, hstep]
  obtain ⟨⟨hs, m, hsim, hsweep⟩, hc⟩ := whileLoop_inv hturn ⟨.start hi, n, h, rfl⟩ hm
  rw [hsim.sweep_exit hs.inv.linked (hs.terms.isPriced.2 hp) hc] at hsweep
  rw [← hsweep]
  exact ⟨hs.inv, hsim, rfl⟩

theorem matchOrder {b : MapOrderBook} (h : Simulates b n) (hi : Inv ⟨b, some o⟩)
    (ho : o.IsMatchable) (hp : o.IsPriced) (hk : o.isFok = false)
    (hm : b.matchOrder fuel o = .ok (b', o')) :
    Inv ⟨b', some o'⟩ ∧ Simulates b' (n.sweep o.taker).1 ∧ o'.taker = (n.sweep o.taker).2 := by
  rw [matchOrder_not_fok hk] at hm
  exact (h.note (.matching o b.toBook) ⟨rfl, rfl⟩).matchLoop (hi.note _) ho hp hm

theorem addLimitOrder (h : Simulates b n) (hi : Inv ⟨b, some o⟩) (ho : o.type = .limit)
    (hk : o.isFok = false) (hs : b.addLimitOrder fuel o = .ok b') :
    Simulates b' (n.addOrder o.taker) := by
  have hp : o.IsPriced := fun hm => by
    rw [ho] at hm
    cases hm
  obtain ⟨⟨b₁, o₁⟩, hm, hs⟩ := bind_eq_ok.1 hs
  obtain ⟨hi₁, hsim, he⟩ := h.matchOrder hi (.inl ho) hp hk hm
  have ht₁ : o₁.type = .limit := (matchOrder_exit fuel b hm).1.type.trans ho
  dsimp only at hs
  unfold NaiveBook.addOrder
  dsimp only
  rw [← he]
  have hlimit : o₁.taker.limit = some o₁.price := if_neg (by rw [ht₁]; nofun)
  have hgtc : (o₁.taker.isGtc && decide (o₁.taker.openQuantity ≠ 0)) =
      (!o₁.isFilled && !o₁.isIoc && !o₁.isFok) := by
    rw [o₁.isFilled_eq, Bool.and_assoc, Bool.and_comm]
    unfold Order.taker Order.isIoc Order.isFok
    dsimp only
    rw [decide_not]
    cases o₁.timeInForce <;> rfl
  rw [hlimit]
  dsimp only
  rw [hgtc]
  split at hs
  · rename_i hc
    cases hs
    rw [if_pos hc]
    have hn : b₁.orders.find? o₁.id = none := (hi₁.inHand rfl).fresh
    obtain ⟨it, hh, hins⟩ := insertLimitOrder_inserted ht₁ hn
    rw [Order.home?_naive ht₁, Option.some.injEq] at hh
    subst hh
    refine ⟨hsim.mirrors.inserted ht₁ hn hins, ?_, ?_, ?_⟩
    · exact hins.prices.lastTradedPrice.trans hsim.lastTradedPrice
    · rw [hins.trace]
      exact hsim.trades
    · rw [hins.trace]
      exact hsim.fills
  · rename_i hc
    cases hs
    rw [if_neg hc]
    exact hsim.note _ ⟨rfl, rfl⟩

/-- The price a market order bears does not matter. -/
theorem addMarketOrder (h : Simulates b n) (hi : Inv ⟨b, some o⟩) (ho : o.type = .market)
    (hk : o.isFok = false) (hs : b.addMarketOrder fuel o = .ok b') :
    Simulates b' (n.addOrder o.taker) := by
  obtain ⟨⟨b₁, o₁⟩, hm, hs⟩ := bind_eq_ok.1 hs
  cases hs
  obtain ⟨_, hsim, he⟩ := h.matchOrder (hi.workStep (.priced ho)) (.inr ho) (fun _ => rfl) hk hm
  have htaker (price : UInt64) : (o.setPrice price).taker = o.taker := by
    unfold Order.taker Order.setPrice
    dsimp only
    rw [if_pos ho, if_pos ho]
  rw [htaker] at hsim he
  have ht₁ : o₁.type = .market := (matchOrder_exit fuel b hm).1.type.trans ho
  have hlimit : o₁.taker.limit = none := if_pos ht₁
  unfold NaiveBook.addOrder
  dsimp only
  rw [← he, hlimit]
  exact hsim.note _ ⟨rfl, rfl⟩

end Simulates

/-! ### Operations -/

/-- What a client of the naive book may ask: legal operations that bring in limit and market orders
only, and none to be filled or killed, and that cancel no more of an order than is open. -/
def Op.Plain (b : Book) (op : Op) : Prop := op.Legal b ∧
  match op with
  | .addOrder order => (order.type = .limit ∨ order.type = .market) ∧ order.timeInForce ≠ .fok
  | .cancelOrder orderId quantity => ∃ o ∈ b.resting orderId, quantity ≤ o.openQuantity
  | _ => True

instance (b : Book) (op : Op) : Decidable (op.Plain b) :=
  match op with
  | .addOrder _ => inferInstanceAs (Decidable (_ ∧ _ ∧ _))
  | .cancelOrder orderId quantity =>
    inferInstanceAs (Decidable (_ ∧ ∃ o ∈ b.resting orderId, quantity ≤ o.openQuantity))
  | .executeOrderAt _ _ _ | .executeOrder _ _ | .deleteOrder _ | .replaceOrder _ _ _ =>
    inferInstanceAs (Decidable (_ ∧ True))

/-- A computation leads to a book that simulates `n`, and it does so whenever no loop is cut short.
No loop takes more turns than an order may have open. -/
def Computes (fuel : Nat) (x : Exec MapOrderBook) (n : NaiveBook) : Prop :=
  (∀ b, x = .ok b → Inv ⟨b, none⟩ ∧ Simulates b n) ∧ (2 ^ 64 ≤ fuel → ∃ b, x = .ok b)

namespace Computes

theorem ok (hi : Inv ⟨b, none⟩) (h : Simulates b n) : Computes fuel (.ok b) n :=
  ⟨fun b' hb => by cases hb; exact ⟨hi, h⟩, fun _ => ⟨b, rfl⟩⟩

theorem bind {f : MapOrderBook → Exec MapOrderBook} (hx : Computes fuel x n)
    (hf : ∀ b, x = .ok b → Inv ⟨b, none⟩ → Simulates b n → Computes fuel (f b) n') :
    Computes fuel (x >>= f) n' := by
  constructor
  · intro b' hb'
    obtain ⟨b, hb, hb'⟩ := bind_eq_ok.1 hb'
    obtain ⟨hi, h⟩ := hx.1 b hb
    exact (hf b hb hi h).1 b' hb'
  · intro hn
    obtain ⟨b, hb⟩ := hx.2 hn
    obtain ⟨hi, h⟩ := hx.1 b hb
    rw [hb]
    exact (hf b hb hi h).2 hn

end Computes

/-- A resting order comes in again as a GTC limit order of what is open of it. -/
theorem taker_replaced {o : Order} (ho : (o.replaced i p).type = .limit)
    (hg : o.timeInForce = .gtc) : (o.replaced i p).taker =
      ⟨i, o.naive.side, some p, true, o.naive.openQuantity⟩ := by
  unfold Order.taker
  rw [if_neg (by rw [ho]; nofun)]
  change (⟨_, _, _, decide (o.timeInForce = .gtc), _⟩ : NaiveTaker) = _
  rw [decide_eq_true hg]
  rfl

namespace Simulates

theorem not_isStop (h : Simulates b n) (hl : Linked b.toBook) (ht : it.levels.IsStop) :
    b.level? it = none := by
  cases hlev : b.level? it with
  | none => rfl
  | some l =>
    obtain ⟨i, w, _, hw, _, _, hh⟩ := hl.front hlev
    exact absurd (Order.isStopType_of_home? hh ht) (Order.not_isStopType (h.mirrors.limit hw))

/-- Without stop orders the cascade has nothing to do. -/
theorem idle (h : Simulates b n) (hl : Linked b.toBook) : Idle b.toBook := by
  have hact (t : LevelMap) (ht : t.IsStop) (p : UInt64) : b.canActivate t p = false := by
    rw [← Bool.not_eq_true]
    intro hc
    obtain ⟨i, w, hw, hst, _⟩ := hl.exists_of_canActivate ht hc
    exact Order.not_isStopType (h.mirrors.limit hw) hst
  constructor
  · intro t ht
    refine hact t ?_ _
    rcases ht with rfl | rfl <;> simp [LevelMap.IsStop]
  · intro t ht
    refine hact t ?_ _
    rcases ht with rfl | rfl <;> simp [LevelMap.IsStop]
  · intro side
    have hnone (key : UInt64) : b.level? ⟨trailingMap side, key⟩ = none :=
      h.not_isStop hl (isTrailing_trailingMap side).isStop
    have hemp : (b.levels (trailingMap side)).isEmpty = true := by
      rw [SortedMap.isEmpty_iff, SortedMap.eq_empty_iff]
      exact hnone
    cases side with
    | ask =>
      have hemp' : b.trailingStopAskLevels.isEmpty = true := hemp
      rw [Book.relevels, hemp', Bool.not_true, Bool.and_false]
    | bid =>
      have hemp' : b.trailingStopBidLevels.isEmpty = true := hemp
      rw [Book.relevels, hemp', Bool.not_true, Bool.and_false]

theorem idled (h : Simulates b n) : Simulates b.idled n := by
  refine ⟨⟨h.mirrors.limit, h.mirrors.resting, h.mirrors.nodup, fun it => ?_⟩, h.lastTradedPrice,
    ?_, ?_⟩
  · rw [Book.queue, level?_idled]
    exact h.mirrors.queues it
  · unfold MapOrderBook.idled MapOrderBook.skipUpdate
    rw [trace_remember, trace_note, trace_remember, trace_note, tradeRecords_append,
      tradeRecords_append]
    exact (List.append_nil _).trans ((List.append_nil _).trans h.trades)
  · unfold MapOrderBook.idled MapOrderBook.skipUpdate
    rw [trace_remember, trace_note, trace_remember, trace_note, fillsOf_append, fillsOf_append]
    exact (List.append_nil _).trans ((List.append_nil _).trans h.fills)

theorem activateStopOrders (h : Simulates b n) (hi : Inv ⟨b, none⟩) (fuel : Nat) :
    Computes fuel (b.activateStopOrders fuel) n := by
  have hidle := h.idle hi.linked
  constructor
  · intro b' hb'
    refine ⟨hi.steps ((activateStopOrders_runs fuel b).of_ok hb'), ?_⟩
    have hn : 2 ≤ fuel := by
      obtain ⟨⟨b₁, _⟩, hw, _⟩ := bind_eq_ok.1 hb'
      cases fuel with
      | zero => cases hw
      | succ fuel =>
        rw [whileLoop_turn rfl] at hw
        obtain ⟨s, _, hw⟩ := bind_eq_ok.1 hw
        cases fuel with
        | zero => cases hw
        | succ fuel => omega
    rw [hidle.activateStopOrders hn] at hb'
    cases hb'
    exact h.idled
  · exact fun hn => ⟨_, hidle.activateStopOrders (by omega)⟩

/-- `match` returns for every order that is not to be filled or killed. -/
theorem matchOrder_ok (hi : Inv ⟨b, some o⟩) (ho : o.IsMatchable) (hp : o.IsPriced)
    (hk : o.isFok = false) (hn : 2 ^ 64 ≤ fuel) : ∃ r, b.matchOrder fuel o = .ok r := by
  rw [matchOrder_not_fok hk]
  exact matchLoop_ends (hi.note _) ho hp (Nat.lt_of_lt_of_le o.openQuantity.toNat_lt hn)

theorem submitOrder (h : Simulates b n) (hi : Inv ⟨b, none⟩)
    (ha : Proper b.toBook (.submit o)) (ho : o.type = .limit ∨ o.type = .market)
    (hk : o.timeInForce ≠ .fok) (fuel : Nat) :
    Computes fuel (b.submitOrder fuel o) (n.addOrder o.taker) := by
  have hk' : o.isFok = false := decide_eq_false hk
  have hsim : Simulates (b.emit (.orderAdded o)) n := h.note _ ⟨rfl, rfl⟩
  have hi' : Inv ⟨b.emit (.orderAdded o), some o⟩ := hi.step (.added ha)
  refine ⟨fun b' hs => ⟨hi.steps ((submitOrder_runs fuel b o ha).of_ok hs), ?_⟩, fun hn => ?_⟩
  · unfold MapOrderBook.submitOrder at hs
    rcases ho with ho | ho
    · rw [ho] at hs
      exact hsim.addLimitOrder hi' ho hk' hs
    · rw [ho] at hs
      exact hsim.addMarketOrder hi' ho hk' hs
  · unfold MapOrderBook.submitOrder
    rcases ho with ho | ho
    · rw [ho]
      have hp : o.IsPriced := fun hm => by
        rw [ho] at hm
        cases hm
      obtain ⟨r, hr⟩ := matchOrder_ok hi' (.inl ho) hp hk' hn
      change ∃ b', (b.emit (.orderAdded o)).addLimitOrder fuel o = .ok b'
      unfold MapOrderBook.addLimitOrder
      rw [hr, ok_bind]
      dsimp only
      split <;> exact ⟨_, rfl⟩
    · rw [ho]
      obtain ⟨r, hr⟩ := matchOrder_ok (hi'.workStep (.priced ho)) (.inr ho) (fun _ => rfl) hk' hn
      change ∃ b', (b.emit (.orderAdded o)).addMarketOrder fuel o = .ok b'
      unfold MapOrderBook.addMarketOrder
      dsimp only
      rw [hr, ok_bind]
      exact ⟨_, rfl⟩

theorem addOrder (h : Simulates b n) (hi : Inv ⟨b, none⟩) (ha : Proper b.toBook (.submit o))
    (ho : o.type = .limit ∨ o.type = .market) (hk : o.timeInForce ≠ .fok) (fuel : Nat) :
    Computes fuel (b.addOrder fuel o) (n.addOrder o.taker) :=
  (h.submitOrder hi ha ho hk fuel).bind fun _ _ hi h => h.activateStopOrders hi fuel

theorem find? (h : Simulates b n) (hl : Linked b.toBook) (hw : b.orders.find? i = some w) :
    n.find? i = some w.order.naive := by
  rw [NaiveBook.find?, h.mirrors.find? hl, hw]
  rfl

theorem executeResting (h : Simulates b n) (hi : Inv ⟨b, none⟩)
    (price : Order → UInt64) (price' : NaiveOrder → UInt64) (hp : ∀ o, price' o.naive = price o)
    (hs : ∃ b', b.executeResting i quantity price = .ok b') (fuel : Nat) :
    Computes fuel (b.executeResting i quantity price) (n.executeOrder i quantity price') := by
  refine ⟨fun b' hb' => ?_, fun _ => hs⟩
  have ha : Proper b.toBook (.execute i quantity price) := trivial
  refine ⟨hi.step (.executed ha hb'), ?_⟩
  obtain ⟨w, l, hc⟩ := executeResting_changed hb'
  have hm := h.mirrors.changed hi.linked (.execute _ _ _) hc
  have hid : w.order.id = i := hi.linked.id hc.order
  have hq : (min quantity w.order.openQuantity).toNat =
      min quantity.toNat w.order.naive.openQuantity := toNat_min _ _
  have hleft : (w.order.execute (price w.order)
      (min quantity w.order.openQuantity)).openQuantity.toNat =
        w.order.naive.openQuantity - min quantity.toNat w.order.naive.openQuantity := by
    have hle : min quantity w.order.openQuantity ≤ w.order.openQuantity := by
      rw [UInt64.le_iff_toNat_le, toNat_min]
      exact Nat.min_le_right _ _
    have := toNat_openQuantity_execute hle (price w.order)
    rw [← hq]
    change _ = w.order.openQuantity.toNat - _
    omega
  rw [hleft] at hm
  unfold NaiveBook.executeOrder
  rw [h.find? hi.linked hc.order]
  refine ⟨hm, ?_, ?_, ?_⟩
  · exact hc.lastTradedPrice.trans (hp w.order).symm
  · rw [hc.trace, (told_deleted _ _ _).1, tradeRecords_append]
    exact (List.append_nil _).trans h.trades
  · rw [hc.trace, (told_deleted _ _ _).2, fillsOf_append, h.fills]
    change n.fills ++ [⟨w.order.id, (min quantity w.order.openQuantity).toNat, _⟩] = _
    rw [hleft, hq, hid]

/-- No more is cancelled than is open. -/
theorem cancelResting (h : Simulates b n) (hi : Inv ⟨b, none⟩)
    (ha : ∃ o ∈ b.resting i, quantity ≤ o.openQuantity)
    (hs : ∃ b', b.cancelResting i quantity = .ok b') (fuel : Nat) :
    Computes fuel (b.cancelResting i quantity) (n.cancelOrder i quantity) := by
  refine ⟨fun b' hb' => ?_, fun _ => hs⟩
  have hproper : Proper b.toBook (.cancel i quantity) := trivial
  refine ⟨hi.step (.cancelled hproper hb'), ?_⟩
  obtain ⟨w, l, hc⟩ := cancelResting_changed hb'
  have hm := h.mirrors.changed hi.linked (.setQuantity _ _) hc
  obtain ⟨o, ho, hle⟩ := ha
  have how : w.order = o := by
    have hrest : b.resting i = some w.order := by rw [Book.resting, hc.order]; rfl
    rw [hrest] at ho
    exact Option.some.inj ho
  rw [← how] at hle
  have hleft : (w.order.setQuantity quantity).openQuantity.toNat =
      w.order.naive.openQuantity - quantity.toNat := UInt64.toNat_sub_of_le _ _ hle
  rw [hleft] at hm
  unfold NaiveBook.cancelOrder
  rw [h.find? hi.linked hc.order]
  refine ⟨hm, hc.lastTradedPrice.trans h.lastTradedPrice, ?_, ?_⟩
  · rw [hc.trace, (told_deleted _ _ _).1, tradeRecords_append]
    exact (List.append_nil _).trans h.trades
  · rw [hc.trace, (told_deleted _ _ _).2, fillsOf_append]
    exact (List.append_nil _).trans h.fills

theorem deleteOrderWith (h : Simulates b n) (hi : Inv ⟨b, none⟩)
    (hs : ∃ b', b.deleteOrderWith i true = .ok b') (fuel : Nat) :
    Computes fuel (b.deleteOrderWith i true) (n.deleteOrder i) := by
  refine ⟨fun b' hb' => ?_, fun _ => hs⟩
  have ha : Proper b.toBook (.delete i) := trivial
  refine ⟨hi.step (.deleted ha hb'), ?_⟩
  obtain ⟨w, l, hd⟩ := deleteOrderWith_deleted hb'
  refine ⟨h.mirrors.deleted hi.linked hd, hd.prices.lastTradedPrice.trans h.lastTradedPrice,
    ?_, ?_⟩
  · rw [hd.trace, (told_deleted _ _ _).1]
    exact h.trades
  · rw [hd.trace, (told_deleted _ _ _).2]
    exact h.fills

/-- Every operation does to the book what it does to the naive one. -/
theorem apply (h : Simulates b n) (hi : Inv ⟨b, none⟩) (ha : op.Plain b.toBook) (fuel : Nat) :
    Computes fuel (b.apply fuel op) (n.apply op) := by
  obtain ⟨hp, hs⟩ := ha.1.proper hi
  have hcascade (b : MapOrderBook) (n : NaiveBook) (hi : Inv ⟨b, none⟩) (h : Simulates b n) :
      Computes fuel (b.activateStopOrders fuel) n := h.activateStopOrders hi fuel
  cases op with
  | addOrder o => exact h.addOrder hi hp ha.2.1 ha.2.2 fuel
  | executeOrderAt i q p =>
    exact (h.executeResting hi (fun _ => p) (fun _ => p) (fun _ => rfl) hs fuel).bind fun b _ =>
      hcascade b _
  | executeOrder i q =>
    exact (h.executeResting hi Order.price NaiveOrder.price (fun _ => rfl) hs fuel).bind fun b _ =>
      hcascade b _
  | cancelOrder i q => exact (h.cancelResting hi ha.2 hs fuel).bind fun b _ => hcascade b _
  | deleteOrder i => exact (h.deleteOrderWith hi hs fuel).bind fun b _ => hcascade b _
  | replaceOrder i i' p =>
    obtain ⟨w, hw⟩ := Option.ne_none_iff_exists'.1 ha.1.1
    change Computes fuel (b.replaceOrder fuel i i' p) (n.replaceOrder i i' p)
    unfold MapOrderBook.replaceOrder NaiveBook.replaceOrder
    rw [orderAt_eq_ok.2 hw, ok_bind, h.find? hi.linked hw]
    have hlimit : (w.order.replaced i' p).type = .limit := h.mirrors.limit hw
    have hgtc : w.order.timeInForce = .gtc := (hi.restable hw).gtc (h.mirrors.limit hw)
    have hfok : (w.order.replaced i' p).timeInForce ≠ .fok := by
      change w.order.timeInForce ≠ .fok
      rw [hgtc]
      nofun
    dsimp only
    rw [← taker_replaced hlimit hgtc]
    refine (h.deleteOrderWith hi hs fuel).bind fun b₁ hd hi₁ h₁ => ?_
    refine (h₁.addOrder hi₁ (hp.2 w b₁ hw hd) (.inl hlimit) hfok fuel).bind fun b₂ _ => ?_
    exact hcascade b₂ _

theorem run (h : Simulates b n) (hi : Inv ⟨b, none⟩) (ha : RunAllowed Op.Plain fuel b ops) :
    Computes fuel (b.run fuel ops) (n.run ops) := by
  induction ops generalizing b n with
  | nil => exact .ok hi h
  | cons op ops ih =>
    refine (h.apply hi ha.1 fuel).bind fun b₁ hb₁ hi₁ h₁ => ih h₁ hi₁ ?_
    have ha₂ := ha.2
    rw [hb₁] at ha₂
    exact ha₂

end Simulates

/-- Price-time priority: every run of the book makes the trades of the naive book, tells of them,
and holds the orders of the naive book, at each price in the order of their arrival. -/
theorem simulates_naive (ha : RunAllowed Op.Plain fuel (.new symbolId) ops) :
    (∀ b, (MapOrderBook.new symbolId).run fuel ops = .ok b →
      Simulates b (NaiveBook.empty.run ops)) ∧
    (2 ^ 64 ≤ fuel → ∃ b, (MapOrderBook.new symbolId).run fuel ops = .ok b) := by
  have h : Simulates (.new symbolId) .empty :=
    ⟨.empty symbolId, rfl, rfl, rfl⟩
  have hc := h.run (.new symbolId) ha
  exact ⟨fun b hb => (hc.1 b hb).2, hc.2⟩

/-- An ask sweeps two bids of one price and a part of a third, a market bid meets an ask, and the
rest of an ask is executed, cancelled in part and replaced by one that crosses. -/
def plainOps : List Op :=
  [.addOrder (.new .limit .bid .gtc 1 95 0 0 5 1), .addOrder (.new .limit .bid .gtc 1 90 0 0 4 2),
    .addOrder (.new .limit .bid .gtc 1 95 0 0 5 3), .addOrder (.new .limit .ask .gtc 1 99 0 0 6 4),
    .addOrder (.new .limit .ask .ioc 1 90 0 0 12 5), .addOrder (.new .market .bid .ioc 1 0 0 0 1 6),
    .executeOrderAt 4 1 98, .cancelOrder 4 1, .replaceOrder 4 7 90, .deleteOrder 7]

theorem simulates_naive_plainOps : ∃ b, (MapOrderBook.new 1).run 20 plainOps = .ok b ∧
    tradeRecords b.trace = [⟨1, 5, 95, 5⟩, ⟨3, 5, 95, 5⟩, ⟨2, 5, 90, 2⟩, ⟨6, 4, 99, 1⟩,
      ⟨2, 7, 90, 2⟩] ∧ Simulates b (NaiveBook.empty.run plainOps) := by
  have ha : RunAllowed Op.Plain 20 (.new 1) plainOps := by decide +kernel
  obtain ⟨b, hb, _, ht⟩ := exists_reachable_of_run Op.Plain 1 20 plainOps ha
    (f := fun b => some (tradeRecords b.trace)) (o := [⟨1, 5, 95, 5⟩, ⟨3, 5, 95, 5⟩,
      ⟨2, 5, 90, 2⟩, ⟨6, 4, 99, 1⟩, ⟨2, 7, 90, 2⟩]) (by decide +kernel)
  exact ⟨b, hb, Option.some.inj ht, (simulates_naive ha).1 b hb⟩

end RapidTrader
