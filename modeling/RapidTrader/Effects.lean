import RapidTrader.Machine

namespace RapidTrader
open Lib
set_option autoImplicit true

/-- The fields outside the containers are the same. -/
structure SamePrices (b b' : Book) : Prop where
  symbolId : b'.symbolId = b.symbolId
  lastTradedPrice : b'.lastTradedPrice = b.lastTradedPrice
  trailingBidPrice : b'.trailingBidPrice = b.trailingBidPrice
  trailingAskPrice : b'.trailingAskPrice = b.trailingAskPrice

namespace SamePrices

theorem refl (b : Book) : SamePrices b b := ⟨rfl, rfl, rfl, rfl⟩

theorem trans (h : SamePrices b b') (h' : SamePrices b' b'') : SamePrices b b'' :=
  ⟨h'.symbolId.trans h.symbolId, h'.lastTradedPrice.trans h.lastTradedPrice,
    h'.trailingBidPrice.trans h.trailingBidPrice, h'.trailingAskPrice.trans h.trailingAskPrice⟩

theorem setLevels (b : MapOrderBook) (t : LevelMap) (m : SortedMap UInt64 Level) :
    SamePrices b.toBook (b.setLevels t m).toBook :=
  ⟨by simp, by simp, by simp, by simp⟩

theorem modifyLevel (b : MapOrderBook) (it : LevelIt) (f : Level → Level) :
    SamePrices b.toBook (b.modifyLevel it f).toBook := .setLevels _ _ _

end SamePrices

theorem orders_modifyLevel (b : MapOrderBook) (it : LevelIt) (f : Level → Level) :
    (b.modifyLevel it f).orders = b.orders := orders_setLevels b _ _

theorem trace_modifyLevel (b : MapOrderBook) (it : LevelIt) (f : Level → Level) :
    (b.modifyLevel it f).trace = b.trace := trace_setLevels b _ _

/-- The place where an order has to rest. -/
def Order.home? (o : Order) : Option LevelIt :=
  o.levelMap?.map (fun t => ⟨t, if o.isLimit then o.price else o.stopPrice⟩)

theorem Order.SameTerms.home? (h : Order.SameTerms o o') : o'.home? = o.home? := by
  unfold Order.home? Order.levelMap? Order.isAsk Order.isLimit
  rw [h.type, h.side, h.price, h.stopPrice]

theorem Order.home?_levelMap? {o : Order} (h : o.home? = some it) :
    o.levelMap? = some it.levels := by
  obtain ⟨t, ht, rfl⟩ := Option.map_eq_some_iff.1 h
  exact ht

/-- The kinds of orders that rest in each map. -/
theorem Order.levelMap?_eq_some {o : Order} : o.levelMap? = some t ↔
    match t with
    | .ask => o.type = .limit ∧ o.side = .ask
    | .bid => o.type = .limit ∧ o.side = .bid
    | .stopAsk => (o.type = .stop ∨ o.type = .stopLimit) ∧ o.side = .ask
    | .stopBid => (o.type = .stop ∨ o.type = .stopLimit) ∧ o.side = .bid
    | .trailingStopAsk => o.IsTrailing ∧ o.side = .ask
    | .trailingStopBid => o.IsTrailing ∧ o.side = .bid := by
  unfold Order.levelMap? Order.IsTrailing Order.isAsk
  cases o.type <;> cases o.side <;> cases t <;> simp

/-! ### Deleting -/

/-- What `deleteOrder(order_id, notification)` does to the book. -/
structure Deleted (b : MapOrderBook) (i : UInt64) (w : OrderWrapper) (l : Level)
    (notification : Bool) (b' : MapOrderBook) : Prop where
  order : b.orders.find? i = some w
  held : b.level? w.levelIt = some l
  prices : SamePrices b.toBook b'.toBook
  orders : b'.orders = b.orders.erase i
  trace : b'.trace = b.trace ++ if notification then [.event (.orderDeleted w.order)] else []
  levels : w.order.home? = some w.levelIt → ∀ it, b'.level? it =
    if it = w.levelIt then
      if (l.deleteOrder w.order).empty then none else some (l.deleteOrder w.order)
    else b.level? it

theorem Deleted.find?_orders (h : Deleted b i w l n b') (k : UInt64) :
    b'.orders.find? k = if k = i then none else b.orders.find? k := by
  rw [h.orders, SortedMap.find?_erase]

theorem eraseLevel_of_home (b : MapOrderBook) (h : o.home? = some it) :
    b.eraseLevel o it = .ok (b.setLevels it.levels ((b.levels it.levels).erase it.key)) := by
  unfold MapOrderBook.eraseLevel
  rw [Order.home?_levelMap? h]
  exact if_pos rfl

theorem eraseLevel_frame {b : MapOrderBook} (h : b.eraseLevel o it = .ok b') :
    SamePrices b.toBook b'.toBook ∧ b'.orders = b.orders ∧ b'.trace = b.trace := by
  unfold MapOrderBook.eraseLevel at h
  split at h
  · cases h
    exact ⟨.refl _, rfl, rfl⟩
  · split at h
    · cases h
      exact ⟨.setLevels _ _ _, orders_setLevels _ _ _, trace_setLevels _ _ _⟩
    · cases h

theorem deleteOrderWith_deleted {b : MapOrderBook} (h : b.deleteOrderWith i n = .ok b') :
    ∃ w l, Deleted b i w l n b' := by
  obtain ⟨w, hw, h⟩ := bind_eq_ok.1 h
  rw [orderAt_eq_ok] at hw
  generalize hb₁ : (if n = true then b.emit (.orderDeleted w.order) else b) = b₁ at h
  have hbook : b₁.toBook = b.toBook := by
    rw [← hb₁]
    split <;> rfl
  have htrace : b₁.trace = b.trace ++ if n then [.event (.orderDeleted w.order)] else [] := by
    rw [← hb₁]
    cases n <;> simp
  obtain ⟨l, hl, h⟩ := bind_eq_ok.1 h
  rw [levelAt_eq_ok, hbook] at hl
  obtain ⟨b₂, hb₂, h⟩ := bind_eq_ok.1 h
  cases h
  have hmod : SamePrices b₁.toBook (b₁.modifyLevel w.levelIt (·.deleteOrder w.order)).toBook :=
    .modifyLevel _ _ _
  have hfr : SamePrices b₁.toBook b₂.toBook ∧ b₂.orders = b₁.orders ∧ b₂.trace = b₁.trace := by
    split at hb₂
    · obtain ⟨hp, ho, ht⟩ := eraseLevel_frame hb₂
      exact ⟨hmod.trans hp, ho.trans (orders_modifyLevel _ _ _), ht.trans (trace_modifyLevel _ _ _)⟩
    · cases hb₂
      exact ⟨hmod, orders_modifyLevel _ _ _, trace_modifyLevel _ _ _⟩
  refine ⟨w, l, hw, hl, ?_, ?_, hfr.2.2.trans htrace, ?_⟩
  · rw [← hbook]
    exact ⟨hfr.1.1, hfr.1.2, hfr.1.3, hfr.1.4⟩
  · rw [hfr.2.1, hbook]
  · intro hhome it
    change b₂.level? it = _
    have hl₁ : b₁.level? w.levelIt = some l := by rw [hbook]; exact hl
    split at hb₂
    · rename_i hempty
      rw [eraseLevel_of_home _ hhome] at hb₂
      cases hb₂
      rw [level?_eraseAt, level?_modifyLevel, hbook]
      split <;> rfl
    · rename_i hempty
      cases hb₂
      rw [level?_modifyLevel, hbook]
      split
      · rename_i hit
        rw [hit, hl]
        rfl
      · rfl

theorem deleteOrderWith_ok {b : MapOrderBook} (hw : b.orders.find? i = some w)
    (hl : b.level? w.levelIt = some l) (hh : w.order.home? = some w.levelIt) (n : Bool) :
    ∃ b', b.deleteOrderWith i n = .ok b' := by
  unfold MapOrderBook.deleteOrderWith
  rw [orderAt_eq_ok.2 hw, ok_bind]
  have hl' :
      (if n = true then b.emit (.orderDeleted w.order) else b).levelAt w.levelIt = .ok l := by
    rw [levelAt_eq_ok]
    split <;> exact hl
  dsimp only
  rw [hl', ok_bind]
  split
  · rw [eraseLevel_of_home _ hh]
    exact ⟨_, rfl⟩
  · exact ⟨_, rfl⟩

/-! ### Executing and cancelling -/

/-- What a change of the resting order `i` does to the book, when the order becomes `o` and its
level loses `amount`. `price` and `notes` are the last price and the trace just before. -/
structure Changed (b : MapOrderBook) (i : UInt64) (w : OrderWrapper) (l : Level) (o : Order)
    (amount price : UInt64) (notes : List Note) (b' : MapOrderBook) : Prop where
  order : b.orders.find? i = some w
  held : b.level? w.levelIt = some l
  symbolId : b'.symbolId = b.symbolId
  lastTradedPrice : b'.lastTradedPrice = price
  trailingBidPrice : b'.trailingBidPrice = b.trailingBidPrice
  trailingAskPrice : b'.trailingAskPrice = b.trailingAskPrice
  orders : b'.orders =
    if o.isFilled then b.orders.erase i else b.orders.insert i { w with order := o }
  trace : b'.trace = notes ++ if o.isFilled then [.event (.orderDeleted o)] else []
  levels : o.home? = some w.levelIt → ∀ it, b'.level? it =
    if it = w.levelIt then
      if o.isFilled then
        if ((l.reduceVolume amount).deleteOrder o).empty then none
        else some ((l.reduceVolume amount).deleteOrder o)
      else some (l.reduceVolume amount)
    else b.level? it

theorem Changed.find?_orders (h : Changed b i w l o amount price notes b') (k : UInt64) :
    b'.orders.find? k =
      if k = i then if o.isFilled then none else some { w with order := o }
      else b.orders.find? k := by
  rw [h.orders]
  cases o.isFilled <;> simp

/-- The book in which `settle` starts: order `i` has been written back, and the last price and the
trace may have changed. -/
def restart (b : MapOrderBook) (i : UInt64) (o : Order) (price : UInt64) (notes : List Note) :
    MapOrderBook :=
  { b.writeOrder i o with lastTradedPrice := price, trace := notes }

theorem restart_orders {b : MapOrderBook} (hw : b.orders.find? i = some w) :
    (restart b i o price notes).orders = b.orders.insert i { w with order := o } :=
  SortedMap.modify_eq_insert hw (fun w => { w with order := o })

theorem settle_changed {b : MapOrderBook} (hw : b.orders.find? i = some w)
    (hl : b.level? w.levelIt = some l)
    (h : (restart b i o price notes).settle w.levelIt o i amount = .ok b') :
    Changed b i w l o amount price notes b' := by
  unfold MapOrderBook.settle at h
  have hl₁ : (restart b i o price notes).level? w.levelIt = some l := hl
  have hlevel (it : LevelIt) : ((restart b i o price notes).modifyLevel w.levelIt
      (·.reduceVolume amount)).level? it =
      if it = w.levelIt then some (l.reduceVolume amount) else b.level? it := by
    rw [level?_modifyLevel]
    split
    · rename_i hit
      rw [hit, hl₁]
      rfl
    · rfl
  dsimp only at h
  generalize hb₂ : (restart b i o price notes).modifyLevel w.levelIt (·.reduceVolume amount) = b₂
    at h hlevel
  have hp : SamePrices (restart b i o price notes).toBook b₂.toBook := hb₂ ▸ .modifyLevel _ _ _
  have ho : b₂.orders = b.orders.insert i { w with order := o } :=
    hb₂ ▸ (orders_modifyLevel _ _ _).trans (restart_orders hw)
  have ht : b₂.trace = notes := hb₂ ▸ trace_modifyLevel _ _ _
  cases hf : o.isFilled with
  | false =>
    rw [hf] at h
    cases h
    exact ⟨hw, hl, hp.symbolId, hp.lastTradedPrice, hp.trailingBidPrice, hp.trailingAskPrice,
      by rw [ho, hf]; rfl, by rw [ht, hf]; simp, fun _ it => by rw [hlevel, hf]; rfl⟩
  | true =>
    rw [hf] at h
    obtain ⟨w₂, l₂, hd⟩ := deleteOrderWith_deleted h
    have hw₂ : w₂ = { w with order := o } := by
      have := hd.order
      rw [ho, SortedMap.find?_insert, if_pos rfl] at this
      exact (Option.some.inj this).symm
    subst hw₂
    have hl₂ : l₂ = l.reduceVolume amount := by
      have := hd.held
      rw [hlevel, if_pos rfl] at this
      exact (Option.some.inj this).symm
    subst hl₂
    have hp' := hp.trans hd.prices
    refine ⟨hw, hl, hp'.symbolId, hp'.lastTradedPrice, hp'.trailingBidPrice, hp'.trailingAskPrice,
      ?_, ?_, ?_⟩
    · rw [hd.orders, ho, hf]
      apply SortedMap.ext_find?
      intro k
      simp only [↓reduceIte, SortedMap.find?_erase, SortedMap.find?_insert]
      split <;> rfl
    · rw [hd.trace, ht, hf]
    · intro hh it
      rw [hd.levels hh it, hf]
      simp only [↓reduceIte]
      split
      · rfl
      · rename_i hit
        rw [hlevel, if_neg hit]

theorem settle_ok {b : MapOrderBook} (hw : b.orders.find? i = some w)
    (hl : b.level? w.levelIt = some l) (hh : o.home? = some w.levelIt) :
    ∃ b', (restart b i o price notes).settle w.levelIt o i amount = .ok b' := by
  unfold MapOrderBook.settle
  dsimp only
  split
  · apply deleteOrderWith_ok (w := { w with order := o }) (l := l.reduceVolume amount) _ _ hh
    · rw [orders_modifyLevel, restart_orders hw, SortedMap.find?_insert, if_pos rfl]
    · rw [level?_modifyLevel, if_pos rfl]
      have : (restart b i o price notes).level? w.levelIt = some l := hl
      rw [this]
      rfl
  · exact ⟨_, rfl⟩

theorem executeResting_changed {b : MapOrderBook} (h : b.executeResting i q price = .ok b') :
    ∃ w l, Changed b i w l (w.order.execute (price w.order) (min q w.order.openQuantity))
      (min q w.order.openQuantity) (price w.order)
      (b.trace ++ [.event (.executedOrder
        (w.order.execute (price w.order) (min q w.order.openQuantity)))]) b' := by
  obtain ⟨w, hw, h⟩ := bind_eq_ok.1 h
  rw [orderAt_eq_ok] at hw
  obtain ⟨l, hl, h⟩ := bind_eq_ok.1 h
  rw [levelAt_eq_ok] at hl
  exact ⟨w, l, settle_changed hw hl h⟩

theorem executeResting_ok {b : MapOrderBook} (hw : b.orders.find? i = some w)
    (hl : b.level? w.levelIt = some l) (hh : w.order.home? = some w.levelIt)
    (q : UInt64) (price : Order → UInt64) : ∃ b', b.executeResting i q price = .ok b' := by
  unfold MapOrderBook.executeResting
  rw [orderAt_eq_ok.2 hw, ok_bind, levelAt_eq_ok.2 hl, ok_bind]
  exact settle_ok hw hl ((Order.SameTerms.execute _ _ _).home?.trans hh)

theorem cancelResting_changed {b : MapOrderBook} (h : b.cancelResting i q = .ok b') :
    ∃ w l, Changed b i w l (w.order.setQuantity q)
      (w.order.openQuantity - (w.order.setQuantity q).openQuantity) b.lastTradedPrice
      (b.trace ++ [.event (.orderUpdated (w.order.setQuantity q))]) b' := by
  obtain ⟨w, hw, h⟩ := bind_eq_ok.1 h
  rw [orderAt_eq_ok] at hw
  obtain ⟨l, hl, h⟩ := bind_eq_ok.1 h
  rw [levelAt_eq_ok] at hl
  exact ⟨w, l, settle_changed hw hl h⟩

theorem cancelResting_ok {b : MapOrderBook} (hw : b.orders.find? i = some w)
    (hl : b.level? w.levelIt = some l) (hh : w.order.home? = some w.levelIt) (q : UInt64) :
    ∃ b', b.cancelResting i q = .ok b' := by
  unfold MapOrderBook.cancelResting
  rw [orderAt_eq_ok.2 hw, ok_bind, levelAt_eq_ok.2 hl, ok_bind]
  exact settle_ok hw hl ((Order.SameTerms.setQuantity _ _).home?.trans hh)

/-! ### Trading -/

theorem bestOpposite_eq_some {b : Book} (h : b.bestOpposite side = some (key, l)) :
    b.level? ⟨Book.oppositeMap side, key⟩ = some l ∧
      ∀ key' l', b.level? ⟨Book.oppositeMap side, key'⟩ = some l' →
        ∀ price, Book.crosses side key' price = true → Book.crosses side key price = true := by
  cases side with
  | ask =>
    obtain ⟨hl, hbest⟩ := SortedMap.rbegin?_eq_some h
    refine ⟨hl, fun key' l' hl' price hc => ?_⟩
    have := hbest key' l' hl'
    simp only [Book.crosses, decide_eq_true_eq] at hc ⊢
    exact UInt64.le_trans hc this
  | bid =>
    obtain ⟨hl, hbest⟩ := SortedMap.begin?_eq_some h
    refine ⟨hl, fun key' l' hl' price hc => ?_⟩
    have := hbest key' l' hl'
    simp only [Book.crosses, decide_eq_true_eq] at hc ⊢
    exact UInt64.le_trans this hc

theorem bestOpposite_eq_none {b : Book} (h : b.bestOpposite side = none) (key : UInt64) :
    b.level? ⟨Book.oppositeMap side, key⟩ = none := by
  cases side with
  | ask => exact SortedMap.eq_empty_iff.1 (SortedMap.rbegin?_eq_none.1 h) key
  | bid => exact SortedMap.eq_empty_iff.1 (SortedMap.begin?_eq_none.1 h) key

/-- An unfilled order can trade exactly when some level crosses its price. -/
theorem canTrade_eq_false {b : Book} (h : b.canTrade o = false) (hf : o.isFilled = false)
    (hl : b.level? ⟨Book.oppositeMap o.side, key⟩ = some l) :
    Book.crosses o.side key o.price = false := by
  unfold Book.canTrade at h
  cases hb : b.bestOpposite o.side with
  | none =>
    rw [bestOpposite_eq_none hb] at hl
    cases hl
  | some e =>
    obtain ⟨k, l₀⟩ := e
    rw [hb] at h
    simp only [hf, Bool.not_false, Bool.and_true] at h
    by_contra hc
    have := (bestOpposite_eq_some hb).2 key l hl o.price (by simpa using hc)
    rw [h] at this
    cases this

theorem canTrade_eq_true {b : Book} (h : b.canTrade o = true) :
    o.isFilled = false ∧ ∃ key l, b.bestOpposite o.side = some (key, l) ∧
      Book.crosses o.side key o.price = true := by
  unfold Book.canTrade at h
  cases hb : b.bestOpposite o.side with
  | none => rw [hb] at h; cases h
  | some e =>
    obtain ⟨key, l⟩ := e
    rw [hb] at h
    simp only [Bool.and_eq_true, Bool.not_eq_true'] at h
    exact ⟨h.2, key, l, rfl, h.1⟩

/-- What the trade of an incoming order with a resting one leaves in the trace. -/
def tradeNotes (order resting : Order) (price quantity : UInt64) : List Note :=
  match order.side with
  | .ask => [.trade resting.id order.id price quantity, .event (.executedOrder resting),
      .event (.executedOrder order)]
  | .bid => [.trade order.id resting.id price quantity, .event (.executedOrder order),
      .event (.executedOrder resting)]

/-- What one turn of the loops of `match` does. -/
structure Traded (b : MapOrderBook) (o : Order) (key : UInt64) (l : Level) (i : UInt64)
    (w : OrderWrapper) (b' : MapOrderBook) (o' : Order) : Prop where
  best : b.bestOpposite o.side = some (key, l)
  front : l.front = some i
  order : o' = o.execute w.order.price (min o.openQuantity w.order.openQuantity)
  changed : Changed b i w l
    (w.order.execute w.order.price (min o.openQuantity w.order.openQuantity))
    (min o.openQuantity w.order.openQuantity) w.order.price
    (b.trace ++ tradeNotes (o.execute w.order.price (min o.openQuantity w.order.openQuantity))
      (w.order.execute w.order.price (min o.openQuantity w.order.openQuantity))
      w.order.price (min o.openQuantity w.order.openQuantity)) b'

/-- Both branches of `match` trade and settle in the same way. -/
theorem matchFront_eq {b : MapOrderBook} (hb : b.bestOpposite o.side = some (key, l))
    (hfr : l.front = some i) (hw : b.orders.find? i = some w)
    (hit : w.levelIt = ⟨Book.oppositeMap o.side, key⟩) (hid : w.order.id = i) :
    b.matchFront o = (restart b i
        (w.order.execute w.order.price (min o.openQuantity w.order.openQuantity)) w.order.price
        (b.trace ++ tradeNotes
          (o.execute w.order.price (min o.openQuantity w.order.openQuantity))
          (w.order.execute w.order.price (min o.openQuantity w.order.openQuantity))
          w.order.price (min o.openQuantity w.order.openQuantity))).settle w.levelIt
        (w.order.execute w.order.price (min o.openQuantity w.order.openQuantity)) i
        (min o.openQuantity w.order.openQuantity) >>=
      fun b' => .ok (b', o.execute w.order.price (min o.openQuantity w.order.openQuantity)) := by
  subst hid
  obtain ⟨r, _⟩ := w
  subst hit
  unfold MapOrderBook.matchFront
  rw [hb]
  dsimp only
  rw [hfr]
  dsimp only
  rw [orderAt_eq_ok.2 hw, ok_bind]
  cases hs : o.side with
  | ask =>
    have hn : tradeNotes (o.execute r.price (min o.openQuantity r.openQuantity))
        (r.execute r.price (min o.openQuantity r.openQuantity)) r.price
        (min o.openQuantity r.openQuantity) =
        [.trade r.id o.id r.price (min o.openQuantity r.openQuantity),
          .event (.executedOrder (r.execute r.price (min o.openQuantity r.openQuantity))),
          .event (.executedOrder (o.execute r.price (min o.openQuantity r.openQuantity)))] := by
      unfold tradeNotes
      rw [show (o.execute r.price (min o.openQuantity r.openQuantity)).side = .ask from hs]
      rfl
    rw [hn]
    simp only [MapOrderBook.executeOrders, MapOrderBook.emit, MapOrderBook.note, List.append_assoc,
      List.cons_append, List.nil_append]
    rfl
  | bid =>
    have hn : tradeNotes (o.execute r.price (min o.openQuantity r.openQuantity))
        (r.execute r.price (min o.openQuantity r.openQuantity)) r.price
        (min o.openQuantity r.openQuantity) =
        [.trade o.id r.id r.price (min o.openQuantity r.openQuantity),
          .event (.executedOrder (o.execute r.price (min o.openQuantity r.openQuantity))),
          .event (.executedOrder (r.execute r.price (min o.openQuantity r.openQuantity)))] := by
      unfold tradeNotes
      rw [show (o.execute r.price (min o.openQuantity r.openQuantity)).side = .bid from hs]
      rfl
    rw [hn]
    simp only [MapOrderBook.executeOrders, MapOrderBook.emit, MapOrderBook.note, List.append_assoc,
      List.cons_append, List.nil_append, min_comm_uint64 r.openQuantity]
    rfl

theorem matchFront_traded {b : MapOrderBook} (h : b.matchFront o = .ok (b', o'))
    (hit : ∀ key l i w, b.level? ⟨Book.oppositeMap o.side, key⟩ = some l → l.front = some i →
      b.orders.find? i = some w → w.levelIt = ⟨Book.oppositeMap o.side, key⟩ ∧ w.order.id = i) :
    ∃ key l i w, Traded b o key l i w b' o' := by
  have h' := h
  unfold MapOrderBook.matchFront at h'
  cases hb : b.bestOpposite o.side with
  | none => rw [hb] at h'; cases h'
  | some e =>
    obtain ⟨key, l⟩ := e
    rw [hb] at h'
    dsimp only at h'
    cases hfr : l.front with
    | none => rw [hfr] at h'; cases h'
    | some i =>
      rw [hfr] at h'
      obtain ⟨w, hw, _⟩ := bind_eq_ok.1 h'
      rw [orderAt_eq_ok] at hw
      have hl := (bestOpposite_eq_some hb).1
      obtain ⟨hwit, hid⟩ := hit key l i w hl hfr hw
      rw [matchFront_eq hb hfr hw hwit hid] at h
      obtain ⟨b₁, hset, h⟩ := bind_eq_ok.1 h
      cases h
      rw [← hwit] at hl
      exact ⟨key, l, i, w, hb, hfr, rfl, settle_changed hw hl hset⟩

theorem matchFront_ok {b : MapOrderBook} (hb : b.bestOpposite o.side = some (key, l))
    (hfr : l.front = some i) (hw : b.orders.find? i = some w)
    (hit : w.levelIt = ⟨Book.oppositeMap o.side, key⟩) (hid : w.order.id = i)
    (hh : w.order.home? = some w.levelIt) : ∃ r, b.matchFront o = .ok r := by
  have hl := (bestOpposite_eq_some hb).1
  rw [← hit] at hl
  rw [matchFront_eq hb hfr hw hit hid]
  exact exists_ok_bind (settle_ok hw hl ((Order.SameTerms.execute _ _ _).home?.trans hh))

/-! ### Inserting -/

/-- What it does to the book to insert an order whose id does not rest. -/
structure Inserted (b : MapOrderBook) (it : LevelIt) (o : Order) (b' : MapOrderBook) : Prop where
  prices : SamePrices b.toBook b'.toBook
  orders : b'.orders = b.orders.insert o.id ⟨o, it⟩
  trace : b'.trace = b.trace
  levels : ∀ it', b'.level? it' =
    if it' = it then
      some (((b.level? it).getD (.new it.key it.levels.side b.symbolId)).addOrder o)
    else b.level? it'

theorem Inserted.find?_orders (h : Inserted b it o b') (k : UInt64) :
    b'.orders.find? k = if k = o.id then some ⟨o, it⟩ else b.orders.find? k := by
  rw [h.orders, SortedMap.find?_insert]

theorem insertOrder_inserted {b : MapOrderBook} (t : LevelMap) (key : UInt64)
    (hn : b.orders.find? o.id = none) : Inserted b ⟨t, key⟩ o (b.insertOrder t key o) := by
  unfold MapOrderBook.insertOrder
  have he : (b.setLevels t ((b.levels t).emplace key (.new key t.side b.symbolId))).orders.emplace
      o.id ⟨o, ⟨t, key⟩⟩ = b.orders.insert o.id ⟨o, ⟨t, key⟩⟩ := by
    rw [orders_setLevels, SortedMap.emplace_of_find?_none hn]
  have hs : ((b.orders.insert o.id ⟨o, ⟨t, key⟩⟩).find? o.id).map OrderWrapper.order = some o := by
    rw [SortedMap.find?_insert, if_pos rfl]
    rfl
  dsimp only
  rw [he, hs]
  have hp := SamePrices.setLevels b t ((b.levels t).emplace key (.new key t.side b.symbolId))
  have ht := trace_setLevels b t ((b.levels t).emplace key (.new key t.side b.symbolId))
  have hl := fun it => level?_emplaceAt b ⟨t, key⟩ it (.new key t.side b.symbolId)
  dsimp only at hl
  generalize b.setLevels t ((b.levels t).emplace key (.new key t.side b.symbolId)) = b₁ at *
  refine ⟨?_, orders_modifyLevel _ _ _, (trace_modifyLevel _ _ _).trans ht, ?_⟩
  · have hm := SamePrices.modifyLevel { b₁ with orders := b.orders.insert o.id ⟨o, ⟨t, key⟩⟩ }
      ⟨t, key⟩ (·.addOrder o)
    exact hp.trans ⟨hm.1, hm.2, hm.3, hm.4⟩
  · intro it
    rw [level?_modifyLevel]
    split
    · rename_i hit
      subst hit
      have : b₁.level? ⟨t, key⟩ = _ := hl ⟨t, key⟩
      rw [if_pos rfl] at this
      change (b₁.level? ⟨t, key⟩).map _ = _
      rw [this]
      rfl
    · rename_i hit
      exact (hl it).trans (if_neg hit)

theorem insertLimitOrder_inserted {b : MapOrderBook} (ho : o.type = .limit)
    (hn : b.orders.find? o.id = none) :
    ∃ it, o.home? = some it ∧ Inserted b it o (b.insertLimitOrder o) := by
  refine ⟨_, ?_, insertOrder_inserted _ _ hn⟩
  simp [Order.home?, Order.levelMap?, Order.isLimit, ho]

theorem insertStopOrder_inserted {b : MapOrderBook} (ho : o.type = .stop ∨ o.type = .stopLimit)
    (hn : b.orders.find? o.id = none) :
    ∃ it, o.home? = some it ∧ Inserted b it o (b.insertStopOrder o) := by
  refine ⟨_, ?_, insertOrder_inserted _ _ hn⟩
  rcases ho with ho | ho <;> simp [Order.home?, Order.levelMap?, Order.isLimit, ho]

theorem insertTrailingStopOrder_inserted {b : MapOrderBook} (ho : o.IsTrailing)
    (hn : b.orders.find? o.id = none) :
    ∃ it, o.home? = some it ∧ Inserted b it o (b.insertTrailingStopOrder o) := by
  refine ⟨⟨if o.isAsk then .trailingStopAsk else .trailingStopBid, o.stopPrice⟩, ?_, ?_⟩
  · rcases ho with ho | ho <;> simp [Order.home?, Order.levelMap?, Order.isLimit, ho]
  · have h := insertOrder_inserted (if o.isAsk then .trailingStopAsk else .trailingStopBid)
      o.stopPrice hn
    unfold MapOrderBook.insertTrailingStopOrder
    refine ⟨⟨h.prices.1, h.prices.2, h.prices.3, h.prices.4⟩, ?_, h.trace, h.levels⟩
    -- the iterator is set a second time, to the same level
    dsimp only
    rw [h.orders]
    apply SortedMap.ext_find?
    intro i
    simp only [SortedMap.find?_modify, SortedMap.find?_insert]
    split <;> rfl

/-! ### Moving trailing orders -/

theorem calculateStopPrice_congr {b b' : Book} (h : b'.lastTradedPrice = b.lastTradedPrice)
    (o : Order) : b'.calculateStopPrice o = b.calculateStopPrice o := by
  unfold Book.calculateStopPrice Book.newStopPrice Book.lastTradedPriceAsk Book.lastTradedPriceBid
  rw [h]

@[simp] theorem stopPrice_calculateStopPrice (b : Book) (o : Order) :
    (b.calculateStopPrice o).stopPrice = b.newStopPrice o := rfl

/-- A level after the orders of a list have joined it one after the other. -/
def Level.addOrders (l : Level) (os : List Order) : Level := os.foldl Level.addOrder l

theorem Level.orders_addOrders (l : Level) (os : List Order) :
    (l.addOrders os).orders = l.orders ++ os.map Order.id := by
  induction os generalizing l with
  | nil => simp [addOrders]
  | cons o os ih =>
    rw [addOrders, List.foldl_cons]
    refine (ih (l.addOrder o)).trans ?_
    simp [addOrder]

theorem Level.fields_addOrders (l : Level) (os : List Order) :
    (l.addOrders os).price = l.price ∧ (l.addOrders os).side = l.side ∧
      (l.addOrders os).symbolId = l.symbolId := by
  induction os generalizing l with
  | nil => exact ⟨rfl, rfl, rfl⟩
  | cons o os ih => exact ih (l.addOrder o)

/-- The orders among `ws` whose recalculated stop price is `key`, as recalculated. -/
def Book.stopsAt (b : Book) (ws : List OrderWrapper) (key : UInt64) : List Order :=
  (ws.map (fun w => b.calculateStopPrice w.order)).filter (fun o => o.stopPrice = key)

/-- The entry of an order after re-levelling. -/
def Book.moved (b : Book) (t : LevelMap) (w : OrderWrapper) : OrderWrapper :=
  ⟨b.calculateStopPrice w.order, ⟨t, b.newStopPrice w.order⟩⟩

@[simp] theorem levelIt_moved (b : Book) (t : LevelMap) (w : OrderWrapper) :
    (b.moved t w).levelIt = ⟨t, b.newStopPrice w.order⟩ := rfl

@[simp] theorem order_moved (b : Book) (t : LevelMap) (w : OrderWrapper) :
    (b.moved t w).order = b.calculateStopPrice w.order := rfl

/-- What the loops of the update functions do when they take the orders `ws` in turn. -/
structure Moved (t : LevelMap) (ws : List OrderWrapper)
    (s s' : MapOrderBook × SortedMap UInt64 Level) : Prop where
  prices : SamePrices s.1.toBook s'.1.toBook
  levels : ∀ t', s'.1.levels t' = s.1.levels t'
  moved : ∀ w ∈ ws, s'.1.orders.find? w.order.id = some (s.1.moved t w)
  kept : ∀ i, (∀ w ∈ ws, w.order.id ≠ i) → s'.1.orders.find? i = s.1.orders.find? i
  trace : s'.1.trace =
    s.1.trace ++ ws.map (fun w => .event (.orderUpdated (s.1.calculateStopPrice w.order)))
  newLevels : ∀ key, s'.2.find? key =
    if s.1.stopsAt ws key = [] then s.2.find? key
    else some (((s.2.find? key).getD (.new key t.side s.1.symbolId)).addOrders
      (s.1.stopsAt ws key))

theorem relevelOrder_moved {s : MapOrderBook × SortedMap UInt64 Level}
    (hw : s.1.orders.find? w.order.id = some w) :
    ∃ s', MapOrderBook.relevelOrder t s w.order.id = .ok s' ∧ Moved t [w] s s' := by
  obtain ⟨b, m⟩ := s
  change b.orders.find? _ = _ at hw
  unfold MapOrderBook.relevelOrder
  dsimp only
  rw [orderAt_eq_ok.2 hw, ok_bind]
  refine ⟨_, rfl, ⟨rfl, rfl, rfl, rfl⟩, ?_, ?_, ?_, rfl, ?_⟩
  · intro t'
    cases t' <;> rfl
  · intro w' hw'
    cases List.mem_singleton.1 hw'
    change (b.orders.modify _ _).find? _ = _
    rw [SortedMap.find?_modify, if_pos rfl, hw]
    rfl
  · intro i hi
    change (b.orders.modify _ _).find? _ = _
    rw [SortedMap.find?_modify, if_neg (fun h => hi w (List.mem_singleton.2 rfl) h.symm)]
  · intro key
    change ((m.emplace (b.newStopPrice w.order) _).modify _ _).find? _ = _
    rw [SortedMap.find?_modify, SortedMap.find?_emplace, stopPrice_calculateStopPrice]
    have hs : b.stopsAt [w] key =
        if b.newStopPrice w.order = key then [b.calculateStopPrice w.order] else [] := by
      unfold Book.stopsAt
      rw [List.map_singleton, List.filter_cons, List.filter_nil, stopPrice_calculateStopPrice]
      simp only [decide_eq_true_eq]
    dsimp only
    rw [hs]
    by_cases hk : key = b.newStopPrice w.order
    · subst hk
      simp only [↓reduceIte, Option.map_some, List.cons_ne_self]
      rfl
    · have hk' : ¬ b.newStopPrice w.order = key := fun h => hk h.symm
      rw [if_neg hk, if_neg hk, if_neg hk', if_pos rfl]

theorem Moved.cons (h : Moved t [w] s s₁) (h' : Moved t ws s₁ s')
    (hw : ∀ w' ∈ ws, w'.order.id ≠ w.order.id) : Moved t (w :: ws) s s' := by
  have hc (o : Order) : s₁.1.calculateStopPrice o = s.1.calculateStopPrice o :=
    calculateStopPrice_congr h.prices.lastTradedPrice o
  have hm (w : OrderWrapper) : s₁.1.moved t w = s.1.moved t w := by
    unfold Book.moved Book.newStopPrice Book.lastTradedPriceAsk Book.lastTradedPriceBid
    rw [hc, h.prices.lastTradedPrice]
  refine ⟨h.prices.trans h'.prices, fun t' => (h'.levels t').trans (h.levels t'), ?_, ?_, ?_, ?_⟩
  · intro w' hw'
    rcases List.mem_cons.1 hw' with rfl | hw'
    · rw [h'.kept _ hw]
      exact h.moved _ (List.mem_singleton.2 rfl)
    · rw [h'.moved w' hw', hm]
  · intro i hi
    rw [h'.kept i fun w' hw' => hi w' (List.mem_cons_of_mem _ hw')]
    exact h.kept i fun w' hw' => hi w' (by rw [List.mem_singleton.1 hw']; exact List.mem_cons_self)
  · rw [h'.trace, h.trace]
    simp only [hc, List.map_cons, List.map_nil, List.append_assoc, List.cons_append,
      List.nil_append]
  · intro key
    have hs : s₁.1.stopsAt ws key = s.1.stopsAt ws key := by
      simp only [Book.stopsAt, hc]
    have ha : s.1.stopsAt (w :: ws) key = s.1.stopsAt [w] key ++ s.1.stopsAt ws key := by
      rw [Book.stopsAt, ← List.singleton_append, List.map_append, List.filter_append]
      rfl
    rw [h'.newLevels, h.newLevels, hs, ha, h.prices.symbolId]
    cases s.1.stopsAt [w] key with
    | nil => rfl
    | cons o os =>
      cases s.1.stopsAt ws key with
      | nil => rw [List.append_nil]; rfl
      | cons o' os' =>
        simp only [List.cons_append, reduceCtorEq, ↓reduceIte, Option.getD_some, Level.addOrders,
          List.foldl_cons, List.foldl_append]

theorem relevelOrders_moved {s : MapOrderBook × SortedMap UInt64 Level} (ws : List OrderWrapper)
    (hw : ∀ w ∈ ws, s.1.orders.find? w.order.id = some w)
    (hnd : (ws.map (fun w => w.order.id)).Nodup) :
    ∃ s', (ws.map (fun w => w.order.id)).foldlM (MapOrderBook.relevelOrder t) s = .ok s' ∧
      Moved t ws s s' := by
  induction ws generalizing s with
  | nil =>
    refine ⟨s, rfl, .refl _, fun _ => rfl, ?_, fun _ _ => rfl, by simp, fun _ => rfl⟩
    exact fun _ h => nomatch h
  | cons w ws ih =>
    obtain ⟨hn, hnd⟩ := List.nodup_cons.1 hnd
    have hne : ∀ w' ∈ ws, w'.order.id ≠ w.order.id := by
      intro w' hw' he
      exact hn (List.mem_map.2 ⟨w', hw', he⟩)
    obtain ⟨s₁, hs₁, h₁⟩ := relevelOrder_moved (t := t) (hw w List.mem_cons_self)
    obtain ⟨s', hs', h'⟩ := ih (s := s₁) (by
      intro w' hw'
      rw [h₁.kept _ fun w'' h'' => by
        rw [List.mem_singleton.1 h'']
        exact (hne w' hw').symm]
      exact hw w' (List.mem_cons_of_mem _ hw')) hnd
    refine ⟨s', ?_, h₁.cons h' hne⟩
    rw [List.map_cons, List.foldlM_cons, hs₁]
    exact hs'

/-- What re-levelling does to the book when `ws` are the trailing orders of the map `t`, from the
lowest level on and each level from its front. -/
structure Releveled (b : MapOrderBook) (t : LevelMap) (ws : List OrderWrapper)
    (b' : MapOrderBook) : Prop where
  ids : (b.levels t).entries.flatMap (fun e => e.2.orders) = ws.map (fun w => w.order.id)
  prices : SamePrices b.toBook b'.toBook
  moved : ∀ w ∈ ws, b'.orders.find? w.order.id = some (b.moved t w)
  kept : ∀ i, (∀ w ∈ ws, w.order.id ≠ i) → b'.orders.find? i = b.orders.find? i
  trace : b'.trace =
    b.trace ++ ws.map (fun w => .event (.orderUpdated (b.calculateStopPrice w.order)))
  levels : ∀ it, b'.level? it =
    if it.levels = t then
      if b.stopsAt ws it.key = [] then none
      else some ((Level.new it.key t.side b.symbolId).addOrders (b.stopsAt ws it.key))
    else b.level? it

theorem relevel_releveled {b : MapOrderBook} (t : LevelMap) (ws : List OrderWrapper)
    (hids : (b.levels t).entries.flatMap (fun e => e.2.orders) = ws.map (fun w => w.order.id))
    (hw : ∀ w ∈ ws, b.orders.find? w.order.id = some w)
    (hnd : (ws.map (fun w => w.order.id)).Nodup) :
    ∃ b', b.relevel t = .ok b' ∧ Releveled b t ws b' := by
  obtain ⟨⟨b₁, m⟩, hs, hm⟩ := relevelOrders_moved (t := t) (s := (b, .empty)) ws hw hnd
  unfold MapOrderBook.relevel
  dsimp only
  rw [hids, hs, ok_bind]
  refine ⟨_, rfl, hids, hm.prices.trans (.setLevels _ _ _), ?_, ?_, ?_, ?_⟩
  · intro w hw'
    rw [orders_setLevels]
    exact hm.moved w hw'
  · intro i hi
    rw [orders_setLevels]
    exact hm.kept i hi
  · rw [trace_setLevels]
    exact hm.trace
  · intro it
    rw [level?_setLevels]
    split
    · exact hm.newLevels it.key
    · unfold Book.level?
      rw [hm.levels]

/-! ### The update functions -/

/-- The trailing orders which the update function of a side moves. -/
def trailingMap : OrderSide → LevelMap
  | .ask => .trailingStopAsk
  | .bid => .trailingStopBid

/-- Whether the update function of a side moves its trailing orders. -/
def Book.relevels (b : Book) : OrderSide → Bool
  | .ask => b.trailingBidPrice < b.lastTradedPriceBid && !b.trailingStopAskLevels.isEmpty
  | .bid => b.lastTradedPriceAsk < b.trailingAskPrice && !b.trailingStopBidLevels.isEmpty

/-- The last thing an update function does. -/
def MapOrderBook.remember (b : MapOrderBook) : OrderSide → MapOrderBook
  | .ask => { b with trailingBidPrice := b.lastTradedPrice }
  | .bid => { b with trailingAskPrice := b.lastTradedPrice }

theorem updateStopOrders_eq (b : MapOrderBook) (side : OrderSide) :
    b.updateStopOrders side =
      (if b.relevels side then (b.note (.updating side b.toBook)).relevel (trailingMap side)
        else .ok (b.note (.updating side b.toBook))) >>= fun b => .ok (b.remember side) := by
  have hlt (x y : UInt64) : x < y ↔ ¬ y ≤ x := by grind
  cases side with
  | ask =>
    have hc : b.relevels .ask = true ↔ ¬ (b.lastTradedPriceBid ≤ b.trailingBidPrice ∨
        b.trailingStopAskLevels.isEmpty = true) := by
      simp only [Book.relevels, Bool.and_eq_true, decide_eq_true_eq, Bool.not_eq_true', hlt,
        not_or, Bool.not_eq_true]
    change b.updateAskStopOrders = _
    unfold MapOrderBook.updateAskStopOrders
    by_cases hr : b.relevels .ask = true
    · rw [if_pos hr]
      exact if_neg (hc.1 hr)
    · rw [if_neg hr]
      exact if_pos (not_not.1 (fun h => hr (hc.2 h)))
  | bid =>
    have hc : b.relevels .bid = true ↔ ¬ (b.trailingAskPrice ≤ b.lastTradedPriceAsk ∨
        b.trailingStopBidLevels.isEmpty = true) := by
      simp only [Book.relevels, Bool.and_eq_true, decide_eq_true_eq, Bool.not_eq_true', hlt,
        not_or, Bool.not_eq_true]
    change b.updateBidStopOrders = _
    unfold MapOrderBook.updateBidStopOrders
    by_cases hr : b.relevels .bid = true
    · rw [if_pos hr]
      exact if_neg (hc.1 hr)
    · rw [if_neg hr]
      exact if_pos (not_not.1 (fun h => hr (hc.2 h)))

end RapidTrader
