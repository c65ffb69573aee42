import RapidTrader.Matching
import RapidTrader.Untouched

namespace RapidTrader
open Lib
set_option autoImplicit true

/-- An order that neither trades nor is triggered when it is submitted: a GTC limit order whose
price no level crosses, or a stop order whose condition does not hold. -/
inductive Passive (b : Book) (o : Order) : Prop
  | limit : o.type = .limit → o.timeInForce = .gtc →
      (∀ key l, b.level? ⟨Book.oppositeMap o.side, key⟩ = some l →
        Book.crosses o.side key o.price = false) → Passive b o
  | stop : o.type = .stop ∨ o.type = .stopLimit → b.stopTriggered o = false → Passive b o
  | trailing : o.IsTrailing → b.stopTriggered (b.calculateStopPrice o) = false → Passive b o

theorem canTrade_of_crosses {b : Book}
    (h : ∀ key l, b.level? ⟨Book.oppositeMap o.side, key⟩ = some l →
      Book.crosses o.side key o.price = false) : b.canTrade o = false := by
  unfold Book.canTrade
  split
  · rename_i key l hb
    rw [h key l (bestOpposite_eq_some hb).1]
    rfl
  · rfl

/-- A GTC order that cannot trade leaves `match` as it came. -/
theorem matchOrder_skip {b : MapOrderBook} (hg : o.timeInForce = .gtc)
    (hc : b.canTrade o = false) (hn : 0 < fuel) :
    b.matchOrder fuel o = .ok (b.note (.matching o b.toBook), o) := by
  obtain ⟨n, rfl⟩ := Nat.exists_eq_add_of_lt hn
  have hf : o.isFok = false := by rw [Order.isFok, hg]; rfl
  rw [matchOrder_not_fok hf]
  exact whileLoop_exit (s := (b.note (.matching o b.toBook), o)) hc _

/-- What a passive order does is to come to rest, with its stop price set if it trails. -/
theorem Passive.submitOrder {b : MapOrderBook} (hp : Passive b.toBook o)
    (hn : b.orders.find? o.id = none) (ho : o.openQuantity ≠ 0) (hf : 0 < fuel) :
    ∃ b₀ b₁ it o', b.submitOrder fuel o = .ok b₁ ∧ b₀.toBook = b.toBook ∧ o'.id = o.id ∧
      o'.home? = some it ∧ Inserted b₀ it o' b₁ ∧
      (o'.IsStopType → b.stopTriggered o' = false) := by
  cases hp with
  | limit ht hg hc =>
    have hm : (b.emit (.orderAdded o)).matchOrder fuel o = _ :=
      matchOrder_skip hg (canTrade_of_crosses hc) hf
    have hrest : (!o.isFilled && !o.isIoc && !o.isFok) = true := by
      simp [Order.isFilled, Order.isIoc, Order.isFok, hg, ho]
    obtain ⟨it, hh, hi⟩ := insertLimitOrder_inserted
      (b := (b.emit (.orderAdded o)).note (.matching o b.toBook)) ht hn
    refine ⟨(b.emit (.orderAdded o)).note (.matching o b.toBook), _, it, o, ?_, rfl, rfl, hh, hi,
      fun hs => ?_⟩
    · unfold MapOrderBook.submitOrder
      rw [ht]
      dsimp only
      unfold MapOrderBook.addLimitOrder
      rw [hm, ok_bind]
      exact if_pos hrest
    · rcases hs with hs | hs | hs | hs <;> rw [ht] at hs <;> cases hs
  | stop ht htr =>
    obtain ⟨it, hh, hi⟩ := insertStopOrder_inserted (b := b.emit (.orderAdded o)) ht hn
    refine ⟨b.emit (.orderAdded o), _, it, o, ?_, rfl, rfl, hh, hi, fun _ => htr⟩
    have hntr : (o.isTrailingStop || o.isTrailingStopLimit) = false := by
      rcases ht with ht | ht <;> simp [Order.isTrailingStop, Order.isTrailingStopLimit, ht]
    have hadd : (b.emit (.orderAdded o)).addStopOrder fuel o =
        .ok ((b.emit (.orderAdded o)).insertStopOrder o) := by
      unfold MapOrderBook.addStopOrder
      rw [hntr]
      dsimp only
      rw [if_neg Bool.false_ne_true, toBook_emit, htr, if_neg Bool.false_ne_true]
      exact if_neg (ne_true_of_eq_false hntr)
    unfold MapOrderBook.submitOrder
    rcases ht with ht | ht <;> rw [ht] <;> exact hadd
  | trailing ht htr =>
    obtain ⟨it, hh, hi⟩ := insertTrailingStopOrder_inserted (b := b.emit (.orderAdded o))
      (o := b.calculateStopPrice o) ht hn
    refine ⟨b.emit (.orderAdded o), _, it, b.calculateStopPrice o, ?_, rfl, rfl, hh, hi,
      fun _ => htr⟩
    have htt : (o.isTrailingStop || o.isTrailingStopLimit) = true := by
      rcases ht with ht | ht <;> simp [Order.isTrailingStop, Order.isTrailingStopLimit, ht]
    have htt' : ((b.calculateStopPrice o).isTrailingStop ||
        (b.calculateStopPrice o).isTrailingStopLimit) = true := htt
    have hadd : (b.emit (.orderAdded o)).addStopOrder fuel o =
        .ok ((b.emit (.orderAdded o)).insertTrailingStopOrder (b.calculateStopPrice o)) := by
      unfold MapOrderBook.addStopOrder
      rw [htt]
      dsimp only
      rw [if_pos rfl, toBook_emit, htr, if_neg Bool.false_ne_true]
      exact if_pos htt'
    unfold MapOrderBook.submitOrder
    rcases ht with ht | ht <;> rw [ht] <;> exact hadd

/-- Deleting takes the last order of a level off again as adding has put it there. -/
theorem deleteOrder_addOrder {l : Level} (h : o.id ∉ l.orders) :
    (l.addOrder o).deleteOrder o = l := by
  have ho : (l.orders ++ [o.id]).erase o.id = l.orders := by
    rw [List.erase_append_right _ h, List.erase_cons_head, List.append_nil]
  have hv : l.volume + o.openQuantity - o.openQuantity = l.volume := by grind
  unfold Level.addOrder Level.deleteOrder
  dsimp only
  rw [ho, hv]

/-- Deleting an order just inserted undoes the insertion. -/
theorem Inserted.undone {b b₁ c c' : MapOrderBook} (h : Linked b.toBook)
    (hn : b.orders.find? o.id = none) (hh : o.home? = some it) (hi : Inserted b it o b₁)
    (ho : c.orders = b₁.orders) (hl : ∀ it, c.level? it = b₁.level? it)
    (hd : Deleted c o.id w l n c') :
    c'.orders = b.orders ∧ ∀ it', c'.level? it' = b.level? it' := by
  have hw : w = ⟨o, it⟩ := by
    have := hd.order
    rw [ho, hi.find?_orders, if_pos rfl] at this
    exact (Option.some.inj this).symm
  subst hw
  have hl' : l = ((b.level? it).getD (.new it.key it.levels.side b.symbolId)).addOrder o := by
    have hld := hd.held
    rw [hl, hi.levels, if_pos rfl] at hld
    exact (Option.some.inj hld).symm
  subst hl'
  constructor
  · apply SortedMap.ext_find?
    intro k
    rw [hd.find?_orders, ho, hi.find?_orders]
    split
    · rename_i hk
      rw [hk, hn]
    · rfl
  · intro it'
    rw [hd.levels hh, hl, hi.levels]
    split
    · rename_i hit
      rw [hit]
      cases hlev : b.level? it with
      | none =>
        have hnew : o.id ∉ (Level.new it.key it.levels.side b.symbolId).orders := List.not_mem_nil
        rw [Option.getD_none, deleteOrder_addOrder hnew]
        rfl
      | some l =>
        have hold : o.id ∉ l.orders := by
          intro hmem
          obtain ⟨w, hw, _⟩ := h.owned hlev hmem
          rw [hn] at hw
          cases hw
        rw [Option.getD_some, deleteOrder_addOrder hold, if_neg]
        simpa [Level.empty] using (h.sound hlev).nonempty
    · rfl

theorem levels_eq_of_level? {b b' : Book} (h : ∀ it, b'.level? it = b.level? it) (t : LevelMap) :
    b'.levels t = b.levels t :=
  SortedMap.ext_find? fun key => h ⟨t, key⟩

/-- Adding a passive order and deleting it again returns, and restores the six maps of levels, the
orders and the last price. -/
theorem add_delete_restores (h : Reachable Op.Legal symbolId b) (ho : o.FactoryBuilt)
    (hn : b.orders.find? o.id = none) (hp : Passive b.toBook o) (hf : 2 ≤ fuel) :
    ∃ b₁ b₂, b.addOrder fuel o = .ok b₁ ∧ b₁.deleteOrder fuel o.id = .ok b₂ ∧
      (∀ t, b₂.levels t = b.levels t) ∧ b₂.orders = b.orders ∧
      b₂.lastTradedPrice = b.lastTradedPrice := by
  have hr := h.atRest
  obtain ⟨b₀, b₁, it, o', hs, hb₀, hid, hh, hi, hst⟩ :=
    hp.submitOrder hn ho.wellFormed.open_ne (show 0 < fuel by omega)
  rw [← hb₀] at hr hst
  have hn' : b₀.orders.find? o'.id = none := by rw [hb₀, hid, hn]
  have hr₁ : AtRest b₁.toBook := hr.inserted hn' hh hi hst
  have hr₂ := hr₁.idled
  have hw : b₁.idled.orders.find? o.id = some ⟨o', it⟩ := by
    rw [orders_idled, hi.find?_orders, if_pos hid.symm]
  obtain ⟨l, hl, _⟩ := hr₂.linked.held hw
  obtain ⟨c, hc⟩ := deleteOrderWith_ok hw hl hh true
  obtain ⟨w', l', hd⟩ := deleteOrderWith_deleted hc
  refine ⟨b₁.idled, c.idled, ?_, ?_, ?_⟩
  · unfold MapOrderBook.addOrder
    rw [hs, ok_bind, hr₁.idle.activateStopOrders hf]
  · unfold MapOrderBook.deleteOrder
    rw [hc, ok_bind, (hr₂.deleted hd).idle.activateStopOrders hf]
  · rw [← hid] at hd
    obtain ⟨hord, hlev⟩ := hi.undone hr.linked hn' hh (orders_idled b₁) (level?_idled b₁) hd
    refine ⟨levels_eq_of_level? fun it' => ?_, ?_, ?_⟩
    · rw [level?_idled, hlev, hb₀]
    · rw [orders_idled, hord, hb₀]
    · exact (hd.prices.lastTradedPrice.trans hi.prices.lastTradedPrice).trans
        (congrArg Book.lastTradedPrice hb₀)

/-- One more trailing stop order with the trail amount of the one that rests. -/
def passiveOrder : Order := .new .trailingStop .ask .ioc 1 0 0 10 3 6

/-- It joins the level of the other one and leaves it. -/
theorem add_delete_restores_mixedOps : ∃ b b₁ b₂, (MapOrderBook.new 1).run 20 mixedOps = .ok b ∧
    b.addOrder 20 passiveOrder = .ok b₁ ∧ b₁.deleteOrder 20 passiveOrder.id = .ok b₂ ∧
    (∀ t, b₂.levels t = b.levels t) ∧ b₂.orders = b.orders ∧
    b₂.lastTradedPrice = b.lastTradedPrice := by
  obtain ⟨b, hb, hr, hf⟩ := exists_reachable_of_run Op.Legal 1 20 mixedOps (by decide +kernel)
    (f := fun b => some (b.orders.find? passiveOrder.id,
      b.stopTriggered (b.calculateStopPrice passiveOrder)))
    (o := (none, false)) (by decide +kernel)
  obtain ⟨hn, htr⟩ := Prod.ext_iff.1 (Option.some.inj hf)
  obtain ⟨b₁, b₂, hb₁, hb₂, hrest⟩ := add_delete_restores hr (o := passiveOrder) (by decide) hn
    (.trailing (.inl rfl) htr) (show 2 ≤ 20 by decide)
  exact ⟨b, b₁, b₂, hb, hb₁, hb₂, hrest⟩

end RapidTrader
