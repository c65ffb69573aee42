import RapidTrader.Effects

namespace RapidTrader
open Lib
set_option autoImplicit true

/-- What holds of a level in its place. -/
structure Level.Sound (symbolId : UInt32) (it : LevelIt) (l : Level) : Prop where
  nodup : l.orders.Nodup
  nonempty : l.orders ≠ []
  price : l.price = it.key
  side : l.side = it.levels.side
  symbolId : l.symbolId = symbolId

/-- The links between the orders and the levels: every order is in the list of exactly one level,
its iterator points there, and the level is where an order of its terms has to rest. -/
structure Linked (b : Book) : Prop where
  id : b.orders.find? i = some w → w.order.id = i
  home : b.orders.find? i = some w → w.order.home? = some w.levelIt
  held : b.orders.find? i = some w → ∃ l, b.level? w.levelIt = some l ∧ i ∈ l.orders
  owned : b.level? it = some l → i ∈ l.orders → ∃ w, b.orders.find? i = some w ∧ w.levelIt = it
  sound : b.level? it = some l → l.Sound b.symbolId it

theorem exists_map_eq {f : β → α} {P : β → Prop} {xs : List α}
    (h : ∀ x ∈ xs, ∃ y, f y = x ∧ P y) : ∃ ys : List β, xs = ys.map f ∧ ∀ y ∈ ys, P y := by
  induction xs with
  | nil => exact ⟨[], rfl, fun _ h => nomatch h⟩
  | cons x xs ih =>
    obtain ⟨y, hy, hp⟩ := h x List.mem_cons_self
    obtain ⟨ys, hys, hps⟩ := ih fun x hx => h x (List.mem_cons_of_mem _ hx)
    refine ⟨y :: ys, by rw [List.map_cons, hy, hys], ?_⟩
    exact List.forall_mem_cons.2 ⟨hp, hps⟩

namespace Linked

theorem new (symbolId : UInt32) : Linked (MapOrderBook.new symbolId).toBook := by
  have ho (i : UInt64) : (MapOrderBook.new symbolId).orders.find? i = none := rfl
  have hl (it : LevelIt) : (MapOrderBook.new symbolId).level? it = none := by
    obtain ⟨t, key⟩ := it
    cases t <;> rfl
  constructor <;> intros <;> simp_all

/-- An order leaves the book, and its level too when it was the last one there. -/
theorem remove (h : Linked b) (hw : b.orders.find? i = some w) (hl : b.level? w.levelIt = some l)
    (ho : b'.orders = b.orders.erase i) (hs : b'.symbolId = b.symbolId)
    (hlev : ∀ it, b'.level? it =
      if it = w.levelIt then if l'.empty then none else some l' else b.level? it)
    (hlo : l'.orders = l.orders.erase i) (hlp : l'.price = l.price) (hls : l'.side = l.side)
    (hly : l'.symbolId = l.symbolId) : Linked b' := by
  have horder : ∀ {k w'}, b'.orders.find? k = some w' → k ≠ i ∧ b.orders.find? k = some w' := by
    intro k w' hk
    rw [ho, SortedMap.find?_erase] at hk
    split at hk
    · cases hk
    · exact ⟨‹_›, hk⟩
  have hlevel : ∀ {it l₁}, b'.level? it = some l₁ →
      (it = w.levelIt ∧ l₁ = l' ∧ l'.orders ≠ []) ∨ (it ≠ w.levelIt ∧ b.level? it = some l₁) := by
    intro it l₁ hit
    rw [hlev] at hit
    split at hit
    · split at hit
      · cases hit
      · rename_i he
        cases hit
        refine .inl ⟨‹_›, rfl, ?_⟩
        simpa [Level.empty] using he
    · exact .inr ⟨‹_›, hit⟩
  have hl₀ := h.sound hl
  refine ⟨?_, ?_, ?_, ?_, ?_⟩
  · exact fun hk => h.id (horder hk).2
  · exact fun hk => h.home (horder hk).2
  · intro k w' hk
    obtain ⟨hne, hk⟩ := horder hk
    obtain ⟨l₁, hl₁, hmem⟩ := h.held hk
    by_cases hit : w'.levelIt = w.levelIt
    · rw [hit, hl] at hl₁
      cases hl₁
      have hmem' : k ∈ l'.orders := by
        rw [hlo]
        exact (List.mem_erase_of_ne hne).2 hmem
      refine ⟨l', ?_, hmem'⟩
      rw [hlev, if_pos hit, if_neg]
      simpa [Level.empty] using List.ne_nil_of_mem hmem'
    · exact ⟨l₁, by rw [hlev, if_neg hit, hl₁], hmem⟩
  · intro it l₁ k hit hmem
    have hfind : ∀ {w'}, k ≠ i → b.orders.find? k = some w' → b'.orders.find? k = some w' := by
      intro w' hne hk
      rw [ho, SortedMap.find?_erase, if_neg hne, hk]
    rcases hlevel hit with ⟨rfl, rfl, _⟩ | ⟨hne, hit⟩
    · rw [hlo] at hmem
      obtain ⟨w', hk, hw'⟩ := h.owned hl (List.mem_of_mem_erase hmem)
      exact ⟨w', hfind (fun he => hl₀.nodup.not_mem_erase (he ▸ hmem)) hk, hw'⟩
    · obtain ⟨w', hk, hw'⟩ := h.owned hit hmem
      refine ⟨w', hfind (fun he => ?_) hk, hw'⟩
      subst he
      rw [hw] at hk
      cases hk
      exact hne hw'.symm
  · intro it l₁ hit
    rw [hs]
    rcases hlevel hit with ⟨rfl, rfl, hne⟩ | ⟨_, hit⟩
    · exact ⟨hlo ▸ hl₀.nodup.erase i, hne, hlp.trans hl₀.price, hls.trans hl₀.side,
        hly.trans hl₀.symbolId⟩
    · exact h.sound hit

/-- An order is written back with the same terms, and its level keeps its list. -/
theorem rewrite (h : Linked b) (hw : b.orders.find? i = some w) (hl : b.level? w.levelIt = some l)
    (ht : w.order.SameTerms o) (ho : b'.orders = b.orders.insert i { w with order := o })
    (hs : b'.symbolId = b.symbolId)
    (hlev : ∀ it, b'.level? it = if it = w.levelIt then some l' else b.level? it)
    (hlo : l'.orders = l.orders) (hlp : l'.price = l.price) (hls : l'.side = l.side)
    (hly : l'.symbolId = l.symbolId) : Linked b' := by
  have horder : ∀ {k w'}, b'.orders.find? k = some w' →
      ∃ w₀, b.orders.find? k = some w₀ ∧ w₀.order.SameTerms w'.order ∧ w'.levelIt = w₀.levelIt := by
    intro k w' hk
    rw [ho, SortedMap.find?_insert] at hk
    split at hk
    · rename_i he
      cases hk
      exact ⟨w, he ▸ hw, ht, rfl⟩
    · exact ⟨w', hk, .refl _, rfl⟩
  have hl₀ := h.sound hl
  refine ⟨?_, ?_, ?_, ?_, ?_⟩
  · intro k w' hk
    obtain ⟨w₀, hk, hst, _⟩ := horder hk
    exact hst.id.trans (h.id hk)
  · intro k w' hk
    obtain ⟨w₀, hk, hst, hit⟩ := horder hk
    rw [hst.home?, hit]
    exact h.home hk
  · intro k w' hk
    obtain ⟨w₀, hk, _, hit⟩ := horder hk
    obtain ⟨l₁, hl₁, hmem⟩ := h.held hk
    rw [hlev, hit]
    split
    · rename_i he
      rw [he, hl] at hl₁
      cases hl₁
      exact ⟨l', rfl, hlo ▸ hmem⟩
    · exact ⟨l₁, hl₁, hmem⟩
  · intro it l₁ k hit hmem
    have hmem' : ∃ w', b.orders.find? k = some w' ∧ w'.levelIt = it := by
      rw [hlev] at hit
      split at hit
      · rename_i he
        cases hit
        rw [hlo] at hmem
        exact he ▸ h.owned hl hmem
      · exact h.owned hit hmem
    obtain ⟨w', hk, hw'⟩ := hmem'
    rw [ho, SortedMap.find?_insert]
    split
    · rename_i he
      subst he
      rw [hw] at hk
      cases hk
      exact ⟨_, rfl, hw'⟩
    · exact ⟨w', hk, hw'⟩
  · intro it l₁ hit
    rw [hs]
    rw [hlev] at hit
    split at hit
    · rename_i he
      cases hit
      rw [he]
      exact ⟨hlo ▸ hl₀.nodup, hlo ▸ hl₀.nonempty, hlp.trans hl₀.price, hls.trans hl₀.side,
        hly.trans hl₀.symbolId⟩
    · exact h.sound hit

theorem deleted (h : Linked b.toBook) (hd : Deleted b i w l n b') : Linked b'.toBook :=
  h.remove hd.order hd.held hd.orders hd.prices.symbolId (hd.levels (h.home hd.order))
    (by rw [Level.deleteOrder, h.id hd.order]) rfl rfl rfl

theorem changed (h : Linked b.toBook) (ht : w.order.SameTerms o)
    (hc : Changed b i w l o amount price notes b') : Linked b'.toBook := by
  have hlev := hc.levels (ht.home?.trans (h.home hc.order))
  have ho := hc.orders
  by_cases hf : o.isFilled = true
  · simp only [hf, ↓reduceIte] at hlev ho
    refine h.remove hc.order hc.held ho hc.symbolId hlev ?_ rfl rfl rfl
    rw [Level.deleteOrder, ht.id, h.id hc.order]
    rfl
  · simp only [hf, Bool.false_eq_true, ↓reduceIte] at hlev ho
    exact h.rewrite hc.order hc.held ht ho hc.symbolId hlev rfl rfl rfl rfl

theorem inserted (h : Linked b.toBook) (hn : b.orders.find? o.id = none)
    (hh : o.home? = some it) (hi : Inserted b it o b') : Linked b'.toBook := by
  have horder : ∀ {k w}, b'.orders.find? k = some w →
      (k = o.id ∧ w = ⟨o, it⟩) ∨ (k ≠ o.id ∧ b.orders.find? k = some w) := by
    intro k w hk
    rw [hi.orders, SortedMap.find?_insert] at hk
    split at hk
    · cases hk
      exact .inl ⟨‹_›, rfl⟩
    · exact .inr ⟨‹_›, hk⟩
  have hkeep : ∀ {k w}, b.orders.find? k = some w → b'.orders.find? k = some w := by
    intro k w hk
    rw [hi.orders, SortedMap.find?_insert, if_neg, hk]
    intro he
    rw [he, hn] at hk
    cases hk
  -- the list the order joins
  have hlist : ∃ os, (∀ k ∈ os, ∃ w, b.orders.find? k = some w ∧ w.levelIt = it) ∧ os.Nodup ∧
      (∀ l, b.level? it = some l → l.orders = os) ∧
      ((b.level? it).getD (.new it.key it.levels.side b.symbolId)).orders = os := by
    cases hl : b.level? it with
    | none => exact ⟨[], fun _ h => absurd h List.not_mem_nil, .nil, by simp, rfl⟩
    | some l =>
      refine ⟨l.orders, fun k hk => h.owned hl hk, (h.sound hl).nodup, ?_, rfl⟩
      intro l' hl'
      cases hl'
      rfl
  obtain ⟨os, hos, hnd, hlos, hget⟩ := hlist
  have hfresh : o.id ∉ os := by
    intro hmem
    obtain ⟨w, hw, _⟩ := hos _ hmem
    rw [hn] at hw
    cases hw
  have hnew : b'.level? it =
      some (((b.level? it).getD (.new it.key it.levels.side b.symbolId)).addOrder o) := by
    rw [hi.levels, if_pos rfl]
  refine ⟨?_, ?_, ?_, ?_, ?_⟩
  · intro k w hk
    rcases horder hk with ⟨rfl, rfl⟩ | ⟨_, hk⟩
    · rfl
    · exact h.id hk
  · intro k w hk
    rcases horder hk with ⟨rfl, rfl⟩ | ⟨_, hk⟩
    · exact hh
    · exact h.home hk
  · intro k w hk
    rcases horder hk with ⟨rfl, rfl⟩ | ⟨_, hk⟩
    · exact ⟨_, hnew, by simp [Level.addOrder]⟩
    · obtain ⟨l, hl, hmem⟩ := h.held hk
      by_cases he : w.levelIt = it
      · rw [he] at hl ⊢
        refine ⟨_, hnew, ?_⟩
        rw [Level.addOrder, hget, ← hlos l hl]
        exact List.mem_append_left _ hmem
      · exact ⟨l, by rw [hi.levels, if_neg he, hl], hmem⟩
  · intro it' l k hit hmem
    rw [hi.levels] at hit
    split at hit
    · rename_i he
      cases hit
      rw [Level.addOrder, hget] at hmem
      rcases List.mem_append.1 hmem with hmem | hmem
      · obtain ⟨w, hw, hwit⟩ := hos k hmem
        exact ⟨w, hkeep hw, hwit.trans he.symm⟩
      · rw [List.mem_singleton.1 hmem, hi.orders]
        exact ⟨⟨o, it⟩, by rw [SortedMap.find?_insert, if_pos rfl], he.symm⟩
    · obtain ⟨w, hw, hwit⟩ := h.owned hit hmem
      exact ⟨w, hkeep hw, hwit⟩
  · intro it' l hit
    rw [hi.prices.symbolId]
    rw [hi.levels] at hit
    split at hit
    · rename_i he
      cases hit
      rw [he]
      have hrest : ((b.level? it).getD (.new it.key it.levels.side b.symbolId)).price = it.key ∧
          ((b.level? it).getD (.new it.key it.levels.side b.symbolId)).side = it.levels.side ∧
          ((b.level? it).getD (.new it.key it.levels.side b.symbolId)).symbolId = b.symbolId := by
        cases hl : b.level? it with
        | none => exact ⟨rfl, rfl, rfl⟩
        | some l => exact ⟨(h.sound hl).price, (h.sound hl).side, (h.sound hl).symbolId⟩
      refine ⟨?_, by simp [Level.addOrder], hrest.1, hrest.2.1, hrest.2.2⟩
      rw [Level.addOrder, hget]
      exact List.nodup_append.2 ⟨hnd, List.nodup_singleton _, fun x hx y hy he => hfresh (by
        rw [← List.mem_singleton.1 hy, ← he]
        exact hx)⟩
    · exact h.sound hit

/-- The orders of a map of levels, from the lowest level on and each level from its front. -/
theorem orders_of_map (h : Linked b) (t : LevelMap) : ∃ ws : List OrderWrapper,
    (b.levels t).entries.flatMap (fun e => e.2.orders) = ws.map (fun w => w.order.id) ∧
      (ws.map (fun w => w.order.id)).Nodup ∧
      (∀ w, w ∈ ws ↔ b.orders.find? w.order.id = some w ∧ w.levelIt.levels = t) := by
  have hmem (i : UInt64) : i ∈ (b.levels t).entries.flatMap (fun e => e.2.orders) ↔
      ∃ w, b.orders.find? i = some w ∧ w.levelIt.levels = t := by
    rw [List.mem_flatMap]
    constructor
    · rintro ⟨⟨key, l⟩, he, hi⟩
      obtain ⟨w, hw, hit⟩ := h.owned (level?_of_mem he) hi
      exact ⟨w, hw, by rw [hit]⟩
    · rintro ⟨w, hw, rfl⟩
      obtain ⟨l, hl, hi⟩ := h.held hw
      exact ⟨(w.levelIt.key, l), SortedMap.find?_eq_some.1 hl, hi⟩
  have hnd : ((b.levels t).entries.flatMap (fun e => e.2.orders)).Nodup := by
    refine List.nodup_flatMap.2 ⟨?_, ?_⟩
    · rintro ⟨key, l⟩ he
      exact (h.sound (level?_of_mem he)).nodup
    · refine (b.levels t).nodup_entries.imp_of_mem ?_
      rintro ⟨key, l⟩ ⟨key', l'⟩ he he' hne i hi hi'
      obtain ⟨w, hw, hit⟩ := h.owned (level?_of_mem he) hi
      obtain ⟨w', hw', hit'⟩ := h.owned (level?_of_mem he') hi'
      rw [hw] at hw'
      cases hw'
      rw [hit] at hit'
      cases hit'
      exact hne (congrArg _ (SortedMap.mem_unique he he'))
  obtain ⟨ws, hws, hall⟩ := exists_map_eq (f := fun w : OrderWrapper => w.order.id)
    (P := fun w => b.orders.find? w.order.id = some w ∧ w.levelIt.levels = t)
    (fun i hi => by
      obtain ⟨w, hw, ht⟩ := (hmem i).1 hi
      exact ⟨w, h.id hw, by rw [h.id hw]; exact hw, ht⟩)
  refine ⟨ws, hws, hws ▸ hnd, fun w => ⟨hall w, fun hw => ?_⟩⟩
  have hi := (hmem w.order.id).2 ⟨w, hw⟩
  rw [hws] at hi
  obtain ⟨w', hw', he⟩ := List.mem_map.1 hi
  have := (hall w' hw').1
  rw [he, hw.1] at this
  cases this
  exact hw'

end Linked

/-- The maps whose levels are moved. -/
def LevelMap.IsTrailing (t : LevelMap) : Prop := t = .trailingStopAsk ∨ t = .trailingStopBid

theorem LevelMap.IsTrailing.isStop {t : LevelMap} (h : t.IsTrailing) : t.IsStop := by
  rcases h with rfl | rfl <;> exact ⟨nofun, nofun⟩

theorem Order.isStopType_of_home? {o : Order} (hh : o.home? = some it) (ht : it.levels.IsStop) :
    o.IsStopType := by
  have hm := Order.levelMap?_eq_some.1 (Order.home?_levelMap? hh)
  unfold Order.IsStopType
  cases hl : it.levels <;> rw [hl] at hm
  · exact absurd hl ht.1
  · exact absurd hl ht.2
  all_goals grind

theorem Order.isStop_of_home? {o : Order} (hh : o.home? = some it) (ho : o.IsStopType) :
    it.levels.IsStop := by
  have hm := Order.levelMap?_eq_some.1 (Order.home?_levelMap? hh)
  have hne : o.type ≠ .limit := by
    rcases ho with h | h | h | h <;> simp [h]
  constructor <;> intro hl <;> rw [hl] at hm <;> exact hne hm.1

theorem Order.isTrailing_of_home? {o : Order} (hh : o.home? = some it)
    (ht : it.levels.IsTrailing) : o.IsTrailing := by
  have hm := Order.levelMap?_eq_some.1 (Order.home?_levelMap? hh)
  rcases ht with ht | ht <;> rw [ht] at hm <;> exact hm.1

theorem Order.home?_calculateStopPrice {b : Book} {o : Order} (hh : o.home? = some it)
    (ht : it.levels.IsTrailing) :
    (b.calculateStopPrice o).home? = some ⟨it.levels, b.newStopPrice o⟩ := by
  have hm : o.levelMap? = some it.levels := Order.home?_levelMap? hh
  change (b.calculateStopPrice o).levelMap? = _ at hm
  have hl : (b.calculateStopPrice o).isLimit = false := by
    rcases Order.isTrailing_of_home? hh ht with h | h <;>
      simp [Order.isLimit, Book.calculateStopPrice, Order.setStopPrice, h]
  rw [Order.home?, hm, Option.map_some, hl, if_neg Bool.false_ne_true,
    stopPrice_calculateStopPrice]

namespace Releveled

/-- The entries after re-levelling are the old ones, those of the trailing orders moved. -/
theorem find?_orders (h : Linked b.toBook) (hr : Releveled b t ws b')
    (hws : ∀ w, w ∈ ws ↔ b.orders.find? w.order.id = some w ∧ w.levelIt.levels = t) (i : UInt64) :
    b'.orders.find? i = (b.orders.find? i).map
      (fun w => if w.levelIt.levels = t then b.moved t w else w) := by
  cases hw : b.orders.find? i with
  | none =>
    rw [hr.kept i, hw]
    · rfl
    · intro w hmem he
      have := ((hws w).1 hmem).1
      rw [he, hw] at this
      cases this
  | some w =>
    have hid := h.id hw
    rw [Option.map_some]
    split
    · rename_i ht
      rw [← hid, hr.moved w ((hws w).2 ⟨by rw [hid]; exact hw, ht⟩)]
    · rename_i ht
      rw [hr.kept i, hw]
      intro w' hmem he
      obtain ⟨hw', ht'⟩ := (hws w').1 hmem
      rw [he, hw] at hw'
      cases hw'
      exact ht ht'

theorem linked (h : Linked b.toBook) (hr : Releveled b t ws b') (ht : t.IsTrailing)
    (hws : ∀ w, w ∈ ws ↔ b.orders.find? w.order.id = some w ∧ w.levelIt.levels = t)
    (hnd : (ws.map (fun w => w.order.id)).Nodup) : Linked b'.toBook := by
  have horder : ∀ {i w'}, b'.orders.find? i = some w' → ∃ w, b.orders.find? i = some w ∧
      w' = if w.levelIt.levels = t then b.moved t w else w := by
    intro i w' hi
    rw [hr.find?_orders h hws] at hi
    obtain ⟨w, hw, he⟩ := Option.map_eq_some_iff.1 hi
    exact ⟨w, hw, he.symm⟩
  have hmem (key i : UInt64) : i ∈ (b.stopsAt ws key).map Order.id ↔
      ∃ w, b.orders.find? i = some w ∧ w.levelIt.levels = t ∧ b.newStopPrice w.order = key := by
    simp only [Book.stopsAt, List.mem_map, List.mem_filter, decide_eq_true_eq]
    constructor
    · rintro ⟨_, ⟨⟨w, hw, rfl⟩, hkey⟩, rfl⟩
      exact ⟨w, ((hws w).1 hw).1, ((hws w).1 hw).2, hkey⟩
    · rintro ⟨w, hw, hwt, hkey⟩
      have hid := h.id hw
      exact ⟨_, ⟨⟨w, (hws w).2 ⟨by rw [hid]; exact hw, hwt⟩, rfl⟩, hkey⟩, hid⟩
  refine ⟨?_, ?_, ?_, ?_, ?_⟩
  · intro i w' hi
    obtain ⟨w, hw, rfl⟩ := horder hi
    split
    · change w.order.id = i
      exact h.id hw
    · exact h.id hw
  · intro i w' hi
    obtain ⟨w, hw, rfl⟩ := horder hi
    have hh := h.home hw
    split
    · rename_i hwt
      rw [order_moved, levelIt_moved, Order.home?_calculateStopPrice hh (hwt ▸ ht), hwt]
    · exact hh
  · intro i w' hi
    obtain ⟨w, hw, rfl⟩ := horder hi
    split
    · rename_i hwt
      have hin := (hmem (b.newStopPrice w.order) i).2 ⟨w, hw, hwt, rfl⟩
      rw [levelIt_moved]
      generalize b.newStopPrice w.order = key at hin ⊢
      have hlev := hr.levels ⟨t, key⟩
      rw [if_pos rfl, if_neg (fun he => by rw [he] at hin; cases hin)] at hlev
      refine ⟨_, hlev, ?_⟩
      rw [Level.orders_addOrders]
      exact hin
    · rename_i hwt
      obtain ⟨l, hl, hi⟩ := h.held hw
      exact ⟨l, by rw [hr.levels, if_neg hwt, hl], hi⟩
  · intro it l i hl hi
    rw [hr.levels] at hl
    split at hl
    · rename_i hit
      split at hl
      · cases hl
      · cases hl
        rw [Level.orders_addOrders] at hi
        obtain ⟨w, hw, hwt, hkey⟩ := (hmem it.key i).1 hi
        refine ⟨b.moved t w, ?_, ?_⟩
        · rw [hr.find?_orders h hws, hw, Option.map_some, if_pos hwt]
        · obtain ⟨t', key⟩ := it
          dsimp only at hit hkey
          rw [Book.moved, hkey, hit]
    · rename_i hit
      obtain ⟨w, hw, hwit⟩ := h.owned hl hi
      refine ⟨w, ?_, hwit⟩
      rw [hr.find?_orders h hws, hw, Option.map_some, if_neg]
      rw [hwit]
      exact hit
  · intro it l hl
    rw [hr.prices.symbolId]
    rw [hr.levels] at hl
    split at hl
    · rename_i hit
      split at hl
      · cases hl
      · rename_i hne
        cases hl
        obtain ⟨hp, hs, hy⟩ := Level.fields_addOrders (Level.new it.key t.side b.symbolId)
          (b.stopsAt ws it.key)
        refine ⟨?_, ?_, hp, by rw [hit]; exact hs, hy⟩
        · rw [Level.orders_addOrders]
          refine List.Nodup.sublist ?_ hnd
          have := (List.filter_sublist (p := fun o : Order => o.stopPrice = it.key)
            (l := ws.map (fun w => b.calculateStopPrice w.order))).map Order.id
          rw [List.map_map] at this
          exact this
        · rw [Level.orders_addOrders]
          simpa [Level.new] using hne
    · exact h.sound hl

end Releveled

theorem isTrailing_trailingMap (side : OrderSide) : (trailingMap side).IsTrailing := by
  cases side with
  | ask => exact .inl rfl
  | bid => exact .inr rfl

/-- What an update function does before it remembers the last price. -/
structure Updated (b : MapOrderBook) (side : OrderSide) (b' : MapOrderBook) : Prop where
  linked : Linked b'.toBook
  prices : SamePrices b.toBook b'.toBook
  skipped : b.relevels side = false → b' = b.note (.updating side b.toBook)
  moved : b.relevels side = true → ∃ ws,
    (∀ w, w ∈ ws ↔ b.orders.find? w.order.id = some w ∧ w.levelIt.levels = trailingMap side) ∧
    Releveled (b.note (.updating side b.toBook)) (trailingMap side) ws b'
  orders : ∀ i, b'.orders.find? i = (b.orders.find? i).map (fun w =>
    if b.relevels side = true ∧ w.levelIt.levels = trailingMap side then
      b.moved (trailingMap side) w
    else w)

/-- The update functions always return. -/
theorem updateStopOrders_updated {b : MapOrderBook} (h : Linked b.toBook) (side : OrderSide) :
    ∃ b', b.updateStopOrders side = .ok (b'.remember side) ∧ Updated b side b' := by
  rw [updateStopOrders_eq]
  cases hr : b.relevels side with
  | false =>
    refine ⟨_, rfl, h, .refl _, fun _ => rfl, fun hr' => ?_, fun i => ?_⟩
    · rw [hr] at hr'
      cases hr'
    · simp [hr]
  | true =>
    have hn : Linked (b.note (.updating side b.toBook)).toBook := h
    obtain ⟨ws, hids, hnd, hws⟩ := hn.orders_of_map (trailingMap side)
    obtain ⟨b₁, hb₁, hm⟩ := relevel_releveled (trailingMap side) ws hids
      (fun w hw => ((hws w).1 hw).1) hnd
    have ho := hm.find?_orders hn hws
    refine ⟨b₁, by rw [if_pos rfl, hb₁]; rfl, hm.linked hn (isTrailing_trailingMap side) hws hnd,
      hm.prices, fun hr' => ?_, fun _ => ⟨ws, hws, hm⟩, fun i => ?_⟩
    · rw [hr] at hr'
      cases hr'
    · rw [ho]
      simp only [hr, true_and]
      rfl

end RapidTrader
