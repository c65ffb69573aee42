import RapidTrader.Acts
import RapidTrader.Matching

namespace RapidTrader
open Lib Relation
set_option autoImplicit true

/-- The orders that a level serves before the order `i`. -/
def Level.ahead (l : Level) (i : UInt64) : List UInt64 := l.orders.takeWhile (· ≠ i)

/-- The order `w` rests in `b'` as it does in `b`, and no order has got ahead of it. -/
structure InPlace (b : Book) (w : OrderWrapper) (b' : Book) : Prop where
  order : b'.orders.find? w.order.id = some w
  place : ∃ l l', b.level? w.levelIt = some l ∧ b'.level? w.levelIt = some l' ∧
    w.order.id ∈ l'.orders ∧ (l'.ahead w.order.id).Sublist (l.ahead w.order.id)

/-- The events which tell of a resting order that it is traded, or activated or moved if it is a
stop order. -/
inductive Displaces (o : Order) : Event → Prop
  | traded : Displaces o (.executedOrder (o.execute price quantity))
  | activated : o.IsStopType → Displaces o (.orderUpdated o.activate)
  | moved : o.IsTrailing → Displaces o (.orderUpdated (o.setStopPrice stopPrice))

/-- Every order that rests in `b` stays in its place, or the trace tells why not. -/
def Keeps (b b' : MapOrderBook) : Prop :=
  ∃ ns, b'.trace = b.trace ++ ns ∧ ∀ w, b.orders.find? w.order.id = some w →
    InPlace b.toBook w b'.toBook ∨ ∃ e, .event e ∈ ns ∧ Displaces w.order e

theorem takeWhile_erase_sublist {i k : UInt64} (hk : k ≠ i) (xs : List UInt64) :
    ((xs.erase k).takeWhile (· ≠ i)).Sublist (xs.takeWhile (· ≠ i)) := by
  induction xs with
  | nil => exact .slnil
  | cons x xs ih =>
    by_cases hx : x = k
    · have hxi : x ≠ i := hx ▸ hk
      rw [hx, List.erase_cons_head, ← hx, List.takeWhile_cons, if_pos (decide_eq_true hxi)]
      exact List.sublist_cons_self _ _
    · rw [List.erase_cons_tail (by simpa using hx), List.takeWhile_cons, List.takeWhile_cons]
      split
      · exact ih.cons_cons _
      · exact .slnil

theorem takeWhile_append_of_mem {i : UInt64} {xs : List UInt64} (hi : i ∈ xs) (ys : List UInt64) :
    (xs ++ ys).takeWhile (· ≠ i) = xs.takeWhile (· ≠ i) := by
  induction xs with
  | nil => cases hi
  | cons x xs ih =>
    rw [List.cons_append, List.takeWhile_cons, List.takeWhile_cons]
    split
    · rename_i hx
      have hne : i ≠ x := (of_decide_eq_true hx).symm
      rw [ih ((List.mem_cons.1 hi).resolve_left hne)]
    · rfl

namespace InPlace

theorem of_levels (h : Linked b) (hw : b.orders.find? w.order.id = some w)
    (ho : b'.orders.find? w.order.id = some w)
    (hl : ∀ l, b.level? w.levelIt = some l → w.order.id ∈ l.orders →
      ∃ l', b'.level? w.levelIt = some l' ∧ w.order.id ∈ l'.orders ∧
        (l'.ahead w.order.id).Sublist (l.ahead w.order.id)) : InPlace b w b' := by
  obtain ⟨l, hlev, hm⟩ := h.held hw
  obtain ⟨l', hlev', hm', hs⟩ := hl l hlev hm
  exact ⟨ho, l, l', hlev, hlev', hm', hs⟩

theorem refl (h : Linked b) (hw : b.orders.find? w.order.id = some w) : InPlace b w b :=
  of_levels h hw hw fun l hl hm => ⟨l, hl, hm, List.Sublist.refl _⟩

theorem trans (h : InPlace b w b') (h' : InPlace b' w b'') : InPlace b w b'' := by
  obtain ⟨l, l₁, hl, hl₁, _, hs⟩ := h.place
  obtain ⟨l₁', l', hl₁', hl', hm', hs'⟩ := h'.place
  rw [hl₁] at hl₁'
  cases hl₁'
  exact ⟨h'.order, l, l', hl, hl', hm', hs'.trans hs⟩

/-- Another order leaves the book or changes. -/
theorem removed (h : Linked b) (hw : b.orders.find? w.order.id = some w)
    (hk : k ≠ w.order.id) (ho : b'.orders.find? w.order.id = b.orders.find? w.order.id)
    (hlev : ∀ l, b.level? w.levelIt = some l → b'.level? w.levelIt = some l ∨ ∃ l',
      b'.level? w.levelIt = (if l'.empty then none else some l') ∧
        (l'.orders = l.orders ∨ l'.orders = l.orders.erase k)) : InPlace b w b' := by
  refine of_levels h hw (ho.trans hw) fun l hl hm => ?_
  rcases hlev l hl with hl' | ⟨l', hl', hos⟩
  · exact ⟨l, hl', hm, List.Sublist.refl _⟩
  · have hm' : w.order.id ∈ l'.orders := by
      rcases hos with hos | hos <;> rw [hos]
      · exact hm
      · exact (List.mem_erase_of_ne hk.symm).2 hm
    have hne : l'.empty = false := by
      simpa [Level.empty] using List.ne_nil_of_mem hm'
    rw [hne] at hl'
    refine ⟨l', hl', hm', ?_⟩
    unfold Level.ahead
    rcases hos with hos | hos <;> rw [hos]
    exact takeWhile_erase_sublist hk _

theorem deleted (h : Linked b.toBook) (hw : b.orders.find? w.order.id = some w)
    (hd : Deleted b k v l n b') (hk : k ≠ w.order.id) : InPlace b.toBook w b'.toBook := by
  refine removed h hw hk ?_ fun l₁ hl₁ => ?_
  · rw [hd.find?_orders, if_neg hk.symm]
  · rw [hd.levels (h.home hd.order)]
    split
    · rename_i hit
      rw [hit, hd.held] at hl₁
      cases hl₁
      refine .inr ⟨_, rfl, .inr ?_⟩
      rw [Level.deleteOrder, h.id hd.order]
    · exact .inl hl₁

theorem changed (h : Linked b.toBook) (hw : b.orders.find? w.order.id = some w)
    (ht : v.order.SameTerms o) (hc : Changed b k v l o amount price notes b')
    (hk : k ≠ w.order.id) : InPlace b.toBook w b'.toBook := by
  refine removed h hw hk ?_ fun l₁ hl₁ => ?_
  · rw [hc.find?_orders, if_neg hk.symm]
  · rw [hc.levels (ht.home?.trans (h.home hc.order))]
    split
    · rename_i hit
      rw [hit, hc.held] at hl₁
      cases hl₁
      split
      · refine .inr ⟨_, rfl, .inr ?_⟩
        rw [Level.deleteOrder, ht.id, h.id hc.order]
        rfl
      · refine .inr ⟨l.reduceVolume amount, ?_, .inl rfl⟩
        have hne : (l.reduceVolume amount).empty = false := by
          simpa [Level.empty, Level.reduceVolume] using (h.sound hc.held).nonempty
        rw [hne]
        rfl
    · exact .inl hl₁

theorem inserted (h : Linked b.toBook) (hw : b.orders.find? w.order.id = some w)
    (hn : b.orders.find? o.id = none) (hi : Inserted b it o b') :
    InPlace b.toBook w b'.toBook := by
  have hne : w.order.id ≠ o.id := by
    intro he
    rw [he, hn] at hw
    cases hw
  refine of_levels h hw ?_ fun l hl hm => ?_
  · rw [hi.find?_orders, if_neg hne, hw]
  · rw [hi.levels]
    split
    · rename_i hit
      rw [hit] at hl
      rw [hl, Option.getD_some]
      refine ⟨_, rfl, List.mem_append_left _ hm, ?_⟩
      unfold Level.ahead Level.addOrder
      rw [takeWhile_append_of_mem hm]
    · exact ⟨l, hl, hm, List.Sublist.refl _⟩

end InPlace

namespace Keeps

theorem of_toBook (h : Linked b.toBook) (hb : b'.toBook = b.toBook)
    (ht : b'.trace = b.trace ++ ns) : Keeps b b' :=
  ⟨ns, ht, fun _ hw => .inl (by rw [hb]; exact .refl h hw)⟩

theorem refl (h : Linked b.toBook) : Keeps b b := of_toBook h rfl (List.append_nil _).symm

theorem note (h : Linked b.toBook) (n : Note) : Keeps b (b.note n) := of_toBook h rfl rfl

theorem trans (h : Keeps b b') (h' : Keeps b' b'') : Keeps b b'' := by
  obtain ⟨ns, htr, hk⟩ := h
  obtain ⟨ns', htr', hk'⟩ := h'
  refine ⟨ns ++ ns', by rw [htr', htr, List.append_assoc], fun w hw => ?_⟩
  rcases hk w hw with hp | ⟨e, he, hd⟩
  · rcases hk' w hp.order with hp' | ⟨e, he, hd⟩
    · exact .inl (hp.trans hp')
    · exact .inr ⟨e, List.mem_append_right _ he, hd⟩
  · exact .inr ⟨e, List.mem_append_left _ he, hd⟩

/-- An order leaves the book or changes, and the trace tells of it. -/
theorem of_one (htr : b'.trace = b.trace ++ ns) (hv : b.orders.find? k = some v)
    (he : .event e ∈ ns) (hd : Displaces v.order e)
    (hp : ∀ w, b.orders.find? w.order.id = some w → k ≠ w.order.id →
      InPlace b.toBook w b'.toBook) : Keeps b b' := by
  refine ⟨ns, htr, fun w hw => ?_⟩
  by_cases hk : k = w.order.id
  · rw [← hk, hv] at hw
    cases hw
    exact .inr ⟨e, he, hd⟩
  · exact .inl (hp w hw hk)

theorem traded (h : Linked b.toBook) (ht : Traded b o key l k v b' o') : Keeps b b' := by
  have htr := ht.changed.trace
  rw [List.append_assoc] at htr
  have he : .event (.executedOrder (v.order.execute v.order.price (matched o v.order))) ∈
      tradeNotes (o.execute v.order.price (matched o v.order))
        (v.order.execute v.order.price (matched o v.order)) v.order.price (matched o v.order) := by
    unfold tradeNotes
    split <;> simp
  exact of_one htr ht.changed.order (List.mem_append_left _ he) .traded fun w hw hk =>
    .changed h hw (.execute _ _ _) ht.changed hk

theorem activating (h : Linked b.toBook) (ht : t.IsStop) (hf : b.firstStop t = some (key, l))
    (hfr : l.front = some k) (hv : b.orders.find? k = some v)
    (hd : b.deleteOrderWith v.order.id false = .ok b') :
    Keeps b (b'.emit (.orderUpdated v.order.activate)) := by
  obtain ⟨i, v', hfr', hv', hit, hid, hh⟩ := h.front (firstStop_eq_some hf)
  rw [hfr] at hfr'
  cases hfr'
  rw [hv] at hv'
  cases hv'
  obtain ⟨v', l, hd⟩ := deleteOrderWith_deleted hd
  rw [hid] at hd
  have htr : (b'.emit (.orderUpdated v.order.activate)).trace =
      b.trace ++ [.event (.orderUpdated v.order.activate)] := by
    rw [trace_emit, hd.trace]
    simp
  refine of_one htr hv (List.mem_singleton.2 rfl)
    (.activated (Order.isStopType_of_home? hh ht)) fun w hw hk => ?_
  have hp : InPlace b.toBook w b'.toBook := .deleted h hw hd hk
  exact hp

theorem inserted (h : Linked b.toBook) (hn : b.orders.find? o.id = none)
    (hi : Inserted b it o b') : Keeps b b' :=
  ⟨[], by rw [hi.trace, List.append_nil], fun _ hw => .inl (.inserted h hw hn hi)⟩

theorem updated (h : Linked b.toBook) (hu : b.updateStopOrders side = .ok b') :
    Linked b'.toBook ∧ Keeps b b' := by
  obtain ⟨b₁, hb₁, hu'⟩ := updateStopOrders_updated h side
  rw [hu] at hb₁
  cases hb₁
  have hl' : Linked (b₁.remember side).toBook := hu'.linked.remember side
  refine ⟨hl', ?_⟩
  have hplace (w : OrderWrapper) (hw : b.orders.find? w.order.id = some w)
      (hmv : ¬ (b.relevels side = true ∧ w.levelIt.levels = trailingMap side))
      (hlev : b₁.level? w.levelIt = b.level? w.levelIt) :
      InPlace b.toBook w (b₁.remember side).toBook := by
    refine .of_levels h hw ?_ fun l hl hm => ⟨l, ?_, hm, List.Sublist.refl _⟩
    · rw [orders_remember, hu'.orders, hw, Option.map_some, if_neg hmv]
    · rw [level?_remember, hlev, hl]
  cases hr : b.relevels side with
  | false =>
    refine ⟨[.updating side b.toBook], ?_, fun w hw => .inl ?_⟩
    · rw [trace_remember, hu'.skipped hr, trace_note]
    · exact hplace w hw (by simp [hr]) (by rw [hu'.skipped hr, toBook_note])
  | true =>
    obtain ⟨ws, hws, hm⟩ := hu'.moved hr
    refine ⟨_, by rw [trace_remember, hm.trace, trace_note, List.append_assoc], fun w hw => ?_⟩
    by_cases ht : w.levelIt.levels = trailingMap side
    · have htr : w.order.IsTrailing :=
        Order.isTrailing_of_home? (h.home hw) (ht ▸ isTrailing_trailingMap side)
      refine .inr ⟨_, List.mem_append_right _ (List.mem_map.2 ⟨w, (hws w).2 ⟨hw, ht⟩, rfl⟩), ?_⟩
      exact .moved htr
    · refine .inl (hplace w hw (fun h => ht h.2) ?_)
      rw [hm.levels, if_neg ht, toBook_note]

end Keeps

/-- The links are sound, and the order which the code is working on bears an id of its own. -/
structure Unclashed (c : Config) : Prop where
  linked : Linked c.book.toBook
  fresh : c.working = some o → c.book.orders.find? o.id = none

namespace Unclashed

theorem of_none (h : Linked b.toBook) : Unclashed ⟨b, none⟩ := ⟨h, fun h => nomatch h⟩

theorem of_some (h : Linked b.toBook) (hn : b.orders.find? o.id = none) :
    Unclashed ⟨b, some o⟩ :=
  ⟨h, fun he => by cases he; exact hn⟩

theorem workStep (h : Unclashed c) (hs : WorkStep c c') :
    Unclashed c' ∧ Keeps c.book c'.book := by
  have hl := h.linked
  cases hs with
  | priced _ =>
    have hn := h.fresh rfl
    exact ⟨.of_some hl hn, .refl hl⟩
  | matching _ _ => exact ⟨.of_some hl (h.fresh rfl), .note hl _⟩
  | traded _ _ hm =>
    obtain ⟨key, l, i, w, ht⟩ := hl.traded hm
    have hn := h.fresh rfl
    dsimp only at hn
    refine ⟨.of_some (hl.changed (.execute _ _ _) ht.changed) ?_, .traded hl ht⟩
    rw [(matchFront_sameTerms _ hm).id, ht.changed.find?_orders, if_neg, hn]
    intro he
    rw [he, ht.changed.order] at hn
    cases hn
  | rested ho _ _ _ =>
    have hn := h.fresh rfl
    obtain ⟨it, hh, hi⟩ := insertLimitOrder_inserted ho hn
    exact ⟨.of_none (hl.inserted hn hh hi), .inserted hl hn hi⟩
  | dropped _ => exact ⟨.of_none hl, .note hl _⟩
  | activating ht hf hfr hw hd =>
    refine ⟨?_, .activating hl ht hf hfr hw hd⟩
    obtain ⟨w', l, hd⟩ := deleteOrderWith_deleted hd
    have hl' := hl.deleted hd
    exact .of_some hl' ((hd.find?_orders _).trans (if_pos rfl))
  | activated => exact ⟨.of_none hl, .note hl _⟩

theorem step (h : Unclashed c) (hs : Step Unasked c c') : Unclashed c' ∧ Keeps c.book c'.book := by
  have hl := h.linked
  cases hs with
  | work hs => exact h.workStep hs
  | added ha => exact ha.elim
  | trailed _ =>
    have hn := h.fresh rfl
    exact ⟨.of_some hl hn, .refl hl⟩
  | triggered _ _ =>
    have hn := h.fresh rfl
    exact ⟨.of_some hl hn, .note hl _⟩
  | restedStop ho _ =>
    have hn := h.fresh rfl
    obtain ⟨it, hh, hi⟩ := insertStopOrder_inserted ho hn
    exact ⟨.of_none (hl.inserted hn hh hi), .inserted hl hn hi⟩
  | restedTrailing ho _ _ =>
    have hn := h.fresh rfl
    obtain ⟨it, hh, hi⟩ := insertTrailingStopOrder_inserted ho hn
    exact ⟨.of_none (hl.inserted hn hh hi), .inserted hl hn hi⟩
  | updated hu =>
    obtain ⟨hl', hk⟩ := Keeps.updated hl hu
    exact ⟨.of_none hl', hk⟩
  | executed ha _ => exact ha.elim
  | cancelled ha _ => exact ha.elim
  | deleted ha _ => exact ha.elim

/-- What the code does on its own leaves every resting order in its place or tells why not. -/
theorem steps (h : Unclashed c) (hs : Steps Unasked c c') :
    Unclashed c' ∧ Keeps c.book c'.book := by
  induction hs with
  | refl => exact ⟨h, .refl h.linked⟩
  | tail _ hs ih =>
    obtain ⟨h', hk'⟩ := ih.1.step hs
    exact ⟨h', ih.2.trans hk'⟩

end Unclashed

end RapidTrader
