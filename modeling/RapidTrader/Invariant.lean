import RapidTrader.Linked

namespace RapidTrader
open Lib Relation
set_option autoImplicit true

theorem Linked.congr {b b' : Book} (h : Linked b) (ho : b'.orders = b.orders)
    (hl : ∀ it, b'.level? it = b.level? it) (hs : b'.symbolId = b.symbolId) : Linked b' := by
  obtain ⟨h₁, h₂, h₃, h₄, h₅⟩ := h
  refine ⟨?_, ?_, ?_, ?_, ?_⟩ <;> simp only [ho, hl, hs] <;> assumption

section Remember
variable (b : MapOrderBook) (side : OrderSide)

@[simp] theorem orders_remember : (b.remember side).orders = b.orders := by cases side <;> rfl

@[simp] theorem trace_remember : (b.remember side).trace = b.trace := by cases side <;> rfl

@[simp] theorem symbolId_remember : (b.remember side).symbolId = b.symbolId := by
  cases side <;> rfl

@[simp] theorem lastTradedPrice_remember :
    (b.remember side).lastTradedPrice = b.lastTradedPrice := by cases side <;> rfl

@[simp] theorem level?_remember (it : LevelIt) : (b.remember side).level? it = b.level? it := by
  obtain ⟨t, key⟩ := it
  cases side <;> cases t <;> rfl

end Remember

theorem Linked.remember {b : MapOrderBook} (h : Linked b.toBook) (side : OrderSide) :
    Linked (b.remember side).toBook :=
  h.congr (orders_remember _ _) (level?_remember _ _) (symbolId_remember _ _)

/-- An order that may rest. -/
structure Order.Restable (o : Order) : Prop extends Order.WellFormed o where
  gtc : o.type = .limit → o.timeInForce = .gtc

theorem Order.activate_type {o : Order} (ho : o.IsStopType) :
    (o.activate.type = .market ∧ (o.type = .stop ∨ o.type = .trailingStop)) ∨
      (o.activate.type = .limit ∧ (o.type = .stopLimit ∨ o.type = .trailingStopLimit)) := by
  unfold Order.IsStopType Order.IsTrailing at ho
  unfold Order.activate Order.isStop Order.isTrailingStop Order.setType
  rcases ho with h | h | h | h <;> simp [h]

theorem Order.not_isTrailing {o : Order} (h : o.IsMatchable) : ¬ o.IsTrailing := by
  rintro (ht | ht) <;> rcases h with h | h <;> rw [h] at ht <;> cases ht

theorem Order.activate_isMatchable {o : Order} (ho : o.IsStopType) : o.activate.IsMatchable := by
  rcases Order.activate_type ho with ⟨h, _⟩ | ⟨h, _⟩
  · exact .inr h
  · exact .inl h

namespace Order.Terms

theorem of_sameTerms {o o' : Order} (h : o.Terms) (hs : o.SameTerms o') : o'.Terms := by
  obtain ⟨h₁, h₂, h₃, h₄⟩ := h
  constructor <;> simp only [hs.type, hs.timeInForce, hs.price, hs.stopPrice, hs.trailAmount] <;>
    assumption

theorem activate {o : Order} (h : o.Terms) (ho : o.IsStopType) : o.activate.Terms := by
  rcases Order.activate_type ho with ⟨ha, ht⟩ | ⟨ha, ht⟩
  · refine ⟨fun _ => ?_, ?_, ?_, ?_⟩
    · exact h.tif (.inr ht)
    all_goals
      rw [ha]
      simp
  · refine ⟨?_, fun _ => ?_, ?_, ?_⟩
    case refine_2 => exact h.price_ne (.inr ht)
    all_goals
      rw [ha]
      simp

theorem setPrice {o : Order} (h : o.Terms) (ho : o.type = .market) (p : UInt64) :
    (o.setPrice p).Terms := by
  refine ⟨h.tif, ?_, h.stop_ne, h.trail_ne⟩
  change o.type = _ ∨ o.type = _ ∨ o.type = _ → _
  rw [ho]
  simp

theorem calculateStopPrice {o : Order} (h : o.Terms) (ho : o.IsTrailing) (b : Book) :
    (b.calculateStopPrice o).Terms := by
  refine ⟨h.tif, h.price_ne, ?_, h.trail_ne⟩
  change o.type = _ ∨ o.type = _ → _
  rcases ho with ho | ho <;> rw [ho] <;> simp

end Order.Terms

/-- The requests of a well-behaved client: it submits well-formed orders under new ids. -/
def Proper (b : Book) : Request → Prop
  | .submit order => b.orders.find? order.id = none ∧ order.WellFormed
  | _ => True

/-- What holds of the order which the code is working on. -/
structure Order.InHand (b : Book) (o : Order) : Prop where
  fresh : b.orders.find? o.id = none
  terms : o.Terms
  open_ne : ¬ o.IsMatchable → o.openQuantity ≠ 0

/-- What holds at every point of every operation. -/
structure Inv (c : Config) : Prop where
  linked : Linked c.book.toBook
  restable : c.book.orders.find? i = some w → w.order.Restable
  inHand : c.working = some o → o.InHand c.book.toBook

namespace Linked

/-- The front of a level is a resting order of that level. -/
theorem front (h : Linked b) (hl : b.level? it = some l) :
    ∃ i w, l.front = some i ∧ b.orders.find? i = some w ∧ w.levelIt = it ∧ w.order.id = i ∧
      w.order.home? = some it := by
  cases hf : l.orders with
  | nil => exact absurd hf (h.sound hl).nonempty
  | cons i os =>
    obtain ⟨w, hw, hit⟩ := h.owned hl (i := i) (by rw [hf]; exact List.mem_cons_self)
    exact ⟨i, w, by rw [Level.front, hf]; rfl, hw, hit, h.id hw, hit ▸ h.home hw⟩

theorem traded (h : Linked b.toBook) (hm : b.matchFront o = .ok (b', o')) :
    ∃ key l i w, Traded b o key l i w b' o' := by
  refine matchFront_traded hm fun key l i w hl hfr hw => ?_
  obtain ⟨i', w', hfr', hw', hit, hid, _⟩ := h.front hl
  rw [hfr] at hfr'
  cases hfr'
  rw [hw] at hw'
  cases hw'
  exact ⟨hit, hid⟩

theorem matchFront_ok {b : MapOrderBook} (h : Linked b.toBook) (hc : b.canTrade o = true) :
    ∃ r, b.matchFront o = .ok r := by
  obtain ⟨_, key, l, hb, _⟩ := canTrade_eq_true hc
  obtain ⟨i, w, hfr, hw, hit, hid, hh⟩ := h.front (bestOpposite_eq_some hb).1
  exact RapidTrader.matchFront_ok hb hfr hw hit hid (hit ▸ hh)

end Linked

theorem firstStop_eq_some {b : Book} (h : b.firstStop t = some (key, l)) :
    b.level? ⟨t, key⟩ = some l := by
  unfold Book.firstStop at h
  split at h
  · exact (SortedMap.begin?_eq_some h).1
  · exact (SortedMap.rbegin?_eq_some h).1

/-- The links hold, and the order which the code is working on does not rest. This much holds of
orders of any terms. -/
structure Consistent (c : Config) : Prop where
  linked : Linked c.book.toBook
  fresh : c.working = some o → c.book.orders.find? o.id = none

namespace Consistent

theorem of_none (h : Linked b.toBook) : Consistent ⟨b, none⟩ := ⟨h, fun h => (nomatch h)⟩

theorem of_some (h : Linked b.toBook) (hn : b.orders.find? o.id = none) : Consistent ⟨b, some o⟩ :=
  ⟨h, fun h => by cases h; exact hn⟩

theorem workStep (h : Consistent c) (hs : WorkStep c c') : Consistent c' := by
  have hl := h.linked
  cases hs with
  | priced _ =>
    have hn := h.fresh rfl
    exact .of_some hl hn
  | matching _ _ => exact .of_some hl (h.fresh rfl)
  | traded _ _ hm =>
    obtain ⟨key, l, i, w, ht⟩ := hl.traded hm
    have hn := h.fresh rfl
    refine .of_some (hl.changed (.execute _ _ _) ht.changed) ?_
    rw [(matchFront_sameTerms _ hm).id, ht.changed.find?_orders, if_neg, hn]
    intro he
    rw [he, ht.changed.order] at hn
    cases hn
  | rested ht _ _ _ =>
    obtain ⟨it, hhome, hi⟩ := insertLimitOrder_inserted ht (h.fresh rfl)
    exact .of_none (hl.inserted (h.fresh rfl) hhome hi)
  | dropped _ => exact .of_none hl
  | activating _ hf hfr hw hd =>
    obtain ⟨i, w, hfr', hw', hit, hid, hh⟩ := hl.front (firstStop_eq_some hf)
    rw [hfr] at hfr'
    cases hfr'
    rw [hw] at hw'
    cases hw'
    obtain ⟨w', l, hd⟩ := deleteOrderWith_deleted hd
    have hl' := hl.deleted hd
    exact .of_some hl' ((hd.find?_orders _).trans (if_pos rfl))
  | activated => exact .of_none hl

end Consistent

namespace Inv

theorem new (symbolId : UInt32) : Inv ⟨.new symbolId, none⟩ :=
  ⟨.new symbolId, fun h => (nomatch h), fun h => (nomatch h)⟩

theorem of_none (h : Linked b.toBook)
    (hr : ∀ {i w}, b.orders.find? i = some w → w.order.Restable) : Inv ⟨b, none⟩ :=
  ⟨h, hr, fun h => (nomatch h)⟩

theorem of_some (h : Linked b.toBook)
    (hr : ∀ {i w}, b.orders.find? i = some w → w.order.Restable) (ho : o.InHand b.toBook) :
    Inv ⟨b, some o⟩ :=
  ⟨h, hr, fun h => by cases h; exact ho⟩

/-- A resting order changes without changing its terms. -/
theorem changed (h : Inv ⟨b, none⟩) (ht : w.order.SameTerms o)
    (hc : Changed b i w l o amount price notes b') : Inv ⟨b', none⟩ := by
  refine .of_none (h.linked.changed ht hc) ?_
  intro k w' hk
  rw [hc.find?_orders] at hk
  split at hk
  · split at hk
    · cases hk
    · rename_i hf
      cases hk
      have hw := h.restable hc.order
      refine ⟨⟨hw.toTerms.of_sameTerms ht, ?_⟩, ?_⟩
      · simpa [Order.isFilled] using hf
      · intro hl
        rw [ht.timeInForce]
        exact hw.gtc (ht.type ▸ hl)
  · exact h.restable hk

theorem deleted (h : Inv ⟨b, none⟩) (hd : Deleted b i w l n b') : Inv ⟨b', none⟩ := by
  refine .of_none (h.linked.deleted hd) ?_
  intro k w' hk
  rw [hd.find?_orders] at hk
  split at hk
  · cases hk
  · exact h.restable hk

theorem inserted (h : Inv ⟨b, some o⟩) (ho : o.Restable) (hh : o.home? = some it)
    (hi : Inserted b it o b') : Inv ⟨b', none⟩ := by
  refine .of_none (h.linked.inserted (h.inHand rfl).fresh hh hi) ?_
  intro k w hk
  rw [hi.find?_orders] at hk
  split at hk
  · cases hk
    exact ho
  · exact h.restable hk

theorem consistent (h : Inv c) : Consistent c := ⟨h.linked, fun ho => (h.inHand ho).fresh⟩

/-- A step that keeps or drops entries, up to quantities, keeps the invariant. -/
theorem workStep (h : Inv c) (hs : WorkStep c c') : Inv c' := by
  have hc := h.consistent.workStep hs
  cases hs with
  | priced ho =>
    have hh := h.inHand rfl
    exact .of_some hc.linked h.restable ⟨hc.fresh rfl, hh.terms.setPrice ho _, hh.open_ne⟩
  | matching ho => exact .of_some hc.linked h.restable (h.inHand rfl)
  | traded ho _ hm =>
    obtain ⟨key, l, i, w, ht⟩ := h.linked.traded hm
    have hn := Inv.changed (.of_none h.linked h.restable) (.execute _ _ _) ht.changed
    have hst := matchFront_sameTerms _ hm
    refine .of_some hc.linked hn.restable
      ⟨hc.fresh rfl, (h.inHand rfl).terms.of_sameTerms hst, ?_⟩
    intro hno
    refine absurd ho ?_
    rwa [Order.IsMatchable, hst.type] at hno
  | rested ht hg hf _ =>
    have hh := h.inHand rfl
    obtain ⟨it, hhome, hi⟩ := insertLimitOrder_inserted ht hh.fresh
    exact h.inserted ⟨⟨hh.terms, by simpa [Order.isFilled] using hf⟩, fun _ => hg⟩ hhome hi
  | dropped ho => exact .of_none hc.linked h.restable
  | activating ht hf hfr hw hd =>
    obtain ⟨i, w, hfr', hw', _, _, hh⟩ := h.linked.front (firstStop_eq_some hf)
    rw [hfr] at hfr'
    cases hfr'
    rw [hw] at hw'
    cases hw'
    obtain ⟨w', l, hd⟩ := deleteOrderWith_deleted hd
    have hst := Order.isStopType_of_home? hh ht
    refine .of_some hc.linked (h.deleted hd).restable
      ⟨hc.fresh rfl, (h.restable hw).toTerms.activate hst, ?_⟩
    exact fun hno => absurd (Order.activate_isMatchable hst) hno
  | activated => exact .of_none hc.linked h.restable

theorem updated (h : Inv ⟨b, none⟩) (hu : b.updateStopOrders side = .ok b') : Inv ⟨b', none⟩ := by
  obtain ⟨b₁, hb₁, hu'⟩ := updateStopOrders_updated h.linked side
  rw [hu] at hb₁
  cases hb₁
  refine .of_none (hu'.linked.remember side) ?_
  intro i w hw
  rw [orders_remember, hu'.orders] at hw
  obtain ⟨w, hw₀, rfl⟩ := Option.map_eq_some_iff.1 hw
  have hr := h.restable hw₀
  split
  · rename_i ht
    have htr := Order.isTrailing_of_home? (h.linked.home hw₀) (ht.2 ▸ isTrailing_trailingMap side)
    refine ⟨⟨hr.toTerms.calculateStopPrice htr b.toBook, hr.open_ne⟩, hr.gtc⟩
  · exact hr

theorem step (h : Inv c) (hs : Step Proper c c') : Inv c' := by
  cases hs with
  | work hs => exact h.workStep hs
  | added ha => exact .of_some h.linked h.restable ⟨ha.1, ha.2.toTerms, fun _ => ha.2.open_ne⟩
  | trailed ht =>
    have hh := h.inHand rfl
    exact .of_some h.linked h.restable
      ⟨hh.fresh, hh.terms.calculateStopPrice ht _, hh.open_ne⟩
  | triggered ho _ =>
    have hh := h.inHand rfl
    exact .of_some h.linked h.restable
      ⟨hh.fresh, hh.terms.activate ho, fun hno => absurd (Order.activate_isMatchable ho) hno⟩
  | restedStop ht _ =>
    have hh := h.inHand rfl
    obtain ⟨it, hhome, hi⟩ := insertStopOrder_inserted ht hh.fresh
    refine h.inserted ⟨⟨hh.terms, hh.open_ne ?_⟩, ?_⟩ hhome hi
    all_goals rcases ht with ht | ht <;> simp [Order.IsMatchable, ht]
  | restedTrailing ht _ _ =>
    have hh := h.inHand rfl
    obtain ⟨it, hhome, hi⟩ := insertTrailingStopOrder_inserted ht hh.fresh
    refine h.inserted ⟨⟨hh.terms, hh.open_ne ?_⟩, ?_⟩ hhome hi
    all_goals rcases ht with ht | ht <;> simp [Order.IsMatchable, ht]
  | updated hu => exact h.updated hu
  | executed _ hx =>
    obtain ⟨w, l, hc⟩ := executeResting_changed hx
    exact h.changed (.execute _ _ _) hc
  | cancelled _ hx =>
    obtain ⟨w, l, hc⟩ := cancelResting_changed hx
    exact h.changed (.setQuantity _ _) hc
  | deleted _ hd =>
    obtain ⟨w, l, hd⟩ := deleteOrderWith_deleted hd
    exact h.deleted hd

theorem steps (h : Inv c) (hs : Steps Proper c c') : Inv c' := by
  induction hs with
  | refl => exact h
  | tail _ hs ih => exact ih.step hs

/-- Under the invariant the code never uses a missing entry. -/
theorem not_stuck (h : Inv c) : ¬ Stuck c e := by
  intro hs
  cases hs with
  | traded _ hc hm =>
    obtain ⟨r, hr⟩ := h.linked.matchFront_ok hc
    rw [hr] at hm
    cases hm
  | front hf hn =>
    obtain ⟨i, w, hfr, hw, _⟩ := h.linked.front (firstStop_eq_some hf)
    refine hn w ?_
    rw [hfr]
    exact hw
  | activating hf hfr hw hd =>
    obtain ⟨i, w', hfr', hw', hit, hid, hh⟩ := h.linked.front (firstStop_eq_some hf)
    rw [hfr] at hfr'
    cases hfr'
    rw [hw] at hw'
    cases hw'
    obtain ⟨b', hok⟩ := deleteOrderWith_ok hw (hit ▸ firstStop_eq_some hf) (hit ▸ hh) false
    rw [hid, hok] at hd
    cases hd
  | updated hu =>
    obtain ⟨b', hb', _⟩ := updateStopOrders_updated h.linked _
    rw [hu] at hb'
    cases hb'

end Inv

/-- The notes a step in the configuration `c` may take: events, trades, and marks that show the
book as it is. -/
inductive Marked (c : Config) : Note → Prop
  | event : Marked c (.event e)
  | trade : Marked c (.trade bidId askId price quantity)
  | matching : c.working = some o → o.IsMatchable → o.IsPriced →
      Marked c (.matching o c.book.toBook)
  | activated : c.working = none → Marked c (.activated o c.book.toBook)
  | updating : c.working = none → Marked c (.updating side c.book.toBook)

theorem marked_tradeNotes {o resting : Order} (h : n ∈ tradeNotes o resting price quantity) :
    Marked c n := by
  unfold tradeNotes at h
  split at h <;> simp only [List.mem_cons, List.not_mem_nil, or_false] at h <;>
    rcases h with rfl | rfl | rfl
  all_goals first | exact .event | exact .trade

theorem marked_if {p : Prop} [Decidable p] (h : n ∈ if p then [Note.event e] else []) :
    Marked c n := by
  split at h
  · rw [List.mem_singleton.1 h]
    exact .event
  · cases h

theorem Inv.workStep_marked (h : Inv c) (hs : WorkStep c c') :
    ∃ ns, c'.book.trace = c.book.trace ++ ns ∧ ∀ n ∈ ns, Marked c n := by
  cases hs with
  | priced ho => exact ⟨[], by simp, by simp⟩
  | matching ho hp => exact ⟨_, rfl, fun n hn => List.mem_singleton.1 hn ▸ .matching rfl ho hp⟩
  | traded ho hc hm =>
    obtain ⟨key, l, i, w, ht⟩ := h.linked.traded hm
    refine ⟨_, by rw [ht.changed.trace, List.append_assoc], fun n hn => ?_⟩
    rcases List.mem_append.1 hn with hn | hn
    · exact marked_tradeNotes hn
    · exact marked_if hn
  | rested ht hg hf hc =>
    obtain ⟨it, _, hi⟩ := insertLimitOrder_inserted ht (h.inHand rfl).fresh
    exact ⟨[], by rw [hi.trace, List.append_nil], by simp⟩
  | dropped ho => exact ⟨_, rfl, fun n hn => List.mem_singleton.1 hn ▸ .event⟩
  | activating ht hf hfr hw hd =>
    obtain ⟨w', l, hd⟩ := deleteOrderWith_deleted hd
    refine ⟨_, by rw [trace_emit, hd.trace, List.append_assoc], fun n hn => ?_⟩
    rcases List.mem_append.1 hn with hn | hn
    · exact marked_if hn
    · exact List.mem_singleton.1 hn ▸ .event
  | activated => exact ⟨_, rfl, fun n hn => List.mem_singleton.1 hn ▸ .activated rfl⟩

theorem Inv.updated_marked (h : Inv ⟨b, none⟩) (hu : b.updateStopOrders side = .ok b') :
    ∃ ns, b'.trace = b.trace ++ ns ∧ ∀ n ∈ ns, Marked ⟨b, none⟩ n := by
  obtain ⟨b₁, hb₁, hu'⟩ := updateStopOrders_updated h.linked side
  rw [hu] at hb₁
  cases hb₁
  rw [trace_remember]
  cases hr : b.relevels side with
  | false =>
    rw [hu'.skipped hr]
    exact ⟨_, rfl, fun n hn => List.mem_singleton.1 hn ▸ .updating rfl⟩
  | true =>
    obtain ⟨ws, _, hm⟩ := hu'.moved hr
    refine ⟨_, by rw [hm.trace, trace_note, List.append_assoc], fun n hn => ?_⟩
    rcases List.mem_append.1 hn with hn | hn
    · exact List.mem_singleton.1 hn ▸ .updating rfl
    · obtain ⟨w, _, rfl⟩ := List.mem_map.1 hn
      exact .event

theorem Changed.marked {b b' : MapOrderBook} (e : Event)
    (hc : Changed b i w l o amount price (b.trace ++ [.event e]) b') :
    ∃ ns, b'.trace = b.trace ++ ns ∧ ∀ n ∈ ns, Marked ⟨b, none⟩ n := by
  refine ⟨_, by rw [hc.trace, List.append_assoc], fun n hn => ?_⟩
  rcases List.mem_append.1 hn with hn | hn
  · exact List.mem_singleton.1 hn ▸ .event
  · exact marked_if hn

/-- What a step adds to the trace. -/
theorem Inv.step_marked (h : Inv c) (hs : Step Adm c c') :
    ∃ ns, c'.book.trace = c.book.trace ++ ns ∧ ∀ n ∈ ns, Marked c n := by
  cases hs with
  | work hs => exact h.workStep_marked hs
  | added ha => exact ⟨_, rfl, fun n hn => List.mem_singleton.1 hn ▸ .event⟩
  | trailed ht => exact ⟨[], by simp, by simp⟩
  | triggered ho _ => exact ⟨_, rfl, fun n hn => List.mem_singleton.1 hn ▸ .event⟩
  | restedStop ht _ =>
    obtain ⟨it, _, hi⟩ := insertStopOrder_inserted ht (h.inHand rfl).fresh
    exact ⟨[], by rw [hi.trace, List.append_nil], by simp⟩
  | restedTrailing ht _ _ =>
    obtain ⟨it, _, hi⟩ := insertTrailingStopOrder_inserted ht (h.inHand rfl).fresh
    exact ⟨[], by rw [hi.trace, List.append_nil], by simp⟩
  | updated hu => exact h.updated_marked hu
  | executed _ hx =>
    obtain ⟨w, l, hc⟩ := executeResting_changed hx
    exact hc.marked
  | cancelled _ hx =>
    obtain ⟨w, l, hc⟩ := cancelResting_changed hx
    exact hc.marked
  | deleted _ hd =>
    obtain ⟨w, l, hd⟩ := deleteOrderWith_deleted hd
    exact ⟨_, hd.trace, fun n hn => marked_if hn⟩

end RapidTrader
