import RapidTrader.TrailingPriority

namespace RapidTrader
open Lib Relation
set_option autoImplicit true

/-! ### Stop orders -/

/-- Stop orders stand in their levels as they were added to the book, and of the orders of one stop
price the one that was added first is activated first, whatever happens in between. -/
theorem stops_in_order (h : Reachable Op.Legal symbolId b) (hs : Stages b b')
    (ht : t = .stopAsk ∨ t = .stopBid) :
    InOrder b' t ∧ ∀ fuel b'', b'.activateFront fuel t = .ok b'' → ActivatesEarliest b' t b'' := by
  have hst : t.IsStop := by
    rcases ht with rfl | rfl <;> simp [LevelMap.IsStop]
  have htr (side : OrderSide) : t ≠ trailingMap side := by
    rcases ht with rfl | rfl <;> cases side <;> simp [trailingMap]
  have hstage {b b' : MapOrderBook} (hi : Inv ⟨b, none⟩) (ho : InOrder b t) (hs : Stage b b') :
      InOrder b' t := by
    rcases hs.shifted hi with hs | ⟨i, hn, hj⟩ | ⟨side, b₁, hu, rfl⟩
    · exact ho.sifted hst hs
    · exact ho.joined hst hi.linked hn hj
    · intro key
      have hq : (b₁.remember side).queue ⟨t, key⟩ = b.queue ⟨t, key⟩ := by
        rw [Book.queue, level?_remember, ← Book.queue, hu.queue_of_not fun _ => htr side]
      unfold AddedBefore
      rw [hq, trace_remember, hu.plainly.additions]
      exact ho key
  have hnew : InOrder (.new symbolId) t := by
    intro key
    have hnil : (MapOrderBook.new symbolId).queue ⟨t, key⟩ = [] := by
      rcases ht with rfl | rfl <;> rfl
    rw [hnil]
    exact .nil
  obtain ⟨hi, ho⟩ := Stages.induct hstage h.inv (h.stage_induct hnew hstage) hs
  exact ⟨ho, fun fuel b'' hf => ho.activatesEarliest hi.linked hst hf⟩

/-- A stop ask and, after it, a stop-limit ask of the same stop price. -/
def twoStopsOps : List Op :=
  [.addOrder (.new .limit .bid .gtc 1 90 0 0 50 1), .executeOrderAt 1 1 100,
    .addOrder (.new .stop .ask .ioc 1 0 80 0 5 2),
    .addOrder (.new .stopLimit .ask .gtc 1 70 80 0 5 3)]

theorem stops_in_order_twoStopsOps : ∃ b b' : MapOrderBook,
    (MapOrderBook.new 1).run 20 twoStopsOps = .ok b ∧ b.queue ⟨.stopAsk, 80⟩ = [2, 3] ∧
    b.activateFront 20 .stopAsk = .ok b' ∧ InOrder b .stopAsk ∧
    ActivatesEarliest b .stopAsk b' := by
  obtain ⟨b, hb, hr, hf⟩ := exists_reachable_of_run Op.Legal 1 20 twoStopsOps (by decide +kernel)
    (f := fun b => (b.activateFront 20 .stopAsk).toOption.bind fun _ =>
      some (b.queue ⟨.stopAsk, 80⟩))
    (o := [2, 3]) (by decide +kernel)
  obtain ⟨b', hb', hq⟩ := exists_of_run hf
  obtain ⟨hin, hnext⟩ := stops_in_order hr .refl (.inl rfl)
  exact ⟨b, b', hb, Option.some.inj hq, hb', hin, hnext 20 b' hb'⟩

/-! ### Limit orders -/

/-- The id of the order a note says has been given to `match`. -/
def Note.matched? : Note → Option UInt64
  | .matching o _ => some o.id
  | _ => none

def arrivals (trace : List Note) : List UInt64 := trace.filterMap Note.matched?

/-- The last time that `i` was given to `match` was before the last one of `j`. -/
def ArrivedBefore (trace : List Note) (i j : UInt64) : Prop := Before (arrivals trace) i j

instance (trace : List Note) (i j : UInt64) : Decidable (ArrivedBefore trace i j) :=
  inferInstanceAs (Decidable (Before _ _ _))

/-- Limit orders stand in their levels as they were given to `match`. -/
def FirstCome (b : MapOrderBook) : Prop :=
  ∀ side key, (b.queue ⟨Book.oppositeMap side, key⟩).Pairwise (ArrivedBefore b.trace)

/-- The trace has grown without a call of `match`. -/
abbrev Quietly : List Note → List Note → Prop := Extends fun n => n.matched? = none

theorem Quietly.arrivals (h : Quietly t t') : arrivals t' = arrivals t :=
  h.filterMap_eq fun _ hn => hn

/-- The queues of limit orders have lost orders at most, without a call of `match`. -/
structure Thinned (b b' : MapOrderBook) : Prop where
  trace : Quietly b.trace b'.trace
  queues : ∀ side key, (b'.queue ⟨Book.oppositeMap side, key⟩).Sublist
    (b.queue ⟨Book.oppositeMap side, key⟩)

namespace Thinned

theorem refl (b : MapOrderBook) : Thinned b b := ⟨.refl _ _, fun _ _ => .refl _⟩

theorem trans (h : Thinned b b') (h' : Thinned b' b'') : Thinned b b'' :=
  ⟨h.trace.trans h'.trace, fun side key => (h'.queues side key).trans (h.queues side key)⟩

theorem emit (b : MapOrderBook) (e : Event) : Thinned b (b.emit e) :=
  ⟨by rw [trace_emit]; exact .single _ rfl, fun _ _ => .refl _⟩

end Thinned

theorem FirstCome.thinned (hf : FirstCome b) (h : Thinned b b') : FirstCome b' := by
  intro side key
  unfold ArrivedBefore
  rw [h.trace.arrivals]
  exact (hf side key).sublist (h.queues side key)

theorem Deleted.thinned {b b' : MapOrderBook} (h : Linked b.toBook) (hd : Deleted b i w l n b') :
    Thinned b b' := by
  refine ⟨?_, fun side key => ?_⟩
  · rw [hd.trace]
    split
    · exact .single _ rfl
    · rw [List.append_nil]
      exact .refl _ _
  · rw [hd.queue h]
    exact List.filter_sublist

theorem Changed.thinned {b b' : MapOrderBook} (h : Linked b.toBook) (ht : w.order.SameTerms o)
    (hc : Changed b i w l o q p ns b') (hns : Quietly b.trace ns) : Thinned b b' := by
  refine ⟨?_, fun side key => ?_⟩
  · rw [hc.trace]
    split
    · exact hns.trans (.single _ rfl)
    · rw [List.append_nil]
      exact hns
  · rw [hc.queue h ht]
    split
    · exact List.filter_sublist
    · exact List.Sublist.refl _

theorem quietly_tradeNotes (t : List Note) (o resting : Order) (price quantity : UInt64) :
    Quietly t (t ++ tradeNotes o resting price quantity) := by
  refine ⟨_, rfl, fun n hn => ?_⟩
  unfold tradeNotes at hn
  split at hn <;> simp only [List.mem_cons, List.not_mem_nil, or_false] at hn <;>
    rcases hn with rfl | rfl | rfl <;> rfl

theorem Traded.thinned (h : Linked b.toBook) (ht : Traded b o key l i w b' o') : Thinned b b' :=
  ht.changed.thinned h (.execute _ _ _) (quietly_tradeNotes _ _ _ _ _)

theorem Updated.thinned {b b' : MapOrderBook} (hu : Updated b side b') :
    Thinned b (b'.remember side) := by
  refine ⟨?_, fun side' key => ?_⟩
  · rw [trace_remember]
    cases hr : b.relevels side with
    | false =>
      rw [hu.skipped hr]
      exact .single _ rfl
    | true =>
      obtain ⟨ws, _, hm⟩ := hu.moved hr
      rw [hm.trace, trace_note, List.append_assoc]
      refine ⟨_, rfl, fun n hn => ?_⟩
      rcases List.mem_append.1 hn with hn | hn
      · rw [List.mem_singleton.1 hn]
        rfl
      · obtain ⟨w, _, rfl⟩ := List.mem_map.1 hn
        rfl
  · have hne : Book.oppositeMap side' ≠ trailingMap side := by
      cases side <;> cases side' <;> simp [Book.oppositeMap, trailingMap]
    rw [Book.queue, level?_remember, ← Book.queue, hu.queue_of_not fun _ => hne]

/-- A stop order that comes to rest stays out of the limit orders' way. -/
theorem Inserted.thinned {b b' : MapOrderBook} (hi : Inserted b it o b') (hs : it.levels.IsStop) :
    Thinned b b' := by
  refine ⟨by rw [hi.trace]; exact .refl _ _, fun side key => ?_⟩
  rw [hi.queue, if_neg]
  rintro rfl
  exact hs.ne_oppositeMap side rfl

/-! ### Calls of `match` -/

theorem Traded.levelIt (h : Linked b.toBook) (ht : Traded b o key l i w b' o') :
    w.levelIt = ⟨Book.oppositeMap o.side, key⟩ := by
  obtain ⟨i', w', hfr, hw, hit, _⟩ := h.front (bestOpposite_eq_some ht.best).1
  rw [ht.front] at hfr
  cases hfr
  rw [ht.changed.order] at hw
  cases hw
  exact hit

/-- One turn of the loop of `match`. -/
def Trading (s s' : MapOrderBook × Order) : Prop :=
  s.1.canTrade s.2 = true ∧ s.1.matchFront s.2 = .ok s'

abbrev Trades : MapOrderBook × Order → MapOrderBook × Order → Prop := ReflTransGen Trading

/-- The book and the order that `match` has been called with: the limit orders stand in order. -/
structure Fair (b : MapOrderBook) (o : Order) : Prop where
  matchable : o.IsMatchable
  consistent : Consistent ⟨b, some o⟩
  inOrder : FirstCome b

/-- All calls of `match` that a book tells of were fair, and the next one will be. -/
structure AllFair (b : MapOrderBook) : Prop where
  inOrder : FirstCome b
  calls : b.trace = told ++ .matching o before :: rest → Fair ⟨before, told⟩ o

theorem AllFair.thinned (h : AllFair b) (ht : Thinned b b') : AllFair b' := by
  refine ⟨h.inOrder.thinned ht, fun hs => ?_⟩
  obtain ⟨rest', hs'⟩ := ht.trace.of_split hs (by simp [Note.matched?])
  exact h.calls hs'

/-- A call of `match` is told, and the order that it is about has arrived last. -/
theorem Fair.noted (h : AllFair b) (hf : Fair b o) : AllFair (b.note (.matching o b.toBook)) := by
  have hfresh : b.orders.find? o.id = none := hf.consistent.fresh rfl
  have hl : Linked b.toBook := hf.consistent.linked
  have harr : arrivals (b.note (.matching o b.toBook)).trace = arrivals b.trace ++ [o.id] := by
    rw [trace_note, arrivals, List.filterMap_append]
    rfl
  constructor
  · intro side key
    unfold ArrivedBefore
    rw [harr]
    exact pairwise_before (h.inOrder side key) (hl.not_mem_queue hfresh)
  · intro told o' before rest hs
    rw [trace_note] at hs
    rcases append_eq_append_cons hs with ⟨us, hx⟩ | ⟨us, ht, hy⟩
    · exact h.calls hx
    · cases us with
      | nil =>
        cases hy
        rw [List.append_nil] at ht
        rw [ht]
        exact hf
      | cons u us => cases us <;> cases hy

theorem matchOrder_thinned (hc : Consistent ⟨b, some o⟩) (ho : o.IsMatchable)
    (h : b.matchOrder fuel o = .ok s) :
    Thinned (b.note (.matching o b.toBook)) s.1 ∧ Consistent ⟨s.1, some s.2⟩ ∧
      o.SameTerms s.2 := by
  obtain ⟨hc', _, hst⟩ := matchOrder_depleted hc ho h
  refine ⟨?_, hc', hst⟩
  have hn : Consistent ⟨b.note (.matching o b.toBook), some o⟩ := ⟨hc.linked, hc.fresh⟩
  rcases matchOrder_cases h with h | ⟨_, rfl⟩
  · have hturn (s s' : MapOrderBook × Order)
        (hs : Consistent ⟨s.1, some s.2⟩ ∧ o.SameTerms s.2 ∧
          Thinned (b.note (.matching o b.toBook)) s.1)
        (hct : s.1.canTrade s.2 = true) (hm : s.1.matchFront s.2 = .ok s') :
        Consistent ⟨s'.1, some s'.2⟩ ∧ o.SameTerms s'.2 ∧
          Thinned (b.note (.matching o b.toBook)) s'.1 := by
      obtain ⟨hs, ht, hthin⟩ := hs
      have hl : Linked s.1.toBook := hs.linked
      obtain ⟨key, l, i, w, htr⟩ := hl.traded hm
      exact ⟨hs.workStep (.traded (ht.isMatchable.2 ho) hct hm),
        ht.trans (matchFront_sameTerms s.1 hm), hthin.trans (htr.thinned hl)⟩
    exact (whileLoop_inv hturn ⟨hn, .refl _, .refl _⟩ h).1.2.2
  · exact .refl _

/-- What is left of the order that `match` was called with last comes to rest behind the others. -/
theorem AllFair.inserted (h : AllFair b) (ho : o.type = .limit) (hl : Linked b.toBook)
    (hn : b.orders.find? o.id = none) (hlast : arrivals b.trace = is ++ [o.id]) :
    AllFair (b.insertLimitOrder o) := by
  obtain ⟨it, hh, hi⟩ := insertLimitOrder_inserted ho hn
  refine ⟨fun side key => ?_, fun hs => ?_⟩
  · have hq := h.inOrder side key
    unfold ArrivedBefore at hq ⊢
    rw [hi.queue, hi.trace]
    rw [hlast] at hq ⊢
    split
    · exact pairwise_before_concat hq (hl.not_mem_queue hn)
    · exact hq
  · rw [hi.trace] at hs
    exact h.calls hs

theorem fill_allFair (hc : Consistent ⟨b, some o⟩) (ho : o.IsMatchable) (h : AllFair b)
    (hx : b.fill fuel o = .ok b') : AllFair b' := by
  unfold MapOrderBook.fill at hx
  split at hx
  · rename_i hm
    have hmarket : o.type = .market := of_decide_eq_true hm
    obtain ⟨s, hs, hx⟩ := bind_eq_ok.1 hx
    cases hx
    have hf : Fair b (o.setPrice (if o.isAsk then 0 else maxPrice)) :=
      ⟨.inr hmarket, hc.workStep (.priced hmarket), h.inOrder⟩
    obtain ⟨ht, _⟩ := matchOrder_thinned hf.consistent hf.matchable hs
    exact (hf.noted h).thinned (ht.trans (.emit _ _))
  · rename_i hm
    have hlim : o.type = .limit := ho.resolve_right fun ht => hm (decide_eq_true ht)
    have hf : Fair b o := ⟨ho, hc, h.inOrder⟩
    obtain ⟨b₁, o₁, hs, hrest⟩ := addLimitOrder_cases hx
    obtain ⟨ht, hc₁, hst⟩ := matchOrder_thinned hc ho hs
    have hfair : AllFair b₁ := (hf.noted h).thinned ht
    rcases hrest with ⟨_, _, rfl⟩ | ⟨_, rfl⟩
    · have harr : arrivals b₁.trace = arrivals b.trace ++ [o₁.id] := by
        rw [ht.trace.arrivals, trace_note, arrivals, List.filterMap_append, hst.id]
        rfl
      exact hfair.inserted (hst.type.trans hlim) hc₁.linked (hc₁.fresh rfl) harr
    · exact hfair.thinned (.emit _ _)

theorem Submission.allFair {b : MapOrderBook} (hi : Inv ⟨b, none⟩)
    (ho : Proper b.toBook (.submit o)) (h : AllFair b) (hs : Submission fuel b o x)
    (hx : x = .ok b') : AllFair b' := by
  have hadd : Inv ⟨b.emit (.orderAdded o), some o⟩ := hi.step (.added ho)
  have hadded : AllFair (b.emit (.orderAdded o)) := h.thinned (.emit _ _)
  cases hs with
  | matched hm => exact fill_allFair hadd.consistent hm hadded hx
  | triggered hst htr =>
    have hst' := (isStopType_arriving b.toBook o).2 hst
    have hact := hadd.arriving.step (.triggered hst' htr)
    exact fill_allFair hact.consistent (Order.activate_isMatchable hst')
      (hadded.thinned (.emit _ _)) hx
  | waits hst _ hh hins =>
    cases hx
    have hst' := (isStopType_arriving b.toBook o).2 hst
    exact hadded.thinned (hins.thinned (Order.isStop_of_home? hh hst'))

theorem Stage.allFair (hi : Inv ⟨b, none⟩) (h : AllFair b) (hs : Stage b b') : AllFair b' := by
  cases hs with
  | submitted ho hsub => exact (submitOrder_submission ho.1).allFair hi ho h hsub
  | activated ht _ hx =>
    obtain ⟨key, l, i, w, b₁, b₂, ha⟩ := activateFront_activated hi.linked hx
    have hst : w.order.IsStopType := Order.isStopType_of_home? (hi.linked.home ha.deleted.order)
      (by rw [ha.levelIt]; exact ht)
    have hact := hi.workStep (.activating ht ha.first ha.front ha.deleted.order ha.erased)
    have hpopped : AllFair b₁ := h.thinned (ha.deleted.thinned hi.linked)
    have hfilled : AllFair b₂ := fill_allFair hact.consistent (Order.activate_isMatchable hst)
      (hpopped.thinned (.emit _ _)) ha.filled
    cases ha.noted
    exact hfilled.thinned ⟨by rw [trace_note]; exact .single _ rfl, fun _ _ => .refl _⟩
  | updated hu =>
    obtain ⟨b₁, hb₁, hu'⟩ := updateStopOrders_updated hi.linked _
    rw [hu] at hb₁
    cases hb₁
    exact h.thinned hu'.thinned
  | executed hx =>
    obtain ⟨w, l, hc⟩ := executeResting_changed hx
    exact h.thinned (hc.thinned hi.linked (.execute _ _ _) (.single _ rfl))
  | cancelled hx =>
    obtain ⟨w, l, hc⟩ := cancelResting_changed hx
    exact h.thinned (hc.thinned hi.linked (.setQuantity _ _) (.single _ rfl))
  | deleted hx =>
    obtain ⟨w, l, hd⟩ := deleteOrderWith_deleted hx
    exact h.thinned (hd.thinned hi.linked)

/-- Whether a price is better than another one for an incoming order of a side. -/
def OrderSide.Better : OrderSide → UInt64 → UInt64 → Prop
  | .ask, price, price' => price' < price
  | .bid, price, price' => price < price'

/-- A turn of the loop of `match` trades with the limit order of the other side that has the best
price, and of those the one that arrived first. -/
def TradesFirst (s s' : MapOrderBook × Order) : Prop :=
  ∃ i w, s.1.orders.find? i = some w ∧ w.order.type = .limit ∧ w.order.side ≠ s.2.side ∧
    (s.1.trace ++ tradeNotes s'.2
      (w.order.execute w.order.price (min s.2.openQuantity w.order.openQuantity)) w.order.price
      (min s.2.openQuantity w.order.openQuantity)) <+: s'.1.trace ∧
    ∀ j w', s.1.orders.find? j = some w' → w'.order.type = .limit → w'.order.side ≠ s.2.side →
      j ≠ i → s.2.side.Better w.order.price w'.order.price ∨
        w'.order.price = w.order.price ∧ ArrivedBefore s.1.trace i j

theorem Traded.tradesFirst (h : Linked b.toBook) (hf : FirstCome b)
    (ht : Traded b o key l i w b' o') : TradesFirst (b, o) (b', o') := by
  have hw := ht.changed.order
  have hit := ht.levelIt h
  have hkey := h.price_of_opposite hw hit
  obtain ⟨hlim, hside⟩ := (h.opposite_iff hw o.side).2 (by rw [hit, hkey])
  obtain ⟨hl, _⟩ := bestOpposite_eq_some ht.best
  refine ⟨i, w, hw, hlim, hside, ?_, fun j w' hw' hlim' hside' hne => ?_⟩
  · rw [ht.changed.trace, ht.order]
    exact List.prefix_append _ _
  · have hit' := (h.opposite_iff hw' o.side).1 ⟨hlim', hside'⟩
    obtain ⟨l', hl', hj⟩ := h.held hw'
    rw [hit'] at hl'
    by_cases hp : w'.order.price = key
    · rw [hp, hl] at hl'
      cases hl'
      obtain ⟨is, his⟩ : ∃ is, l.orders = i :: is := List.head?_eq_some_iff.1 ht.front
      have hq := hf o.side key
      rw [queue_of_level? hl, his] at hq
      rw [his] at hj
      exact .inr ⟨hp.trans hkey.symm,
        (List.pairwise_cons.1 hq).1 j ((List.mem_cons.1 hj).resolve_left hne)⟩
    · left
      have hbest := ht.best
      rw [hkey]
      unfold Book.bestOpposite at hbest
      cases hs : o.side with
      | ask =>
        rw [hs] at hbest hl'
        have hle := (SortedMap.rbegin?_eq_some hbest).2 w'.order.price l' hl'
        exact UInt64.lt_of_le_of_ne hle hp
      | bid =>
        rw [hs] at hbest hl'
        have hle := (SortedMap.begin?_eq_some hbest).2 w'.order.price l' hl'
        exact UInt64.lt_of_le_of_ne hle fun he => hp he.symm

/-- Between the trades of a call the limit orders stay in order. -/
theorem Fair.trades (hf : Fair b o)
    (hts : Trades (b.note (.matching o b.toBook), o) s) :
    s.2.IsMatchable ∧ Consistent ⟨s.1, some s.2⟩ ∧ FirstCome s.1 := by
  have hl : Linked b.toBook := hf.consistent.linked
  induction hts with
  | refl =>
    refine ⟨hf.matchable, ⟨hf.consistent.linked, hf.consistent.fresh⟩, fun side key => ?_⟩
    unfold ArrivedBefore
    rw [trace_note, arrivals, List.filterMap_append]
    exact pairwise_before (hf.inOrder side key) (hl.not_mem_queue (hf.consistent.fresh rfl))
  | @tail s s' _ ht ih =>
    obtain ⟨hm, hc, hin⟩ := ih
    have hl : Linked s.1.toBook := hc.linked
    obtain ⟨key, l, i, w, htr⟩ := hl.traded ht.2
    exact ⟨(matchFront_sameTerms s.1 ht.2).isMatchable.2 hm, hc.workStep (.traded hm ht.1 ht.2),
      hin.thinned (htr.thinned hl)⟩

/-- Price-time priority. At every call of `match` in every run, be the order a submitted one, a
replacement or an activated stop order, each trade takes the resting order with the best price, and
of those of one price the one that was given to `match` first. -/
theorem price_time_priority (h : Reachable Op.Legal symbolId b) (hs : Stages b b')
    (hcall : b'.trace = told ++ .matching o before :: rest)
    (hts : Trades (MapOrderBook.note ⟨before, told⟩ (.matching o before), o) s)
    (ht : Trading s s') : TradesFirst s s' := by
  have hnew : AllFair (.new symbolId) := by
    refine ⟨fun side key => ?_, fun hs => ?_⟩
    · have hnil : (MapOrderBook.new symbolId).queue ⟨Book.oppositeMap side, key⟩ = [] := by
        cases side <;> rfl
      rw [hnil]
      exact .nil
    · exact absurd hs.symm (by simp [MapOrderBook.new])
  have hstage {b b' : MapOrderBook} (hi : Inv ⟨b, none⟩) (h : AllFair b) (hs : Stage b b') :
      AllFair b' := hs.allFair hi h
  have hfair := (Stages.induct hstage h.inv (h.stage_induct hnew hstage) hs).2
  obtain ⟨_, hc, hin⟩ := (hfair.calls hcall).trades hts
  have hl : Linked s.1.toBook := hc.linked
  obtain ⟨key, l, i, w, htr⟩ := hl.traded ht.2
  exact htr.tradesFirst hl hin

/-- Two asks of one price and a bid that trades with the first one. -/
def sharedLevelOps : List Op :=
  [.addOrder (.new .limit .ask .gtc 1 10 0 0 5 1), .addOrder (.new .limit .ask .gtc 1 10 0 0 5 2),
    .addOrder (.new .limit .bid .gtc 1 10 0 0 3 3)]

/-- The book and the order of the call of `match` that the `n`-th note of the trace tells of. -/
def MapOrderBook.callAt (b : MapOrderBook) (n : Nat) : Option (MapOrderBook × Order) :=
  match (b.trace : List Note)[n]? with
  | some (.matching o before) =>
    some (MapOrderBook.note ⟨before, b.trace.take n⟩ (.matching o before), o)
  | _ => none

theorem callAt_eq_some {b : MapOrderBook} (h : b.callAt n = some s) : ∃ o before rest,
    b.trace = b.trace.take n ++ .matching o before :: rest ∧
    s = (MapOrderBook.note ⟨before, b.trace.take n⟩ (.matching o before), o) := by
  unfold MapOrderBook.callAt at h
  split at h
  · rename_i o before hn
    cases h
    obtain ⟨hlt, hn⟩ := List.getElem?_eq_some_iff.1 hn
    refine ⟨o, before, b.trace.drop (n + 1), ?_, rfl⟩
    rw [← hn, ← List.drop_eq_getElem_cons hlt, List.take_append_drop]
  · cases h

theorem price_time_priority_sharedLevelOps : ∃ (b : MapOrderBook) (s s' : MapOrderBook × Order),
    (MapOrderBook.new 1).run 20 sharedLevelOps = .ok b ∧ b.callAt 9 = some s ∧
    s.1.matchFront s.2 = .ok s' ∧ s.1.queue ⟨.ask, 10⟩ = [1, 2] ∧ s.2.id = 3 ∧
    TradesFirst s s' := by
  obtain ⟨b, hb, hr, hf⟩ := exists_reachable_of_run Op.Legal 1 20 sharedLevelOps
    (by decide +kernel)
    (f := fun b => (b.callAt 9).bind fun s => (s.1.matchFront s.2).toOption.bind fun _ =>
      some (s.1.queue ⟨.ask, 10⟩, s.2.id, s.1.canTrade s.2))
    (o := ([1, 2], 3, true)) (by decide +kernel)
  obtain ⟨s, hs, hf⟩ := Option.bind_eq_some_iff.1 hf
  obtain ⟨s', hs', hf⟩ := exists_of_run hf
  simp only [Option.some.injEq, Prod.mk.injEq] at hf
  obtain ⟨hq, hid, hc⟩ := hf
  obtain ⟨o, before, rest, ht, rfl⟩ := callAt_eq_some hs
  exact ⟨b, _, s', hb, hs, hs', hq, hid, price_time_priority hr .refl ht .refl ⟨hc, hs'⟩⟩

end RapidTrader
