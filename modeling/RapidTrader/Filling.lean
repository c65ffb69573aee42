import RapidTrader.FillOrKill
import RapidTrader.StopFrame

namespace RapidTrader
open Lib
set_option autoImplicit true

/-- The stop orders a trace says have been activated. -/
def Note.activated? : Note → Option Order
  | .activated o _ => some o
  | _ => none

def activations (trace : List Note) : List Order := trace.filterMap Note.activated?

theorem activations_append (t ns : List Note) :
    activations (t ++ ns) = activations t ++ activations ns := List.filterMap_append

/-- The id of the order a trace says has been added. -/
def Note.added? : Note → Option UInt64
  | .event (.orderAdded o) => some o.id
  | _ => none

def additions (trace : List Note) : List UInt64 := trace.filterMap Note.added?

theorem additions_append (t ns : List Note) :
    additions (t ++ ns) = additions t ++ additions ns := List.filterMap_append

/-- A note that tells neither of an activation nor of an addition. -/
def Note.IsPlain (n : Note) : Prop := n.activated? = none ∧ n.added? = none

/-- The trace has grown by plain notes. -/
def Plainly (t t' : List Note) : Prop := ∃ ns, t' = t ++ ns ∧ ∀ n ∈ ns, n.IsPlain

namespace Plainly

theorem refl (t : List Note) : Plainly t t :=
  ⟨[], (List.append_nil t).symm, fun _ hn => (nomatch hn)⟩

theorem single (t : List Note) (hn : n.IsPlain) : Plainly t (t ++ [n]) :=
  ⟨[n], rfl, fun _ hm => by rw [List.mem_singleton.1 hm]; exact hn⟩

theorem trans (h : Plainly t t') (h' : Plainly t' t'') : Plainly t t'' := by
  obtain ⟨ns, rfl, hns⟩ := h
  obtain ⟨ms, rfl, hms⟩ := h'
  refine ⟨ns ++ ms, List.append_assoc _ _ _, fun n hn => ?_⟩
  exact (List.mem_append.1 hn).elim (hns n) (hms n)

theorem activations (h : Plainly t t') : activations t' = activations t := by
  obtain ⟨ns, rfl, hns⟩ := h
  have hnil : RapidTrader.activations ns = [] :=
    List.filterMap_eq_nil_iff.2 fun n hn => (hns n hn).1
  rw [activations_append, hnil, List.append_nil]

theorem additions (h : Plainly t t') : additions t' = additions t := by
  obtain ⟨ns, rfl, hns⟩ := h
  have hnil : RapidTrader.additions ns = [] :=
    List.filterMap_eq_nil_iff.2 fun n hn => (hns n hn).2
  rw [additions_append, hnil, List.append_nil]

end Plainly

/-- What trading does to a book: resting limit orders leave it or lose quantity, and all else stays.
This holds of orders of any terms. -/
structure Depleted (b b' : MapOrderBook) : Prop where
  rests : b'.orders.find? i = some w' → ∃ w, b.orders.find? i = some w ∧
    w.order.SameTerms w'.order ∧ w'.levelIt = w.levelIt
  stops : b.orders.find? i = some w → w.order.type ≠ .limit → b'.orders.find? i = some w
  stopLevels : it.levels.IsStop → b'.level? it = b.level? it
  size : b'.orders.size ≤ b.orders.size
  symbolId : b'.symbolId = b.symbolId
  trailingBidPrice : b'.trailingBidPrice = b.trailingBidPrice
  trailingAskPrice : b'.trailingAskPrice = b.trailingAskPrice
  trace : Plainly b.trace b'.trace

namespace Depleted

theorem note (b : MapOrderBook) (hn : n.IsPlain) : Depleted b (b.note n) :=
  ⟨fun hw => ⟨_, hw, .refl _, rfl⟩, fun hw _ => hw, fun _ => rfl, Nat.le_refl _, rfl, rfl, rfl,
    .single _ hn⟩

theorem trans (h : Depleted b b') (h' : Depleted b' b'') : Depleted b b'' := by
  refine ⟨fun hw => ?_, fun hw ht => h'.stops (h.stops hw ht) ht,
    fun hit => (h'.stopLevels hit).trans (h.stopLevels hit), h'.size.trans h.size,
    h'.symbolId.trans h.symbolId, h'.trailingBidPrice.trans h.trailingBidPrice,
    h'.trailingAskPrice.trans h.trailingAskPrice, h.trace.trans h'.trace⟩
  obtain ⟨w₁, hw₁, ht₁, hi₁⟩ := h'.rests hw
  obtain ⟨w₀, hw₀, ht₀, hi₀⟩ := h.rests hw₁
  exact ⟨w₀, hw₀, ht₀.trans ht₁, hi₁.trans hi₀⟩

end Depleted

theorem LevelMap.IsStop.ne_oppositeMap {t : LevelMap} (h : t.IsStop) (side : OrderSide) :
    t ≠ Book.oppositeMap side := by
  cases side with
  | ask => exact h.2
  | bid => exact h.1

theorem isPlain_tradeNotes {o resting : Order} (h : n ∈ tradeNotes o resting price quantity) :
    n.IsPlain := by
  unfold tradeNotes at h
  split at h <;> simp only [List.mem_cons, List.not_mem_nil, or_false] at h <;>
    rcases h with rfl | rfl | rfl <;> exact ⟨rfl, rfl⟩

theorem Traded.depleted (h : Linked b.toBook) (ht : Traded b o key l i w b' o') :
    Depleted b b' := by
  have hc := ht.changed
  have hlim := ht.isLimit h
  have hst := Order.SameTerms.execute w.order w.order.price (matched o w.order)
  have hit : w.levelIt.levels = Book.oppositeMap o.side := by
    obtain ⟨i', w', hfr, hw, hit, _⟩ := h.front (bestOpposite_eq_some ht.best).1
    rw [ht.front] at hfr
    cases hfr
    rw [hc.order] at hw
    cases hw
    rw [hit]
  refine ⟨fun {k w'} hk => ?_, fun {k w'} hk hne => ?_, fun {it} hs => ?_, ?_, hc.symbolId,
    hc.trailingBidPrice, hc.trailingAskPrice, ?_⟩
  · rw [hc.find?_orders] at hk
    split at hk
    · rename_i hki
      split at hk
      · cases hk
      · cases hk
        exact ⟨w, hki ▸ hc.order, hst, rfl⟩
    · exact ⟨w', hk, .refl _, rfl⟩
  · rw [hc.find?_orders, if_neg, hk]
    rintro rfl
    rw [hc.order] at hk
    cases hk
    exact hne hlim
  · rw [hc.levels (hst.home?.trans (h.home hc.order)), if_neg]
    rintro rfl
    exact hs.ne_oppositeMap o.side hit
  · have hsize := SortedMap.size_erase hc.order
    rw [hc.orders]
    split
    · omega
    · rw [SortedMap.size_insert]
      omega
  · rw [hc.trace]
    refine ⟨_, List.append_assoc _ _ _, fun n hn => ?_⟩
    rcases List.mem_append.1 hn with hn | hn
    · exact isPlain_tradeNotes hn
    · split at hn
      · rw [List.mem_singleton.1 hn]
        exact ⟨rfl, rfl⟩
      · cases hn

/-- `match` runs its loop or, for a fill-or-kill order, does nothing. -/
theorem matchOrder_cases {b : MapOrderBook} (h : b.matchOrder fuel o = .ok s) :
    MapOrderBook.matchLoop fuel (b.note (.matching o b.toBook), o) = .ok s ∨
      (o.isFok = true ∧ s = (b.note (.matching o b.toBook), o)) := by
  cases hk : o.isFok with
  | false =>
    rw [matchOrder_not_fok hk] at h
    exact .inl h
  | true =>
    rw [matchOrder_fok hk] at h
    split at h
    · cases h
    · exact .inl h
    · cases h
      exact .inr ⟨rfl, rfl⟩

theorem matchOrder_depleted (hc : Consistent ⟨b, some o⟩) (ho : o.IsMatchable)
    (h : b.matchOrder fuel o = .ok (b', o')) :
    Consistent ⟨b', some o'⟩ ∧ Depleted b b' ∧ o.SameTerms o' := by
  have hd : Depleted b (b.note (.matching o b.toBook)) := .note b ⟨rfl, rfl⟩
  have hn : Consistent ⟨b.note (.matching o b.toBook), some o⟩ := ⟨hc.linked, hc.fresh⟩
  rcases matchOrder_cases h with h | ⟨_, he⟩
  · have hturn (s s' : MapOrderBook × Order)
        (hs : Consistent ⟨s.1, some s.2⟩ ∧ Depleted b s.1 ∧ o.SameTerms s.2)
        (hct : s.1.canTrade s.2 = true) (hm : s.1.matchFront s.2 = .ok s') :
        Consistent ⟨s'.1, some s'.2⟩ ∧ Depleted b s'.1 ∧ o.SameTerms s'.2 := by
      obtain ⟨hs, hd, ht⟩ := hs
      have hl : Linked s.1.toBook := hs.linked
      obtain ⟨key, l, i, w, htr⟩ := hl.traded hm
      exact ⟨hs.workStep (.traded (ht.isMatchable.2 ho) hct hm), hd.trans (htr.depleted hl),
        ht.trans (matchFront_sameTerms s.1 hm)⟩
    exact (whileLoop_inv hturn ⟨hn, hd, .refl _⟩ h).1
  · cases he
    exact ⟨hn, hd, .refl _⟩

/-- The two ways a limit order ends: it comes to rest with what is left of it, or it is dropped. -/
theorem addLimitOrder_cases {b : MapOrderBook} (h : b.addLimitOrder fuel o = .ok b') :
    ∃ b₁ o₁, b.matchOrder fuel o = .ok (b₁, o₁) ∧
      (o.timeInForce = .gtc ∧ o₁.isFilled = false ∧ b' = b₁.insertLimitOrder o₁ ∨
        (o₁.isFilled = true ∨ o.timeInForce ≠ .gtc) ∧ b' = b₁.emit (.orderDeleted o₁)) := by
  obtain ⟨⟨b₁, o₁⟩, hm, h⟩ := bind_eq_ok.1 h
  have ht := (matchOrder_exit fuel b hm).1.timeInForce
  refine ⟨b₁, o₁, hm, ?_⟩
  dsimp only at h
  cases hf : o₁.isFilled <;> cases htif : o.timeInForce <;>
    simp only [hf, Order.isIoc, Order.isFok, ht, htif] at h <;> cases h
  · exact .inl ⟨rfl, rfl, rfl⟩
  · exact .inr ⟨.inr (by decide), rfl⟩
  · exact .inr ⟨.inr (by decide), rfl⟩
  · exact .inr ⟨.inl rfl, rfl⟩
  · exact .inr ⟨.inl rfl, rfl⟩
  · exact .inr ⟨.inl rfl, rfl⟩

/-- How an order is added that is matched at once. -/
def MapOrderBook.fill (fuel : Nat) (b : MapOrderBook) (o : Order) : Exec MapOrderBook :=
  if o.isMarket then b.addMarketOrder fuel o else b.addLimitOrder fuel o

/-- What it does to a book to fill an order: trading, and perhaps the order comes to rest. -/
structure Filled (b : MapOrderBook) (o : Order) (b' : MapOrderBook) : Prop where
  linked : Linked b'.toBook
  rests : b'.orders.find? i = some w' → (∃ w, b.orders.find? i = some w ∧
    w.order.SameTerms w'.order ∧ w'.levelIt = w.levelIt) ∨
    (i = o.id ∧ o.SameTerms w'.order ∧ o.type = .limit)
  stops : b.orders.find? i = some w → w.order.type ≠ .limit → b'.orders.find? i = some w
  stopLevels : it.levels.IsStop → b'.level? it = b.level? it
  size : b'.orders.size ≤ b.orders.size + 1
  symbolId : b'.symbolId = b.symbolId
  trailingBidPrice : b'.trailingBidPrice = b.trailingBidPrice
  trailingAskPrice : b'.trailingAskPrice = b.trailingAskPrice
  trace : Plainly b.trace b'.trace

theorem Depleted.filled (h : Depleted b b') (hl : Linked b'.toBook) : Filled b o b' :=
  ⟨hl, fun hw => .inl (h.rests hw), h.stops, h.stopLevels, Nat.le_succ_of_le h.size, h.symbolId,
    h.trailingBidPrice, h.trailingAskPrice, h.trace⟩

/-- What is left of an order comes to rest. -/
theorem Depleted.inserted (h : Depleted b b₁) (hl : Linked b₁.toBook)
    (hn : b₁.orders.find? o₁.id = none) (ht : o.SameTerms o₁) (hlim : o.type = .limit) :
    Filled b o (b₁.insertLimitOrder o₁) := by
  have hlim' : o₁.type = .limit := ht.type.trans hlim
  obtain ⟨it, hh, hi⟩ := insertLimitOrder_inserted hlim' hn
  have hm := Order.levelMap?_eq_some.1 (Order.home?_levelMap? hh)
  refine ⟨hl.inserted hn hh hi, fun {k w'} hk => ?_, fun {k w} hk hne => ?_, fun {it'} hs => ?_,
    ?_, hi.prices.symbolId.trans h.symbolId,
    hi.prices.trailingBidPrice.trans h.trailingBidPrice,
    hi.prices.trailingAskPrice.trans h.trailingAskPrice, by rw [hi.trace]; exact h.trace⟩
  · rw [hi.find?_orders] at hk
    split at hk
    · rename_i hki
      cases hk
      exact .inr ⟨hki.trans ht.id, ht, hlim⟩
    · exact .inl (h.rests hk)
  · have hk₁ := h.stops hk hne
    rw [hi.find?_orders, if_neg, hk₁]
    rintro rfl
    rw [hn] at hk₁
    cases hk₁
  · rw [hi.levels, if_neg, h.stopLevels hs]
    rintro rfl
    cases hit : it'.levels <;> rw [hit] at hm hs
    · exact hs.1 rfl
    · exact hs.2 rfl
    all_goals simp [Order.IsTrailing, hlim'] at hm
  · have hsize := h.size
    rw [hi.orders, SortedMap.size_insert, SortedMap.erase_of_find?_none hn]
    omega

theorem addLimitOrder_filled (hc : Consistent ⟨b, some o⟩) (ho : o.type = .limit)
    (h : b.addLimitOrder fuel o = .ok b') : Filled b o b' := by
  obtain ⟨b₁, o₁, hm, ⟨_, _, rfl⟩ | ⟨_, rfl⟩⟩ := addLimitOrder_cases h
  · obtain ⟨hc₁, hd, ht⟩ := matchOrder_depleted hc (.inl ho) hm
    exact hd.inserted hc₁.linked (hc₁.fresh rfl) ht ho
  · obtain ⟨hc₁, hd, _⟩ := matchOrder_depleted hc (.inl ho) hm
    exact (hd.trans (.note b₁ ⟨rfl, rfl⟩)).filled hc₁.linked

theorem addMarketOrder_filled (hc : Consistent ⟨b, some o⟩) (ho : o.type = .market)
    (h : b.addMarketOrder fuel o = .ok b') : Filled b o b' := by
  obtain ⟨⟨b₁, o₁⟩, hm, h⟩ := bind_eq_ok.1 h
  cases h
  obtain ⟨hc₁, hd, _⟩ := matchOrder_depleted (hc.workStep (.priced ho)) (.inr ho) hm
  exact (hd.trans (.note b₁ ⟨rfl, rfl⟩)).filled hc₁.linked

theorem fill_filled (hc : Consistent ⟨b, some o⟩) (ho : o.IsMatchable)
    (h : b.fill fuel o = .ok b') : Filled b o b' := by
  unfold MapOrderBook.fill at h
  split at h
  · rename_i hm
    exact addMarketOrder_filled hc (of_decide_eq_true hm) h
  · rename_i hm
    exact addLimitOrder_filled hc (ho.resolve_right fun ht => hm (decide_eq_true ht)) h

theorem Updated.plainly (hu : Updated b side b') : Plainly b.trace b'.trace := by
  cases hr : b.relevels side with
  | false =>
    rw [hu.skipped hr]
    exact .single _ ⟨rfl, rfl⟩
  | true =>
    obtain ⟨ws, _, hm⟩ := hu.moved hr
    rw [hm.trace, trace_note, List.append_assoc]
    refine ⟨_, rfl, fun n hn => ?_⟩
    rcases List.mem_append.1 hn with hn | hn
    · rw [List.mem_singleton.1 hn]
      exact ⟨rfl, rfl⟩
    · obtain ⟨w, _, rfl⟩ := List.mem_map.1 hn
      exact ⟨rfl, rfl⟩

/-! ### Submission -/

/-- A trailing order gets its stop price when it arrives. -/
def Book.arriving (b : Book) (o : Order) : Order :=
  if o.isTrailingStop || o.isTrailingStopLimit then b.calculateStopPrice o else o

theorem arriving_of_isTrailing {o : Order} (h : o.IsTrailing) (b : Book) :
    b.arriving o = b.calculateStopPrice o := by
  rcases h with h | h <;> simp [Book.arriving, Order.isTrailingStop, Order.isTrailingStopLimit, h]

theorem arriving_of_not_isTrailing {o : Order} (h : ¬ o.IsTrailing) (b : Book) :
    b.arriving o = o := by
  unfold Book.arriving
  rw [if_neg]
  simpa [Order.isTrailingStop, Order.isTrailingStopLimit, Order.IsTrailing] using h

section Arriving
variable (b : Book) (o : Order)

@[simp] theorem id_arriving : (b.arriving o).id = o.id := by
  unfold Book.arriving
  split <;> rfl

@[simp] theorem type_arriving : (b.arriving o).type = o.type := by
  unfold Book.arriving
  split <;> rfl

@[simp] theorem timeInForce_arriving : (b.arriving o).timeInForce = o.timeInForce := by
  unfold Book.arriving
  split <;> rfl

theorem isStopType_arriving : (b.arriving o).IsStopType ↔ o.IsStopType := by
  unfold Order.IsStopType Order.IsTrailing
  rw [type_arriving]

end Arriving

/-- What becomes of an order that is added: it is filled, or waits for its stop price. -/
inductive Submission (fuel : Nat) (b : MapOrderBook) (o : Order) : Exec MapOrderBook → Prop
  | matched : o.IsMatchable → Submission fuel b o ((b.emit (.orderAdded o)).fill fuel o)
  | triggered : o.IsStopType → b.stopTriggered (b.arriving o) = true →
      Submission fuel b o (((b.emit (.orderAdded o)).emit (.orderUpdated
        (b.arriving o).activate)).fill fuel (b.arriving o).activate)
  | waits : o.IsStopType → b.stopTriggered (b.arriving o) = false →
      (b.arriving o).home? = some it → Inserted (b.emit (.orderAdded o)) it (b.arriving o) b' →
      Submission fuel b o (.ok b')

theorem addStopOrder_submission {b : MapOrderBook} (ho : o.IsStopType)
    (hn : b.orders.find? o.id = none) :
    Submission fuel b o ((b.emit (.orderAdded o)).addStopOrder fuel o) := by
  have harr : (if (o.isTrailingStop || o.isTrailingStopLimit) = true then
      (b.emit (.orderAdded o)).calculateStopPrice o else o) = b.arriving o := rfl
  unfold MapOrderBook.addStopOrder
  rw [harr]
  dsimp only
  rw [toBook_emit]
  cases ht : b.stopTriggered (b.arriving o) with
  | true => exact .triggered ho ht
  | false =>
    rw [if_neg Bool.false_ne_true]
    have hn' : (b.emit (.orderAdded o)).orders.find? (b.arriving o).id = none := by
      rw [id_arriving]
      exact hn
    split
    · rename_i htr
      have htr' : (b.arriving o).IsTrailing := by
        simpa [Order.isTrailingStop, Order.isTrailingStopLimit, Order.IsTrailing] using htr
      obtain ⟨it, hh, hi⟩ := insertTrailingStopOrder_inserted htr' hn'
      exact .waits ho ht hh hi
    · rename_i htr
      have htr' : ¬ (b.arriving o).IsTrailing := by
        simpa [Order.isTrailingStop, Order.isTrailingStopLimit, Order.IsTrailing] using htr
      have hst : (b.arriving o).type = .stop ∨ (b.arriving o).type = .stopLimit := by
        rcases (isStopType_arriving b.toBook o).2 ho with h | h | h
        · exact .inl h
        · exact .inr h
        · exact absurd h htr'
      obtain ⟨it, hh, hi⟩ := insertStopOrder_inserted hst hn'
      exact .waits ho ht hh hi

theorem submitOrder_submission {b : MapOrderBook} (hn : b.orders.find? o.id = none) :
    Submission fuel b o (b.submitOrder fuel o) := by
  unfold MapOrderBook.submitOrder
  cases ht : o.type with
  | limit =>
    have hm : o.isMarket = false := by
      rw [Order.isMarket, ht]
      rfl
    have hf : (b.emit (.orderAdded o)).fill fuel o =
        (b.emit (.orderAdded o)).addLimitOrder fuel o := by
      rw [MapOrderBook.fill, hm]
      rfl
    dsimp only
    rw [← hf]
    exact .matched (.inl ht)
  | market =>
    have hm : o.isMarket = true := by
      rw [Order.isMarket, ht]
      rfl
    have hf : (b.emit (.orderAdded o)).fill fuel o =
        (b.emit (.orderAdded o)).addMarketOrder fuel o := by
      rw [MapOrderBook.fill, hm]
      rfl
    dsimp only
    rw [← hf]
    exact .matched (.inr ht)
  | stop => exact addStopOrder_submission (.inl ht) hn
  | stopLimit => exact addStopOrder_submission (.inr (.inl ht)) hn
  | trailingStop => exact addStopOrder_submission (.inr (.inr (.inl ht))) hn
  | trailingStopLimit => exact addStopOrder_submission (.inr (.inr (.inr ht))) hn

end RapidTrader
