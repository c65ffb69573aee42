import RapidTrader.TrailingDistance

namespace RapidTrader
open Lib Relation
set_option autoImplicit true

/-- The stop price has followed the market: up on the ask side, down on the bid side. -/
structure Ratcheted (o o' : Order) : Prop where
  side : o'.side = o.side
  ask : o.side = .ask → o.stopPrice ≤ o'.stopPrice
  bid : o.side = .bid → o'.stopPrice ≤ o.stopPrice

namespace Ratcheted

theorem refl (o : Order) : Ratcheted o o :=
  ⟨rfl, fun _ => UInt64.le_refl _, fun _ => UInt64.le_refl _⟩

theorem trans (h : Ratcheted o o') (h' : Ratcheted o' o'') : Ratcheted o o'' :=
  ⟨h'.side.trans h.side, fun hs => UInt64.le_trans (h.ask hs) (h'.ask (h.side.trans hs)),
    fun hs => UInt64.le_trans (h'.bid (h.side.trans hs)) (h.bid hs)⟩

theorem of_sameTerms (h : Order.SameTerms o o') : Ratcheted o o' :=
  ⟨h.side, fun _ => by rw [h.stopPrice]; exact UInt64.le_refl _,
    fun _ => by rw [h.stopPrice]; exact UInt64.le_refl _⟩

end Ratcheted

/-- The market has moved so far in the favour of a trailing order that its stop price, recalculated,
would follow. -/
def Book.Favours (b : Book) (o : Order) : Prop :=
  match o.side with
  | .ask => o.stopPrice.toNat + o.trailAmount.toNat ≤ b.lastTradedPrice.toNat ∨ o.stopPrice = 0
  | .bid => b.lastTradedPriceAsk.toNat + o.trailAmount.toNat ≤ o.stopPrice.toNat ∨
      o.stopPrice = maxPrice

/-- Recalculating a stop price follows the market exactly when the market has moved in its
favour. -/
theorem ratcheted_iff (b : Book) (o : Order) :
    Ratcheted o (b.calculateStopPrice o) ↔ b.Favours o := by
  unfold Book.Favours
  cases hs : o.side with
  | ask =>
    have hn := toNat_newStopPrice_ask b hs
    have hz : o.stopPrice = 0 ↔ o.stopPrice.toNat = 0 := by
      rw [← UInt64.toNat_inj, UInt64.toNat_zero]
    dsimp only
    rw [hz]
    constructor
    · intro h
      have hle := UInt64.le_iff_toNat_le.1 (h.ask hs)
      rw [stopPrice_calculateStopPrice] at hle
      omega
    · intro h
      refine ⟨rfl, fun _ => ?_, fun hb => absurd (hs.symm.trans hb) nofun⟩
      rw [stopPrice_calculateStopPrice, UInt64.le_iff_toNat_le]
      omega
  | bid =>
    have hn := toNat_newStopPrice_bid b hs
    have hz : o.stopPrice = maxPrice ↔ o.stopPrice.toNat = maxPrice.toNat := UInt64.toNat_inj.symm
    have hlt := o.stopPrice.toNat_lt
    dsimp only
    rw [hz]
    rw [toNat_maxPrice] at hn ⊢
    constructor
    · intro h
      have hle := UInt64.le_iff_toNat_le.1 (h.bid hs)
      rw [stopPrice_calculateStopPrice] at hle
      omega
    · intro h
      refine ⟨rfl, fun ha => absurd (hs.symm.trans ha) nofun, fun _ => ?_⟩
      rw [stopPrice_calculateStopPrice, UInt64.le_iff_toNat_le]
      omega

/-- An update that moves trailing orders finds the market moved in the favour of all of them. -/
def Follows (side : OrderSide) (b : Book) : Prop :=
  b.relevels side = true → ∀ i w, b.orders.find? i = some w → w.order.IsTrailing →
    w.order.side = side → b.Favours w.order

def Note.Follows : Note → Prop
  | .updating side before => RapidTrader.Follows side before
  | _ => True

/-- All updates of a trace follow the market. -/
def AllFollow (trace : List Note) : Prop := ∀ n ∈ trace, n.Follows

theorem AllFollow.of_prefix (h : AllFollow t') (hp : t <+: t') : AllFollow t :=
  fun n hn => h n (hp.subset hn)

theorem follows_iff (side : OrderSide) (b : Book) : Follows side b ↔
    (b.relevels side = true → ∀ e ∈ b.orders.entries, e.2.order.IsTrailing →
      e.2.order.side = side → b.Favours e.2.order) := by
  constructor
  · exact fun h hr e he => h hr e.1 e.2 (SortedMap.find?_eq_some.2 he)
  · exact fun h hr i w hw => h hr (i, w) (SortedMap.find?_eq_some.1 hw)

instance (b : Book) (o : Order) : Decidable (b.Favours o) := by
  unfold Book.Favours
  exact match o.side with
    | .ask => inferInstanceAs (Decidable (_ ∨ _))
    | .bid => inferInstanceAs (Decidable (_ ∨ _))

instance (side : OrderSide) (b : Book) : Decidable (Follows side b) :=
  decidable_of_iff _ (follows_iff side b).symm

instance : (n : Note) → Decidable n.Follows
  | .updating side before => inferInstanceAs (Decidable (Follows side before))
  | .event _ | .matching _ _ | .trade _ _ _ _ | .activated _ _ => inferInstanceAs (Decidable True)

instance (trace : List Note) : Decidable (AllFollow trace) :=
  inferInstanceAs (Decidable (∀ n ∈ trace, n.Follows))

/-- Requests that put no trailing order under the id `i` which has not followed the market
since it was `o`. -/
def Spares (i : UInt64) (o : Order) (b : Book) (r : Request) : Prop :=
  Proper b r ∧ ∀ o', r = .submit o' → o'.id = i → o'.IsTrailing →
    Ratcheted o (b.calculateStopPrice o')

/-- The order `i`, as long as it is a trailing order, has followed the market since it was `o`,
unless an update after the first `k` notes did not. -/
structure Follower (k : Nat) (i : UInt64) (o : Order) (c : Config) : Prop where
  later : k ≤ c.book.trace.length
  working : c.working = some o' → o'.id = i → o'.IsTrailing →
    Ratcheted o (c.book.calculateStopPrice o')
  resting : AllFollow (c.book.trace.drop k) → c.book.orders.find? i = some w →
    w.order.IsTrailing → Ratcheted o w.order

namespace Follower

/-- A step that adds to the trace and brings no new trailing order under the id. -/
theorem of_kept (h : Follower k i o c) (ht : c.book.trace <+: c'.book.trace)
    (hkeep : ∀ w, c'.book.orders.find? i = some w → w.order.IsTrailing →
      c.book.orders.find? i = some w)
    (hw : ∀ o', c'.working = some o' → o'.id = i → o'.IsTrailing →
      Ratcheted o (c'.book.calculateStopPrice o')) : Follower k i o c' := by
  constructor
  · exact h.later.trans ht.length_le
  · exact hw _
  · intro w hall hf htr
    apply h.resting _ (hkeep w hf htr) htr
    exact hall.of_prefix (ht.drop k)

theorem workStep (h : Follower k i o c) (hi : Inv c) (hs : WorkStep c c') :
    Follower k i o c' := by
  obtain ⟨ns, htr, _⟩ := hi.workStep_marked hs
  apply h.of_kept
  · rw [htr]
    exact List.prefix_append _ _
  · exact fun w hw ht => (hi.workStep_stopFrame hs).stops hw ht.isStopType
  · intro o' ho' _ ht
    exfalso
    revert ht
    apply Order.not_isTrailing
    cases hs with
    | priced ho =>
      cases ho'
      exact .inr ho
    | matching ho =>
      cases ho'
      exact ho
    | traded ho _ hm =>
      cases ho'
      have hst := matchFront_sameTerms _ hm
      unfold Order.IsMatchable
      rw [hst.type]
      exact ho
    | rested | dropped | activated => cases ho'
    | activating ht hf hfr hw hd =>
      cases ho'
      obtain ⟨i', w', hfr', hw', _, _, hh⟩ := hi.linked.front (firstStop_eq_some hf)
      rw [hfr] at hfr'
      cases hfr'
      rw [hw] at hw'
      cases hw'
      exact Order.activate_isMatchable (Order.isStopType_of_home? hh ht)

/-- An order that changes without changing its terms keeps its stop price. -/
theorem changed (h : Follower k i o ⟨b, none⟩) (hst : w.order.SameTerms o₁)
    (hc : Changed b j w l o₁ amount price (b.trace ++ ns) b') : Follower k i o ⟨b', none⟩ := by
  have hpre : b.trace <+: b'.trace := by
    rw [hc.trace, List.append_assoc]
    exact List.prefix_append _ _
  constructor
  · exact h.later.trans hpre.length_le
  · exact fun h => nomatch h
  · intro w' hall hf ht
    have hall' : AllFollow (b.trace.drop k) := hall.of_prefix (hpre.drop k)
    change b'.orders.find? i = some w' at hf
    rw [hc.find?_orders] at hf
    split at hf
    · rename_i he
      split at hf
      · cases hf
      · cases hf
        have hw : w.order.IsTrailing := by
          unfold Order.IsTrailing
          rw [← hst.type]
          exact ht
        subst he
        exact (h.resting hall' hc.order hw).trans (.of_sameTerms hst)
    · exact h.resting hall' hf ht

theorem deleted (h : Follower k i o ⟨b, none⟩) (hd : Deleted b j w l n b') :
    Follower k i o ⟨b', none⟩ := by
  apply h.of_kept
  · change _ <+: b'.trace
    rw [hd.trace]
    exact List.prefix_append _ _
  · intro w' hf _
    change b'.orders.find? i = some w' at hf
    rw [hd.find?_orders] at hf
    split at hf
    · cases hf
    · exact hf
  · exact fun _ h => absurd h (Option.some_ne_none _).symm

theorem inserted (h : Follower k i o ⟨b, some o₁⟩) (hin : Inserted b it o₁ b')
    (ho : o₁.IsTrailing → o₁ = b.calculateStopPrice o₁) : Follower k i o ⟨b', none⟩ := by
  constructor
  · change k ≤ b'.trace.length
    rw [hin.trace]
    exact h.later
  · exact fun h => nomatch h
  · intro w hall hf ht
    change AllFollow (b'.trace.drop k) at hall
    rw [hin.trace] at hall
    change b'.orders.find? i = some w at hf
    rw [hin.find?_orders] at hf
    split at hf
    · rename_i he
      cases hf
      rw [ho ht]
      exact h.working rfl he.symm ht
    · exact h.resting hall hf ht

/-- An update moves the order only if the market has moved in its favour. -/
theorem updated (h : Follower k i o ⟨b, none⟩) (hl : Linked b.toBook) (hu : Updated b side b') :
    Follower k i o ⟨b'.remember side, none⟩ := by
  have hnote : ∃ ns, b'.trace = b.trace ++ .updating side b.toBook :: ns := by
    cases hr : b.relevels side with
    | false =>
      rw [hu.skipped hr]
      exact ⟨[], rfl⟩
    | true =>
      obtain ⟨ws, _, hm⟩ := hu.moved hr
      exact ⟨_, by rw [hm.trace, trace_note, List.append_assoc]; rfl⟩
  obtain ⟨ns, htr⟩ := hnote
  have hlater : k ≤ b.trace.length := h.later
  constructor
  · change k ≤ (b'.remember side).trace.length
    rw [trace_remember, htr, List.length_append]
    omega
  · exact fun h => nomatch h
  · intro w' hall hf ht
    change AllFollow ((b'.remember side).trace.drop k) at hall
    rw [trace_remember, htr, List.drop_append_of_le_length hlater] at hall
    have hall' : AllFollow (b.trace.drop k) := hall.of_prefix (List.prefix_append _ _)
    obtain ⟨w, hw, ⟨rfl, _⟩ | ⟨hr, hm, rfl⟩⟩ := hu.find?_cases hf
    · exact h.resting hall' hw ht
    · have hfav := hall (.updating side b.toBook) (by simp) hr i w hw ht
        ((hl.trailing_map hw side).1 hm).2
      exact (h.resting hall' hw ht).trans ((ratcheted_iff b.toBook w.order).2 hfav)

theorem step (h : Follower k i o c) (hi : Inv c) (hs : Step (Spares i o) c c') :
    Follower k i o c' := by
  cases hs with
  | work hs => exact h.workStep hi hs
  | added ha =>
    apply h.of_kept
    · exact List.prefix_append _ _
    · exact fun _ hw _ => hw
    · intro o' ho' hid ht
      cases ho'
      exact ha.2 _ rfl hid ht
  | trailed ht =>
    apply h.of_kept
    · exact List.prefix_refl _
    · exact fun _ hw _ => hw
    · intro o' ho' hid ht
      cases ho'
      have hw := h.working rfl hid ht
      exact hw
  | triggered ho _ =>
    apply h.of_kept
    · exact List.prefix_append _ _
    · exact fun _ hw _ => hw
    · intro o' ho' _ ht
      cases ho'
      exact absurd ht (Order.not_isTrailing (Order.activate_isMatchable ho))
  | restedStop ht _ =>
    obtain ⟨it, _, hin⟩ := insertStopOrder_inserted ht (hi.inHand rfl).fresh
    apply h.inserted hin
    rintro (hm | hm) <;> rcases ht with ht | ht <;> rw [ht] at hm <;> cases hm
  | restedTrailing ht he _ =>
    obtain ⟨it, _, hin⟩ := insertTrailingStopOrder_inserted ht (hi.inHand rfl).fresh
    exact h.inserted hin fun _ => he
  | updated hu =>
    obtain ⟨b₁, hb₁, hu'⟩ := updateStopOrders_updated hi.linked _
    rw [hu] at hb₁
    cases hb₁
    exact h.updated hi.linked hu'
  | executed _ hx =>
    obtain ⟨w, l, hc⟩ := executeResting_changed hx
    exact h.changed (.execute _ _ _) hc
  | cancelled _ hx =>
    obtain ⟨w, l, hc⟩ := cancelResting_changed hx
    exact h.changed (.setQuantity _ _) hc
  | deleted _ hd =>
    obtain ⟨w, l, hd⟩ := deleteOrderWith_deleted hd
    exact h.deleted hd

end Follower

/-- The operation puts a new order under the id `i`. -/
def Op.Renews (i : UInt64) : Op → Prop
  | .replaceOrder _ newOrderId _ => newOrderId = i
  | _ => False

theorem Ratcheted.replaced {b : Book} (h : Ratcheted o (b.calculateStopPrice o)) (i p : UInt64) :
    Ratcheted o (b.calculateStopPrice (o.replaced i p)) := ⟨h.side, h.ask, h.bid⟩

theorem Op.Legal.spares (hi : Inv ⟨b, none⟩) {op : Op} (hl : op.Legal b.toBook)
    (hw : b.orders.find? i = some w)
    (hn : op.Renews i → w.order.IsTrailing → b.Favours w.order) :
    op.Admits (Spares i w.order) b := by
  have hadm := (hl.proper hi).1
  cases op with
  | addOrder o =>
    refine ⟨hadm, fun o' ho' hid => ?_⟩
    cases ho'
    have := hl.2
    rw [hid, hw] at this
    cases this
  | replaceOrder j i' p =>
    refine ⟨⟨hadm.1, fun _ h => (nomatch h)⟩, fun w' b' hw' hd => ⟨hadm.2 w' b' hw' hd, ?_⟩⟩
    intro o' ho' hid ht
    cases ho'
    have hid : i' = i := hid
    subst hid
    -- the new id rests, so it is the id of the order that is replaced
    have hj : i' = j := by
      apply hl.2.1.resolve_right
      rw [hw]
      exact Option.some_ne_none _
    subst hj
    rw [hw] at hw'
    cases hw'
    obtain ⟨_, _, hd⟩ := deleteOrderWith_deleted hd
    rw [calculateStopPrice_congr hd.prices.lastTradedPrice]
    exact ((ratcheted_iff b.toBook w.order).2 (hn rfl ht)).replaced i' p
  | _ => exact ⟨hadm, fun _ h => (nomatch h)⟩

/-- When the updates of an operation all find the market moved in the favour of the orders they
move, and a replacement under the same id does too, a trailing order that rests before and after
the operation has followed the market. -/
theorem trailing_ratchet (h : Reachable Op.Legal symbolId b) (hl : Op.Legal b.toBook op)
    (hop : b.apply fuel op = .ok b') (hall : AllFollow (b'.trace.drop b.trace.length))
    (hw : b.orders.find? i = some w) (hw' : b'.orders.find? i = some w')
    (hn : op.Renews i → w.order.IsTrailing → b.Favours w.order)
    (ht : w'.order.IsTrailing) : Ratcheted w.order w'.order := by
  have hi := h.inv
  have hsteps := apply_steps hop (hl.spares hi hw hn)
  have hstart : Follower b.trace.length i w.order ⟨b, none⟩ := by
    constructor
    · exact Nat.le_refl _
    · exact fun h => nomatch h
    · intro w₁ _ hw₁ _
      rw [show b.orders.find? i = some w₁ from hw₁] at hw
      cases hw
      exact .refl _
  exact (hi.induct (fun _ _ h => h.1) (fun hi hf hs => hf.step hi hs) hstart hsteps).2.resting
    hall hw' ht

/-- Trades at 100, at `second` and at `third`, with a trailing stop order that trails by 10 since
the first of them. The last trade is left to the order `closing third`. -/
def trailingOps (second third : UInt64) : List Op :=
  [.addOrder (.new .limit .bid .gtc 1 100 0 0 1 1), .addOrder (.new .limit .ask .gtc 1 100 0 0 1 2),
    .addOrder (.new .trailingStop .ask .ioc 1 0 0 10 5 3),
    .addOrder (.new .limit .bid .gtc 1 second 0 0 1 4),
    .addOrder (.new .limit .ask .gtc 1 second 0 0 1 5),
    .addOrder (.new .limit .bid .gtc 1 third 0 0 1 6)]

def closing (third : UInt64) : Op := .addOrder (.new .limit .ask .gtc 1 third 0 0 1 7)

/-- Whether the last trade is legal, whether its updates follow the market, and the trailing order
before and after it. -/
def closingOrders (third : UInt64) (b : MapOrderBook) : Option (Bool × Bool × Order × Order) :=
  match b.orders.find? 3, b.apply 20 (closing third) with
  | some w, .ok b' => (b'.orders.find? 3).map fun w' =>
    (decide ((closing third).Legal b.toBook), decide (AllFollow (b'.trace.drop b.trace.length)),
      w.order, w'.order)
  | _, _ => none

theorem closingOrders_eq_some (h : closingOrders third b = some (true, follow, o, o')) :
    (closing third).Legal b.toBook ∧ ∃ w b' w', b.orders.find? 3 = some w ∧ w.order = o ∧
      b.apply 20 (closing third) = .ok b' ∧ b'.orders.find? 3 = some w' ∧ w'.order = o' ∧
      (follow = true → AllFollow (b'.trace.drop b.trace.length)) := by
  unfold closingOrders at h
  split at h
  · rename_i w b' hw hb'
    obtain ⟨w', hw', he⟩ := Option.map_eq_some_iff.1 h
    rw [Prod.mk.injEq, Prod.mk.injEq, Prod.mk.injEq] at he
    obtain ⟨hl, hf, ho, ho'⟩ := he
    exact ⟨of_decide_eq_true hl, w, b', w', hw, ho, hb', hw', ho',
      fun hfo => of_decide_eq_true (hf.trans hfo)⟩
  · cases h

/-- The trailing order of `trailingOps` while its stop price is `stopPrice`. -/
def trailingOrder (stopPrice : UInt64) : Order :=
  (Order.new .trailingStop .ask .ioc 1 0 0 10 5 3).setStopPrice stopPrice

/-- While the market rises from 105 to 110, the stop price rises from 95 to 100. -/
theorem trailing_ratchet_trailingOps : ∃ b b' w w',
    (MapOrderBook.new 1).run 20 (trailingOps 105 110) = .ok b ∧
    b.apply 20 (closing 110) = .ok b' ∧ b.orders.find? 3 = some w ∧ b'.orders.find? 3 = some w' ∧
    w.order = trailingOrder 95 ∧ w'.order = trailingOrder 100 ∧ Ratcheted w.order w'.order := by
  obtain ⟨b, hb, hr, hf⟩ := exists_reachable_of_run Op.Legal 1 20 (trailingOps 105 110)
    (by decide +kernel) (f := closingOrders 110)
    (o := (true, true, trailingOrder 95, trailingOrder 100)) (by decide +kernel)
  obtain ⟨hl, w, b', w', hw, ho, hb', hw', ho', hall⟩ := closingOrders_eq_some hf
  have ht : w'.order.IsTrailing := by
    rw [ho']
    exact .inl rfl
  exact ⟨b, b', w, w', hb, hb', hw, hw', ho, ho',
    trailing_ratchet hr hl hb' (hall rfl) hw hw' (fun h => h.elim) ht⟩

/-- When the market falls from 100 to 95 and rises to 97, the stop price falls from 90 to 87. -/
theorem trailingOps_not_ratcheted : ∃ b b' w w', Reachable Op.Legal 1 b ∧
    (closing 97).Legal b.toBook ∧ b.apply 20 (closing 97) = .ok b' ∧
    b.orders.find? 3 = some w ∧ b'.orders.find? 3 = some w' ∧
    w.order = trailingOrder 90 ∧ w'.order = trailingOrder 87 ∧ ¬ Ratcheted w.order w'.order := by
  obtain ⟨b, hb, hr, hf⟩ := exists_reachable_of_run Op.Legal 1 20 (trailingOps 95 97)
    (by decide +kernel) (f := closingOrders 97)
    (o := (true, false, trailingOrder 90, trailingOrder 87)) (by decide +kernel)
  obtain ⟨hl, w, b', w', hw, ho, hb', hw', ho', _⟩ := closingOrders_eq_some hf
  refine ⟨b, b', w, w', hr, hl, hb', hw, hw', ho, ho', fun h => ?_⟩
  have hle := h.ask (by rw [ho]; rfl)
  rw [ho, ho'] at hle
  exact absurd hle (by decide)

end RapidTrader
