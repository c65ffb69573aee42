import RapidTrader.FillOrKill
import RapidTrader.InPlace
import RapidTrader.Occurrences

namespace RapidTrader
open Lib Relation
set_option autoImplicit true

/-- The lists of the levels hold every resting id once and no other, each in the level its iterator
points to, and no level is empty. -/
structure Uncorrupted (b : Book) : Prop where
  once : ∀ i, b.listedIds.count i = if b.orders.find? i = none then 0 else 1
  levelIt : b.orders.find? i = some w → ∃ l, b.level? w.levelIt = some l ∧ i ∈ l.orders
  nonempty : b.level? it = some l → l.empty = false

/-- What a trace tells when the resting order `o` does not stay in its place while an order of the
same id is submitted. They trade with each other or, when the other is gone, `o` is traded, or
activated or moved if it is a stop order. -/
def Told (o : Order) (ns : List Note) : Prop :=
  (∃ price quantity, .trade o.id o.id price quantity ∈ ns) ∨
    ∃ ns₁ o' ns₂ e, ns = ns₁ ++ .event (.orderDeleted o') :: ns₂ ∧ o'.id = o.id ∧
      .event e ∈ ns₂ ∧ Displaces o e

/-- A clash with the id of the resting order `w` does no harm. -/
structure Unharmed (b : MapOrderBook) (w : OrderWrapper) (b' : MapOrderBook) : Prop where
  uncorrupted : Uncorrupted b'.toBook
  resting : ∃ ns, b'.trace = b.trace ++ ns ∧ (InPlace b.toBook w b'.toBook ∨ Told w.order ns)

/-- The operation brings in an order under the id of the resting order `w`. -/
def Op.Clashes (b : Book) (w : OrderWrapper) : Op → Prop
  | .addOrder order => b.orders.find? order.id = some w
  | .replaceOrder orderId newOrderId _ => b.orders.find? orderId ≠ none ∧ newOrderId ≠ orderId ∧
    b.orders.find? newOrderId = some w
  | _ => False

instance (b : Book) (w : OrderWrapper) : (op : Op) → Decidable (op.Clashes b w)
  | .addOrder _ => inferInstanceAs (Decidable (_ = _))
  | .replaceOrder _ _ _ => inferInstanceAs (Decidable (_ ∧ _ ∧ _))
  | .executeOrderAt _ _ _ | .executeOrder _ _ | .cancelOrder _ _ | .deleteOrder _ =>
    inferInstanceAs (Decidable False)

namespace Book

/-- A GTC limit order is not filled by all it can trade with, and `r` is not among that. -/
def outlasts (b : Book) (o r : Order) : Bool :=
  o.isLimit && o.isGtc && decide (b.available o < o.openQuantity.toNat) && !o.meets r

/-- A submitted order comes to rest while `r` rests. A stop order rests at once unless it is
triggered. -/
def restsBeside (b : Book) (o r : Order) : Bool :=
  match o.type with
  | .limit | .market => b.outlasts o r
  | .stop | .stopLimit | .trailingStop | .trailingStopLimit =>
    let o := if o.isTrailingStop || o.isTrailingStopLimit then b.calculateStopPrice o else o
    if b.stopTriggered o then b.outlasts o.activate r else true

end Book

/-- The order which a clashing operation brings in comes to rest while `w` rests. -/
def Op.restsBeside (b : Book) (w : OrderWrapper) : Op → Bool
  | .addOrder order => b.restsBeside order w.order
  | .replaceOrder orderId newOrderId newPrice =>
    match b.orders.find? orderId with
    | some w' => Book.restsBeside { b with orders := b.orders.erase orderId }
        (w'.order.replaced newOrderId newPrice) w.order
    | none => false
  | _ => false

theorem Linked.uncorrupted (h : Linked b) : Uncorrupted b :=
  ⟨h.count_listedIds, h.held, fun hit => by simpa [Level.empty] using (h.sound hit).nonempty⟩

theorem Overlisted.not_uncorrupted (h : Overlisted i b) : ¬ Uncorrupted b := by
  intro hu
  have hmore := h.more
  rw [hu.once] at hmore
  exact absurd hmore (Nat.lt_irrefl _)

/-- How the submission of an order that does not come to rest leaves the order of its id. -/
structure Passed (b : MapOrderBook) (w : OrderWrapper) (b' : MapOrderBook) : Prop where
  linked : Linked b'.toBook
  resting : ∃ ns, b'.trace = b.trace ++ ns ∧
    ((InPlace b.toBook w b'.toBook ∧ ∃ o, o.id = w.order.id ∧ .event (.orderDeleted o) ∈ ns) ∨
      ∃ price quantity, .trade w.order.id w.order.id price quantity ∈ ns)

theorem Passed.after (h : Passed b₀ w b') (hp : InPlace b.toBook w b₀.toBook)
    (ht : b₀.trace = b.trace ++ ns₀) : Passed b w b' := by
  obtain ⟨ns, htr, hr⟩ := h.resting
  refine ⟨h.linked, ns₀ ++ ns, by rw [htr, ht, List.append_assoc], ?_⟩
  rcases hr with ⟨hp', o, ho, he⟩ | ⟨price, quantity, hn⟩
  · exact .inl ⟨hp.trans hp', o, ho, List.mem_append_right _ he⟩
  · exact .inr ⟨price, quantity, List.mem_append_right _ hn⟩

/-- The cascade does no harm either. -/
theorem Passed.unharmed (h : Passed b w b₁) (hs : Steps Unasked ⟨b₁, none⟩ ⟨b', none⟩) :
    Unharmed b w b' := by
  obtain ⟨hu, ns', htr', hk⟩ := (Unclashed.of_none h.linked).steps hs
  obtain ⟨ns, htr, hr⟩ := h.resting
  refine ⟨hu.linked.uncorrupted, ns ++ ns', by rw [htr', htr, List.append_assoc], ?_⟩
  rcases hr with ⟨hp, o, ho, he⟩ | ⟨price, quantity, hn⟩
  · rcases hk w hp.order with hp' | ⟨e, he', hd⟩
    · exact .inl (hp.trans hp')
    · obtain ⟨ns₁, ns₂, rfl⟩ := List.append_of_mem he
      refine .inr (.inr ⟨ns₁, o, ns₂ ++ ns', e, ?_, ho, List.mem_append_right _ he', hd⟩)
      rw [List.append_assoc, List.cons_append]
  · exact .inr (.inl ⟨price, quantity, List.mem_append_left _ hn⟩)

theorem Overlisted.steps (h : Overlisted i b.toBook) (hs : Steps Adm ⟨b, none⟩ ⟨b', none⟩) :
    Overlisted i b'.toBook :=
  hs.mutations.induct (I := fun b => Overlisted i b.toBook) Mutation.overlisted h

/-! ### Matching an order whose id rests -/

/-- What holds in the loops of `match` for an order `o` that bears the id of the resting order
`w`. -/
structure Brushes (b : MapOrderBook) (o : Order) (w : OrderWrapper) (s : MapOrderBook × Order) :
    Prop where
  linked : Linked s.1.toBook
  terms : o.SameTerms s.2
  balance : s.2.openQuantity.toNat + b.available o = o.openQuantity.toNat + s.1.available s.2
  sameTerms : s.1.orders.find? w.order.id = some w' → w.order.SameTerms w'.order
  resting : ∃ ns, s.1.trace = b.trace ++ ns ∧ (InPlace b.toBook w s.1.toBook ∨
    o.meets w.order = true ∧ ∃ price quantity,
      .trade w.order.id w.order.id price quantity ∈ ns)

theorem Brushes.start (h : Linked b.toBook) (hw : b.orders.find? w.order.id = some w) (n : Note) :
    Brushes b o w (b.note n, o) := by
  refine ⟨h, .refl o, rfl, fun {w'} hw' => ?_, [n], rfl, .inl (.refl h hw)⟩
  rw [toBook_note, hw] at hw'
  cases hw'
  exact .refl _

theorem trade_mem_tradeNotes (o r : Order) (price quantity : UInt64) (h : r.id = o.id) :
    .trade o.id o.id price quantity ∈ tradeNotes o r price quantity := by
  unfold tradeNotes
  rw [h]
  split <;> exact List.mem_cons_self

theorem Brushes.turn (hp : o.IsPriced) (hid : o.id = w.order.id) (h : Brushes b o w s)
    (hc : s.1.canTrade s.2 = true) (hm : s.1.matchFront s.2 = .ok s') : Brushes b o w s' := by
  obtain ⟨b₁, o₁⟩ := s
  obtain ⟨b', o'⟩ := s'
  have hl : Linked b₁.toBook := h.linked
  have hterms : o.SameTerms o₁ := h.terms
  have hp₁ := hterms.isPriced.2 hp
  obtain ⟨key, l, k, v, ht⟩ := hl.traded hm
  obtain ⟨hopen, havail⟩ := ht.available hl hp₁ hc
  have hst : v.order.SameTerms (v.order.execute v.order.price (matched o₁ v.order)) :=
    .execute _ _ _
  refine ⟨hl.changed hst ht.changed, hterms.trans (matchFront_sameTerms _ hm), ?_,
    fun {w'} hw' => ?_, ?_⟩
  · have := h.balance
    dsimp only at this ⊢
    omega
  · dsimp only at hw'
    rw [ht.changed.find?_orders] at hw'
    split at hw'
    · rename_i hk
      split at hw'
      · cases hw'
      · cases hw'
        have hv := ht.changed.order
        rw [← hk] at hv
        exact (h.sameTerms hv).trans hst
    · exact h.sameTerms hw'
  · obtain ⟨ns, htr, hr⟩ := h.resting
    dsimp only at htr hr ⊢
    refine ⟨ns ++ (tradeNotes (o₁.execute v.order.price (matched o₁ v.order))
      (v.order.execute v.order.price (matched o₁ v.order)) v.order.price (matched o₁ v.order) ++
      if (v.order.execute v.order.price (matched o₁ v.order)).isFilled then
        [.event (.orderDeleted (v.order.execute v.order.price (matched o₁ v.order)))] else []),
      ?_, ?_⟩
    · rw [ht.changed.trace, htr, matched]
      simp only [List.append_assoc]
    rcases hr with hr | ⟨hmeets, price, quantity, hn⟩
    · by_cases hk : k = w.order.id
      · subst hk
        have hv := ht.changed.order
        rw [hr.order] at hv
        cases hv
        refine .inr ⟨?_, w.order.price, matched o₁ w.order, ?_⟩
        · rw [← hterms.meets (.refl w.order)]
          exact hl.meets_traded hp₁ hc ht
        · have hid₁ : o₁.id = w.order.id := hterms.id.trans hid
          have hmem := trade_mem_tradeNotes
            (o₁.execute w.order.price (matched o₁ w.order))
            (w.order.execute w.order.price (matched o₁ w.order)) w.order.price
            (matched o₁ w.order) hid₁.symm
          change Note.trade o₁.id o₁.id _ _ ∈ _ at hmem
          rw [hid₁] at hmem
          exact List.mem_append_right _ (List.mem_append_left _ hmem)
      · exact .inl (hr.trans (.changed hl hr.order hst ht.changed hk))
    · exact .inr ⟨hmeets, price, quantity, List.mem_append_left _ hn⟩

/-- `match` leaves the order of the same id in its place unless it trades with it. -/
theorem matchOrder_brushes (h : Linked b.toBook) (hw : b.orders.find? w.order.id = some w)
    (hp : o.IsPriced) (hid : o.id = w.order.id) (hm : b.matchOrder fuel o = .ok s) :
    Brushes b o w s := by
  have hstart : Brushes b o w (b.note (.matching o b.toBook), o) := .start h hw _
  have hloop (hl : MapOrderBook.matchLoop fuel (b.note (.matching o b.toBook), o) = .ok s) :
      Brushes b o w s :=
    (whileLoop_inv (I := Brushes b o w) (fun _ _ hs hc hb => hs.turn hp hid hc hb) hstart hl).1
  cases hk : o.isFok with
  | false =>
    rw [matchOrder_not_fok hk] at hm
    exact hloop hm
  | true =>
    rw [matchOrder_fok hk] at hm
    split at hm
    · cases hm
    · exact hloop hm
    · cases hm
      exact hstart

/-- A GTC order with something left takes the order of the same id or leaves it there. -/
theorem Brushes.left (hp : o.IsPriced) (h : Brushes b o w s) (hc : s.1.canTrade s.2 = false) :
    (s.2.isFilled = false ↔ b.available o < o.openQuantity.toNat) ∧
      (s.2.isFilled = false → o.meets w.order = true → s.1.orders.find? w.order.id = none) := by
  have hp' := h.terms.isPriced.2 hp
  have hnone {i : UInt64} {w' : OrderWrapper} (hf : s.2.isFilled = false)
      (hi : s.1.orders.find? i = some w') : s.2.meets w'.order = false :=
    h.linked.meets_eq_false hp' hc hf hi
  have hbal := h.balance
  refine ⟨⟨fun hf => ?_, fun hlt => ?_⟩, fun hf hmeets => ?_⟩
  · have hz : s.1.available s.2 = 0 := by
      apply SortedMap.total_eq_zero
      intro i w' hi
      rw [hnone hf hi]
      rfl
    have hne : s.2.openQuantity.toNat ≠ 0 := fun he =>
      of_decide_eq_false hf (UInt64.toNat_inj.1 he)
    omega
  · apply decide_eq_false
    intro hz
    rw [hz, UInt64.toNat_zero] at hbal
    omega
  · cases hi : s.1.orders.find? w.order.id with
    | none => rfl
    | some w' =>
      have hm := hnone hf hi
      rw [h.terms.meets (h.sameTerms hi), hmeets] at hm
      cases hm

/-! ### Submitting an order whose id rests -/

theorem Brushes.passed (h : Brushes b o w s) (hid : o.id = w.order.id) :
    Passed b w (s.1.emit (.orderDeleted s.2)) := by
  obtain ⟨ns, htr, hr⟩ := h.resting
  refine ⟨h.linked, ns ++ [.event (.orderDeleted s.2)], ?_, ?_⟩
  · rw [trace_emit, htr, List.append_assoc]
  · rcases hr with hp | ⟨_, price, quantity, hn⟩
    · exact .inl ⟨hp, s.2, h.terms.id.trans hid, List.mem_append_right _ (List.mem_singleton.2 rfl)⟩
    · exact .inr ⟨price, quantity, List.mem_append_left _ hn⟩

/-- An order that outlasts what it trades with ends up listed beside the order of its id. Any other
passes by. -/
def Clashed (b : MapOrderBook) (w : OrderWrapper) (rests : Bool) (b' : MapOrderBook) : Prop :=
  (rests = true → Overlisted w.order.id b'.toBook) ∧ (rests = false → Passed b w b')

theorem addLimitOrder_clashed (h : Linked b.toBook) (hw : b.orders.find? w.order.id = some w)
    (hid : o.id = w.order.id) (ho : o.type = .limit) (hs : b.addLimitOrder fuel o = .ok b') :
    Clashed b w (b.outlasts o w.order) b' := by
  have hp : o.IsPriced := fun hm => by
    rw [ho] at hm
    cases hm
  obtain ⟨⟨b₁, o₁⟩, hm, hs⟩ := bind_eq_ok.1 hs
  have hb := matchOrder_brushes h hw hp hid hm
  obtain ⟨hterms, hexit⟩ := matchOrder_exit fuel b hm
  have hlimit : o.isLimit = true := decide_eq_true ho
  have hioc : o₁.isIoc = o.isIoc := by rw [Order.isIoc, Order.isIoc, hterms.timeInForce]
  have hfok : o₁.isFok = o.isFok := by rw [Order.isFok, Order.isFok, hterms.timeInForce]
  have hgtc : o.isGtc = (!o.isIoc && !o.isFok) := by
    unfold Order.isGtc Order.isIoc Order.isFok
    cases o.timeInForce <;> rfl
  dsimp only at hs
  rw [hioc, hfok] at hs
  cases hg : o.isGtc with
  | false =>
    have hout : b.outlasts o w.order = false := by
      rw [Book.outlasts, hg, Bool.and_false, Bool.false_and, Bool.false_and]
    rw [Bool.and_assoc, ← hgtc, hg, Bool.and_false, if_neg Bool.false_ne_true] at hs
    cases hs
    rw [hout]
    exact ⟨fun he => absurd he Bool.false_ne_true, fun _ => hb.passed hid⟩
  | true =>
    have hk : o.isFok = false := by
      rw [hgtc, Bool.and_eq_true, Bool.not_eq_true', Bool.not_eq_true'] at hg
      exact hg.2
    obtain ⟨hopen, hgone⟩ := hb.left hp (hexit hk)
    rw [Bool.and_assoc, ← hgtc, hg, Bool.and_true] at hs
    have hout : b.outlasts o w.order = (!o₁.isFilled && !o.meets w.order) := by
      have hd : decide (b.available o < o.openQuantity.toNat) = !o₁.isFilled := by
        rw [Bool.eq_iff_iff, decide_eq_true_iff, ← hopen, Bool.not_eq_true']
      rw [Book.outlasts, hlimit, hg, hd, Bool.and_self, Bool.true_and]
    rw [hout]
    cases hf : o₁.isFilled with
    | true =>
      rw [hf, Bool.not_true, if_neg Bool.false_ne_true] at hs
      cases hs
      exact ⟨fun he => absurd he Bool.false_ne_true, fun _ => hb.passed hid⟩
    | false =>
      rw [hf, Bool.not_false, if_pos rfl] at hs
      cases hs
      have hid₁ : o₁.id = w.order.id := hterms.id.trans hid
      obtain ⟨ns, htr, hr⟩ := hb.resting
      refine ⟨fun he => ?_, fun he => ?_⟩
      · rw [Bool.not_false, Bool.true_and, Bool.not_eq_true'] at he
        have hp : InPlace b.toBook w b₁.toBook := hr.resolve_right fun hr => by
          rw [he] at hr
          cases hr.1
        have ho₁ := hp.order
        rw [← hid₁] at ho₁ ⊢
        exact hb.linked.overlisted ho₁ _ _
      · rw [Bool.not_false, Bool.true_and, Bool.not_eq_false'] at he
        have hn : b₁.orders.find? o₁.id = none := by
          rw [hid₁]
          exact hgone hf he
        obtain ⟨it, hh, hi⟩ := insertLimitOrder_inserted (hterms.type.trans ho) hn
        refine ⟨hb.linked.inserted hn hh hi, ns, hi.trace.trans htr, ?_⟩
        rcases hr with hp | ⟨_, hr⟩
        · have ho₁ := hp.order
          rw [← hid₁, hn] at ho₁
          cases ho₁
        · exact .inr hr

theorem addMarketOrder_passed (h : Linked b.toBook) (hw : b.orders.find? w.order.id = some w)
    (hid : o.id = w.order.id) (hs : b.addMarketOrder fuel o = .ok b') : Passed b w b' := by
  obtain ⟨⟨b₁, o₁⟩, hm, hs⟩ := bind_eq_ok.1 hs
  cases hs
  have hp : (o.setPrice (if o.isAsk then 0 else maxPrice)).IsPriced := fun _ => rfl
  have hid' : (o.setPrice (if o.isAsk then 0 else maxPrice)).id = w.order.id := hid
  exact (matchOrder_brushes h hw hp hid' hm).passed hid'

theorem Clashed.emit (h : Linked b.toBook) (hw : b.orders.find? w.order.id = some w)
    (hc : Clashed (b.emit e) w rests b') : Clashed b w rests b' :=
  ⟨hc.1, fun hr => (hc.2 hr).after (.refl h hw) rfl⟩

theorem triggered_clashed {o : Order} (h : Linked b.toBook)
    (hw : b.orders.find? w.order.id = some w) (hid : o.id = w.order.id) (ho : o.IsStopType)
    (hs : (if o.activate.isMarket then
        (b.emit (.orderUpdated o.activate)).addMarketOrder fuel o.activate
      else (b.emit (.orderUpdated o.activate)).addLimitOrder fuel o.activate) = .ok b') :
    Clashed b w (b.outlasts o.activate w.order) b' := by
  refine Clashed.emit (e := .orderUpdated o.activate) h hw ?_
  have hid' : o.activate.id = w.order.id := hid
  rcases Order.activate_type ho with ⟨ha, _⟩ | ⟨ha, _⟩
  · rw [Order.isMarket, if_pos (decide_eq_true ha)] at hs
    have hl : o.activate.isLimit = false := by
      unfold Order.isLimit
      rw [ha]
      rfl
    have hout : b.outlasts o.activate w.order = false := by
      rw [Book.outlasts, hl, Bool.false_and, Bool.false_and, Bool.false_and]
    rw [hout]
    exact ⟨fun he => absurd he Bool.false_ne_true, fun _ => addMarketOrder_passed h hw hid' hs⟩
  · have hm : ¬ o.activate.isMarket = true := by simp [Order.isMarket, ha]
    rw [if_neg hm] at hs
    exact addLimitOrder_clashed h hw hid' ha hs

theorem addStopOrder_clashed (h : Linked b.toBook) (hw : b.orders.find? w.order.id = some w)
    (hid : o.id = w.order.id) (ho : o.IsStopType) (hs : b.addStopOrder fuel o = .ok b') :
    Clashed b w (b.restsBeside o w.order) b' := by
  have hrests : b.restsBeside o w.order =
      let o := if o.isTrailingStop || o.isTrailingStopLimit then b.calculateStopPrice o else o
      if b.stopTriggered o then b.outlasts o.activate w.order else true := by
    unfold Book.restsBeside
    rcases ho with ho | ho | ho | ho <;> rw [ho]
  unfold MapOrderBook.addStopOrder at hs
  rw [hrests]
  have hid₁ : (if o.isTrailingStop || o.isTrailingStopLimit then b.calculateStopPrice o
      else o).id = w.order.id := by
    split <;> exact hid
  have ho₁ : (if o.isTrailingStop || o.isTrailingStopLimit then b.calculateStopPrice o
      else o).IsStopType := by
    split <;> exact ho
  generalize (if o.isTrailingStop || o.isTrailingStopLimit then b.calculateStopPrice o else o) =
    o₁ at hs hid₁ ho₁
  dsimp only at hs ⊢
  cases ht : b.stopTriggered o₁ with
  | true =>
    rw [ht, if_pos rfl] at hs
    rw [if_pos rfl]
    exact triggered_clashed h hw hid₁ ho₁ hs
  | false =>
    rw [ht, if_neg Bool.false_ne_true] at hs
    rw [if_neg Bool.false_ne_true]
    refine ⟨fun _ => ?_, fun he => absurd he.symm Bool.false_ne_true⟩
    rw [← hid₁] at hw ⊢
    split at hs
    · cases hs
      have hm : Mutation _ (b.insertTrailingStopOrder o₁) := .pointed
      exact hm.overlisted (h.overlisted hw _ _)
    · cases hs
      exact h.overlisted hw _ _

theorem submitOrder_clashed (h : Linked b.toBook) (hw : b.orders.find? w.order.id = some w)
    (hid : o.id = w.order.id) (hs : b.submitOrder fuel o = .ok b') :
    Clashed b w (b.restsBeside o w.order) b' := by
  refine Clashed.emit (e := .orderAdded o) h hw ?_
  have he : Linked (b.emit (.orderAdded o)).toBook := h
  unfold MapOrderBook.submitOrder at hs
  dsimp only at hs
  cases ht : o.type with
  | limit =>
    rw [ht] at hs
    rw [Book.restsBeside, ht]
    exact addLimitOrder_clashed he hw hid ht hs
  | market =>
    rw [ht] at hs
    have hout : b.restsBeside o w.order = false := by
      rw [Book.restsBeside, ht]
      simp [Book.outlasts, Order.isLimit, ht]
    rw [hout]
    exact ⟨fun he => absurd he Bool.false_ne_true, fun _ => addMarketOrder_passed he hw hid hs⟩
  | stop =>
    rw [ht] at hs
    exact addStopOrder_clashed he hw hid (.inl ht) hs
  | stopLimit =>
    rw [ht] at hs
    exact addStopOrder_clashed he hw hid (.inr (.inl ht)) hs
  | trailingStop =>
    rw [ht] at hs
    exact addStopOrder_clashed he hw hid (.inr (.inr (.inl ht))) hs
  | trailingStopLimit =>
    rw [ht] at hs
    exact addStopOrder_clashed he hw hid (.inr (.inr (.inr ht))) hs

theorem restsBeside_congr {b b' : Book} (ho : b'.orders = b.orders)
    (hp : b'.lastTradedPrice = b.lastTradedPrice) (o r : Order) :
    b'.restsBeside o r = b.restsBeside o r := by
  have hout (o : Order) : b'.outlasts o r = b.outlasts o r := by
    unfold Book.outlasts Book.available
    rw [ho]
  have htrig (o : Order) : b'.stopTriggered o = b.stopTriggered o := by
    unfold Book.stopTriggered Book.lastTradedPriceAsk Book.lastTradedPriceBid
    rw [hp]
  unfold Book.restsBeside
  simp only [hout, htrig, calculateStopPrice_congr hp]

/-- A clashing operation submits an order under the id and runs the cascade. -/
theorem Op.Clashes.clashed (h : Linked b.toBook) (hc : Op.Clashes b.toBook w op)
    (ha : b.apply fuel op = .ok b') : ∃ b₁, Clashed b w (op.restsBeside b.toBook w) b₁ ∧
      Steps Unasked ⟨b₁, none⟩ ⟨b', none⟩ := by
  cases op with
  | addOrder o =>
    have hid := h.id hc
    have hw : b.orders.find? w.order.id = some w := by
      rw [hid]
      exact hc
    obtain ⟨b₁, hs, ha⟩ := bind_eq_ok.1 ha
    exact ⟨b₁, submitOrder_clashed h hw hid.symm hs, (activateStopOrders_runs fuel b₁).of_ok ha⟩
  | replaceOrder i i' p =>
    obtain ⟨_, hne, hi'⟩ := hc
    have hid := h.id hi'
    have hw : b.orders.find? w.order.id = some w := by
      rw [hid]
      exact hi'
    obtain ⟨v, hv, ha⟩ := bind_eq_ok.1 ha
    obtain ⟨b₀, hd, ha⟩ := bind_eq_ok.1 ha
    obtain ⟨b₂, ha₂, ha⟩ := bind_eq_ok.1 ha
    obtain ⟨b₁, hs, ha₂⟩ := bind_eq_ok.1 ha₂
    rw [orderAt_eq_ok] at hv
    obtain ⟨v', l, hd⟩ := deleteOrderWith_deleted hd
    have hp : InPlace b.toBook w b₀.toBook := .deleted h hw hd (by rw [hid]; exact hne.symm)
    have hcl := submitOrder_clashed (h.deleted hd) hp.order hid.symm hs
    have hrests : Op.restsBeside b.toBook w (.replaceOrder i i' p) =
        b₀.restsBeside (v.order.replaced i' p) w.order := by
      unfold Op.restsBeside
      dsimp only
      rw [hv]
      exact (restsBeside_congr (b := { b.toBook with orders := b.orders.erase i }) hd.orders
        hd.prices.lastTradedPrice _ _).symm
    rw [hrests]
    refine ⟨b₁, ⟨hcl.1, fun hr => (hcl.2 hr).after hp hd.trace⟩, ?_⟩
    exact ((activateStopOrders_runs fuel b₁).of_ok ha₂).trans
      ((activateStopOrders_runs fuel b₂).of_ok ha)
  | executeOrderAt _ _ _ => exact hc.elim
  | executeOrder _ _ => exact hc.elim
  | cancelOrder _ _ => exact hc.elim
  | deleteOrder _ => exact hc.elim

/-- An order whose id is taken does no harm exactly when it does not come to rest beside the order
that has the id. -/
theorem unharmed_iff (h : Reachable Op.Legal symbolId b) (hc : Op.Clashes b.toBook w op)
    (ha : b.apply fuel op = .ok b') : Unharmed b w b' ↔ op.restsBeside b.toBook w = false := by
  obtain ⟨b₁, hcl, hs⟩ := hc.clashed h.inv.linked ha
  cases hr : op.restsBeside b.toBook w with
  | false => exact ⟨fun _ => rfl, fun _ => (hcl.2 hr).unharmed hs⟩
  | true =>
    have ho := (hcl.1 hr).steps hs
    exact ⟨fun hu => absurd hu.uncorrupted ho.not_uncorrupted, fun he => nomatch he⟩

/-- A bid rests under the id 1, and an ask above it. -/
def restingOps : List Op :=
  [.addOrder (.new .limit .bid .gtc 1 90 0 0 5 1), .addOrder (.new .limit .ask .gtc 1 100 0 0 2 2)]

/-- Another bid under the id 1, which takes the ask. -/
def clashingOp (timeInForce : OrderTimeInForce) : Op :=
  .addOrder (.new .limit .bid timeInForce 1 100 0 0 3 1)

/-- What a clash is like, and the ids in the lists after it. -/
def MapOrderBook.clash (op : Op) (b : MapOrderBook) : Option (Bool × Bool × List UInt64) :=
  match b.orders.find? 1, b.apply 20 op with
  | some w, .ok b' =>
    some (decide (op.Clashes b.toBook w), op.restsBeside b.toBook w, b'.listedIds)
  | _, _ => none

theorem MapOrderBook.clash_eq_some {b : MapOrderBook} {op : Op}
    (h : b.clash op = some (true, rests, ids)) :
    ∃ w b', op.Clashes b.toBook w ∧ b.apply 20 op = .ok b' ∧
      op.restsBeside b.toBook w = rests ∧ b'.listedIds = ids := by
  unfold clash at h
  split at h
  · rename_i w b' _ hb'
    rw [Option.some.injEq, Prod.mk.injEq, Prod.mk.injEq] at h
    exact ⟨w, b', of_decide_eq_true h.1, hb', h.2.1, h.2.2⟩
  · cases h

/-- What is left of an IOC bid is dropped, and the bid that rests stays alone. -/
theorem unharmed_iff_restingOps : ∃ b b' w, (MapOrderBook.new 1).run 20 restingOps = .ok b ∧
    (clashingOp .ioc).Clashes b.toBook w ∧ b.apply 20 (clashingOp .ioc) = .ok b' ∧
    b'.listedIds = [1] ∧ Unharmed b w b' := by
  obtain ⟨b, hb, hr, hf⟩ := exists_reachable_of_run Op.Legal 1 20 restingOps (by decide +kernel)
    (f := MapOrderBook.clash (clashingOp .ioc)) (o := (true, false, [1])) (by decide +kernel)
  obtain ⟨w, b', hc, hb', hrests, hids⟩ := MapOrderBook.clash_eq_some hf
  exact ⟨b, b', w, hb, hc, hb', hids, (unharmed_iff hr hc hb').2 hrests⟩

/-- What is left of a GTC bid comes to rest, and the id 1 is listed twice. -/
theorem clashingOp_corrupts : ∃ b b' w, Reachable Op.Legal 1 b ∧
    (clashingOp .gtc).Clashes b.toBook w ∧ b.apply 20 (clashingOp .gtc) = .ok b' ∧
    b'.listedIds = [1, 1] ∧ ¬ Unharmed b w b' := by
  obtain ⟨b, hb, hr, hf⟩ := exists_reachable_of_run Op.Legal 1 20 restingOps (by decide +kernel)
    (f := MapOrderBook.clash (clashingOp .gtc)) (o := (true, true, [1, 1])) (by decide +kernel)
  obtain ⟨w, b', hc, hb', _, hids⟩ := MapOrderBook.clash_eq_some hf
  refine ⟨b, b', w, hr, hc, hb', hids, fun hu => ?_⟩
  have honce := hu.uncorrupted.once 1
  rw [hids] at honce
  split at honce <;> exact absurd honce (by decide)

end RapidTrader
