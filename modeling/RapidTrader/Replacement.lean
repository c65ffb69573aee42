import RapidTrader.Retelling
import RapidTrader.Untouched

namespace RapidTrader
open Lib
set_option autoImplicit true

theorem remembering_eq {b : Book} (h : p = b.trailingBidPrice) (h' : q = b.trailingAskPrice) :
    ({ b with trailingBidPrice := p, trailingAskPrice := q } : Book) = b := by
  subst h h'
  rfl

/-- Where both sides remember the last price, a cascade that finds nothing to do changes nothing. -/
theorem toBook_idled {b : MapOrderBook} (hbid : b.trailingBidPrice = b.lastTradedPrice)
    (hask : b.trailingAskPrice = b.lastTradedPrice) : b.idled.toBook = b.toBook :=
  remembering_eq hbid.symm hask.symm

/-- Both sides remember the last price once an operation has been completed. -/
theorem Reachable.remembered (h : Reachable Op.Legal symbolId b) : b = .new symbolId ∨
    b.trailingBidPrice = b.lastTradedPrice ∧ b.trailingAskPrice = b.lastTradedPrice := by
  cases h with
  | new => exact .inl rfl
  | apply hr hl hop =>
    obtain ⟨b₁, hi₁, hc⟩ := apply_cascade hr.inv hl hop
    exact .inr (remembered_of_cascade hi₁ hc)

/-- The replacement of an order by parts: it is deleted, its copy is submitted, and the cascade that
follows finds nothing to do. -/
structure Replaced (fuel : Nat) (b : MapOrderBook) (i : UInt64) (o : Order)
    (d e : MapOrderBook) : Prop where
  deleted : b.deleteOrderWith i true = .ok d
  idle : Idle d.toBook
  idled : d.idled.toBook = d.toBook
  added : d.addOrder fuel o = .ok e → Idle e.toBook ∧ e.idled.toBook = e.toBook

theorem Reachable.replaced (h : Reachable Op.Legal symbolId b)
    (hl : Op.Legal b.toBook (.replaceOrder i i' p)) (hw : b.orders.find? i = some w)
    (fuel : Nat) : ∃ d, ∀ e, Replaced fuel b i (w.order.replaced i' p) d e := by
  have hi := h.inv
  have hadm := (hl.proper hi).1
  obtain ⟨d, hd⟩ := (hl.proper hi).2
  obtain ⟨w', l, hdel⟩ := deleteOrderWith_deleted hd
  have hrem : b.trailingBidPrice = b.lastTradedPrice ∧ b.trailingAskPrice = b.lastTradedPrice := by
    refine h.remembered.resolve_left fun hb => ?_
    rw [hb] at hw
    cases hw
  refine ⟨d, fun e => ⟨hd, (h.atRest.deleted hdel).idle, ?_, fun he => ?_⟩⟩
  · apply toBook_idled
    · rw [hdel.prices.trailingBidPrice, hdel.prices.lastTradedPrice, hrem.1]
    · rw [hdel.prices.trailingAskPrice, hdel.prices.lastTradedPrice, hrem.2]
  · have hid : Inv ⟨d, none⟩ := hi.step (.deleted hadm.1 hd)
    have hsub := hadm.2 w d hw hd
    obtain ⟨s, hs, hc⟩ := bind_eq_ok.1 he
    have his : Inv ⟨s, none⟩ := hid.steps ((submitOrder_runs fuel d _ hsub).of_ok hs)
    have hie : Inv ⟨e, none⟩ := his.steps ((activateStopOrders_runs fuel s).of_ok hc)
    have ht := (h.tracked.deleted hdel).addOrder hid hsub he
    obtain ⟨hbid, hask⟩ := remembered_of_cascade his hc
    exact ⟨.of_tracked hie.linked (quiescent_of_cascade his hc) hbid (.inl hask),
      toBook_idled hbid hask⟩

/-- Replacing an order does to the book what deleting it and adding its copy under the new id and
price does, and tells the same events. If one of the two ways ends, so does the other. -/
theorem replace_eq_delete_add (h : Reachable Op.Legal symbolId b)
    (hl : Op.Legal b.toBook (.replaceOrder i i' p)) (hw : b.orders.find? i = some w) :
    ((∃ n b₁, b.replaceOrder n i i' p = .ok b₁) ↔
      ∃ n c b₂, b.deleteOrder n i = .ok c ∧ c.addOrder n (w.order.replaced i' p) = .ok b₂) ∧
    ∀ n n' n'' b₁ c b₂, b.replaceOrder n i i' p = .ok b₁ → b.deleteOrder n' i = .ok c →
      c.addOrder n'' (w.order.replaced i' p) = .ok b₂ →
      b₁.toBook = b₂.toBook ∧ events b₁.trace = events b₂.trace := by
  have horder : b.orderAt i = .ok w := orderAt_eq_ok.2 hw
  have hparts {n b₁} (hr : b.replaceOrder n i i' p = .ok b₁) (d : MapOrderBook)
      (hd : b.deleteOrderWith i true = .ok d) :
      ∃ e, d.addOrder n (w.order.replaced i' p) = .ok e ∧ e.activateStopOrders n = .ok b₁ := by
    unfold MapOrderBook.replaceOrder at hr
    rw [horder, ok_bind, hd, ok_bind] at hr
    exact bind_eq_ok.1 hr
  have hdelete {n d} (hr : ∀ e, Replaced n b i (w.order.replaced i' p) d e) {m} (hm : 2 ≤ m) :
      b.deleteOrder m i = .ok d.idled := by
    unfold MapOrderBook.deleteOrder
    rw [(hr d).deleted, ok_bind, (hr d).idle.activateStopOrders hm]
  refine ⟨⟨?_, ?_⟩, ?_⟩
  · rintro ⟨n, b₁, hr⟩
    obtain ⟨d, hrep⟩ := h.replaced hl hw n
    obtain ⟨e, he, hc⟩ := hparts hr d (hrep d).deleted
    obtain ⟨b₂, hb₂, _⟩ := (Retells.refl d d.idled (hrep d).idled).addOrder (Nat.le_refl n) _ e he
    exact ⟨n, d.idled, b₂, hdelete hrep (two_le_of_cascade hc), hb₂⟩
  · rintro ⟨n, c, b₂, hc, ha⟩
    obtain ⟨d, hrep⟩ := h.replaced hl hw n
    obtain ⟨s, _, hcas⟩ := bind_eq_ok.1 ha
    have hn := two_le_of_cascade hcas
    cases (hdelete hrep hn).symm.trans hc
    obtain ⟨e, he, _⟩ :=
      (Retells.refl d.idled d (hrep d).idled.symm).addOrder (Nat.le_refl n) _ b₂ ha
    refine ⟨n, e.idled, ?_⟩
    unfold MapOrderBook.replaceOrder
    rw [horder, ok_bind, (hrep e).deleted, ok_bind]
    exact bind_eq_ok.2 ⟨e, he, ((hrep e).added he).1.activateStopOrders hn⟩
  · intro n n' n'' b₁ c b₂ hr hc ha
    obtain ⟨d, hrep⟩ := h.replaced hl hw n
    obtain ⟨e, he, hcas⟩ := hparts hr d (hrep d).deleted
    obtain ⟨hidle, hidled⟩ := (hrep e).added he
    cases (hidle.activateStopOrders (two_le_of_cascade hcas)).symm.trans hcas
    obtain ⟨_, _, hcas'⟩ := bind_eq_ok.1 hc
    cases (hdelete hrep (two_le_of_cascade hcas')).symm.trans hc
    -- the same order is added to the same book, before and after an idle cascade
    obtain ⟨b₃, hb₃, hret⟩ := (Retells.refl d d.idled (hrep d).idled).addOrder
      (Nat.le_max_left n n'') _ e he
    cases (addOrder_mono (Nat.le_max_right n n'') ha).symm.trans hb₃
    obtain ⟨ns, ht, ht'⟩ := hret.told
    refine ⟨hidled.trans hret.book.symm, ?_⟩
    rw [events_idled, ht, ht', events_append, events_append, events_idled]

/-- The order 4 is replaced in a book in which a trailing stop order rests. -/
theorem replace_eq_delete_add_mixedOps : ∃ b w b₁ n c b₂,
    (MapOrderBook.new 1).run 20 mixedOps = .ok b ∧ b.orders.find? 4 = some w ∧
    b.replaceOrder 20 4 6 98 = .ok b₁ ∧ b.deleteOrder n 4 = .ok c ∧
    c.addOrder n (w.order.replaced 6 98) = .ok b₂ ∧
    b₁.toBook = b₂.toBook ∧ events b₁.trace = events b₂.trace := by
  obtain ⟨b, b₁, hb, hr, hl, hb₁, _⟩ := exists_last_of_run Op.Legal 1 20 mixedOps
    (.replaceOrder 4 6 98) (by decide +kernel) (f := fun _ _ => some ()) (o := ())
    (by decide +kernel)
  obtain ⟨w, hw⟩ := Option.ne_none_iff_exists'.1 hl.1
  obtain ⟨hends, hagree⟩ := replace_eq_delete_add hr hl hw
  obtain ⟨n, c, b₂, hc, ha⟩ := hends.1 ⟨20, b₁, hb₁⟩
  exact ⟨b, w, b₁, n, c, b₂, hb, hw, hb₁, hc, ha, hagree _ _ _ _ _ _ hb₁ hc ha⟩

end RapidTrader
