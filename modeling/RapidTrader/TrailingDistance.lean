import RapidTrader.StopFrame

namespace RapidTrader
open Lib Relation
set_option autoImplicit true

/-- Every trailing order is within its trail amount of the price its side remembers. While trailing
bids rest the remembered price is not zero, so it is the price that `lastTradedPriceAsk` gave. -/
structure Near (b : Book) : Prop where
  ask : b.orders.find? i = some w → w.order.IsTrailing → w.order.side = .ask →
    b.trailingBidPrice.toNat - w.order.trailAmount.toNat ≤ w.order.stopPrice.toNat
  bid : b.orders.find? i = some w → w.order.IsTrailing → w.order.side = .bid →
    w.order.stopPrice.toNat ≤ b.trailingAskPrice.toNat + w.order.trailAmount.toNat ∧
      b.trailingAskPrice ≠ 0

/-- The sentinel for the price zero is not in use while a trailing bid rests. -/
def BidsPriced (b : Book) : Prop :=
  b.lastTradedPrice ≠ 0 ∨
    ∀ i w, b.orders.find? i = some w → w.order.IsTrailing → w.order.side ≠ .bid

theorem Order.IsTrailing.isStopType {o : Order} (h : o.IsTrailing) : o.IsStopType := .inr (.inr h)

/-- Trailing orders rest in the trailing map of their side, and no other orders do. -/
theorem Linked.trailing_map (h : Linked b) (hw : b.orders.find? i = some w) (side : OrderSide) :
    w.levelIt.levels = trailingMap side ↔ w.order.IsTrailing ∧ w.order.side = side := by
  have hm := Order.levelMap?_eq_some.1 (Order.home?_levelMap? (h.home hw))
  constructor
  · intro ht
    rw [ht] at hm
    cases side <;> exact hm
  · rintro ⟨ho, rfl⟩
    have hne : ∀ ty, (ty = .limit ∨ ty = .stop ∨ ty = .stopLimit) → w.order.type ≠ ty := by
      intro ty hty he
      rcases ho with ho | ho <;> rw [ho] at he <;> subst he <;> simp at hty
    cases ht : w.levelIt.levels <;> rw [ht] at hm
    case ask => exact absurd hm.1 (hne _ (.inl rfl))
    case bid => exact absurd hm.1 (hne _ (.inl rfl))
    case stopAsk => exact hm.1.elim (hne _ (by simp)) (hne _ (by simp)) |>.elim
    case stopBid => exact hm.1.elim (hne _ (by simp)) (hne _ (by simp)) |>.elim
    case trailingStopAsk => rw [hm.2]; rfl
    case trailingStopBid => rw [hm.2]; rfl

theorem Linked.trailing_nonempty (h : Linked b) (hw : b.orders.find? i = some w)
    (ht : w.levelIt.levels = t) : (b.levels t).isEmpty = false := by
  obtain ⟨l, hl, _⟩ := h.held hw
  rw [← Bool.not_eq_true, SortedMap.isEmpty_iff]
  intro he
  have := SortedMap.eq_empty_iff.1 he w.levelIt.key
  rw [← ht] at this
  rw [show (b.levels w.levelIt.levels).find? w.levelIt.key = some l from hl] at this
  cases this

namespace Near

theorem frame (h : Near b) (hf : StopFrame b b') : Near b' := by
  constructor
  · intro i w hw ht hs
    rw [hf.trailingBidPrice]
    exact h.ask (hf.stops hw ht.isStopType) ht hs
  · intro i w hw ht hs
    rw [hf.trailingAskPrice]
    exact h.bid (hf.stops hw ht.isStopType) ht hs

theorem changed (h : Near b.toBook) (hst : w.order.SameTerms o)
    (hc : Changed b i w l o amount price notes b') : Near b'.toBook := by
  have hsame : ∀ {k w'}, b'.orders.find? k = some w' →
      ∃ w₀, b.orders.find? k = some w₀ ∧ w₀.order.SameTerms w'.order := by
    intro k w' hk
    rw [hc.find?_orders] at hk
    split at hk
    · rename_i he
      split at hk
      · cases hk
      · cases hk
        exact ⟨w, he ▸ hc.order, hst⟩
    · exact ⟨w', hk, .refl _⟩
  constructor
  · intro k w' hk ht hs
    obtain ⟨w₀, hw₀, hst⟩ := hsame hk
    unfold Order.IsTrailing at ht
    rw [hst.type] at ht
    rw [hst.side] at hs
    rw [hc.trailingBidPrice, hst.trailAmount, hst.stopPrice]
    exact h.ask hw₀ ht hs
  · intro k w' hk ht hs
    obtain ⟨w₀, hw₀, hst⟩ := hsame hk
    unfold Order.IsTrailing at ht
    rw [hst.type] at ht
    rw [hst.side] at hs
    rw [hc.trailingAskPrice, hst.trailAmount, hst.stopPrice]
    exact h.bid hw₀ ht hs

theorem updatedAsks (h : Near b.toBook) (hl : Linked b.toBook) (hu : Updated b .ask b') :
    Near (b'.remember .ask).toBook := by
  have hp : (b'.remember .ask).trailingBidPrice = b.lastTradedPrice := hu.prices.lastTradedPrice
  have hta : (b'.remember .ask).trailingAskPrice = b.trailingAskPrice := hu.prices.trailingAskPrice
  constructor
  · intro i w' hw' ht hs
    rw [hp]
    obtain ⟨w, hw, ⟨rfl, hn⟩ | ⟨hr, hm, rfl⟩⟩ := hu.find?_cases hw'
    · have hlev := (hl.trailing_map hw .ask).2 ⟨ht, hs⟩
      have hne : b.trailingStopAskLevels.isEmpty = false := hl.trailing_nonempty hw hlev
      have hr : ¬ b.relevels .ask = true := fun hr => hn ⟨hr, hlev⟩
      simp only [Book.relevels, hne, Bool.not_false, Bool.and_true, decide_eq_true_eq,
        UInt64.lt_iff_toNat_lt] at hr
      have hle : b.lastTradedPrice.toNat ≤ b.trailingBidPrice.toNat := Nat.not_lt.1 hr
      have := h.ask hw ht hs
      omega
    · have := toNat_newStopPrice_ask b.toBook hs
      exact Nat.le_of_eq this.symm
  · intro i w' hw' ht hs
    rw [hta]
    obtain ⟨w, hw, ⟨rfl, _⟩ | ⟨hr, hm, rfl⟩⟩ := hu.find?_cases hw'
    · exact h.bid hw ht hs
    · have := ((hl.trailing_map hw _).1 hm).2
      rw [show w.order.side = .bid from hs] at this
      cases this

theorem updatedBids (h : Near b.toBook) (hl : Linked b.toBook) (hq : BidsPriced b.toBook)
    (hu : Updated b .bid b') : Near (b'.remember .bid).toBook := by
  have hp : (b'.remember .bid).trailingAskPrice = b.lastTradedPrice := hu.prices.lastTradedPrice
  have htb : (b'.remember .bid).trailingBidPrice = b.trailingBidPrice := hu.prices.trailingBidPrice
  constructor
  · intro i w' hw' ht hs
    rw [htb]
    obtain ⟨w, hw, ⟨rfl, _⟩ | ⟨hr, hm, rfl⟩⟩ := hu.find?_cases hw'
    · exact h.ask hw ht hs
    · have := ((hl.trailing_map hw _).1 hm).2
      rw [show w.order.side = .ask from hs] at this
      cases this
  · intro i w' hw' ht hs
    rw [hp]
    obtain ⟨w, hw, ⟨rfl, hn⟩ | ⟨hr, hm, rfl⟩⟩ := hu.find?_cases hw'
    all_goals
      have hne : b.lastTradedPrice ≠ 0 := hq.resolve_right fun hq => hq _ _ hw ht hs
      have hask : b.lastTradedPriceAsk = b.lastTradedPrice := if_neg hne
      refine ⟨?_, hne⟩
    · have hlev := (hl.trailing_map hw .bid).2 ⟨ht, hs⟩
      have hne : b.trailingStopBidLevels.isEmpty = false := hl.trailing_nonempty hw hlev
      have hr : ¬ b.relevels .bid = true := fun hr => hn ⟨hr, hlev⟩
      simp only [Book.relevels, hne, Bool.not_false, Bool.and_true, decide_eq_true_eq,
        UInt64.lt_iff_toNat_lt, hask] at hr
      have := (h.bid hw ht hs).1
      omega
    · have hn := toNat_newStopPrice_bid b.toBook (show w.order.side = .bid from hs)
      rw [hask] at hn
      change (b.newStopPrice w.order).toNat ≤ b.lastTradedPrice.toNat + w.order.trailAmount.toNat
      omega

theorem deleted (h : Near b.toBook) (hd : Deleted b i w l n b') : Near b'.toBook :=
  h.frame (.deleted hd)

end Near

theorem BidsPriced.frame (h : BidsPriced b) (hf : StopFrame b b') : BidsPriced b' := by
  rcases hf.price with he | hne
  · rcases h with h | h
    · exact .inl (he ▸ h)
    · exact .inr fun i w hw ht => h i w (hf.stops hw ht.isStopType) ht
  · exact .inl hne

theorem BidsPriced.updatedAsks (h : BidsPriced b.toBook) (hl : Linked b.toBook)
    (hu : Updated b .ask b') : BidsPriced (b'.remember .ask).toBook := by
  rcases h with h | h
  · refine .inl ?_
    rwa [lastTradedPrice_remember, hu.prices.lastTradedPrice]
  · refine .inr fun i w' hw' ht hs => ?_
    obtain ⟨w, hw, ⟨rfl, _⟩ | ⟨hr, hm, rfl⟩⟩ := hu.find?_cases hw'
    · exact h i w' hw ht hs
    · have := ((hl.trailing_map hw _).1 hm).2
      rw [show w.order.side = .bid from hs] at this
      cases this

/-- The loops that activate bids leave none behind while the last price is zero. -/
theorem bidsPriced_of_activate (hi : Inv ⟨b, none⟩)
    (h : b.activateBidStopOrders fuel = .ok (b₁, f)) : BidsPriced b₁.toBook := by
  obtain ⟨⟨c, f'⟩, hc, h⟩ := bind_eq_ok.1 h
  have hic : Inv ⟨c, none⟩ :=
    hi.steps ((activateLevels_runs fuel b .stopBid ⟨nofun, nofun⟩ _ _).of_ok hc).steps
  have hruns := (activateLevels_runs fuel c .trailingStopBid ⟨nofun, nofun⟩ _ _).of_ok h
  have hi₁ : Inv ⟨b₁, none⟩ := hic.steps hruns.steps
  rcases (hic.workSteps_stopFrame hruns).price with he | hne
  · by_cases hz : b₁.lastTradedPrice = 0
    · refine .inr fun i w hw ht hs => ?_
      have hlev := (hi₁.linked.trailing_map hw .bid).2 ⟨ht, hs⟩
      have hexit := activateLevels_exit h
      rw [← show w.levelIt.levels = .trailingStopBid from hlev] at hexit
      have hnt := hi₁.linked.not_triggers hw ht.isStopType hexit
      rw [show w.levelIt.levels = .trailingStopBid from hlev] at hnt
      have hmax : c.lastTradedPriceAsk = maxPrice := if_pos (he ▸ hz)
      simp only [LevelMap.side, Book.triggers, hmax, decide_eq_false_iff_not,
        UInt64.le_iff_toNat_le, toNat_maxPrice] at hnt
      have := w.order.stopPrice.toNat_lt
      omega
    · exact .inl hz
  · exact .inl hne

theorem Pass.near (hp : Pass fuel b b₁ b₂ b₃ b' bids asks) (hi : Inv ⟨b, none⟩)
    (h : Near b.toBook) : Near b'.toBook := by
  obtain ⟨hi₁, hi₂, hi₃, _⟩ := hp.inv hi
  have hf₁ := hi.workSteps_stopFrame ((activateBidStopOrders_runs fuel b).of_ok hp.activatedBids)
  have hf₃ := hi₂.workSteps_stopFrame ((activateAskStopOrders_runs fuel b₂).of_ok hp.activatedAsks)
  have hq₁ := bidsPriced_of_activate hi hp.activatedBids
  obtain ⟨u, hu, hua⟩ := updateStopOrders_updated hi₁.linked .ask
  obtain ⟨v, hv, hvb⟩ := updateStopOrders_updated hi₃.linked .bid
  rw [hp.updatedAsks] at hu
  rw [hp.updatedBids] at hv
  cases hu
  cases hv
  have hn₂ := (h.frame hf₁).updatedAsks hi₁.linked hua
  have hq₂ := hq₁.updatedAsks hi₁.linked hua
  exact (hn₂.frame hf₃).updatedBids hi₃.linked (hq₂.frame hf₃) hvb

/-- What holds between operations: both remembered prices are the last price, except that no price
is remembered for the bids before the first trade. -/
structure Tracked (b : Book) : Prop where
  near : Near b
  trailingBidPrice : b.trailingBidPrice = b.lastTradedPrice
  trailingAskPrice : b.trailingAskPrice = b.lastTradedPrice ∨ b.lastTradedPrice = 0

theorem tracked_of_cascade (hi : Inv ⟨b, none⟩) (h : Near b.toBook)
    (hc : b.activateStopOrders fuel = .ok b') : Tracked b'.toBook := by
  obtain ⟨b₀, b₁, b₂, b₃, ⟨hi₀, hn₀⟩, hp⟩ :=
    activateStopOrders_last (I := fun b => Inv ⟨b, none⟩ ∧ Near b.toBook)
      (fun h hp => ⟨(hp.inv h.1).2.2.2, hp.near h.1 h.2⟩) ⟨hi, h⟩ hc
  obtain ⟨hbid, hask⟩ := remembered_of_cascade hi hc
  exact ⟨hp.near hi₀ hn₀, hbid, .inl hask⟩

theorem Tracked.deleted (h : Tracked b.toBook) (hd : Deleted b i w l n b') :
    Tracked b'.toBook := by
  refine ⟨h.near.deleted hd, ?_, ?_⟩
  · rw [hd.prices.trailingBidPrice, hd.prices.lastTradedPrice]
    exact h.trailingBidPrice
  · rw [hd.prices.trailingAskPrice, hd.prices.lastTradedPrice]
    exact h.trailingAskPrice

theorem Tracked.submitted (h : Tracked b.toBook) (hi : Inv ⟨b, some o⟩)
    (hs : Submitted b o b') : Near b'.toBook := by
  have hfresh := (hi.inHand rfl).fresh
  cases hs with
  | matched b₀ o₀ hb hi₀ hw =>
    have hf := hi₀.workSteps_stopFrame hw
    rw [hb] at hf
    exact h.near.frame hf
  | stop ho ht he =>
    subst he
    obtain ⟨it, _, hin⟩ := insertStopOrder_inserted ho hfresh
    have hno : ¬ o.IsTrailing := by
      rintro (h | h) <;> rcases ho with ho | ho <;> rw [ho] at h <;> cases h
    constructor
    · intro i w hw ht hs
      rw [hin.find?_orders] at hw
      rw [hin.prices.trailingBidPrice]
      split at hw
      · cases hw
        exact absurd ht hno
      · exact h.near.ask hw ht hs
    · intro i w hw ht hs
      rw [hin.find?_orders] at hw
      rw [hin.prices.trailingAskPrice]
      split at hw
      · cases hw
        exact absurd ht hno
      · exact h.near.bid hw ht hs
  | trailing ho ht he =>
    subst he
    obtain ⟨it, _, hin⟩ := insertTrailingStopOrder_inserted
      (o := b.calculateStopPrice o) ho hfresh
    constructor
    · intro i w hw _ hs
      rw [hin.find?_orders] at hw
      rw [hin.prices.trailingBidPrice]
      split at hw
      · cases hw
        have := toNat_newStopPrice_ask b.toBook (show o.side = .ask from hs)
        rw [h.trailingBidPrice]
        exact Nat.le_of_eq this.symm
      · exact h.near.ask hw ‹_› hs
    · intro i w hw _ hs
      rw [hin.find?_orders] at hw
      rw [hin.prices.trailingAskPrice]
      split at hw
      · cases hw
        have hside : o.side = .bid := hs
        have hstop := toNat_newStopPrice_bid b.toBook hside
        have hisAsk : (b.calculateStopPrice o).isAsk = false :=
          decide_eq_false (by rw [hs]; decide)
        simp only [Book.stopTriggered, hisAsk, Bool.false_eq_true, ↓reduceIte,
          stopPrice_calculateStopPrice, decide_eq_false_iff_not, UInt64.le_iff_toNat_le] at ht
        -- an untriggered bid rests above the market, so there is a market price
        have hne : b.lastTradedPrice ≠ 0 := by
          intro hz
          rw [Book.lastTradedPriceAsk, if_pos hz] at hstop ht
          omega
        rw [Book.lastTradedPriceAsk, if_neg hne] at hstop
        have hta := h.trailingAskPrice.resolve_right hne
        rw [hta]
        refine ⟨?_, hne⟩
        change (b.newStopPrice o).toNat ≤ b.lastTradedPrice.toNat + o.trailAmount.toNat
        omega
      · exact h.near.bid hw ‹_› hs

theorem Tracked.addOrder (h : Tracked b.toBook) (hi : Inv ⟨b, none⟩)
    (ha : Proper b.toBook (.submit o)) (hop : b.addOrder fuel o = .ok b') : Tracked b'.toBook := by
  obtain ⟨b₁, hs, hc⟩ := bind_eq_ok.1 hop
  have hi₀ := hi.step (.added ha)
  have hi₁ : Inv ⟨b₁, none⟩ := hi.steps ((submitOrder_runs fuel b o ha).of_ok hs)
  have h₀ : Tracked (b.emit (.orderAdded o)).toBook := h
  exact tracked_of_cascade hi₁ (h₀.submitted hi₀ (submitOrder_submitted hi ha hs)) hc

theorem Tracked.apply (h : Tracked b.toBook) (hi : Inv ⟨b, none⟩) (hl : Op.Legal b.toBook op)
    (hop : b.apply fuel op = .ok b') : Tracked b'.toBook := by
  have hadm := (hl.proper hi).1
  cases op with
  | addOrder o => exact h.addOrder hi hadm hop
  | executeOrderAt i q p =>
    obtain ⟨b₁, hx, hc⟩ := bind_eq_ok.1 hop
    obtain ⟨w, l, hch⟩ := executeResting_changed hx
    exact tracked_of_cascade (hi.step (.executed hadm hx)) (h.near.changed (.execute _ _ _) hch) hc
  | executeOrder i q =>
    obtain ⟨b₁, hx, hc⟩ := bind_eq_ok.1 hop
    obtain ⟨w, l, hch⟩ := executeResting_changed hx
    exact tracked_of_cascade (hi.step (.executed hadm hx)) (h.near.changed (.execute _ _ _) hch) hc
  | cancelOrder i q =>
    obtain ⟨b₁, hx, hc⟩ := bind_eq_ok.1 hop
    obtain ⟨w, l, hch⟩ := cancelResting_changed hx
    exact tracked_of_cascade (hi.step (.cancelled hadm hx)) (h.near.changed (.setQuantity _ _) hch)
      hc
  | deleteOrder i =>
    obtain ⟨b₁, hx, hc⟩ := bind_eq_ok.1 hop
    obtain ⟨w, l, hd⟩ := deleteOrderWith_deleted hx
    exact tracked_of_cascade (hi.step (.deleted hadm hx)) (h.near.deleted hd) hc
  | replaceOrder i i' p =>
    obtain ⟨w, hw, hop⟩ := bind_eq_ok.1 hop
    obtain ⟨b₁, hx, hop⟩ := bind_eq_ok.1 hop
    obtain ⟨b₂, ha, hc⟩ := bind_eq_ok.1 hop
    obtain ⟨w', l, hd⟩ := deleteOrderWith_deleted hx
    have hi₁ : Inv ⟨b₁, none⟩ := hi.step (.deleted hadm.1 hx)
    have hsub := hadm.2 w b₁ (orderAt_eq_ok.1 hw) hx
    have hi₂ : Inv ⟨b₂, none⟩ := hi₁.steps ((addOrder_runs fuel b₁ _ hsub).of_ok ha)
    exact tracked_of_cascade hi₂ ((h.deleted hd).addOrder hi₁ hsub ha).near hc

theorem Reachable.tracked (h : Reachable Op.Legal symbolId b) : Tracked b.toBook := by
  induction h with
  | new => exact ⟨⟨fun h => (nomatch h), fun h => (nomatch h)⟩, rfl, .inr rfl⟩
  | apply hr hl hop ih => exact ih.apply hr.inv hl hop

/-- A trailing order is never further from the market than its trail amount. -/
theorem trailing_distance (h : Reachable Op.Legal symbolId b) (hw : b.orders.find? i = some w)
    (ht : w.order.IsTrailing) :
    (w.order.side = .ask →
      b.lastTradedPrice.toNat - w.order.trailAmount.toNat ≤ w.order.stopPrice.toNat) ∧
    (w.order.side = .bid → w.order.stopPrice.toNat ≤
      min (2 ^ 64 - 1) (b.lastTradedPrice.toNat + w.order.trailAmount.toNat)) := by
  have htr := h.tracked
  constructor
  · intro hs
    rw [← htr.trailingBidPrice]
    exact htr.near.ask hw ht hs
  · intro hs
    have hne : b.lastTradedPrice ≠ 0 := fun hz =>
      (quiescent_of_reachable h).2 hz i w hw ht.isStopType
    have hle := (htr.near.bid hw ht hs).1
    rw [htr.trailingAskPrice.resolve_right hne] at hle
    have := w.order.stopPrice.toNat_lt
    omega

theorem trailing_distance_mixedOps : ∃ b w, (MapOrderBook.new 1).run 20 mixedOps = .ok b ∧
    b.orders.find? 5 = some w ∧
      b.lastTradedPrice.toNat - w.order.trailAmount.toNat ≤ w.order.stopPrice.toNat := by
  obtain ⟨b, hb, hr, hf⟩ := exists_reachable_of_run Op.Legal 1 20 mixedOps (by decide +kernel)
    (f := fun b => (b.orders.find? 5).map fun w => (w.order.type, w.order.side))
    (o := (.trailingStop, .ask)) (by decide +kernel)
  obtain ⟨w, hw, ho⟩ := Option.map_eq_some_iff.1 hf
  have ht : w.order.type = .trailingStop := congrArg Prod.fst ho
  have hs : w.order.side = .ask := congrArg Prod.snd ho
  exact ⟨b, w, hb, hw, (trailing_distance hr hw (.inl ht)).1 hs⟩

end RapidTrader
