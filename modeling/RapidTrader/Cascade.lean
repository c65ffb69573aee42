import RapidTrader.Runs

namespace RapidTrader
open Lib Relation
set_option autoImplicit true

/-- One turn of the loop of `activateStopOrders`: the bids are activated, the trailing asks moved,
the asks activated and the trailing bids moved. -/
structure Pass (fuel : Nat) (b b₁ b₂ b₃ b' : MapOrderBook) (bids asks : Bool) : Prop where
  activatedBids : b.activateBidStopOrders fuel = .ok (b₁, bids)
  updatedAsks : b₁.updateStopOrders .ask = .ok b₂
  activatedAsks : b₂.activateAskStopOrders fuel = .ok (b₃, asks)
  updatedBids : b₃.updateStopOrders .bid = .ok b'

theorem activatePass_pass (h : MapOrderBook.activatePass fuel b = .ok (b', f)) :
    ∃ b₁ b₂ b₃ bids asks, Pass fuel b b₁ b₂ b₃ b' bids asks ∧ f = (asks || bids) := by
  obtain ⟨⟨b₁, f₁⟩, h₁, h⟩ := bind_eq_ok.1 h
  obtain ⟨b₂, h₂, h⟩ := bind_eq_ok.1 h
  obtain ⟨⟨b₃, f₃⟩, h₃, h⟩ := bind_eq_ok.1 h
  obtain ⟨b₄, h₄, h⟩ := bind_eq_ok.1 h
  cases h
  exact ⟨b₁, b₂, b₃, f₁, f₃, ⟨h₁, h₂, h₃, h₄⟩, rfl⟩

/-- The last pass of the cascade, and what the earlier ones preserve. -/
theorem activateStopOrders_last {I : MapOrderBook → Prop}
    (hpass : ∀ {b b₁ b₂ b₃ b' bids asks}, I b → Pass fuel b b₁ b₂ b₃ b' bids asks → I b')
    (hb : I b) (h : MapOrderBook.activateStopOrders fuel b = .ok b') :
    ∃ b₀ b₁ b₂ b₃, I b₀ ∧ Pass fuel b₀ b₁ b₂ b₃ b' false false := by
  obtain ⟨⟨b'', f⟩, h, hret⟩ := bind_eq_ok.1 h
  cases hret
  have hbody (s s' : MapOrderBook × Bool) (hs : I s.1) (_ : s.2 = true)
      (hb : MapOrderBook.activatePass fuel s.1 = .ok s') : I s'.1 := by
    obtain ⟨b₁, b₂, b₃, bids, asks, hp, _⟩ := activatePass_pass hb
    exact hpass hs hp
  obtain ⟨⟨b₀, f₀⟩, hb₀, _, hlast, hf⟩ := whileLoop_last (I := fun s => I s.1) hbody hb rfl h
  obtain ⟨b₁, b₂, b₃, bids, asks, hp, he⟩ := activatePass_pass hlast
  rw [he, Bool.or_eq_false_iff] at hf
  obtain ⟨rfl, rfl⟩ := hf
  exact ⟨b₀, b₁, b₂, b₃, hb₀, hp⟩

/-- An activation loop that reports nothing has done nothing. -/
theorem activateLevels_idle
    (h : MapOrderBook.activateLevels fuel t p (b, f) = .ok (b', false)) :
    b' = b ∧ f = false ∧ b.canActivate t p = false := by
  have hbody (s s' : MapOrderBook × Bool)
      (hb : (do return (← s.1.activateFront fuel t, true)) = Except.ok s') : s'.2 = true := by
    obtain ⟨b₁, _, hb⟩ := bind_eq_ok.1 hb
    cases hb
    rfl
  rcases whileLoop_idle (P := fun s => s.2 = true) hbody h with ⟨he, ht⟩ | hf
  · cases he
    exact ⟨rfl, rfl, ht⟩
  · cases hf

theorem activateLevels_exit
    (h : MapOrderBook.activateLevels fuel t p (b, f) = .ok (b', f')) :
    b'.canActivate t p = false :=
  (whileLoop_inv (I := fun _ => True) (fun _ _ _ _ _ => trivial) trivial h).2

theorem triggers_of_canActivate {b : Book} (h : b.canActivate t p = false)
    (hl : b.level? ⟨t, key⟩ = some l) : Book.triggers t.side key p = false := by
  unfold Book.canActivate at h
  unfold Book.firstStop at h
  by_contra hc
  rw [Bool.not_eq_false] at hc
  cases hs : t.side with
  | bid =>
    rw [hs] at h hc
    simp only [Book.triggers, decide_eq_true_eq] at h hc
    cases hb : (b.levels t).begin? with
    | none =>
      have := SortedMap.eq_empty_iff.1 (SortedMap.begin?_eq_none.1 hb) key
      rw [show (b.levels t).find? key = some l from hl] at this
      cases this
    | some e =>
      rw [hb] at h
      have := (SortedMap.begin?_eq_some hb).2 key l hl
      simp only [decide_eq_false_iff_not] at h
      exact h (UInt64.le_trans this hc)
  | ask =>
    rw [hs] at h hc
    simp only [Book.triggers, decide_eq_true_eq] at h hc
    cases hb : (b.levels t).rbegin? with
    | none =>
      have := SortedMap.eq_empty_iff.1 (SortedMap.rbegin?_eq_none.1 hb) key
      rw [show (b.levels t).find? key = some l from hl] at this
      cases this
    | some e =>
      rw [hb] at h
      have := (SortedMap.rbegin?_eq_some hb).2 key l hl
      simp only [decide_eq_false_iff_not] at h
      exact h (UInt64.le_trans hc this)

/-- In the last pass no activation loop takes a turn. -/
theorem Pass.idle (h : Pass fuel b b₁ b₂ b₃ b' false false) :
    b₁ = b ∧ b₃ = b₂ ∧
      b.canActivate .stopBid b.lastTradedPriceAsk = false ∧
      b.canActivate .trailingStopBid b.lastTradedPriceAsk = false ∧
      b₂.canActivate .stopAsk b₂.lastTradedPriceBid = false ∧
      b₂.canActivate .trailingStopAsk b₂.lastTradedPriceBid = false := by
  obtain ⟨⟨c₁, f₁⟩, h₁, h₁'⟩ := bind_eq_ok.1 h.activatedBids
  obtain ⟨rfl, rfl, ht₁⟩ := activateLevels_idle h₁'
  obtain ⟨rfl, _, hs₁⟩ := activateLevels_idle h₁
  obtain ⟨⟨c₃, f₃⟩, h₃, h₃'⟩ := bind_eq_ok.1 h.activatedAsks
  obtain ⟨rfl, rfl, ht₃⟩ := activateLevels_idle h₃'
  obtain ⟨rfl, _, hs₃⟩ := activateLevels_idle h₃
  exact ⟨rfl, rfl, hs₁, ht₁, hs₃, ht₃⟩

/-- A pass is a sequence of steps. -/
theorem Pass.inv (h : Pass fuel b b₁ b₂ b₃ b' bids asks) (hi : Inv ⟨b, none⟩) :
    Inv ⟨b₁, none⟩ ∧ Inv ⟨b₂, none⟩ ∧ Inv ⟨b₃, none⟩ ∧ Inv ⟨b', none⟩ := by
  have hi₁ := hi.steps ((activateBidStopOrders_runs fuel b).of_ok h.activatedBids).steps
  have hi₂ := hi₁.updated h.updatedAsks
  have hi₃ := hi₂.steps ((activateAskStopOrders_runs fuel b₂).of_ok h.activatedAsks).steps
  exact ⟨hi₁, hi₂, hi₃, hi₃.updated h.updatedBids⟩

/-- The cascade takes a turn, and then looks whether to take another. -/
theorem two_le_of_cascade (h : MapOrderBook.activateStopOrders fuel b = .ok b') : 2 ≤ fuel := by
  obtain ⟨s, hs, _⟩ := bind_eq_ok.1 h
  match fuel with
  | 0 => cases hs
  | 1 =>
    rw [whileLoop_turn rfl] at hs
    obtain ⟨_, _, hs⟩ := bind_eq_ok.1 hs
    cases hs
  | n + 2 => omega

/-- The cascade ends with both sides remembering the last price. -/
theorem remembered_of_cascade (hi : Inv ⟨b, none⟩) (h : b.activateStopOrders fuel = .ok b') :
    b'.trailingBidPrice = b'.lastTradedPrice ∧ b'.trailingAskPrice = b'.lastTradedPrice := by
  obtain ⟨b₀, b₁, b₂, b₃, hi₀, hp⟩ := activateStopOrders_last (I := fun b => Inv ⟨b, none⟩)
    (fun hi hp => (hp.inv hi).2.2.2) hi h
  obtain ⟨hi₁, hi₂, _, _⟩ := hp.inv hi₀
  obtain ⟨rfl, rfl, _⟩ := hp.idle
  obtain ⟨u, hu, hua⟩ := updateStopOrders_updated hi₁.linked .ask
  obtain ⟨v, hv, hvb⟩ := updateStopOrders_updated hi₂.linked .bid
  rw [hp.updatedAsks] at hu
  rw [hp.updatedBids] at hv
  cases hu
  cases hv
  exact ⟨hvb.prices.trailingBidPrice.trans hvb.prices.lastTradedPrice.symm, rfl⟩

/-- Every operation ends with the cascade. -/
theorem apply_cascade (hi : Inv ⟨b, none⟩) (hl : Op.Legal b.toBook op)
    (h : b.apply fuel op = .ok b') :
    ∃ b₁, Inv ⟨b₁, none⟩ ∧ b₁.activateStopOrders fuel = .ok b' := by
  have hadm := (hl.proper hi).1
  cases op with
  | addOrder o =>
    obtain ⟨b₁, hs, h⟩ := bind_eq_ok.1 h
    exact ⟨b₁, hi.steps ((submitOrder_runs fuel b o hadm).of_ok hs), h⟩
  | executeOrderAt i q p =>
    obtain ⟨b₁, hx, h⟩ := bind_eq_ok.1 h
    exact ⟨b₁, hi.step (.executed hadm hx), h⟩
  | executeOrder i q =>
    obtain ⟨b₁, hx, h⟩ := bind_eq_ok.1 h
    exact ⟨b₁, hi.step (.executed hadm hx), h⟩
  | cancelOrder i q =>
    obtain ⟨b₁, hx, h⟩ := bind_eq_ok.1 h
    exact ⟨b₁, hi.step (.cancelled hadm hx), h⟩
  | deleteOrder i =>
    obtain ⟨b₁, hx, h⟩ := bind_eq_ok.1 h
    exact ⟨b₁, hi.step (.deleted hadm hx), h⟩
  | replaceOrder i i' p =>
    obtain ⟨w, hw, h⟩ := bind_eq_ok.1 h
    obtain ⟨b₁, hd, h⟩ := bind_eq_ok.1 h
    obtain ⟨b₂, ha, h⟩ := bind_eq_ok.1 h
    have hi₁ : Inv ⟨b₁, none⟩ := hi.step (.deleted hadm.1 hd)
    have hsub := hadm.2 w b₁ (orderAt_eq_ok.1 hw) hd
    exact ⟨b₂, hi₁.steps ((addOrder_runs fuel b₁ _ hsub).of_ok ha), h⟩

end RapidTrader
