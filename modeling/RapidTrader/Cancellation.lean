import RapidTrader.AtRest

namespace RapidTrader
open Lib
set_option autoImplicit true

/-- A cancellation of `q` from the order of `w`, which rests in the level `l`, takes away at most
what is open. -/
structure Cancels (b b' : Book) (w : OrderWrapper) (l : Level) (q : UInt64) : Prop where
  reduced : q < w.order.openQuantity →
    (∃ o, b'.orders.find? w.order.id = some { w with order := o } ∧
      o.openQuantity = w.order.openQuantity - q) ∧
    b'.level? w.levelIt = some { l with volume := l.volume - q }
  removed : w.order.openQuantity ≤ q → b'.orders.find? w.order.id = none ∧
    b'.level? w.levelIt = if l.orders = [w.order.id] then none else some { l with
      volume := l.volume - w.order.openQuantity
      orders := l.orders.erase w.order.id }
  shrinks : b.orders.find? k = some w₁ → b'.orders.find? k = some w₂ →
    w₂.order.openQuantity ≤ w₁.order.openQuantity

theorem Cancels.congr {b b₁ b₂ : Book} (h : Cancels b b₁ w l q) (ho : b₂.orders = b₁.orders)
    (hl : ∀ it, b₂.level? it = b₁.level? it) : Cancels b b₂ w l q := by
  constructor
  · rw [ho, hl]
    exact h.reduced
  · rw [ho, hl]
    exact h.removed
  · rw [ho]
    exact h.shrinks

theorem sub_sub_self (x y : UInt64) : x - (x - y) = y := by grind

theorem sub_eq_zero_iff (x y : UInt64) : x - y = 0 ↔ x = y := by grind

theorem sub_le_self {x y : UInt64} (h : y ≤ x) : x - y ≤ x := by
  have hs := UInt64.toNat_sub_of_le x y h
  rw [UInt64.le_iff_toNat_le] at *
  omega

theorem isFilled_setQuantity (o : Order) (q : UInt64) :
    (o.setQuantity q).isFilled = decide (o.openQuantity = q) := by
  change decide (o.openQuantity - q = 0) = _
  rw [decide_eq_decide]
  exact sub_eq_zero_iff _ _

/-- What is cancelled comes off the order modulo `2^64`, so the order leaves the book only if
exactly its open quantity is cancelled. -/
theorem Changed.cancels (hl : Linked b.toBook)
    (hc : Changed b i w l (w.order.setQuantity q)
      (w.order.openQuantity - (w.order.setQuantity q).openQuantity) price notes b') :
    Cancels b.toBook b'.toBook w l q ↔ q ≤ w.order.openQuantity := by
  have hid : w.order.id = i := hl.id hc.order
  have hamount : w.order.openQuantity - (w.order.setQuantity q).openQuantity = q :=
    sub_sub_self _ _
  have hlevel := hc.levels ((Order.SameTerms.setQuantity _ _).home?.trans (hl.home hc.order))
    w.levelIt
  rw [if_pos rfl, hamount, isFilled_setQuantity] at hlevel
  have horder := hc.find?_orders i
  rw [if_pos rfl, isFilled_setQuantity] at horder
  constructor
  · intro h
    by_contra hn
    have hlt := UInt64.not_le.1 hn
    have hne : w.order.openQuantity ≠ q :=
      fun he => absurd hlt (by rw [he]; exact UInt64.lt_irrefl _)
    have hnone := (h.removed (UInt64.le_of_lt hlt)).1
    rw [hid, horder, decide_eq_false hne] at hnone
    cases hnone
  · intro hle
    constructor
    · intro hlt
      have hne : w.order.openQuantity ≠ q := fun he =>
        absurd hlt (by rw [he]; exact UInt64.lt_irrefl _)
      rw [decide_eq_false hne] at hlevel horder
      rw [hid]
      exact ⟨⟨_, horder, rfl⟩, hlevel⟩
    · intro hge
      have he : w.order.openQuantity = q := UInt64.le_antisymm hge hle
      rw [decide_eq_true he] at hlevel horder
      refine ⟨hid ▸ horder, ?_⟩
      rw [hlevel]
      have hsnd := hl.sound hc.held
      have hdel : (l.reduceVolume q).deleteOrder (w.order.setQuantity q) = { l with
          volume := l.volume - w.order.openQuantity
          orders := l.orders.erase w.order.id } := by
        have hz : (w.order.setQuantity q).openQuantity = 0 := (sub_eq_zero_iff _ _).2 he
        unfold Level.deleteOrder Level.reduceVolume
        rw [hz, he, UInt64.sub_zero]
        rfl
      rw [hdel]
      by_cases hlast : l.orders = [w.order.id]
      · rw [if_pos hlast, if_pos rfl, if_pos]
        rw [Level.empty, List.isEmpty_iff, List.erase_eq_nil_iff]
        exact .inr hlast
      · rw [if_neg hlast, if_pos rfl, if_neg]
        rw [Level.empty, List.isEmpty_iff, List.erase_eq_nil_iff]
        rintro (hn | hn)
        · exact hsnd.nonempty hn
        · exact hlast hn
    · intro k w₁ w₂ h₁ h₂
      rw [hc.find?_orders] at h₂
      split at h₂
      · rename_i hk
        rw [hk, hc.order] at h₁
        cases h₁
        split at h₂
        · cases h₂
        · cases h₂
          exact sub_le_self hle
      · rw [h₁] at h₂
        cases h₂
        exact UInt64.le_refl _

/-- A cancellation returns, and takes away at most what is open if and only if it asks for no
more. -/
theorem cancels_iff (h : Reachable Op.Legal symbolId b) (hw : b.orders.find? i = some w)
    (hf : 2 ≤ fuel) : ∃ l b', b.level? w.levelIt = some l ∧ b.cancelOrder fuel i q = .ok b' ∧
      (Cancels b.toBook b'.toBook w l q ↔ q ≤ w.order.openQuantity) := by
  have hr := h.atRest
  have hl := hr.linked
  obtain ⟨l, hlev, _⟩ := hl.held hw
  obtain ⟨b₁, hx⟩ := cancelResting_ok hw hlev (hl.home hw) q
  obtain ⟨w', l', hc⟩ := cancelResting_changed hx
  have hw' := hc.order
  rw [hw] at hw'
  cases hw'
  have hlev' := hc.held
  rw [hlev] at hlev'
  cases hlev'
  have hidle : Idle b₁.toBook := (hr.changed (.setQuantity _ _) hc).idle
  refine ⟨l, b₁.idled, hlev, ?_, ?_⟩
  · unfold MapOrderBook.cancelOrder
    rw [hx, ok_bind, hidle.activateStopOrders hf]
  · rw [← hc.cancels hl]
    exact ⟨fun h => h.congr (orders_idled b₁).symm fun it => (level?_idled b₁ it).symm,
      fun h => h.congr (orders_idled b₁) (level?_idled b₁)⟩

/-- One bid with the quantity 5. -/
def fiveOps : List Op := [.addOrder (.new .limit .bid .gtc 1 90 0 0 5 1)]

/-- What the order 1 has open. -/
def openOfFirst (b : MapOrderBook) : Option UInt64 :=
  (b.orders.find? 1).map fun w => w.order.openQuantity

theorem openOfFirst_eq_some (h : openOfFirst b = some q) :
    ∃ w, b.orders.find? 1 = some w ∧ w.order.openQuantity = q := Option.map_eq_some_iff.1 h

theorem cancels_iff_fiveOps : ∃ b w l b', (MapOrderBook.new 1).run 20 fiveOps = .ok b ∧
    b.orders.find? 1 = some w ∧ w.order.openQuantity = 5 ∧ b.level? w.levelIt = some l ∧
    b.cancelOrder 20 1 2 = .ok b' ∧
    (Cancels b.toBook b'.toBook w l 2 ↔ 2 ≤ w.order.openQuantity) := by
  obtain ⟨b, hb, hr, hf⟩ := exists_reachable_of_run Op.Legal 1 20 fiveOps (by decide +kernel)
    (f := openOfFirst) (o := 5) (by decide +kernel)
  obtain ⟨w, hw, ho⟩ := openOfFirst_eq_some hf
  obtain ⟨l, b', hl, hb', hiff⟩ := cancels_iff hr hw (q := 2) (show 2 ≤ 20 by decide)
  exact ⟨b, w, l, b', hb, hw, ho, hl, hb', hiff⟩

/-- A cancellation of 7 leaves the order with `2^64 - 2` open. -/
theorem fiveOps_cancel_grows : ∃ b w l b' w', Reachable Op.Legal 1 b ∧
    b.orders.find? 1 = some w ∧ w.order.openQuantity = 5 ∧ b.level? w.levelIt = some l ∧
    b.cancelOrder 20 1 7 = .ok b' ∧ b'.orders.find? 1 = some w' ∧
    w'.order.openQuantity = 18446744073709551614 ∧ ¬ Cancels b.toBook b'.toBook w l 7 := by
  obtain ⟨b, b', _, hr, _, hb', hf⟩ := exists_last_of_run Op.Legal 1 20 fiveOps (.cancelOrder 1 7)
    (by decide +kernel) (f := fun b b' => some (openOfFirst b, openOfFirst b'))
    (o := (some 5, some 18446744073709551614)) (by decide +kernel)
  obtain ⟨hf, hf'⟩ := Prod.mk.inj (Option.some.inj hf)
  obtain ⟨w, hw, ho⟩ := openOfFirst_eq_some hf
  obtain ⟨w', hw', ho'⟩ := openOfFirst_eq_some hf'
  obtain ⟨l, hl, _⟩ := hr.inv.linked.held hw
  refine ⟨b, w, l, b', w', hr, hw, ho, hl, hb', hw', ho', fun h => ?_⟩
  have hle := h.shrinks hw hw'
  rw [ho, ho'] at hle
  exact absurd hle (by decide)

end RapidTrader
