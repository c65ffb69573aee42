import RapidTrader.Everywhere
import RapidTrader.Runs

namespace RapidTrader
open Lib
set_option autoImplicit true

/-- The assertions of `validateOrder` about quantities, and that no more than the quantity has been
or can be executed. -/
structure Accounted (o : Order) : Prop where
  quantity_pos : 0 < o.quantity.toNat
  executed_le : o.executedQuantity.toNat ≤ o.quantity.toNat
  lastExecuted_le : o.lastExecutedQuantity.toNat ≤ o.quantity.toNat
  total_le : o.executedQuantity.toNat + o.openQuantity.toNat ≤ o.quantity.toNat

/-- The inductive form: the last execution is part of what has been executed. -/
structure Balanced (o : Order) : Prop where
  quantity_pos : 0 < o.quantity.toNat
  lastExecuted_le : o.lastExecutedQuantity.toNat ≤ o.executedQuantity.toNat
  total_le : o.executedQuantity.toNat + o.openQuantity.toNat ≤ o.quantity.toNat

namespace Balanced

theorem accounted (h : Balanced o) : Accounted o := by
  obtain ⟨h₁, h₂, h₃⟩ := h
  exact ⟨h₁, by omega, by omega, h₃⟩

theorem execute (h : Balanced o) (hq : quantity ≤ o.openQuantity) (price : UInt64) :
    Balanced (o.execute price quantity) := by
  obtain ⟨h₁, h₂, h₃⟩ := h
  have hopen : (o.openQuantity - quantity).toNat = o.openQuantity.toNat - quantity.toNat :=
    UInt64.toNat_sub_of_le _ _ hq
  have hle := UInt64.le_iff_toNat_le.1 hq
  have hlt := o.quantity.toNat_lt
  have hexec : (o.executedQuantity + quantity).toNat =
      o.executedQuantity.toNat + quantity.toNat := by
    rw [UInt64.toNat_add]
    omega
  refine ⟨h₁, ?_, ?_⟩
  · change quantity.toNat ≤ (o.executedQuantity + quantity).toNat
    omega
  · change (o.executedQuantity + quantity).toNat + (o.openQuantity - quantity).toNat ≤
      o.quantity.toNat
    omega

theorem kept : Kept Balanced where
  execute h hq := h.execute hq _
  setPrice h := ⟨h.1, h.2, h.3⟩
  setStopPrice h := ⟨h.1, h.2, h.3⟩
  setTrailAmount h := ⟨h.1, h.2, h.3⟩
  setType h := ⟨h.1, h.2, h.3⟩

theorem of_factoryBuilt (h : o.FactoryBuilt) : Balanced o := by
  have hnew : ∀ {asserted ty sd tif sym p s t q i},
      Order.factory asserted ty sd tif sym p s t q i = some o → Balanced o := by
    intro _ ty sd tif sym p s t q i h
    obtain ⟨_, _, _, hq, rfl⟩ := Order.factory_eq_some h
    exact ⟨UInt64.lt_iff_toNat_lt.1 hq, Nat.le_refl _, by simp [Order.new]⟩
  cases h <;> rename_i h <;> exact hnew h

end Balanced

/-- A legal operation that cancels a positive quantity which is open. -/
def Op.CancelsOpen (b : Book) (op : Op) : Prop :=
  op.Legal b ∧
    match op with
    | .cancelOrder orderId quantity =>
      0 < quantity ∧ ∀ w ∈ b.orders.find? orderId, quantity ≤ w.order.openQuantity
    | _ => True

/-- A cancellation takes away at least half of what the order has executed or open. -/
def Op.CancelsHalf (b : Book) : Op → Prop
  | .cancelOrder orderId quantity => ∀ w ∈ b.orders.find? orderId,
      w.order.executedQuantity.toNat + w.order.openQuantity.toNat ≤ 2 * quantity.toNat
  | _ => True

instance (b : Book) : (op : Op) → Decidable (op.CancelsOpen b)
  | .cancelOrder orderId quantity => inferInstanceAs (Decidable (_ ∧ 0 < quantity ∧
      ∀ w ∈ b.orders.find? orderId, quantity ≤ w.order.openQuantity))
  | .addOrder _ | .executeOrderAt _ _ _ | .executeOrder _ _ | .deleteOrder _
  | .replaceOrder _ _ _ => inferInstanceAs (Decidable (_ ∧ True))

instance (b : Book) : (op : Op) → Decidable (op.CancelsHalf b)
  | .cancelOrder orderId quantity => inferInstanceAs (Decidable (∀ w ∈ b.orders.find? orderId,
      w.order.executedQuantity.toNat + w.order.openQuantity.toNat ≤ 2 * quantity.toNat))
  | .addOrder _ | .executeOrderAt _ _ _ | .executeOrder _ _ | .deleteOrder _
  | .replaceOrder _ _ _ => inferInstanceAs (Decidable True)

/-- After a cancellation the order's quantity is the amount cancelled. -/
theorem quantity_setQuantity {o : Order} (hle : quantity ≤ o.openQuantity) :
    (o.setQuantity quantity).quantity = quantity ∧
      (o.setQuantity quantity).openQuantity.toNat =
        o.openQuantity.toNat - quantity.toNat := by
  refine ⟨?_, UInt64.toNat_sub_of_le _ _ hle⟩
  change min quantity o.openQuantity = quantity
  rw [min_uint64, if_pos hle]

theorem Balanced.setQuantity (h : Balanced o) (hq : 0 < quantity)
    (hle : quantity ≤ o.openQuantity)
    (hhalf : o.executedQuantity.toNat + o.openQuantity.toNat ≤ 2 * quantity.toNat) :
    Balanced (o.setQuantity quantity) := by
  obtain ⟨hquantity, hopen⟩ := quantity_setQuantity hle
  have hle := UInt64.le_iff_toNat_le.1 hle
  refine ⟨?_, h.lastExecuted_le, ?_⟩
  · rw [hquantity]
    exact UInt64.lt_iff_toNat_lt.1 hq
  · rw [hquantity, hopen]
    change o.executedQuantity.toNat + _ ≤ _
    omega

theorem Accounted.half {o : Order} (hle : quantity ≤ o.openQuantity)
    (h : Accounted (o.setQuantity quantity)) :
    o.executedQuantity.toNat + o.openQuantity.toNat ≤ 2 * quantity.toNat := by
  obtain ⟨hquantity, hopen⟩ := quantity_setQuantity hle
  have ht : o.executedQuantity.toNat + (o.setQuantity quantity).openQuantity.toNat ≤
      (o.setQuantity quantity).quantity.toNat := h.total_le
  rw [hquantity, hopen] at ht
  omega

/-- The requests which keep every order balanced. -/
def KeepsBalance (b : Book) (r : Request) : Prop := Proper b r ∧ Brings Balanced b r

theorem guards_balanced : Guards (fun b op => op.CancelsOpen b ∧ op.CancelsHalf b) KeepsBalance
    (Everywhere Balanced) where
  legal h := h.1.1
  proper h := h.1
  step _ hj hs := hj.step Balanced.kept (fun _ _ h => h.2) hs
  admits {b op} hi hj ha := by
    obtain ⟨⟨hl, ho⟩, hh⟩ := ha
    have hp := (hl.proper hi).1
    cases op with
    | addOrder o => exact ⟨hp, .of_factoryBuilt hl.1⟩
    | replaceOrder i i' p =>
      refine ⟨⟨hp.1, trivial⟩, fun w b' hw hd => ⟨hp.2 w b' hw hd, ?_⟩⟩
      obtain ⟨h₁, h₂, h₃⟩ := hj.book.resting hw
      exact ⟨h₁, h₂, h₃⟩
    | cancelOrder i q =>
      refine ⟨hp, fun w hw => ?_⟩
      exact (hj.book.resting hw).setQuantity ho.1 (ho.2 w hw) (hh w hw)
    | _ => exact ⟨hp, trivial⟩

/-- A cancellation that takes away too little shows in the event it sends out. -/
theorem cancelOrder_halves (hi : Inv ⟨b, none⟩)
    (ha : Op.CancelsOpen b.toBook (.cancelOrder i q))
    (hl : Leaves (b.apply fuel (.cancelOrder i q)) b')
    (ht : ∀ e o, .event e ∈ b'.trace → e.order? = some o → Accounted o) :
    Op.CancelsHalf b.toBook (.cancelOrder i q) := by
  intro w hw
  obtain ⟨hleg, _, hle⟩ := ha
  obtain ⟨b₁, hb₁⟩ := (hleg.proper hi).2
  obtain ⟨w', l, hc⟩ := cancelResting_changed hb₁
  have hww := hc.order
  rw [hw] at hww
  cases hww
  have hi₁ : Inv ⟨b₁, none⟩ := hi.changed (.setQuantity _ _) hc
  have hl₁ : Leaves (b₁.activateStopOrders fuel) b' := by
    have : b.apply fuel (.cancelOrder i q) =
        (b.cancelResting i q >>= fun b => b.activateStopOrders fuel) := rfl
    rwa [this, hb₁] at hl
  have hpre := RunsTo.trace_prefix hi₁ (activateStopOrders_runs fuel b₁) hl₁
  refine Accounted.half (hle w hw) (ht (.orderUpdated _) _ (hpre.subset ?_) rfl)
  change _ ∈ b₁.trace
  rw [hc.trace]
  simp

theorem runAllowed_halves (hi : Inv ⟨b₀, none⟩) (hl : Leaves (b₀.run fuel ops) b)
    (ha : RunAllowed Op.CancelsOpen fuel b₀ ops)
    (ht : ∀ e o, .event e ∈ b.trace → e.order? = some o → Accounted o) :
    RunAllowed (fun b op => op.CancelsHalf b) fuel b₀ ops := by
  induction ops generalizing b₀ with
  | nil => trivial
  | cons op ops ih =>
    obtain ⟨ho, ha⟩ := ha
    have hhalf {b₁ : MapOrderBook} (hl₁ : Leaves (b₀.apply fuel op) b₁)
        (ht₁ : ∀ e o, .event e ∈ b₁.trace → e.order? = some o → Accounted o) :
        op.CancelsHalf b₀.toBook := by
      cases op with
      | cancelOrder i q => exact cancelOrder_halves hi ho hl₁ ht₁
      | _ => trivial
    rcases hl.bind with ⟨b₁, hb₁, hl⟩ | he
    · rw [hb₁] at ha
      have hi₁ := hi.apply ho.1 hb₁
      have hpre := run_trace_prefix hi₁ (ha.mono fun _ _ h => h.1) hl
      refine ⟨hhalf (.inl hb₁) fun e o he heo => ht e o (hpre.subset he) heo, ?_⟩
      rw [hb₁]
      exact ih hi₁ hl ha
    · refine ⟨hhalf (.inr he) ht, ?_⟩
      rw [he]
      trivial

/-- All orders are accounted for, in the book and in the events, exactly when every cancellation of
the run takes away at least half of what its order has executed or open. -/
theorem accounted_iff (hl : Leaves ((MapOrderBook.new symbolId).run fuel ops) b)
    (ha : RunAllowed Op.CancelsOpen fuel (.new symbolId) ops) :
    Throughout Accounted b ↔
      RunAllowed (fun b op => op.CancelsHalf b) fuel (.new symbolId) ops := by
  constructor
  · exact fun h => runAllowed_halves (.new symbolId) hl ha fun _ _ he heo => h.told he heo
  · intro hh
    obtain ⟨c, rfl, _, hc⟩ := (Reachable.new.visited ops (ha.and hh) hl).induct guards_balanced
      (.of_none (.new _ symbolId))
    exact ⟨fun hw => (hc.book.resting hw).accounted, fun he heo => (hc.book.told he heo).accounted⟩

/-- An order of 200, of which `quantity` is cancelled. -/
def cancelOps (quantity : UInt64) : List Op :=
  [.addOrder (.new .limit .bid .gtc 1 100 0 0 200 1), .cancelOrder 1 quantity]

theorem accounted_iff_cancelOps :
    ∃ b, (MapOrderBook.new 1).run 20 (cancelOps 100) = .ok b ∧ Throughout Accounted b := by
  obtain ⟨b, hb, _⟩ := exists_reachable Op.CancelsOpen 1 20 (cancelOps 100) (by decide +kernel)
    (by decide +kernel)
  exact ⟨b, hb, (accounted_iff (.inl hb) (by decide +kernel)).2 (by decide +kernel)⟩

/-- When 50 of 200 are cancelled, the quantity becomes 50 and 150 stay open. -/
theorem cancelOps_not_accounted : RunAllowed Op.CancelsOpen 20 (.new 1) (cancelOps 50) ∧
    ∃ b w, (MapOrderBook.new 1).run 20 (cancelOps 50) = .ok b ∧ b.orders.find? 1 = some w ∧
      w.order.quantity = 50 ∧ w.order.openQuantity = 150 ∧ ¬ Accounted w.order := by
  refine ⟨by decide +kernel, ?_⟩
  obtain ⟨b, hb, hw⟩ := exists_of_run (x := (MapOrderBook.new 1).run 20 (cancelOps 50))
    (f := fun b => (b.orders.find? 1).map OrderWrapper.order)
    (o := { Order.new .limit .bid .gtc 1 100 0 0 50 1 with openQuantity := 150 })
    (by decide +kernel)
  obtain ⟨w, hw, ho⟩ := Option.map_eq_some_iff.1 hw
  refine ⟨b, w, hb, hw, by rw [ho]; rfl, by rw [ho], fun h => ?_⟩
  have := h.total_le
  rw [ho] at this
  exact absurd this (by decide)

end RapidTrader
