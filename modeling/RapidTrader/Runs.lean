import RapidTrader.Invariant

namespace RapidTrader
open Lib
set_option autoImplicit true

namespace Order

/-- An order a factory has built is the one that factory builds from the order's own fields. -/
theorem factoryBuilt_iff (o : Order) : FactoryBuilt o ↔
    marketAskOrder o.id o.symbolId o.quantity o.timeInForce = some o ∨
    marketBidOrder o.id o.symbolId o.quantity o.timeInForce = some o ∨
    limitAskOrder o.id o.symbolId o.price o.quantity o.timeInForce = some o ∨
    limitBidOrder o.id o.symbolId o.price o.quantity o.timeInForce = some o ∨
    stopAskOrder o.id o.symbolId o.stopPrice o.quantity o.timeInForce = some o ∨
    stopBidOrder o.id o.symbolId o.stopPrice o.quantity o.timeInForce = some o ∨
    stopLimitAskOrder o.id o.symbolId o.price o.stopPrice o.quantity o.timeInForce = some o ∨
    stopLimitBidOrder o.id o.symbolId o.price o.stopPrice o.quantity o.timeInForce = some o ∨
    trailingStopAskOrder o.id o.symbolId o.trailAmount o.quantity o.timeInForce = some o ∨
    trailingStopBidOrder o.id o.symbolId o.trailAmount o.quantity o.timeInForce = some o ∨
    trailingStopLimitAskOrder o.id o.symbolId o.price o.trailAmount o.quantity o.timeInForce =
      some o ∨
    trailingStopLimitBidOrder o.id o.symbolId o.price o.trailAmount o.quantity o.timeInForce =
      some o := by
  constructor
  · intro h
    cases h <;> rename_i h <;> obtain ⟨_, _, _, _, rfl⟩ := factory_eq_some h <;>
      simp only [new] <;> tauto
  · rintro (h | h | h | h | h | h | h | h | h | h | h | h)
    · exact .marketAsk h
    · exact .marketBid h
    · exact .limitAsk h
    · exact .limitBid h
    · exact .stopAsk h
    · exact .stopBid h
    · exact .stopLimitAsk h
    · exact .stopLimitBid h
    · exact .trailingStopAsk h
    · exact .trailingStopBid h
    · exact .trailingStopLimitAsk h
    · exact .trailingStopLimitBid h

instance (o : Order) : Decidable (FactoryBuilt o) := decidable_of_iff _ (factoryBuilt_iff o).symm

end Order

/-- The operations a well-behaved client may call: it adds orders which the factories have built
under new ids, and otherwise names resting orders. -/
def Op.Legal (b : Book) : Op → Prop
  | .addOrder order => order.FactoryBuilt ∧ b.orders.find? order.id = none
  | .executeOrderAt orderId _ _ | .executeOrder orderId _ | .cancelOrder orderId _
  | .deleteOrder orderId => b.orders.find? orderId ≠ none
  | .replaceOrder orderId newOrderId newPrice => b.orders.find? orderId ≠ none ∧
    (newOrderId = orderId ∨ b.orders.find? newOrderId = none) ∧ newPrice ≠ 0

instance (b : Book) : (op : Op) → Decidable (op.Legal b)
  | .addOrder _ => inferInstanceAs (Decidable (_ ∧ _))
  | .executeOrderAt _ _ _ => inferInstanceAs (Decidable (_ ≠ _))
  | .executeOrder _ _ => inferInstanceAs (Decidable (_ ≠ _))
  | .cancelOrder _ _ => inferInstanceAs (Decidable (_ ≠ _))
  | .deleteOrder _ => inferInstanceAs (Decidable (_ ≠ _))
  | .replaceOrder _ _ _ => inferInstanceAs (Decidable (_ ∧ _ ∧ _))

/-- The order an operation submits. -/
def Op.incoming (b : Book) : Op → Option Order
  | .addOrder order => some order
  | .replaceOrder orderId newOrderId newPrice =>
    (b.resting orderId).map fun o => o.replaced newOrderId newPrice
  | .executeOrderAt _ _ _ | .executeOrder _ _ | .cancelOrder _ _ | .deleteOrder _ => none

/-- Call operations one after the other. -/
def MapOrderBook.run (fuel : Nat) (b : MapOrderBook) : List Op → Exec MapOrderBook
  | [] => .ok b
  | op :: ops => do
    let b ← b.apply fuel op
    b.run fuel ops

/-- Each operation of a run satisfies `Allowed` in its turn. -/
def RunAllowed (Allowed : Book → Op → Prop) (fuel : Nat) (b : MapOrderBook) : List Op → Prop
  | [] => True
  | op :: ops => Allowed b.toBook op ∧
    match b.apply fuel op with
    | .ok b' => RunAllowed Allowed fuel b' ops
    | .error _ => True

theorem RunAllowed.mono (h : RunAllowed Allowed fuel b ops)
    (ha : ∀ b op, Allowed b op → Allowed' b op) : RunAllowed Allowed' fuel b ops := by
  induction ops generalizing b with
  | nil => trivial
  | cons op ops ih =>
    refine ⟨ha _ _ h.1, ?_⟩
    have h₂ := h.2
    split at h₂
    · exact ih h₂
    · trivial

theorem RunAllowed.and (h : RunAllowed Allowed fuel b ops) (h' : RunAllowed Allowed' fuel b ops) :
    RunAllowed (fun b op => Allowed b op ∧ Allowed' b op) fuel b ops := by
  induction ops generalizing b with
  | nil => trivial
  | cons op ops ih =>
    obtain ⟨h₁, h₂⟩ := h
    obtain ⟨h₁', h₂'⟩ := h'
    refine ⟨⟨h₁, h₁'⟩, ?_⟩
    cases hb : b.apply fuel op with
    | ok b₁ =>
      rw [hb] at h₂ h₂'
      exact ih h₂ h₂'
    | error e => trivial

instance runAllowedDecidable (Allowed : Book → Op → Prop) [∀ b op, Decidable (Allowed b op)]
    (fuel : Nat) (b : MapOrderBook) : (ops : List Op) → Decidable (RunAllowed Allowed fuel b ops)
  | [] => inferInstanceAs (Decidable True)
  | op :: ops =>
    have : Decidable (match b.apply fuel op with
        | .ok b' => RunAllowed Allowed fuel b' ops
        | .error _ => True) :=
      match b.apply fuel op with
      | .ok b' => runAllowedDecidable Allowed fuel b' ops
      | .error _ => inferInstanceAs (Decidable True)
    inferInstanceAs (Decidable (_ ∧ _))

/-- The books that completed operations lead to, when each satisfies `Allowed` in its turn. -/
inductive Reachable (Allowed : Book → Op → Prop) (symbolId : UInt32) : MapOrderBook → Prop
  | new : Reachable Allowed symbolId (.new symbolId)
  | apply : Reachable Allowed symbolId b → Allowed b.toBook op → b.apply fuel op = .ok b' →
      Reachable Allowed symbolId b'

theorem Op.Legal.proper (h : Inv ⟨b, none⟩) {op : Op} (hl : op.Legal b.toBook) :
    op.Admits Proper b ∧ op.Starts b := by
  have hres : ∀ {i}, b.orders.find? i ≠ none → ∃ w l, b.orders.find? i = some w ∧
      b.level? w.levelIt = some l ∧ w.order.home? = some w.levelIt := by
    intro i hi
    obtain ⟨w, hw⟩ := Option.ne_none_iff_exists'.1 hi
    obtain ⟨l, hl, _⟩ := h.linked.held hw
    exact ⟨w, l, hw, hl, h.linked.home hw⟩
  cases op with
  | addOrder o => exact ⟨⟨hl.2, hl.1.wellFormed⟩, trivial⟩
  | executeOrderAt i q p =>
    obtain ⟨w, l, hw, hl, hh⟩ := hres hl
    exact ⟨trivial, executeResting_ok hw hl hh q _⟩
  | executeOrder i q =>
    obtain ⟨w, l, hw, hl, hh⟩ := hres hl
    exact ⟨trivial, executeResting_ok hw hl hh q _⟩
  | cancelOrder i q =>
    obtain ⟨w, l, hw, hl, hh⟩ := hres hl
    exact ⟨trivial, cancelResting_ok hw hl hh q⟩
  | deleteOrder i =>
    obtain ⟨w, l, hw, hl, hh⟩ := hres hl
    exact ⟨trivial, deleteOrderWith_ok hw hl hh true⟩
  | replaceOrder i i' p =>
    obtain ⟨hi, hn, hp⟩ := hl
    obtain ⟨w, l, hw, hl, hh⟩ := hres hi
    refine ⟨⟨trivial, fun w b' hw hd => ?_⟩, deleteOrderWith_ok hw hl hh true⟩
    obtain ⟨w', l, hd⟩ := deleteOrderWith_deleted hd
    have hr := h.restable hw
    refine ⟨?_, ⟨⟨hr.tif, fun _ => hp, hr.stop_ne, hr.trail_ne⟩, hr.open_ne⟩⟩
    change b'.orders.find? i' = none
    rw [hd.find?_orders]
    split
    · rfl
    · rename_i hne
      exact hn.resolve_left hne

/-- The books in which operations end or, when they do not end, are cut short. -/
inductive Visited (Allowed : Book → Op → Prop) (symbolId : UInt32) : MapOrderBook → Prop
  | done : Reachable Allowed symbolId b → Visited Allowed symbolId b
  | cut : Reachable Allowed symbolId b → Allowed b.toBook op → b.apply fuel op = .error e →
      Visited Allowed symbolId e

theorem Reachable.run (fuel : Nat) (ops : List Op) (h : Reachable Allowed symbolId b)
    (ha : RunAllowed Allowed fuel b ops) (hr : b.run fuel ops = .ok b') :
    Reachable Allowed symbolId b' := by
  induction ops generalizing b with
  | nil =>
    cases hr
    exact h
  | cons op ops ih =>
    obtain ⟨b₁, hb₁, hr⟩ := bind_eq_ok.1 hr
    obtain ⟨ho, ha⟩ := ha
    rw [hb₁] at ha
    exact ih (h.apply ho hb₁) ha hr

/-- A run that can be checked by evaluation. -/
theorem exists_reachable (Allowed : Book → Op → Prop) (symbolId : UInt32) (fuel : Nat)
    (ops : List Op) (ha : RunAllowed Allowed fuel (.new symbolId) ops)
    (hr : ((MapOrderBook.new symbolId).run fuel ops).isOk = true) :
    ∃ b, (MapOrderBook.new symbolId).run fuel ops = .ok b ∧ Reachable Allowed symbolId b := by
  cases h : (MapOrderBook.new symbolId).run fuel ops with
  | error e =>
    rw [h] at hr
    cases hr
  | ok b => exact ⟨b, rfl, .run fuel ops .new ha h⟩

/-- What can be read off the end of a run by evaluation. -/
theorem exists_of_run {x : Except ε β} {f : β → Option α} {o : α}
    (h : x.toOption.bind f = some o) : ∃ b, x = .ok b ∧ f b = some o := by
  cases x with
  | ok b => exact ⟨b, rfl, h⟩
  | error e => cases h

theorem exists_reachable_of_run (Allowed : Book → Op → Prop) (symbolId : UInt32) (fuel : Nat)
    (ops : List Op) (ha : RunAllowed Allowed fuel (.new symbolId) ops)
    {f : MapOrderBook → Option α} {o : α}
    (h : ((MapOrderBook.new symbolId).run fuel ops).toOption.bind f = some o) :
    ∃ b, (MapOrderBook.new symbolId).run fuel ops = .ok b ∧ Reachable Allowed symbolId b ∧
      f b = some o := by
  obtain ⟨b, hb, hf⟩ := exists_of_run h
  exact ⟨b, hb, .run fuel ops .new ha hb, hf⟩

/-- A run and one more operation, of which `f` reads the books before and after it. -/
def MapOrderBook.readLast (Allowed : Book → Op → Prop) [∀ b op, Decidable (Allowed b op)]
    (f : MapOrderBook → MapOrderBook → Option α) (fuel : Nat) (op : Op) (b : MapOrderBook) :
    Option α :=
  if Allowed b.toBook op then (b.apply fuel op).toOption.bind (f b) else none

theorem exists_last_of_run (Allowed : Book → Op → Prop) [∀ b op, Decidable (Allowed b op)]
    (symbolId : UInt32) (fuel : Nat) (ops : List Op) (op : Op)
    (ha : RunAllowed Allowed fuel (.new symbolId) ops)
    {f : MapOrderBook → MapOrderBook → Option α} {o : α}
    (h : ((MapOrderBook.new symbolId).run fuel ops).toOption.bind
      (MapOrderBook.readLast Allowed f fuel op) = some o) :
    ∃ b b', (MapOrderBook.new symbolId).run fuel ops = .ok b ∧ Reachable Allowed symbolId b ∧
      Allowed b.toBook op ∧ b.apply fuel op = .ok b' ∧ f b b' = some o := by
  obtain ⟨b, hb, hr, hf⟩ := exists_reachable_of_run Allowed symbolId fuel ops ha h
  unfold MapOrderBook.readLast at hf
  split at hf
  · rename_i hop
    obtain ⟨b', hb', hf⟩ := exists_of_run hf
    exact ⟨b, b', hb, hr, hop, hb', hf⟩
  · cases hf

/-- A run in which a stop order is activated, the bid it meets is cut, an ask moves and a trailing
stop order comes to rest. -/
def mixedOps : List Op :=
  [.addOrder (.new .limit .bid .gtc 1 90 0 0 5 1), .addOrder (.new .limit .ask .gtc 1 95 0 0 5 2),
    .executeOrder 1 1, .addOrder (.new .stop .ask .ioc 1 0 80 0 2 3), .executeOrderAt 2 1 80,
    .replaceOrder 2 4 99, .cancelOrder 4 1, .addOrder (.new .trailingStop .ask .ioc 1 0 0 10 2 5)]

/-! ### The rule of invariants -/

/-- Operations that are allowed in states with `J` make admissible requests, and every step of such
requests preserves `J`. -/
structure Guards (Allowed : Book → Op → Prop) (Adm : Book → Request → Prop)
    (J : Config → Prop) : Prop where
  admits : Inv ⟨b, none⟩ → J ⟨b, none⟩ → Allowed b.toBook op → op.Admits Adm b
  legal : Allowed b op → op.Legal b
  proper : Adm b r → Proper b r
  step : Inv c → J c → Step Adm c c' → J c'

theorem guards_legal (hstep : ∀ {c c'}, Inv c → J c → Step Proper c c' → J c') :
    Guards Op.Legal Proper J :=
  ⟨fun h _ hl => (hl.proper h).1, fun hl => hl, fun h => h, hstep⟩

section Induction
variable {Allowed : Book → Op → Prop} {Adm : Book → Request → Prop} {J : Config → Prop}

theorem Inv.induct (hadm : ∀ b r, Adm b r → Proper b r)
    (hstep : ∀ {c c'}, Inv c → J c → Step Adm c c' → J c') (hi : Inv c) (hj : J c)
    (hs : Steps Adm c c') : Inv c' ∧ J c' := by
  induction hs with
  | refl => exact ⟨hi, hj⟩
  | tail _ hs ih => exact ⟨ih.1.step (hs.mono hadm), hstep ih.1 ih.2 hs⟩

theorem Guards.steps (hg : Guards Allowed Adm J) (hi : Inv c) (hj : J c) (hs : Steps Adm c c') :
    Inv c' ∧ J c' :=
  hi.induct (fun _ _ => hg.proper) hg.step hj hs

/-- What every step preserves holds after every completed operation. -/
theorem Reachable.induct (hg : Guards Allowed Adm J) (hnew : J ⟨.new symbolId, none⟩)
    (h : Reachable Allowed symbolId b) : Inv ⟨b, none⟩ ∧ J ⟨b, none⟩ := by
  induction h with
  | new => exact ⟨.new symbolId, hnew⟩
  | apply _ ha h ih =>
    exact hg.steps ih.1 ih.2 (apply_steps h (hg.admits ih.1 ih.2 ha))

/-- What every step preserves holds at the end of every operation, completed or not. -/
theorem Visited.induct (hg : Guards Allowed Adm J) (hnew : J ⟨.new symbolId, none⟩)
    (h : Visited Allowed symbolId b) : ∃ c, c.book = b ∧ Inv c ∧ J c := by
  cases h with
  | done h => exact ⟨⟨b, none⟩, rfl, h.induct hg hnew⟩
  | cut h ha he =>
    obtain ⟨hi, hj⟩ := h.induct hg hnew
    obtain ⟨c, hc, hb⟩ := (apply_runs _ _ _ (hg.admits hi hj ha)
      ((hg.legal ha).proper hi).2).of_error he
    obtain ⟨hi', hj'⟩ := hg.steps hi hj hc
    exact ⟨c, hb.resolve_right hi'.not_stuck, hi', hj'⟩

end Induction

theorem Reachable.inv (h : Reachable Op.Legal symbolId b) : Inv ⟨b, none⟩ :=
  (h.induct (guards_legal (J := fun _ => True) fun _ _ _ => trivial) trivial).1

/-- The book in which a computation ends or is cut short. -/
def Leaves (x : Exec MapOrderBook) (b : MapOrderBook) : Prop := x = .ok b ∨ x = .error b

theorem Leaves.bind {x : Exec MapOrderBook} {f : MapOrderBook → Exec MapOrderBook}
    (h : Leaves (x >>= f) b) : (∃ b₁, x = .ok b₁ ∧ Leaves (f b₁) b) ∨ x = .error b := by
  cases x with
  | ok b₁ => exact .inl ⟨b₁, rfl, h⟩
  | error e =>
    rcases h with h | h
    · cases h
    · exact .inr h

theorem Reachable.visited (ops : List Op) (h : Reachable Allowed symbolId b)
    (ha : RunAllowed Allowed fuel b ops) (hl : Leaves (b.run fuel ops) b') :
    Visited Allowed symbolId b' := by
  induction ops generalizing b with
  | nil =>
    rcases hl with hl | hl <;> cases hl
    exact .done h
  | cons op ops ih =>
    obtain ⟨ho, ha⟩ := ha
    rcases hl.bind with ⟨b₁, hb₁, hl⟩ | he
    · rw [hb₁] at ha
      exact ih (h.apply ho hb₁) ha hl
    · exact .cut h ho he

/-! ### Traces only grow -/

theorem Inv.trace_prefix (hi : Inv c) (h : Steps Proper c c') :
    c.book.trace <+: c'.book.trace := by
  refine (hi.induct (J := fun d => c.book.trace <+: d.book.trace) (fun _ _ h => h) ?_
    (List.prefix_refl _) h).2
  intro d d' hi' hj hs
  obtain ⟨ns, hns, _⟩ := hi'.step_marked hs
  exact hj.trans ⟨ns, hns.symm⟩

theorem RunsTo.trace_prefix (hi : Inv c)
    (h : RunsTo (Steps Proper) c (fun b => ⟨b, none⟩) x) (hl : Leaves x b) :
    c.book.trace <+: b.trace := by
  rcases hl with hl | hl
  · exact hi.trace_prefix (h.of_ok hl)
  · obtain ⟨c', hc', hb⟩ := h.of_error hl
    have hi' := hi.steps hc'
    rw [← hb.resolve_right hi'.not_stuck]
    exact hi.trace_prefix hc'

/-- A legal operation keeps the invariant. -/
theorem Inv.apply (hi : Inv ⟨b, none⟩) (hl : Op.Legal b.toBook op)
    (h : MapOrderBook.apply fuel b op = .ok b') : Inv ⟨b', none⟩ :=
  hi.steps (apply_steps h (hl.proper hi).1)

theorem run_trace_prefix (hi : Inv ⟨b, none⟩) (ha : RunAllowed Op.Legal fuel b ops)
    (hl : Leaves (b.run fuel ops) b') : b.trace <+: b'.trace := by
  induction ops generalizing b with
  | nil =>
    rcases hl with hl | hl <;> cases hl
    exact List.prefix_refl _
  | cons op ops ih =>
    obtain ⟨ho, ha⟩ := ha
    obtain ⟨hadm, hst⟩ := ho.proper hi
    have hruns := apply_runs fuel b op hadm hst
    rcases hl.bind with ⟨b₁, hb₁, hl⟩ | he
    · rw [hb₁] at ha
      exact (hruns.trace_prefix hi (.inl hb₁)).trans (ih (hi.apply ho hb₁) ha hl)
    · exact hruns.trace_prefix hi (.inr he)

end RapidTrader
