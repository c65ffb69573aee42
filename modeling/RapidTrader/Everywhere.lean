import RapidTrader.Effects

namespace RapidTrader
open Lib
set_option autoImplicit true

/-- The order an event tells of. -/
def Event.order? : Event → Option Order
  | .orderAdded o | .orderDeleted o | .orderUpdated o | .executedOrder o => some o
  | .symbolAdded _ _ | .symbolDeleted _ _ => none

/-- Every resting order, and every order an event has told of, satisfies `P`. -/
structure Throughout (P : Order → Prop) (b : MapOrderBook) : Prop where
  resting : b.orders.find? i = some w → P w.order
  told : .event e ∈ b.trace → e.order? = some o → P o

/-- A property of orders that the code keeps, except where it cancels. -/
structure Kept (P : Order → Prop) : Prop where
  execute : P o → quantity ≤ o.openQuantity → P (o.execute price quantity)
  setPrice : P o → P (o.setPrice price)
  setStopPrice : P o → P (o.setStopPrice price)
  setTrailAmount : P o → P (o.setTrailAmount amount)
  setType : P o → P (o.setType type)

theorem Kept.activate (h : Kept P) (ho : P o) : P o.activate :=
  h.setType (h.setTrailAmount (h.setStopPrice ho))

namespace Throughout

theorem new (P : Order → Prop) (symbolId : UInt32) : Throughout P (.new symbolId) :=
  ⟨fun h => (nomatch h), fun h => (nomatch h)⟩

/-- Entries may be dropped and events added. -/
theorem of_subset (h : Throughout P b)
    (ho : ∀ i w, b'.orders.find? i = some w → (∃ i w', b.orders.find? i = some w' ∧
      w.order = w'.order) ∨ P w.order)
    (ht : ∀ e, .event e ∈ b'.trace → .event e ∈ b.trace ∨ ∀ o, e.order? = some o → P o) :
    Throughout P b' := by
  refine ⟨fun {i w} hw => ?_, fun {o e} he heo => ?_⟩
  · rcases ho i w hw with ⟨_, w', hw', he⟩ | hp
    · exact he ▸ h.resting hw'
    · exact hp
  · rcases ht e he with he | hp
    · exact h.told he heo
    · exact hp o heo

theorem note (h : Throughout P b) (hn : ∀ e, n ≠ .event e) : Throughout P (b.note n) := by
  refine h.of_subset (fun i w hw => .inl ⟨i, w, hw, rfl⟩) fun e he => ?_
  rw [trace_note, List.mem_append, List.mem_singleton] at he
  exact .inl (he.resolve_right fun he => hn e he.symm)

theorem emit (h : Throughout P b) (hp : ∀ o, e.order? = some o → P o) :
    Throughout P (b.emit e) := by
  refine h.of_subset (fun i w hw => .inl ⟨i, w, hw, rfl⟩) fun e' he => ?_
  rw [trace_emit, List.mem_append, List.mem_singleton] at he
  refine he.imp id fun he => ?_
  cases he
  exact hp

theorem modifyLevel (h : Throughout P b) (it : LevelIt) (f : Level → Level) :
    Throughout P (b.modifyLevel it f) := by
  refine ⟨fun hw => ?_, fun he => ?_⟩
  · rw [orders_modifyLevel] at hw
    exact h.resting hw
  · rw [trace_modifyLevel] at he
    exact h.told he

theorem setLevels (h : Throughout P b) (t : LevelMap) (m : SortedMap UInt64 Level) :
    Throughout P (b.setLevels t m) := by
  refine ⟨fun hw => ?_, fun he => ?_⟩
  · rw [orders_setLevels] at hw
    exact h.resting hw
  · rw [trace_setLevels] at he
    exact h.told he

theorem writeOrder (h : Throughout P b) (hp : P o) (i : UInt64) :
    Throughout P (b.writeOrder i o) := by
  refine ⟨fun {k w} hw => ?_, h.told⟩
  change (b.orders.modify i _).find? k = some w at hw
  rw [SortedMap.find?_modify] at hw
  split at hw
  · obtain ⟨w', _, rfl⟩ := Option.map_eq_some_iff.1 hw
    exact hp
  · exact h.resting hw

theorem deleteOrderWith (h : Throughout P b) (hd : b.deleteOrderWith i n = .ok b') :
    Throughout P b' := by
  obtain ⟨w, l, hd⟩ := deleteOrderWith_deleted hd
  refine h.of_subset (fun k w' hk => .inl ⟨k, w', ?_, rfl⟩) fun e he => ?_
  · rw [hd.find?_orders] at hk
    split at hk
    · cases hk
    · exact hk
  · rw [hd.trace, List.mem_append] at he
    refine he.imp id fun he o heo => ?_
    split at he
    · cases List.mem_singleton.1 he
      cases heo
      exact h.resting hd.order
    · cases he

theorem settle (h : Throughout P b) (hs : b.settle it o i amount = .ok b') :
    Throughout P b' := by
  unfold MapOrderBook.settle at hs
  split at hs
  · exact (h.modifyLevel it _).deleteOrderWith hs
  · cases hs
    exact h.modifyLevel it _

theorem executeOrders (hk : Kept P) (h : Throughout P b) (ha : P ask) (hb : P bid)
    (price : UInt64) : Throughout P (b.executeOrders ask bid price).1 ∧
      P (b.executeOrders ask bid price).2.1 ∧ P (b.executeOrders ask bid price).2.2 := by
  have hmin : min ask.openQuantity bid.openQuantity ≤ ask.openQuantity ∧
      min ask.openQuantity bid.openQuantity ≤ bid.openQuantity := by
    rw [min_uint64]
    grind
  have ha' : P (ask.execute price (min ask.openQuantity bid.openQuantity)) := hk.execute ha hmin.1
  have hb' : P (bid.execute price (min ask.openQuantity bid.openQuantity)) := hk.execute hb hmin.2
  refine ⟨?_, ha', hb'⟩
  have hn := h.note (n := .trade bid.id ask.id price (min ask.openQuantity bid.openQuantity))
    (fun _ => nofun)
  have he := (hn.emit (e := .executedOrder _) (fun o ho => by cases ho; exact hb')).emit
    (e := .executedOrder _) (fun o ho => by cases ho; exact ha')
  exact ⟨he.resting, he.told⟩

theorem matchFront (hk : Kept P) (h : Throughout P b) (ho : P o)
    (hm : b.matchFront o = .ok (b', o')) : Throughout P b' ∧ P o' := by
  unfold MapOrderBook.matchFront at hm
  split at hm
  · cases hm
  · split at hm
    · cases hm
    · obtain ⟨w, hw, hm⟩ := bind_eq_ok.1 hm
      have hpw := h.resting (orderAt_eq_ok.1 hw)
      cases hs : o.side with
      | ask =>
        simp only [hs] at hm
        obtain ⟨b₁, hset, hm⟩ := bind_eq_ok.1 hm
        cases hm
        obtain ⟨h₁, h₂, h₃⟩ := h.executeOrders hk ho hpw w.order.price
        exact ⟨(h₁.writeOrder h₃ _).settle hset, h₂⟩
      | bid =>
        simp only [hs] at hm
        obtain ⟨b₁, hset, hm⟩ := bind_eq_ok.1 hm
        cases hm
        obtain ⟨h₁, h₂, h₃⟩ := h.executeOrders hk hpw ho w.order.price
        exact ⟨(h₁.writeOrder h₂ _).settle hset, h₃⟩

theorem insertOrder (h : Throughout P b) (ho : P o) (t : LevelMap) (key : UInt64) :
    Throughout P (b.insertOrder t key o) := by
  unfold MapOrderBook.insertOrder
  apply modifyLevel
  refine ⟨fun {i w} hw => ?_, (h.setLevels t _).told⟩
  dsimp only at hw
  rw [orders_setLevels, SortedMap.find?_emplace] at hw
  split at hw
  · cases hf : b.orders.find? o.id with
    | none =>
      rw [hf] at hw
      cases hw
      exact ho
    | some w' =>
      rw [hf] at hw
      cases hw
      exact h.resting hf
  · exact h.resting hw

theorem insertTrailingStopOrder (h : Throughout P b) (ho : P o) :
    Throughout P (b.insertTrailingStopOrder o) := by
  have hi := h.insertOrder ho (if o.isAsk then .trailingStopAsk else .trailingStopBid) o.stopPrice
  refine ⟨fun {i w} hw => ?_, hi.told⟩
  unfold MapOrderBook.insertTrailingStopOrder at hw
  dsimp only at hw
  rw [SortedMap.find?_modify] at hw
  split at hw
  · obtain ⟨w', hw', rfl⟩ := Option.map_eq_some_iff.1 hw
    have := hi.resting hw'
    exact this
  · exact hi.resting hw

theorem relevel (hk : Kept P) (h : Throughout P b) (hr : b.relevel t = .ok b') :
    Throughout P b' := by
  obtain ⟨⟨b₁, m⟩, hf, hr⟩ := bind_eq_ok.1 hr
  cases hr
  refine setLevels (foldlM_inv (I := fun s => Throughout P s.1) ?_ h hf) t m
  intro s i s' hs hs'
  obtain ⟨w, hw, hs'⟩ := bind_eq_ok.1 hs'
  cases hs'
  have hp : P (s.1.calculateStopPrice w.order) :=
    hk.setStopPrice (hs.resting (orderAt_eq_ok.1 hw))
  refine emit ⟨fun {k w'} hk => ?_, hs.told⟩ fun o ho => by cases ho; exact hp
  dsimp only at hk
  rw [SortedMap.find?_modify] at hk
  split at hk
  · obtain ⟨_, _, rfl⟩ := Option.map_eq_some_iff.1 hk
    exact hp
  · exact hs.resting hk

theorem updateStopOrders (hk : Kept P) (h : Throughout P b)
    (hu : b.updateStopOrders side = .ok b') : Throughout P b' := by
  rw [updateStopOrders_eq] at hu
  obtain ⟨b₁, hb₁, hu⟩ := bind_eq_ok.1 hu
  cases hu
  have hn := h.note (n := .updating side b.toBook) (fun _ => nofun)
  have h₁ : Throughout P b₁ := by
    split at hb₁
    · exact hn.relevel hk hb₁
    · cases hb₁
      exact hn
  cases side <;> exact ⟨h₁.resting, h₁.told⟩

theorem executeResting (hk : Kept P) (h : Throughout P b)
    (hx : b.executeResting i quantity price = .ok b') : Throughout P b' := by
  obtain ⟨w, hw, hx⟩ := bind_eq_ok.1 hx
  obtain ⟨l, _, hx⟩ := bind_eq_ok.1 hx
  have hp : P (w.order.execute (price w.order) (min quantity w.order.openQuantity)) := by
    apply hk.execute (h.resting (orderAt_eq_ok.1 hw))
    rw [min_uint64]
    grind
  have hw' := h.writeOrder hp i
  refine (emit (b := { b.writeOrder i _ with lastTradedPrice := price w.order })
    ⟨hw'.resting, hw'.told⟩ fun o ho => ?_).settle hx
  cases ho
  exact hp

theorem cancelResting (h : Throughout P b)
    (hp : ∀ w, b.orders.find? i = some w → P (w.order.setQuantity quantity))
    (hx : b.cancelResting i quantity = .ok b') : Throughout P b' := by
  obtain ⟨w, hw, hx⟩ := bind_eq_ok.1 hx
  obtain ⟨l, _, hx⟩ := bind_eq_ok.1 hx
  have hp := hp w (orderAt_eq_ok.1 hw)
  refine ((h.writeOrder hp i).emit fun o ho => ?_).settle hx
  cases ho
  exact hp

end Throughout

/-- `P` holds throughout the book and of the order which the code is working on. -/
structure Everywhere (P : Order → Prop) (c : Config) : Prop where
  book : Throughout P c.book
  working : c.working = some o → P o

/-- The requests that bring in orders with `P` only. -/
def Brings (P : Order → Prop) (b : Book) : Request → Prop
  | .submit order => P order
  | .cancel orderId quantity =>
    ∀ w, b.orders.find? orderId = some w → P (w.order.setQuantity quantity)
  | _ => True

namespace Everywhere

theorem of_none (h : Throughout P b) : Everywhere P ⟨b, none⟩ := ⟨h, fun h => (nomatch h)⟩

theorem of_some (h : Throughout P b) (ho : P o) : Everywhere P ⟨b, some o⟩ :=
  ⟨h, fun he => by cases he; exact ho⟩

theorem workStep (hk : Kept P) (h : Everywhere P c) (hs : WorkStep c c') : Everywhere P c' := by
  cases hs with
  | priced _ => exact .of_some h.book (hk.setPrice (h.working rfl))
  | matching _ => exact .of_some (h.book.note fun _ => nofun) (h.working rfl)
  | traded _ _ hm =>
    obtain ⟨hb, ho⟩ := h.book.matchFront hk (h.working rfl) hm
    exact .of_some hb ho
  | rested _ _ _ _ => exact .of_none (h.book.insertOrder (h.working rfl) _ _)
  | dropped _ => exact .of_none (h.book.emit fun o ho => by cases ho; exact h.working rfl)
  | activating _ _ _ hw hd =>
    have ho := hk.activate (h.book.resting hw)
    exact .of_some ((h.book.deleteOrderWith hd).emit fun o he => by cases he; exact ho) ho
  | activated => exact .of_none (h.book.note fun _ => nofun)

/-- A kept property stays true everywhere as long as the requests respect it. -/
theorem step (hk : Kept P) (ha : ∀ b r, Adm b r → Brings P b r) (h : Everywhere P c)
    (hs : Step Adm c c') : Everywhere P c' := by
  cases hs with
  | work hs => exact h.workStep hk hs
  | added hr =>
    have ho : P _ := ha _ _ hr
    exact .of_some (h.book.emit fun o he => by cases he; exact ho) ho
  | trailed _ => exact .of_some h.book (hk.setStopPrice (h.working rfl))
  | triggered _ _ =>
    have ho := hk.activate (h.working rfl)
    exact .of_some (h.book.emit fun o he => by cases he; exact ho) ho
  | restedStop _ _ => exact .of_none (h.book.insertOrder (h.working rfl) _ _)
  | restedTrailing _ _ _ => exact .of_none (h.book.insertTrailingStopOrder (h.working rfl))
  | updated hu => exact .of_none (h.book.updateStopOrders hk hu)
  | executed _ hx => exact .of_none (h.book.executeResting hk hx)
  | cancelled hr hx => exact .of_none (h.book.cancelResting (ha _ _ hr) hx)
  | deleted _ hd => exact .of_none (h.book.deleteOrderWith hd)

end Everywhere

end RapidTrader
