import RapidTrader.Acts
import RapidTrader.Everywhere

namespace RapidTrader
open Lib
set_option autoImplicit true

/-- The event of a note that tells of an order with the id `i`. -/
def Note.about (i : UInt64) : Note → Option Event
  | .event e => if e.order?.map Order.id = some i then some e else none
  | .matching _ _ | .trade _ _ _ _ | .activated _ _ | .updating _ _ => none

/-- The events of a trace that tell of orders with the id `i`. -/
def eventsOf (i : UInt64) (trace : List Note) : List Event := trace.filterMap (Note.about i)

theorem eventsOf_append (i : UInt64) (t ns : List Note) :
    eventsOf i (t ++ ns) = eventsOf i t ++ eventsOf i ns := List.filterMap_append

theorem eventsOf_event (he : e.order? = some o) (i : UInt64) :
    eventsOf i [.event e] = if o.id = i then [e] else [] := by
  unfold eventsOf
  by_cases hi : o.id = i
  · rw [if_pos hi, List.filterMap_cons_some, List.filterMap_nil]
    rw [Note.about, he, Option.map_some, if_pos (congrArg some hi)]
  · rw [if_neg hi, List.filterMap_cons_none, List.filterMap_nil]
    rw [Note.about, he, Option.map_some, if_neg fun h => hi (Option.some.inj h)]

theorem eventsOf_other (hn : ∀ e, n ≠ .event e) (i : UInt64) : eventsOf i [n] = [] := by
  cases n with
  | event e => exact absurd rfl (hn e)
  | matching | trade | activated | updating => rfl

/-- Sequences of lifecycles: an order is added, then updated and executed any number of times, then
deleted. The flag tells whether the last lifecycle is still open. -/
inductive Lifecycles : Bool → List Event → Prop
  | nil : Lifecycles false []
  | added : Lifecycles false es → Lifecycles true (es ++ [.orderAdded o])
  | updated : Lifecycles true es → Lifecycles true (es ++ [.orderUpdated o])
  | executed : Lifecycles true es → Lifecycles true (es ++ [.executedOrder o])
  | deleted : Lifecycles true es → Lifecycles false (es ++ [.orderDeleted o])

/-- Every id has lived through lifecycles, the last one open as long as an order is live. -/
def Lived (v : View) (t : List Note) : Prop :=
  ∀ i, Lifecycles (v.live i).isSome (eventsOf i t)

namespace Lived

theorem new : Lived ⟨fun _ => none, none, 0⟩ [] := fun _ => .nil

theorem event (h : Lived v t) (he : e.order? = some o)
    (hlive : ∀ i, i ≠ o.id → v'.live i = v.live i)
    (ho : ∀ {es}, Lifecycles (v.live o.id).isSome es →
      Lifecycles (v'.live o.id).isSome (es ++ [e])) : Lived v' (t ++ [.event e]) := by
  intro i
  rw [eventsOf_append, eventsOf_event he]
  split
  · rename_i hi
    subst hi
    exact ho (h o.id)
  · rename_i hi
    rw [List.append_nil, hlive i fun he => hi he.symm]
    exact h i

theorem other (h : Lived v t) (hn : ∀ e, n ≠ .event e) : Lived v (t ++ [n]) := by
  intro i
  rw [eventsOf_append, eventsOf_other hn, List.append_nil]
  exact h i

theorem silent (h : Lived v t) (hl : v.live o.id = some o)
    (hlive : ∀ i, i ≠ o.id → v'.live i = v.live i) (hl' : v'.live o.id = some o') :
    Lived v' t := by
  intro i
  by_cases hi : i = o.id
  · subst hi
    have := h o.id
    rw [hl] at this
    rw [hl']
    exact this
  · rw [hlive i hi]
    exact h i

/-- A live order is told of, and lives on. -/
theorem told (h : Lived v t) (hl : v.live o.id = some o) (he : e.order? = some o')
    (hid : o'.id = o.id) (hlive : ∀ i, i ≠ o.id → v'.live i = v.live i)
    (hl' : v'.live o.id = some o')
    (hkind : e = .orderUpdated o' ∨ e = .executedOrder o') : Lived v' (t ++ [.event e]) := by
  apply h.event he (by rwa [hid])
  intro es hes
  rw [hid, hl] at hes
  rw [hid, hl']
  rcases hkind with rfl | rfl
  · exact .updated hes
  · exact .executed hes

theorem act (h : Lived v t) (ha : Act Adm v ns v') : Lived v' (t ++ ns) := by
  cases ha with
  | quiet hn _ =>
    apply h.other
    rintro e rfl
    exact hn trivial
  | @added o _ _ _ hl _ _ =>
    apply h.event rfl (fun i hi => if_neg hi)
    intro es hes
    rw [hl] at hes
    dsimp only
    rw [View.live_set, if_pos rfl]
    exact .added hes
  | priced _ hl _ | trailed _ hl _ _ =>
    rw [List.append_nil]
    exact h.silent hl (fun i hi => if_neg hi) (if_pos rfl)
  | rested _ hl _ _ _ =>
    rw [List.append_nil]
    exact h
  | activated _ hl _ => exact h.told hl rfl rfl (fun i hi => if_neg hi) (if_pos rfl) (.inl rfl)
  | moved _ hl _ _ => exact h.told hl rfl rfl (fun i hi => if_neg hi) (if_pos rfl) (.inl rfl)
  | cancelled _ hl _ => exact h.told hl rfl rfl (fun i hi => if_neg hi) (if_pos rfl) (.inl rfl)
  | executed _ hl _ _ => exact h.told hl rfl rfl (fun i hi => if_neg hi) (if_pos rfl) (.inr rfl)
  | deleted hl =>
    apply h.event rfl (fun i hi => if_neg hi)
    intro es hes
    rw [hl] at hes
    dsimp only
    rw [View.live_set, if_pos rfl]
    exact .deleted hes
  | @traded _ bid ask p q ht =>
    have h₀ : Lived v (t ++ [.trade bid.id ask.id p q]) := by
      apply h.other
      intro e he
      cases he
    have h₁ : Lived (v.set bid.id (some (bid.execute p q))) (t ++ [.trade bid.id ask.id p q] ++
        [.event (.executedOrder (bid.execute p q))]) :=
      h₀.told ht.bidLive rfl rfl (fun i hi => if_neg hi) (if_pos rfl) (.inr rfl)
    have h₂ : Lived ((v.set bid.id (some (bid.execute p q))).set ask.id (some (ask.execute p q)))
        (t ++ [.trade bid.id ask.id p q] ++ [.event (.executedOrder (bid.execute p q))] ++
          [.event (.executedOrder (ask.execute p q))]) :=
      h₁.told ((if_neg ht.ne.symm).trans ht.askLive) rfl rfl (fun i hi => if_neg hi) (if_pos rfl)
        (.inr rfl)
    rw [List.append_assoc, List.append_assoc] at h₂
    exact h₂

end Lived

/-- The events about an id are a sequence of lifecycles, and after a completed operation the last
one is open exactly when the id rests. -/
theorem lifecycles (h : Visited Op.Legal symbolId b) (i : UInt64) :
    (∃ alive, Lifecycles alive (eventsOf i b.trace)) ∧
      (Reachable Op.Legal symbolId b →
        Lifecycles (b.orders.find? i).isSome (eventsOf i b.trace)) := by
  constructor
  · obtain ⟨v, hv⟩ := h.act_induct Lived.act Lived.new
    exact ⟨_, hv i⟩
  · intro hr
    have hc := hr.act_induct Lived.act Lived.new i
    change Lifecycles ((b.orders.find? i).map OrderWrapper.order).isSome _ at hc
    rwa [Option.isSome_map] at hc

theorem lifecycles_mixedOps : ∃ b, (MapOrderBook.new 1).run 20 mixedOps = .ok b ∧
    (∃ alive, Lifecycles alive (eventsOf 2 b.trace)) ∧
      (Reachable Op.Legal 1 b → Lifecycles (b.orders.find? 2).isSome (eventsOf 2 b.trace)) := by
  obtain ⟨b, hb, hr⟩ := exists_reachable Op.Legal 1 20 mixedOps (by decide +kernel)
    (by decide +kernel)
  exact ⟨b, hb, lifecycles (.done hr) 2⟩

end RapidTrader
