import RapidTrader.Lifecycle
import RapidTrader.Settlement

namespace RapidTrader
open Lib
set_option autoImplicit true

/-- The order as the last event about its id shows it. -/
def latest (i : UInt64) (trace : List Note) : Option Order :=
  (eventsOf i trace).getLast?.bind Event.order?

theorem latest_event (he : e.order? = some o) (i : UInt64) (t : List Note) :
    latest i (t ++ [.event e]) = if o.id = i then some o else latest i t := by
  unfold latest
  rw [eventsOf_append, eventsOf_event he]
  split
  · rw [List.getLast?_append]
    exact he
  · rw [List.append_nil]

theorem latest_other (hn : ∀ e, n ≠ .event e) (i : UInt64) (t : List Note) :
    latest i (t ++ [n]) = latest i t := by
  unfold latest
  rw [eventsOf_append, eventsOf_other hn, List.append_nil]

/-- All resting orders can be read off the events. -/
def Rebuilt (b : MapOrderBook) : Prop :=
  ∀ i w, b.orders.find? i = some w → latest i b.trace = some w.order

/-- If the order is to rest as a trailing order, its stop price is already the one it will have. -/
def Book.Foretells (b : Book) (o : Order) : Prop :=
  o.IsTrailing → b.stopTriggered (b.calculateStopPrice o) = false → b.calculateStopPrice o = o

/-- Proper requests that submit orders with the stop prices they will rest with. -/
def Foreseen (b : Book) (r : Request) : Prop :=
  Proper b r ∧ ∀ o, r = .submit o → b.Foretells o

/-- What the last event `s?` about a live order tells of it. It shows the order as it is, but for
the price of a market order in hand and for the stop price of a trailing order in hand. -/
inductive Known (v : View) (i : UInt64) (s? : Option Order) (o : Order) : Prop
  | shown : (v.hand = some i → ¬ o.IsTrailing) → s? = some o → Known v i s? o
  | market : v.hand = some i → o.type = .market → Known v i s? o
  | trailing : v.hand = some i → o.IsTrailing → s? = some s → o = s.setStopPrice o.stopPrice →
      (∀ b : Book, b.lastTradedPrice = v.price → b.Foretells s) → Known v i s? o

def Shown (v : View) (t : List Note) : Prop :=
  ∀ i o, v.live i = some o → Known v i (latest i t) o

theorem Known.mono (h : Known v i s? o) (hh : v'.hand = some i ↔ v.hand = some i)
    (hp : v.hand = some i → v'.price = v.price) : Known v' i s? o := by
  cases h with
  | shown hn hs => exact .shown (fun hi => hn (hh.1 hi)) hs
  | market hi hm => exact .market (hh.2 hi) hm
  | trailing hi ht hs ho hf =>
    exact .trailing (hh.2 hi) ht hs ho fun b hb => hf b (hb.trans (hp hi))

theorem Book.Foretells.congr {b b' : Book} (h : b.Foretells o)
    (hp : b'.lastTradedPrice = b.lastTradedPrice) : b'.Foretells o := by
  unfold Foretells at *
  rw [calculateStopPrice_congr hp]
  intro ht hs
  apply h ht
  rw [← hs]
  unfold stopTriggered lastTradedPriceAsk lastTradedPriceBid
  rw [hp]

theorem Order.setStopPrice_of_eq {o s : Order} (h : o = s.setStopPrice p) (x : UInt64) :
    o.setStopPrice x = s.setStopPrice x := by
  rw [h]
  rfl

theorem calculateStopPrice_setStopPrice (b : Book) (o : Order) (p : UInt64) :
    b.calculateStopPrice (o.setStopPrice p) = b.calculateStopPrice o := rfl

theorem Trade.matchable (h : Trade v bid ask p q) : bid.IsMatchable ∧ ask.IsMatchable := by
  rcases h.resting with ⟨_, hm, ht, _⟩ | ⟨_, hm, ht, _⟩
  · exact ⟨hm, .inl ht⟩
  · exact ⟨.inl ht, hm⟩

namespace Shown

theorem new : Shown ⟨fun _ => none, none, 0⟩ [] := nofun

theorem other (h : Shown v t) (hn : ∀ e, n ≠ .event e) : Shown v (t ++ [n]) := by
  intro i o hl
  rw [latest_other hn]
  exact h i o hl

/-- An order is told of. -/
theorem event (h : Shown v t) (he : e.order? = some o)
    (hlive : ∀ i, i ≠ o.id → v'.live i = v.live i)
    (hhand : ∀ i, i ≠ o.id → (v'.hand = some i ↔ v.hand = some i))
    (hp : v.hand ≠ none → v'.price = v.price)
    (ho : ∀ o', v'.live o.id = some o' → Known v' o.id (some o) o') :
    Shown v' (t ++ [.event e]) := by
  intro i o' hi
  rw [latest_event he]
  split
  · rename_i hid
    subst hid
    exact ho o' hi
  · rename_i hid
    have hne : i ≠ o.id := fun h => hid h.symm
    rw [hlive i hne] at hi
    exact (h i o' hi).mono (hhand i hne) fun hv => hp (by rw [hv]; nofun)

/-- An order changes, or comes to rest, without an event. -/
theorem silent (h : Shown v t) (hlive : ∀ i, i ≠ k → v'.live i = v.live i)
    (hhand : ∀ i, i ≠ k → (v'.hand = some i ↔ v.hand = some i)) (hp : v'.price = v.price)
    (ho : ∀ o', v'.live k = some o' → Known v' k (latest k t) o') : Shown v' t := by
  intro i o' hi
  by_cases hid : i = k
  · subst hid
    exact ho o' hi
  · rw [hlive i hid] at hi
    exact (h i o' hi).mono (hhand i hid) fun _ => hp

theorem act (h : Shown v t) (ha : Act Foreseen v ns v') : Shown v' (t ++ ns) := by
  cases ha with
  | quiet hn _ =>
    apply h.other
    rintro e rfl
    exact hn trivial
  | @added _ o b hh hl ha hp =>
    refine h.event rfl (fun i hi => if_neg hi) ?_ ?_ ?_
    · intro i hi
      rw [hh]
      exact ⟨fun he => absurd (Option.some.inj he).symm hi, nofun⟩
    · exact fun _ => rfl
    · intro o' ho'
      cases (if_pos rfl).symm.trans ho'
      by_cases ht : o.IsTrailing
      · exact .trailing rfl ht rfl rfl fun b' hb' => (ha.2 o rfl).congr (hb'.trans hp.symm)
      · exact .shown (fun _ => ht) rfl
  | @priced _ o p hh hl hm =>
    rw [List.append_nil]
    refine h.silent (fun i hi => if_neg hi) (fun _ _ => Iff.rfl) rfl ?_
    intro o' ho'
    cases (if_pos rfl).symm.trans ho'
    exact .market hh hm
  | @trailed o _ b hh hl ht hp =>
    rw [List.append_nil]
    refine h.silent (fun i hi => if_neg hi) (fun _ _ => Iff.rfl) rfl ?_
    intro o' ho'
    have hk := h o.id o hl
    cases (if_pos rfl).symm.trans ho'
    cases hk with
    | shown hn _ => exact absurd ht (hn hh)
    | market _ hm => rcases ht with ht | ht <;> rw [hm] at ht <;> cases ht
    | trailing _ _ hs ho hf =>
      exact .trailing hh ht hs (Order.setStopPrice_of_eq ho _) hf
  | @activated _ o hh hl hst =>
    refine h.event rfl (fun i hi => if_neg hi) ?_ ?_ ?_
    · intro i hi
      refine ⟨fun he => absurd (Option.some.inj he).symm hi, fun he => ?_⟩
      rcases hh with hh | hh <;> rw [hh] at he
      · cases he
      · exact absurd (Option.some.inj he).symm hi
    · exact fun _ => rfl
    · intro o' ho'
      cases (if_pos rfl).symm.trans ho'
      exact .shown (fun _ => Order.not_isTrailing (Order.activate_isMatchable hst)) rfl
  | @rested o _ b hh hl hm hp htr =>
    rw [List.append_nil]
    refine h.silent (k := o.id) (fun _ _ => rfl) ?_ ?_ ?_
    · intro i hi
      rw [hh]
      exact ⟨nofun, fun he => absurd (Option.some.inj he).symm hi⟩
    · rfl
    · intro o' ho'
      have hk := h o.id o hl
      cases hl.symm.trans ho'
      cases hk with
      | shown _ hs => exact .shown nofun hs
      | market _ hm' => exact absurd hm' hm
      | @trailing s _ ht hs ho hf =>
        obtain ⟨he, hn⟩ := htr ht
        have hso : b.calculateStopPrice s = o := by
          rw [← calculateStopPrice_setStopPrice b s o.stopPrice, ← ho]
          exact he.symm
        have hst : (b.calculateStopPrice s).IsTrailing := by
          rw [hso]
          exact ht
        have hs' : b.calculateStopPrice s = s := hf b hp hst (by rw [hso]; exact hn)
        rw [hs, ← hs', hso]
        exact .shown nofun rfl
  | @moved _ o b hh hl ht hp =>
    refine h.event rfl (fun i hi => if_neg hi) (fun _ _ => Iff.rfl) (fun _ => rfl) ?_
    intro o' ho'
    cases (if_pos rfl).symm.trans ho'
    exact .shown (fun hi => by rw [View.hand_set, hh] at hi; cases hi) rfl
  | @executed _ o q price b hh hl hb ha =>
    refine h.event rfl (fun i hi => if_neg hi) (fun _ _ => Iff.rfl) (fun hv => absurd hh hv) ?_
    intro o' ho'
    cases (if_pos rfl).symm.trans ho'
    exact .shown (fun hi => by rw [View.hand_set, hh] at hi; cases hi) rfl
  | @cancelled _ o q b hh hl ha =>
    refine h.event rfl (fun i hi => if_neg hi) (fun _ _ => Iff.rfl) (fun _ => rfl) ?_
    intro o' ho'
    cases (if_pos rfl).symm.trans ho'
    exact .shown (fun hi => by rw [View.hand_set, hh] at hi; cases hi) rfl
  | @deleted _ o hl =>
    refine h.event rfl (fun i hi => if_neg hi) ?_ ?_ ?_
    · intro i hi
      dsimp only
      split
      · rename_i hh
        rw [hh]
        exact ⟨nofun, fun he => absurd (Option.some.inj he).symm hi⟩
      · exact Iff.rfl
    · exact fun _ => rfl
    · intro o' ho'
      cases (if_pos rfl).symm.trans ho'
  | @traded _ bid ask p q ht =>
    have hlast (i : UInt64) : latest i (t ++ [.trade bid.id ask.id p q,
        .event (.executedOrder (bid.execute p q)), .event (.executedOrder (ask.execute p q))]) =
        if ask.id = i then some (ask.execute p q) else
          if bid.id = i then some (bid.execute p q) else latest i t := by
      have hsplit : t ++ [.trade bid.id ask.id p q, .event (.executedOrder (bid.execute p q)),
          .event (.executedOrder (ask.execute p q))] = t ++ [.trade bid.id ask.id p q] ++
            [.event (.executedOrder (bid.execute p q))] ++
              [.event (.executedOrder (ask.execute p q))] := by simp
      rw [hsplit, latest_event rfl, latest_event rfl, latest_other fun e he => by cases he]
      rfl
    intro i o' hi
    rw [hlast]
    dsimp only at hi
    rw [View.live_set, View.live_set] at hi
    obtain ⟨hbid, hask⟩ := ht.matchable
    split
    · rename_i hid
      rw [if_pos hid.symm] at hi
      cases hi
      exact .shown (fun _ => Order.not_isTrailing hask) rfl
    · rename_i hid
      rw [if_neg fun he => hid he.symm] at hi
      split
      · rename_i hid
        rw [if_pos hid.symm] at hi
        cases hi
        exact .shown (fun _ => Order.not_isTrailing hbid) rfl
      · rename_i hid'
        rw [if_neg fun he => hid' he.symm] at hi
        refine (h i o' hi).mono Iff.rfl fun hv => ?_
        rcases ht.resting with ⟨hh, _⟩ | ⟨hh, _⟩ <;> rw [hh] at hv
        · exact absurd (Option.some.inj hv) hid'
        · exact absurd (Option.some.inj hv) hid

end Shown

/-- The order an operation submits, if any, is announced as it will rest. -/
def Op.Foretold (b : Book) (op : Op) : Prop := ∀ o, op.incoming b = some o → b.Foretells o

theorem Op.Legal.foreseen (hi : Inv ⟨b, none⟩) {op : Op} (hl : op.Legal b.toBook)
    (hf : op.Foretold b.toBook) : op.Admits Foreseen b := by
  have hadm := (hl.proper hi).1
  cases op with
  | executeOrderAt | executeOrder | cancelOrder | deleteOrder => exact ⟨hadm, fun _ => nofun⟩
  | addOrder o =>
    refine ⟨hadm, fun o' he => ?_⟩
    cases he
    exact hf o rfl
  | replaceOrder i i' p =>
    refine ⟨⟨hadm.1, fun _ => nofun⟩, fun w b' hw hd => ⟨hadm.2 w b' hw hd, fun o' he => ?_⟩⟩
    cases he
    obtain ⟨_, _, hd⟩ := deleteOrderWith_deleted hd
    apply (hf _ _).congr hd.prices.lastTradedPrice
    rw [Op.incoming, Book.resting_of_find? hw]
    rfl

/-- In a run that announces every trailing order with the stop price it is to rest with, the last
event about a resting order shows the order. -/
theorem rebuilt (h : Reachable (fun b op => op.Legal b ∧ op.Foretold b) symbolId b) :
    Rebuilt b := by
  have hg : Guards (fun b op => op.Legal b ∧ op.Foretold b) Foreseen
      (fun c => Shown c.view c.book.trace) :=
    ⟨fun hi _ ha => ha.1.foreseen hi ha.2, fun ha => ha.1, fun ha => ha.1,
      fun hi hj hs => hi.act_induct (fun _ _ h => h.1) Shown.act hj hs⟩
  have hs : Shown (Config.view ⟨b, none⟩) b.trace := (h.induct hg .new).2
  intro i w hw
  cases hs i w.order (Book.resting_of_find? hw) with
  | shown _ hs => exact hs
  | market hh _ => cases hh
  | trailing hh _ _ _ _ => cases hh

instance (b : Book) (o : Order) : Decidable (b.Foretells o) :=
  inferInstanceAs (Decidable (_ → _ → _))

instance (b : Book) (op : Op) : Decidable (op.Foretold b) :=
  inferInstanceAs (Decidable (∀ o ∈ op.incoming b, b.Foretells o))

/-- A bid is executed at 100, and a trailing ask comes to rest. -/
def trailOps (trailAmount : UInt64) : List Op :=
  [.addOrder (.new .limit .bid .gtc 1 90 0 0 5 1), .executeOrderAt 1 1 100,
    .addOrder (.new .trailingStop .ask .ioc 1 0 0 trailAmount 5 2)]

/-- The stop price of the trailing order, and the one its last event shows. -/
def trailStops (b : MapOrderBook) : Option (UInt64 × UInt64) :=
  match b.orders.find? 2, latest 2 b.trace with
  | some w, some s => some (w.order.stopPrice, s.stopPrice)
  | _, _ => none

theorem trailStops_eq_some (h : trailStops b = some (p, q)) : ∃ w s,
    b.orders.find? 2 = some w ∧ latest 2 b.trace = some s ∧ w.order.stopPrice = p ∧
    s.stopPrice = q := by
  unfold trailStops at h
  split at h
  · rename_i w s hw hs
    cases h
    exact ⟨w, s, hw, hs, rfl, rfl⟩
  · cases h

/-- The stop price is cut off at 0, which is also what the order is announced with. -/
theorem rebuilt_trailOps : ∃ b w, (MapOrderBook.new 1).run 20 (trailOps 200) = .ok b ∧
    b.orders.find? 2 = some w ∧ Rebuilt b := by
  obtain ⟨b, hb, hr, hf⟩ := exists_reachable_of_run (fun b op => op.Legal b ∧ op.Foretold b) 1 20
    (trailOps 200) (by decide +kernel) (f := trailStops) (o := (0, 0)) (by decide +kernel)
  obtain ⟨w, _, hw, _⟩ := trailStops_eq_some hf
  exact ⟨b, w, hb, hw, rebuilt hr⟩

/-- The order is announced with the stop price 0, and rests with 90. -/
theorem trailOps_not_rebuilt : ∃ b w s, Reachable Op.Legal 1 b ∧ b.orders.find? 2 = some w ∧
    latest 2 b.trace = some s ∧ w.order.stopPrice = 90 ∧ s.stopPrice = 0 ∧ ¬ Rebuilt b := by
  obtain ⟨b, _, hr, hf⟩ := exists_reachable_of_run Op.Legal 1 20 (trailOps 10) (by decide +kernel)
    (f := trailStops) (o := (90, 0)) (by decide +kernel)
  obtain ⟨w, s, hw, hs, hp, hq⟩ := trailStops_eq_some hf
  refine ⟨b, w, s, hr, hw, hs, hp, hq, fun h => ?_⟩
  have he := (h 2 w hw).symm.trans hs
  rw [Option.some.inj he, hq] at hp
  cases hp

end RapidTrader
