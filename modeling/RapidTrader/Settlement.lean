import RapidTrader.Acts

namespace RapidTrader
open Lib
set_option autoImplicit true

/-- The open quantities of orders by their ids. -/
abbrev Opens := UInt64 → Option UInt64

def Opens.set (m : Opens) (i : UInt64) (q? : Option UInt64) : Opens :=
  fun j => if j = i then q? else m j

def Book.opens (b : Book) : Opens := fun i => (b.resting i).map Order.openQuantity

def View.opens (v : View) : Opens := fun i => (v.live i).map Order.openQuantity

/-- Events replayed on open quantities. An order is added with its quantity and deleted; an update
shows the quantity that is known; and executions come as a bid and an ask that lose the same
positive quantity. -/
inductive Replays : Opens → List Event → Opens → Prop
  | nil : Replays m [] m
  | added : m o.id = none → Replays (m.set o.id (some o.openQuantity)) es m' →
      Replays m (.orderAdded o :: es) m'
  | updated : m o.id = some o.openQuantity → Replays m es m' → Replays m (.orderUpdated o :: es) m'
  | deleted : m o.id = some o.openQuantity → Replays (m.set o.id none) es m' →
      Replays m (.orderDeleted o :: es) m'
  | traded : bid.side = .bid → ask.side = .ask → bid.id ≠ ask.id →
      bid.lastExecutedQuantity = quantity → ask.lastExecutedQuantity = quantity → quantity ≠ 0 →
      m bid.id = some bidOpen → m ask.id = some askOpen →
      bid.openQuantity.toNat + quantity.toNat = bidOpen.toNat →
      ask.openQuantity.toNat + quantity.toNat = askOpen.toNat →
      Replays ((m.set bid.id (some bid.openQuantity)).set ask.id (some ask.openQuantity)) es m' →
      Replays m (.executedOrder bid :: .executedOrder ask :: es) m'

def Event.executedOf (p : Order → Bool) : Event → Nat
  | .executedOrder o => if p o then o.lastExecutedQuantity.toNat else 0
  | .orderAdded _ | .orderDeleted _ | .orderUpdated _ | .symbolAdded _ _ | .symbolDeleted _ _ => 0

/-- The quantity executed, by its events, of the orders that satisfy `p`. -/
def executedOf (p : Order → Bool) (es : List Event) : Nat := (es.map (Event.executedOf p)).sum

theorem executedOf_cons (p : Order → Bool) (e : Event) (es : List Event) :
    executedOf p (e :: es) = e.executedOf p + executedOf p es := List.sum_cons

/-- The trades of some events are cleared. `opened` bounds what each order may execute. -/
structure Cleared (m : Opens) (opened : UInt64 → Nat) (es : List Event) (m' : Opens) : Prop where
  replays : Replays m es m'
  bounded : ∀ i, executedOf (fun o => decide (o.id = i)) es ≤ opened i
  sides : executedOf Order.isBid es = executedOf Order.isAsk es

/-- What an order has open, nothing if there is none. -/
def Opens.amount (m : Opens) (i : UInt64) : Nat := ((m i).getD 0).toNat

theorem Opens.amount_set (m : Opens) (i j : UInt64) (q? : Option UInt64) :
    (m.set i q?).amount j = if j = i then (q?.getD 0).toNat else m.amount j := by
  unfold amount set
  split <;> rfl

theorem View.opens_set (v : View) (i : UInt64) (o? : Option Order) :
    (v.set i o?).opens = v.opens.set i (o?.map Order.openQuantity) := by
  funext j
  unfold opens Opens.set
  rw [live_set]
  split <;> rfl

/-- A change of a live order that leaves its open quantity alone. -/
theorem View.opens_change (v : View) (hl : v.live o.id = some o) (f : Order → Order)
    (hf : (f o).openQuantity = o.openQuantity) : (v.set o.id (some (f o))).opens = v.opens := by
  rw [opens_set]
  funext j
  unfold Opens.set opens
  split
  · rename_i hj
    rw [hj, hl, Option.map_some, Option.map_some, hf]
  · rfl

theorem View.opens_of_live (v : View) (hl : v.live i = some o) :
    v.opens i = some o.openQuantity := by
  rw [opens, hl]
  rfl

namespace Cleared

theorem nil (m : Opens) : Cleared m m.amount [] m :=
  ⟨.nil, fun _ => Nat.zero_le _, rfl⟩

/-- An event that executes nothing is put in front. -/
theorem cons (h : Cleared m₁ opened₁ es m') (he : ∀ p, e.executedOf p = 0)
    (hle : ∀ i, opened₁ i ≤ opened i) (hr : Replays m₁ es m' → Replays m (e :: es) m') :
    Cleared m opened (e :: es) m' := by
  constructor
  · exact hr h.replays
  · intro i
    rw [executedOf_cons, he, Nat.zero_add]
    exact (h.bounded i).trans (hle i)
  · rw [executedOf_cons, executedOf_cons, he, he, h.sides]

theorem traded (h : Trade v bid ask p q)
    (hb : Cleared ((v.set bid.id (some (bid.execute p q))).set ask.id
      (some (ask.execute p q))).opens
      ((v.set bid.id (some (bid.execute p q))).set ask.id (some (ask.execute p q))).opens.amount
      es m') :
    Cleared v.opens v.opens.amount
      (.executedOrder (bid.execute p q) :: .executedOrder (ask.execute p q) :: es) m' := by
  have hbid := toNat_openQuantity_execute h.quantity_le_bid p
  have hask := toNat_openQuantity_execute h.quantity_le_ask p
  have hbo := v.opens_of_live h.bidLive
  have hao := v.opens_of_live h.askLive
  rw [View.opens_set, View.opens_set] at hb
  constructor
  · exact .traded h.bidSide h.askSide h.ne rfl rfl h.quantity_ne hbo hao hbid hask hb.replays
  · intro i
    have hi := hb.bounded i
    rw [Opens.amount_set, Opens.amount_set] at hi
    rw [executedOf_cons, executedOf_cons]
    change (if decide (bid.id = i) = true then q.toNat else 0) +
      ((if decide (ask.id = i) = true then q.toNat else 0) + _) ≤ _
    by_cases hia : i = ask.id
    · subst hia
      have ham : v.opens.amount ask.id = ask.openQuantity.toNat := by
        rw [Opens.amount, hao]
        rfl
      rw [if_pos rfl] at hi
      rw [if_neg (by simpa using h.ne), if_pos (by simp), ham]
      change _ ≤ (ask.execute p q).openQuantity.toNat at hi
      omega
    · rw [if_neg hia] at hi
      rw [if_neg (c := decide (ask.id = i) = true) (by simpa using fun he => hia he.symm)]
      by_cases hib : i = bid.id
      · subst hib
        have ham : v.opens.amount bid.id = bid.openQuantity.toNat := by
          rw [Opens.amount, hbo]
          rfl
        rw [if_pos rfl] at hi
        rw [if_pos (by simp), ham]
        change _ ≤ (bid.execute p q).openQuantity.toNat at hi
        omega
      · rw [if_neg hib] at hi
        rw [if_neg (by simpa using fun he => hib he.symm)]
        omega
  · have hs := hb.sides
    have hbs : (bid.execute p q).side = .bid := h.bidSide
    have has : (ask.execute p q).side = .ask := h.askSide
    simp only [executedOf_cons, Event.executedOf, Order.isBid, Order.isAsk, hbs, has,
      decide_true, reduceCtorEq, decide_false, ↓reduceIte, Bool.false_eq_true, Nat.zero_add] at hs ⊢
    rw [hs]
    rfl

/-- All that the code does by itself is cleared. -/
theorem of_acts (h : Acts Unasked v ns v') :
    Cleared v.opens v.opens.amount (events ns) v'.opens := by
  apply h.head_induct (P := fun v ns => Cleared v.opens v.opens.amount (events ns) v'.opens)
  · exact .nil _
  · intro v ns v₁ ms ha hb
    cases ha with
    | @quiet _ n hn _ =>
      cases n with
      | event e => exact absurd trivial hn
      | matching | trade | activated | updating => exact hb
    | added _ _ ha _ => exact ha.elim
    | executed _ _ _ ha => exact ha.elim
    | cancelled _ _ ha => exact ha.elim
    | @priced _ o p _ hl _ =>
      rw [v.opens_change hl (fun o => o.setPrice p) rfl] at hb
      exact hb
    | @trailed _ o b _ hl _ _ =>
      rw [v.opens_change hl b.calculateStopPrice rfl] at hb
      exact hb
    | rested _ _ _ _ _ => exact hb
    | activated _ hl _ =>
      have hm := v.opens_of_live hl
      change Cleared (v.set _ _).opens (v.set _ _).opens.amount _ _ at hb
      rw [v.opens_change hl Order.activate rfl] at hb
      exact hb.cons (fun _ => rfl) (fun _ => Nat.le_refl _) (.updated hm)
    | @moved _ o b _ hl _ _ =>
      have hm := v.opens_of_live hl
      rw [v.opens_change hl b.calculateStopPrice rfl] at hb
      exact hb.cons (fun _ => rfl) (fun _ => Nat.le_refl _) (.updated hm)
    | deleted hl =>
      change Cleared (v.set _ _).opens (v.set _ _).opens.amount _ _ at hb
      rw [View.opens_set] at hb
      apply hb.cons (fun _ => rfl) _ (.deleted (v.opens_of_live hl))
      intro i
      rw [Opens.amount_set]
      split
      · exact Nat.zero_le _
      · exact Nat.le_refl _
    | traded ht => exact traded ht hb

end Cleared

/-- What each order has open when an operation begins, or is submitted with. -/
def Book.opened (b : Book) (o : Order) : UInt64 → Nat :=
  Opens.amount (b.opens.set o.id (some o.openQuantity))

/-- What follows from the submission of a new order is cleared. -/
theorem Cleared.submitted (hfresh : b.orders.find? o.id = none)
    (ha : Acts Unasked { (Config.view ⟨b, none⟩).set o.id (some o) with hand := some o.id } ns v') :
    Cleared b.opens (b.opened o) (events (.event (.orderAdded o) :: ns)) v'.opens := by
  have hb := Cleared.of_acts ha
  have hnone : b.opens o.id = none := by
    rw [Book.opens, Book.resting, hfresh]
    rfl
  change Cleared (View.opens (View.set _ _ _)) (View.opens (View.set _ _ _)).amount _ _ at hb
  rw [View.opens_set] at hb
  exact hb.cons (fun _ => rfl) (fun _ => Nat.le_refl _) (.added hnone)

theorem Deleted.opens (h : Deleted b i w l n b') : b'.opens = b.opens.set i none := by
  funext j
  unfold Book.opens Opens.set
  rw [h.resting]
  split <;> rfl

/-- Whatever a submission or a replacement sets off, its trades are balanced: executions come in
pairs, no order executes more than it had open, and both sides execute the same. -/
theorem trades_balanced (h : Reachable Op.Legal symbolId b) (hl : op.Legal b.toBook)
    (hin : op.incoming b.toBook = some o) (hop : b.apply fuel op = .ok b') :
    ∃ ns, b'.trace = b.trace ++ ns ∧
      Cleared b.opens (b.opened o) (events ns) b'.opens := by
  have hi := h.inv
  cases op with
  | executeOrderAt | executeOrder | cancelOrder | deleteOrder => cases hin
  | addOrder o' =>
    cases hin
    have ho := (hl.proper hi).1
    obtain ⟨_, ns, htr, ha⟩ := hi.addOrder_acts ho hop
    exact ⟨_, htr, .submitted ho.1 ha⟩
  | replaceOrder i i' p =>
    obtain ⟨w, hw, hop⟩ := bind_eq_ok.1 hop
    obtain ⟨b₁, hd, hop⟩ := bind_eq_ok.1 hop
    obtain ⟨b₂, h₂, hop⟩ := bind_eq_ok.1 hop
    rw [orderAt_eq_ok] at hw
    have ho := (hl.proper hi).1.2 w b₁ hw hd
    obtain ⟨w', l, hd⟩ := deleteOrderWith_deleted hd
    have hw' := hd.order
    rw [hw] at hw'
    cases hw'
    rw [Op.incoming, Book.resting_of_find? hw] at hin
    cases hin
    obtain ⟨hi₂, ns, htr, ha⟩ := (hi.deleted hd).addOrder_acts ho h₂
    obtain ⟨_, ms, htr', ha'⟩ := hi₂.unasked_acts ((activateStopOrders_runs fuel b₂).of_ok hop)
    refine ⟨.event (.orderDeleted w.order) :: .event (.orderAdded (w.order.replaced i' p)) ::
      (ns ++ ms), ?_, ?_⟩
    · rw [htr', htr, hd.trace, if_pos rfl]
      simp only [List.append_assoc, List.cons_append, List.nil_append]
    · have hb := Cleared.submitted ho.1 (ha.trans ha')
      rw [hd.opens] at hb
      have hid : w.order.id = i := hi.linked.id hw
      have hm : b.opens w.order.id = some w.order.openQuantity := by
        rw [hid, Book.opens, Book.resting_of_find? hw]
        rfl
      rw [← hid] at hb
      apply hb.cons (fun _ => rfl) _ (.deleted hm)
      intro j
      unfold Book.opened
      rw [Opens.amount_set, Opens.amount_set, hd.opens, Opens.amount_set]
      split
      · exact Nat.le_refl _
      · split
        · exact Nat.zero_le _
        · exact Nat.le_refl _

/-- Two bids, and a stop order below the market. -/
def sweepOps : List Op :=
  [.addOrder (.new .limit .bid .gtc 1 90 0 0 5 1), .addOrder (.new .limit .bid .gtc 1 80 0 0 9 2),
    .addOrder (.new .limit .ask .gtc 1 100 0 0 4 3), .executeOrderAt 3 1 100,
    .addOrder (.new .stop .ask .ioc 1 0 85 0 3 4)]

/-- A market ask that takes both bids and sets off the stop order. -/
def sweepOp : Op := .addOrder (.new .market .ask .ioc 1 0 0 0 6 5)

theorem trades_balanced_sweepOps : ∃ b b' ns, (MapOrderBook.new 1).run 20 sweepOps = .ok b ∧
    b.apply 20 sweepOp = .ok b' ∧ b'.trace = b.trace ++ ns ∧
    executedOf Order.isBid (events ns) = 9 ∧
    Cleared b.opens (b.opened (.new .market .ask .ioc 1 0 0 0 6 5)) (events ns) b'.opens := by
  obtain ⟨b, b', hb, hr, hl, hb', hf⟩ := exists_last_of_run Op.Legal 1 20 sweepOps sweepOp
    (by decide +kernel)
    (f := fun b b' => some (executedOf Order.isBid (events (b'.trace.drop b.trace.length))))
    (o := 9) (by decide +kernel)
  obtain ⟨ns, htr, hbal⟩ := trades_balanced hr hl rfl hb'
  rw [htr, List.drop_left] at hf
  exact ⟨b, b', ns, hb, hb', htr, Option.some.inj hf, hbal⟩

end RapidTrader
