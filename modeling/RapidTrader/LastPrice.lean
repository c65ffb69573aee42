import RapidTrader.LimitPrice

namespace RapidTrader
open Lib
set_option autoImplicit true

/-- What `OrderBookHandler` asserts before it calls the book. -/
def Op.Asserted : Op → Prop
  | .addOrder _ | .deleteOrder _ => True
  | .executeOrderAt _ quantity price => 0 < quantity ∧ 0 < price
  | .executeOrder orderId quantity => 0 < orderId ∧ 0 < quantity
  | .cancelOrder _ quantity => 0 < quantity
  | .replaceOrder _ newOrderId newPrice => 0 < newOrderId ∧ 0 < newPrice

instance : (op : Op) → Decidable op.Asserted
  | .addOrder _ | .deleteOrder _ => inferInstanceAs (Decidable True)
  | .executeOrderAt _ _ _ | .executeOrder _ _ | .replaceOrder _ _ _ =>
    inferInstanceAs (Decidable (_ ∧ _))
  | .cancelOrder _ _ => inferInstanceAs (Decidable (_ < _))

/-- An order that is executed at its own price has one. A resting stop order without a limit has
the price 0 unless it is a replacement. -/
def Op.ExecutesPriced (b : Book) : Op → Prop
  | .executeOrder orderId _ => ∀ o, b.resting orderId = some o → o.price ≠ 0
  | .addOrder _ | .executeOrderAt _ _ _ | .cancelOrder _ _ | .deleteOrder _
  | .replaceOrder _ _ _ => True

instance (b : Book) : (op : Op) → Decidable (op.ExecutesPriced b)
  | .executeOrder orderId _ =>
    inferInstanceAs (Decidable (∀ o ∈ b.resting orderId, o.price ≠ 0))
  | .addOrder _ | .executeOrderAt _ _ _ | .cancelOrder _ _ | .deleteOrder _
  | .replaceOrder _ _ _ => inferInstanceAs (Decidable True)

abbrev AssertedLegal (b : Book) (op : Op) : Prop := op.Legal b ∧ op.Asserted

def HasExecuted (trace : List Note) : Prop := ∃ o, .event (.executedOrder o) ∈ trace

/-- Once something has executed, the last price is positive, and so it is in every book that the
trace shows from then on. -/
structure PricePositive (trace : List Note) (lastPrice : UInt64) : Prop where
  last : HasExecuted trace → lastPrice ≠ 0
  shown : trace = pre ++ n :: post → n.shown = some b → HasExecuted pre → b.lastTradedPrice ≠ 0

/-- Proper requests that execute orders at positive prices only. -/
def ExecutesPositive (b : Book) (r : Request) : Prop :=
  Proper b r ∧ ∀ i q price o, r = .execute i q price → b.resting i = some o → price o ≠ 0

theorem ExecutesPositive.of_ne (h : Proper b r) (hr : ∀ i q price, r ≠ .execute i q price) :
    ExecutesPositive b r :=
  ⟨h, fun i q price _ he _ => absurd he (hr i q price)⟩

namespace PricePositive

theorem new : PricePositive [] 0 := by
  constructor
  · rintro ⟨o, ho⟩
    cases ho
  · intro pre n post b he
    have := congrArg List.length he
    simp at this

/-- Notes that show the book with its last price. -/
theorem append (h : PricePositive t p) (hp : HasExecuted (t ++ ns) → p' ≠ 0)
    (hns : ∀ rest n post b, ns = rest ++ n :: post → n.shown = some b →
      rest = [] ∧ b.lastTradedPrice = p) : PricePositive (t ++ ns) p' := by
  refine ⟨hp, fun {pre n post b} he hb hx => ?_⟩
  rcases split_append he with ⟨rest, ht, _⟩ | ⟨rest, rfl, hs⟩
  · exact h.shown ht hb hx
  · obtain ⟨rfl, hbp⟩ := hns _ _ _ _ hs hb
    rw [List.append_nil] at hx
    rw [hbp]
    exact h.last hx

/-- Notes that show no book. -/
theorem append_hidden (h : PricePositive t p) (hp : HasExecuted (t ++ ns) → p' ≠ 0)
    (hns : ∀ n ∈ ns, n.shown = none) : PricePositive (t ++ ns) p' := by
  apply h.append hp
  rintro rest n post b rfl hb
  rw [hns n (List.mem_append_right _ List.mem_cons_self)] at hb
  cases hb

/-- Notes without an execution leave the last price alone. -/
theorem last_append (h : PricePositive t p) (hns : ∀ o, .event (.executedOrder o) ∉ ns) :
    HasExecuted (t ++ ns) → p ≠ 0 := by
  rintro ⟨o, ho⟩
  exact h.last ⟨o, (List.mem_append.1 ho).resolve_right (hns o)⟩

theorem event (h : PricePositive t p) (he : ∀ o, e ≠ .executedOrder o) :
    PricePositive (t ++ [.event e]) p := by
  apply h.append_hidden
  · apply h.last_append
    intro o ho
    rw [List.mem_singleton] at ho
    exact he o (Note.event.inj ho).symm
  · intro n hn
    rw [List.mem_singleton.1 hn]
    rfl

theorem act (h : PricePositive t v.price) (ha : Act ExecutesPositive v ns v') :
    PricePositive (t ++ ns) v'.price := by
  cases ha with
  | @quiet _ n hn hp =>
    apply h.append
    · apply h.last_append
      intro o ho
      rw [← List.mem_singleton.1 ho] at hn
      exact hn trivial
    · intro rest n' post b he hb
      cases rest with
      | nil =>
        cases he
        exact ⟨rfl, hp b hb⟩
      | cons m rest =>
        have := congrArg List.length he
        simp at this
  | priced | trailed | rested =>
    rw [List.append_nil]
    exact h
  | added | activated | moved | cancelled | deleted => exact h.event fun _ => nofun
  | traded ht =>
    apply h.append_hidden (fun _ => ht.price_ne)
    intro n hn
    simp only [List.mem_cons, List.not_mem_nil, or_false] at hn
    rcases hn with rfl | rfl | rfl <;> rfl
  | executed _ _ hb hx =>
    apply h.append_hidden (fun _ => hx.2 _ _ _ _ rfl hb)
    intro n hn
    rw [List.mem_singleton.1 hn]
    rfl

end PricePositive

theorem Op.Legal.executesPositive (hi : Inv ⟨b, none⟩) {op : Op} (hl : op.Legal b.toBook)
    (ha : op.Asserted) (hp : op.ExecutesPriced b.toBook) : op.Admits ExecutesPositive b := by
  have hadm := (hl.proper hi).1
  cases op with
  | addOrder | cancelOrder | deleteOrder => exact .of_ne hadm fun _ _ _ => nofun
  | replaceOrder i i' p =>
    exact ⟨.of_ne hadm.1 fun _ _ _ => nofun, fun w b' hw hd =>
      .of_ne (hadm.2 w b' hw hd) fun _ _ _ => nofun⟩
  | executeOrderAt i q p =>
    refine ⟨hadm, fun i' q' price o he _ => ?_⟩
    cases he
    exact UInt64.pos_iff_ne_zero.1 ha.2
  | executeOrder i q =>
    refine ⟨hadm, fun i' q' price o he ho => ?_⟩
    cases he
    exact hp o ho

/-- In a run that never executes an order without a price at its own price, a last price of 0 means
that nothing has executed yet. -/
theorem price_positive (h : Visited (fun b op => AssertedLegal b op ∧ op.ExecutesPriced b)
    symbolId b) : PricePositive b.trace b.lastTradedPrice := by
  have hg : Guards (fun b op => AssertedLegal b op ∧ op.ExecutesPriced b) ExecutesPositive
      (fun c => PricePositive c.book.trace c.view.price) :=
    ⟨fun hi _ ha => ha.1.1.executesPositive hi ha.1.2 ha.2, fun ha => ha.1.1, fun ha => ha.1,
      fun hi hj hs => hi.act_induct (J := fun v t => PricePositive t v.price) (fun _ _ h => h.1)
        PricePositive.act hj hs⟩
  obtain ⟨c, rfl, _, hc⟩ := h.induct hg .new
  exact hc

theorem price_positive_mixedOps : ∃ b, (MapOrderBook.new 1).run 20 mixedOps = .ok b ∧
    PricePositive b.trace b.lastTradedPrice := by
  obtain ⟨b, hb, hr⟩ := exists_reachable (fun b op => AssertedLegal b op ∧ op.ExecutesPriced b) 1 20
    mixedOps (by decide +kernel) (by decide +kernel)
  exact ⟨b, hb, price_positive (.done hr)⟩

/-- A trade at 100, and then a resting stop bid is executed at its own price, which is 0. -/
def stopBidOps : List Op :=
  [.addOrder (.new .limit .ask .gtc 1 100 0 0 5 1), .addOrder (.new .limit .bid .gtc 1 100 0 0 5 2),
    .addOrder (.new .stop .bid .ioc 1 0 120 0 2 3), .executeOrder 3 1]

def Note.executed? : Note → Option Order
  | .event (.executedOrder o) => some o
  | _ => none

/-- The first execution of a run, and the last price in the end. -/
def firstExecuted (b : MapOrderBook) : Option (UInt64 × UInt64) :=
  (b.trace.findSome? Note.executed?).map fun o => (o.lastExecutedPrice, b.lastTradedPrice)

/-- The book forgets that it has seen a trade. -/
theorem stopBidOps_price_zero : ∃ b, Reachable AssertedLegal 1 b ∧ HasExecuted b.trace ∧
    b.lastTradedPrice = 0 ∧ ¬ PricePositive b.trace b.lastTradedPrice := by
  obtain ⟨b, _, hr, hf⟩ := exists_reachable_of_run AssertedLegal 1 20 stopBidOps (by decide +kernel)
    (f := firstExecuted) (o := (100, 0)) (by decide +kernel)
  obtain ⟨o, ho, he⟩ := Option.map_eq_some_iff.1 hf
  obtain ⟨n, hn, hno⟩ := List.exists_of_findSome?_eq_some ho
  have hx : HasExecuted b.trace := by
    refine ⟨o, ?_⟩
    cases n with
    | event e => cases e <;> cases hno; exact hn
    | matching | trade | activated | updating => cases hno
  have hz : b.lastTradedPrice = 0 := congrArg Prod.snd he
  exact ⟨b, hr, hx, hz, fun h => h.last hx hz⟩

end RapidTrader
