import RapidTrader.Acts

namespace RapidTrader
open Lib
set_option autoImplicit true

/-- The executions of a trace, each with its price and the snapshot its event shows. Two orders
execute in a trade. An order that executes alone does so at the price which a client `asked`. -/
def executions (asked : UInt64) : List Note → List (UInt64 × Order)
  | [] => []
  | .trade _ _ price _ :: .event (.executedOrder bid) :: .event (.executedOrder ask) :: ns =>
    (price, bid) :: (price, ask) :: executions asked ns
  | .event (.executedOrder order) :: ns => (asked, order) :: executions asked ns
  | _ :: ns => executions asked ns

/-- The price at which an operation asks the book to execute an order. Only the two forms of
`executeOrder` do. -/
def Op.askedPrice (b : Book) : Op → UInt64
  | .executeOrderAt _ _ price => price
  | .executeOrder orderId _ => ((b.resting orderId).map Order.price).getD 0
  | .addOrder _ | .cancelOrder _ _ | .deleteOrder _ | .replaceOrder _ _ _ => 0

/-- The price of the last execution, `old` if there is none. -/
def lastPrice (old : UInt64) (es : List (UInt64 × Order)) : UInt64 :=
  (es.getLast?.map Prod.fst).getD old

/-- Every event reports the price its order was executed at, and the book keeps the last one. -/
structure PricesReported (old : UInt64) (es : List (UInt64 × Order)) (new : UInt64) : Prop where
  reported : ∀ e ∈ es, e.2.lastExecutedPrice = e.1
  kept : new = lastPrice old es
  latest : es.getLast? = some e → new = e.2.lastExecutedPrice

theorem toUInt64_toUInt32_eq_iff (p : UInt64) :
    p.toUInt32.toUInt64 = p ↔ p.toNat < 4294967296 := by
  rw [← UInt64.toNat_inj, UInt32.toNat_toUInt64, UInt64.toNat_toUInt32]
  exact Nat.mod_eq_iff_lt (by decide)

theorem lastPrice_append (old : UInt64) (es es' : List (UInt64 × Order)) :
    lastPrice old (es ++ es') = lastPrice (lastPrice old es) es' := by
  unfold lastPrice
  rw [List.getLast?_append]
  cases es'.getLast? <;> rfl

/-- What the code does report: the price cut to 32 bits. -/
structure PricesCut (old : UInt64) (es : List (UInt64 × Order)) (new : UInt64) : Prop where
  reported : ∀ e ∈ es, e.2.lastExecutedPrice = e.1.toUInt32.toUInt64
  kept : new = lastPrice old es

theorem PricesCut.append (h : PricesCut old es mid) (h' : PricesCut mid es' new) :
    PricesCut old (es ++ es') new := by
  constructor
  · intro e he
    rcases List.mem_append.1 he with he | he
    · exact h.reported e he
    · exact h'.reported e he
  · rw [lastPrice_append, ← h.kept]
    exact h'.kept

/-- The prices are reported when all of them are below `2^32`, and only then. -/
theorem PricesCut.reported_iff (h : PricesCut old es new) :
    PricesReported old es new ↔ ∀ e ∈ es, e.1.toNat < 4294967296 := by
  constructor
  · intro hr e he
    rw [← toUInt64_toUInt32_eq_iff, ← h.reported e he]
    exact hr.reported e he
  · intro hlt
    have hrep : ∀ e ∈ es, e.2.lastExecutedPrice = e.1 := fun e he =>
      (h.reported e he).trans ((toUInt64_toUInt32_eq_iff _).2 (hlt e he))
    refine ⟨hrep, h.kept, fun {e} he => ?_⟩
    rw [hrep e (List.mem_of_getLast? he), h.kept, lastPrice, he]
    rfl

/-- Requests to execute an order are for the price `asked`. -/
def Asks (asked : UInt64) (b : Book) (r : Request) : Prop :=
  Proper b r ∧ ∀ i q price o, r = .execute i q price → b.resting i = some o → price o = asked

theorem Asks.of_ne (h : Proper b r) (hr : ∀ i q price, r ≠ .execute i q price) : Asks asked b r :=
  ⟨h, fun i q price _ he _ => absurd he (hr i q price)⟩

theorem Act.executions (h : Act (Asks asked) v ns v') (ms : List Note) :
    executions asked (ns ++ ms) = executions asked ns ++ executions asked ms ∧
      PricesCut v.price (executions asked ns) v'.price := by
  have hnone : PricesCut v.price [] v.price := ⟨fun _ => nofun, rfl⟩
  cases h with
  | @quiet _ n hn _ =>
    cases n with
    | event e => exact absurd trivial hn
    | trade => exact absurd trivial hn
    | matching | activated | updating => exact ⟨rfl, hnone⟩
  | traded _ =>
    refine ⟨rfl, ?_, rfl⟩
    intro e he
    rcases List.mem_cons.1 he with rfl | he
    · rfl
    · rw [List.mem_singleton.1 he]
      rfl
  | executed _ _ hb ha =>
    refine ⟨rfl, ?_, ha.2 _ _ _ _ rfl hb⟩
    intro e he
    rw [List.mem_singleton.1 he, ← ha.2 _ _ _ _ rfl hb]
    rfl
  | _ => exact ⟨rfl, hnone⟩

theorem Acts.pricesCut (h : Acts (Asks asked) v ns v') :
    PricesCut v.price (executions asked ns) v'.price := by
  apply h.head_induct (P := fun v ns => PricesCut v.price (executions asked ns) v'.price)
  · exact ⟨fun _ => nofun, rfl⟩
  · intro v ns v₁ ms ha hP
    obtain ⟨he, hc⟩ := ha.executions ms
    rw [he]
    exact hc.append hP

theorem Op.Legal.asks (hi : Inv ⟨b, none⟩) {op : Op} (hl : op.Legal b.toBook) :
    op.Admits (Asks (op.askedPrice b.toBook)) b := by
  have hp := (hl.proper hi).1
  cases op with
  | addOrder | cancelOrder | deleteOrder => exact .of_ne hp fun _ _ _ => nofun
  | replaceOrder i i' p =>
    exact ⟨.of_ne hp.1 fun _ _ _ => nofun, fun w b' hw hd =>
      .of_ne (hp.2 w b' hw hd) fun _ _ _ => nofun⟩
  | executeOrderAt i q p =>
    refine ⟨hp, fun i' q' price o he _ => ?_⟩
    cases he
    rfl
  | executeOrder i q =>
    refine ⟨hp, fun i' q' price o he ho => ?_⟩
    cases he
    rw [Op.askedPrice, ho]
    rfl

/-- The prices of all executions of an operation are reported if and only if they are below
`2^32`, the width of the price parameter of `Order::execute`. -/
theorem prices_reported_iff (h : Reachable Op.Legal symbolId b) (hl : op.Legal b.toBook)
    (hop : Leaves (b.apply fuel op) b') : ∃ ns, b'.trace = b.trace ++ ns ∧
      (PricesReported b.lastTradedPrice (executions (op.askedPrice b.toBook) ns)
          b'.lastTradedPrice ↔
        ∀ e ∈ executions (op.askedPrice b.toBook) ns, e.1.toNat < 4294967296) := by
  have hi := h.inv
  obtain ⟨ns, v, htr, ha, hv⟩ := hi.leaves_acts (fun _ _ h => h.1) (hl.asks hi) (hl.proper hi).2 hop
  rw [← hv]
  exact ⟨ns, htr, ha.pricesCut.reported_iff⟩

/-- An ask at a price, and a bid that meets it. -/
def askOps (price : UInt64) : List Op := [.addOrder (.new .limit .ask .gtc 1 price 0 0 5 1)]

def bidOp (price : UInt64) : Op := .addOrder (.new .limit .bid .ioc 1 price 0 0 3 2)

/-- The prices of all executions of the last operation, and the prices their events report. -/
def executedPrices (asked : UInt64) (b b' : MapOrderBook) : Option (List (UInt64 × UInt64)) :=
  some ((executions asked (b'.trace.drop b.trace.length)).map
    fun e => (e.1, e.2.lastExecutedPrice))

theorem prices_reported_iff_hundred : ∃ b b' ns, (MapOrderBook.new 1).run 20 (askOps 100) = .ok b ∧
    b.apply 20 (bidOp 100) = .ok b' ∧ b'.trace = b.trace ++ ns ∧
    (executions 0 ns).map (fun e => (e.1, e.2.lastExecutedPrice)) = [(100, 100), (100, 100)] ∧
    (PricesReported b.lastTradedPrice (executions 0 ns) b'.lastTradedPrice ↔
      ∀ e ∈ executions 0 ns, e.1.toNat < 4294967296) := by
  obtain ⟨b, b', hb, hr, hl, hb', hf⟩ := exists_last_of_run Op.Legal 1 20 (askOps 100) (bidOp 100)
    (by decide +kernel) (f := executedPrices 0) (o := [(100, 100), (100, 100)]) (by decide +kernel)
  obtain ⟨ns, htr, hiff⟩ := prices_reported_iff hr hl (.inl hb')
  have hasked : (bidOp 100).askedPrice b.toBook = 0 := rfl
  rw [hasked] at hiff
  rw [executedPrices, htr, List.drop_left] at hf
  exact ⟨b, b', ns, hb, hb', htr, Option.some.inj hf, hiff⟩

/-- A trade at `2^32 + 5` is reported to be at 5. -/
theorem bidOp_not_reported : ∃ b b' ns, Reachable Op.Legal 1 b ∧
    (bidOp 4294967301).Legal b.toBook ∧ b.apply 20 (bidOp 4294967301) = .ok b' ∧
    b'.trace = b.trace ++ ns ∧
    (executions 0 ns).map (fun e => (e.1, e.2.lastExecutedPrice)) =
      [(4294967301, 5), (4294967301, 5)] ∧
    ¬ PricesReported b.lastTradedPrice (executions 0 ns) b'.lastTradedPrice := by
  obtain ⟨b, b', hb, hr, hl, hb', hf⟩ := exists_last_of_run Op.Legal 1 20 (askOps 4294967301)
    (bidOp 4294967301) (by decide +kernel) (f := executedPrices 0)
    (o := [(4294967301, 5), (4294967301, 5)]) (by decide +kernel)
  obtain ⟨hi, hp⟩ := And.intro hr.inv (hl.proper hr.inv).1
  obtain ⟨ns, htr, _⟩ := hi.apply_acts (fun _ _ h => h) hp hb'
  rw [executedPrices, htr, List.drop_left] at hf
  have he := Option.some.inj hf
  refine ⟨b, b', ns, hr, hl, hb', htr, he, fun h => ?_⟩
  have hall : ∀ x ∈ (executions 0 ns).map (fun e => (e.1, e.2.lastExecutedPrice)), x.2 = x.1 := by
    intro x hx
    obtain ⟨e, hmem, rfl⟩ := List.mem_map.1 hx
    exact h.reported e hmem
  rw [he] at hall
  exact absurd (hall _ List.mem_cons_self) (by decide)

end RapidTrader
