import RapidTrader.Matching

namespace RapidTrader
set_option autoImplicit true

/-- A trade as both books report it. -/
structure TradeRecord where
  bidId : UInt64
  askId : UInt64
  price : UInt64
  quantity : Nat
  deriving DecidableEq, Repr

/-- What the owner of an order is told when it is executed: how much of it, and what stays open. -/
structure Fill where
  id : UInt64
  quantity : Nat
  openQuantity : Nat
  deriving DecidableEq, Repr

/-- A resting limit order. Its quantity is a number, not a machine word. -/
structure NaiveOrder where
  id : UInt64
  side : OrderSide
  price : UInt64
  openQuantity : Nat
  deriving DecidableEq, Repr

/-- An order that comes in. A market order has no limit. -/
structure NaiveTaker where
  id : UInt64
  side : OrderSide
  limit : Option UInt64
  isGtc : Bool
  openQuantity : Nat
  deriving DecidableEq, Repr

/-- A book without any data structure: the resting limit orders as they have arrived, the last
traded price, and the trades and the fills made so far. -/
structure NaiveBook where
  orders : List NaiveOrder
  lastTradedPrice : UInt64
  trades : List TradeRecord
  fills : List Fill

namespace NaiveBook

def empty : NaiveBook := ⟨[], 0, [], []⟩

/-- For an incoming ask the higher price is better, for an incoming bid the lower one. -/
def better : OrderSide → UInt64 → UInt64 → Bool
  | .ask, price, price' => price' < price
  | .bid, price, price' => price < price'

/-- The orders of the other side, as they have arrived. -/
def others (n : NaiveBook) (side : OrderSide) : List NaiveOrder :=
  n.orders.filter (fun r => r.side ≠ side)

/-- The order of the other side with the best price, the earliest of these. -/
def best (n : NaiveBook) (side : OrderSide) : Option NaiveOrder :=
  (n.others side).find? (fun r => (n.others side).all (fun r' => !better side r'.price r.price))

/-- Whether an incoming order takes a price. -/
def takes (o : NaiveTaker) (price : UInt64) : Bool :=
  match o.side, o.limit with
  | _, none => true
  | .ask, some limit => limit ≤ price
  | .bid, some limit => price ≤ limit

/-- Leave an order with a quantity, and remove it when nothing is left. -/
def leave (n : NaiveBook) (id : UInt64) (quantity : Nat) : NaiveBook :=
  { n with orders :=
      if quantity = 0 then n.orders.filter (fun r => r.id ≠ id)
      else n.orders.map (fun r => if r.id = id then { r with openQuantity := quantity } else r) }

def traded (o : NaiveTaker) (r : NaiveOrder) : Nat := min o.openQuantity r.openQuantity

/-- What is left of an incoming order. -/
def left (o : NaiveTaker) (r : NaiveOrder) : NaiveTaker :=
  { o with openQuantity := o.openQuantity - traded o r }

/-- Trade an incoming order with a resting one at the price of the latter. -/
def trade (n : NaiveBook) (o : NaiveTaker) (r : NaiveOrder) : NaiveBook :=
  let taker : Fill := ⟨o.id, traded o r, o.openQuantity - traded o r⟩
  let maker : Fill := ⟨r.id, traded o r, r.openQuantity - traded o r⟩
  let (bid, ask) := match o.side with
    | .ask => (maker, taker)
    | .bid => (taker, maker)
  { n.leave r.id maker.openQuantity with
      lastTradedPrice := r.price
      trades := n.trades ++ [⟨bid.id, ask.id, r.price, traded o r⟩]
      fills := n.fills ++ [bid, ask] }

theorem mem_of_best {n : NaiveBook} (h : n.best side = some r) : r ∈ n.orders :=
  (List.mem_filter.1 (List.mem_of_find?_eq_some h)).1

theorem orders_trade (n : NaiveBook) (o : NaiveTaker) (r : NaiveOrder) :
    (n.trade o r).orders = (n.leave r.id (r.openQuantity - traded o r)).orders := by
  unfold trade
  cases o.side <;> rfl

/-- A trade fills the resting order, which leaves, or the incoming one. -/
theorem trade_lt {n : NaiveBook} (hr : r ∈ n.orders) (o : NaiveTaker) :
    (n.trade o r).orders.length + (if (left o r).openQuantity = 0 then 0 else 1) <
      n.orders.length + 1 := by
  rw [orders_trade]
  by_cases hq : r.openQuantity - traded o r = 0
  · have hlt : (n.leave r.id (r.openQuantity - traded o r)).orders.length < n.orders.length := by
      unfold leave
      dsimp only
      rw [if_pos hq]
      exact List.length_filter_lt_length_iff_exists.2 ⟨r, hr, by simp⟩
    split <;> omega
  · have hlen : (n.leave r.id (r.openQuantity - traded o r)).orders.length = n.orders.length := by
      unfold leave
      dsimp only
      rw [if_neg hq, List.length_map]
    have hfilled : (left o r).openQuantity = 0 := by
      unfold left traded at *
      dsimp only
      omega
    rw [hlen, if_pos hfilled]
    exact Nat.lt_succ_self _

/-- Trade an incoming order with the best of the others until nothing is left of it or it does not
take the price. -/
def sweep (n : NaiveBook) (o : NaiveTaker) : NaiveBook × NaiveTaker :=
  match _hr : n.best o.side with
  | none => (n, o)
  | some r =>
    if _h : o.openQuantity ≠ 0 ∧ takes o r.price = true then sweep (n.trade o r) (left o r)
    else (n, o)
termination_by n.orders.length + (if o.openQuantity = 0 then 0 else 1)
decreasing_by
  rw [if_neg _h.1]
  exact trade_lt (mem_of_best _hr) o

/-- What is left of a GTC limit order joins the end of the list. -/
def addOrder (n : NaiveBook) (o : NaiveTaker) : NaiveBook :=
  let (n, o) := n.sweep o
  match o.limit with
  | some price =>
    if o.isGtc && decide (o.openQuantity ≠ 0) then
      { n with orders := n.orders ++ [⟨o.id, o.side, price, o.openQuantity⟩] }
    else n
  | none => n

def find? (n : NaiveBook) (id : UInt64) : Option NaiveOrder :=
  n.orders.find? (fun r => r.id = id)

def deleteOrder (n : NaiveBook) (id : UInt64) : NaiveBook :=
  { n with orders := n.orders.filter (fun r => r.id ≠ id) }

/-- At most what is open is executed. -/
def executeOrder (n : NaiveBook) (id quantity : UInt64) (price : NaiveOrder → UInt64) :
    NaiveBook :=
  match n.find? id with
  | some r =>
    let executed := min quantity.toNat r.openQuantity
    { n.leave id (r.openQuantity - executed) with
        lastTradedPrice := price r
        fills := n.fills ++ [⟨id, executed, r.openQuantity - executed⟩] }
  | none => n

def cancelOrder (n : NaiveBook) (id quantity : UInt64) : NaiveBook :=
  match n.find? id with
  | some r => n.leave id (r.openQuantity - quantity.toNat)
  | none => n

/-- The order leaves, and what was open of it comes in under the new id and price. -/
def replaceOrder (n : NaiveBook) (id newId newPrice : UInt64) : NaiveBook :=
  match n.find? id with
  | some r => (n.deleteOrder id).addOrder ⟨newId, r.side, some newPrice, true, r.openQuantity⟩
  | none => n

theorem sweep_none {n : NaiveBook} (h : n.best o.side = none) : n.sweep o = (n, o) := by
  rw [sweep]
  split
  · rfl
  · rename_i hr
    rw [h] at hr
    cases hr

theorem sweep_some {n : NaiveBook} (h : n.best o.side = some r) : n.sweep o =
    if o.openQuantity ≠ 0 ∧ takes o r.price = true then (n.trade o r).sweep (left o r)
    else (n, o) := by
  rw [sweep]
  split
  · rename_i hr
    rw [h] at hr
    cases hr
  · rename_i hr
    rw [h] at hr
    cases hr
    split <;> rfl

end NaiveBook

/-- What a resting order is to the naive book. -/
def Order.naive (o : Order) : NaiveOrder := ⟨o.id, o.side, o.price, o.openQuantity.toNat⟩

/-- What an incoming limit or market order is to the naive book. -/
def Order.taker (o : Order) : NaiveTaker where
  id := o.id
  side := o.side
  limit := if o.type = .market then none else some o.price
  isGtc := o.timeInForce = .gtc
  openQuantity := o.openQuantity.toNat

namespace NaiveBook

def apply (n : NaiveBook) : Op → NaiveBook
  | .addOrder order => n.addOrder order.taker
  | .executeOrderAt orderId quantity price => n.executeOrder orderId quantity (fun _ => price)
  | .executeOrder orderId quantity => n.executeOrder orderId quantity NaiveOrder.price
  | .cancelOrder orderId quantity => n.cancelOrder orderId quantity
  | .deleteOrder orderId => n.deleteOrder orderId
  | .replaceOrder orderId newOrderId newPrice => n.replaceOrder orderId newOrderId newPrice

def run (n : NaiveBook) (ops : List Op) : NaiveBook := ops.foldl apply n

end NaiveBook

end RapidTrader
