import Mathlib

namespace RapidTrader
set_option autoImplicit true

inductive OrderType where
  | limit | market | stop | stopLimit | trailingStop | trailingStopLimit
  deriving DecidableEq, Repr

inductive OrderTimeInForce where
  | gtc | fok | ioc
  deriving DecidableEq, Repr

inductive OrderSide where
  | bid | ask
  deriving DecidableEq, Repr

/-- The value of `std::numeric_limits<uint64_t>::max()`. -/
def maxPrice : UInt64 := 18446744073709551615

theorem toNat_maxPrice : maxPrice.toNat = 18446744073709551615 := rfl

theorem le_maxPrice (x : UInt64) : x ≤ maxPrice := by
  have := x.toNat_lt
  rw [UInt64.le_iff_toNat_le, toNat_maxPrice]
  omega

theorem min_uint64 (x y : UInt64) : min x y = if x ≤ y then x else y := rfl

theorem min_comm_uint64 (x y : UInt64) : min x y = min y x := by
  rw [min_uint64, min_uint64]
  grind

structure Order where
  type : OrderType
  side : OrderSide
  timeInForce : OrderTimeInForce
  symbolId : UInt32
  price : UInt64
  stopPrice : UInt64
  trailAmount : UInt64
  lastExecutedPrice : UInt64
  id : UInt64
  quantity : UInt64
  executedQuantity : UInt64
  openQuantity : UInt64
  lastExecutedQuantity : UInt64
  deriving DecidableEq, Repr

namespace Order

/-- The constructor `Order::Order`. -/
def new (type : OrderType) (side : OrderSide) (timeInForce : OrderTimeInForce) (symbolId : UInt32)
    (price stopPrice trailAmount quantity id : UInt64) : Order where
  type := type
  side := side
  timeInForce := timeInForce
  symbolId := symbolId
  price := price
  stopPrice := stopPrice
  trailAmount := trailAmount
  lastExecutedPrice := 0
  id := id
  quantity := quantity
  executedQuantity := 0
  openQuantity := quantity
  lastExecutedQuantity := 0

/-- The assertions which all the factories share, together with a factory's own ones. -/
def factory (asserted : Bool) (type : OrderType) (side : OrderSide)
    (timeInForce : OrderTimeInForce) (symbolId : UInt32)
    (price stopPrice trailAmount quantity id : UInt64) : Option Order :=
  if asserted && decide (0 < id) && decide (0 < symbolId) && decide (0 < quantity) then
    some (new type side timeInForce symbolId price stopPrice trailAmount quantity id)
  else none

section Factories
variable (orderId : UInt64) (symbolId : UInt32) (price stopPrice trailAmount quantity : UInt64)
  (timeInForce : OrderTimeInForce)

def marketAskOrder : Option Order :=
  factory (timeInForce ≠ .gtc) .market .ask timeInForce symbolId 0 0 0 quantity orderId

def marketBidOrder : Option Order :=
  factory (timeInForce ≠ .gtc) .market .bid timeInForce symbolId 0 0 0 quantity orderId

def limitAskOrder : Option Order :=
  factory (0 < price) .limit .ask timeInForce symbolId price 0 0 quantity orderId

def limitBidOrder : Option Order :=
  factory (0 < price) .limit .bid timeInForce symbolId price 0 0 quantity orderId

def stopAskOrder : Option Order :=
  factory (timeInForce ≠ .gtc ∧ 0 < stopPrice) .stop .ask timeInForce symbolId 0 stopPrice 0
    quantity orderId

def stopBidOrder : Option Order :=
  factory (timeInForce ≠ .gtc ∧ 0 < stopPrice) .stop .bid timeInForce symbolId 0 stopPrice 0
    quantity orderId

def stopLimitAskOrder : Option Order :=
  factory (0 < price ∧ 0 < stopPrice) .stopLimit .ask timeInForce symbolId price stopPrice 0
    quantity orderId

def stopLimitBidOrder : Option Order :=
  factory (0 < price ∧ 0 < stopPrice) .stopLimit .bid timeInForce symbolId price stopPrice 0
    quantity orderId

def trailingStopAskOrder : Option Order :=
  factory (timeInForce ≠ .gtc ∧ 0 < trailAmount) .trailingStop .ask timeInForce symbolId 0 0
    trailAmount quantity orderId

def trailingStopBidOrder : Option Order :=
  factory (timeInForce ≠ .gtc ∧ 0 < trailAmount) .trailingStop .bid timeInForce symbolId 0 0
    trailAmount quantity orderId

def trailingStopLimitAskOrder : Option Order :=
  factory (0 < price ∧ 0 < trailAmount) .trailingStopLimit .ask timeInForce symbolId price 0
    trailAmount quantity orderId

def trailingStopLimitBidOrder : Option Order :=
  factory (0 < price ∧ 0 < trailAmount) .trailingStopLimit .bid timeInForce symbolId price 0
    trailAmount quantity orderId

end Factories

/-- An order some factory has built with all its assertions met. -/
inductive FactoryBuilt : Order → Prop
  | marketAsk : marketAskOrder orderId sym q tif = some o → FactoryBuilt o
  | marketBid : marketBidOrder orderId sym q tif = some o → FactoryBuilt o
  | limitAsk : limitAskOrder orderId sym p q tif = some o → FactoryBuilt o
  | limitBid : limitBidOrder orderId sym p q tif = some o → FactoryBuilt o
  | stopAsk : stopAskOrder orderId sym s q tif = some o → FactoryBuilt o
  | stopBid : stopBidOrder orderId sym s q tif = some o → FactoryBuilt o
  | stopLimitAsk : stopLimitAskOrder orderId sym p s q tif = some o → FactoryBuilt o
  | stopLimitBid : stopLimitBidOrder orderId sym p s q tif = some o → FactoryBuilt o
  | trailingStopAsk : trailingStopAskOrder orderId sym t q tif = some o → FactoryBuilt o
  | trailingStopBid : trailingStopBidOrder orderId sym t q tif = some o → FactoryBuilt o
  | trailingStopLimitAsk : trailingStopLimitAskOrder orderId sym p t q tif = some o → FactoryBuilt o
  | trailingStopLimitBid : trailingStopLimitBidOrder orderId sym p t q tif = some o → FactoryBuilt o

def isAsk (o : Order) : Bool := o.side = .ask
def isBid (o : Order) : Bool := o.side = .bid
def isLimit (o : Order) : Bool := o.type = .limit
def isMarket (o : Order) : Bool := o.type = .market
def isStop (o : Order) : Bool := o.type = .stop
def isStopLimit (o : Order) : Bool := o.type = .stopLimit
def isTrailingStop (o : Order) : Bool := o.type = .trailingStop
def isTrailingStopLimit (o : Order) : Bool := o.type = .trailingStopLimit
def isIoc (o : Order) : Bool := o.timeInForce = .ioc
def isGtc (o : Order) : Bool := o.timeInForce = .gtc
def isFok (o : Order) : Bool := o.timeInForce = .fok
def isFilled (o : Order) : Bool := o.openQuantity = 0

/-- `Order::execute`, whose price parameter is a `uint32_t`: the price is cut to 32 bits. -/
def execute (o : Order) (price quantity : UInt64) : Order :=
  { o with
    openQuantity := o.openQuantity - quantity
    executedQuantity := o.executedQuantity + quantity
    lastExecutedPrice := price.toUInt32.toUInt64
    lastExecutedQuantity := quantity }

def setPrice (o : Order) (price : UInt64) : Order := { o with price := price }
def setStopPrice (o : Order) (stopPrice : UInt64) : Order := { o with stopPrice := stopPrice }
def setTrailAmount (o : Order) (trailAmount : UInt64) : Order :=
  { o with trailAmount := trailAmount }
def setOrderID (o : Order) (id : UInt64) : Order := { o with id := id }
def setType (o : Order) (type : OrderType) : Order := { o with type := type }

/-- `Order::setQuantity`: `quantity` becomes the smaller of the argument and the open quantity,
and the argument is taken off the open quantity modulo `2^64`. -/
def setQuantity (o : Order) (quantity : UInt64) : Order :=
  { o with
    quantity := min quantity o.openQuantity
    openQuantity := o.openQuantity - quantity }

/-- What the factories guarantee of the terms of an order. -/
structure Terms (o : Order) : Prop where
  tif : o.type = .market ∨ o.type = .stop ∨ o.type = .trailingStop → o.timeInForce ≠ .gtc
  price_ne : o.type = .limit ∨ o.type = .stopLimit ∨ o.type = .trailingStopLimit → o.price ≠ 0
  stop_ne : o.type = .stop ∨ o.type = .stopLimit → o.stopPrice ≠ 0
  trail_ne : o.type = .trailingStop ∨ o.type = .trailingStopLimit → o.trailAmount ≠ 0

/-- What the factories guarantee and the rest of the engine relies on. -/
structure WellFormed (o : Order) : Prop extends Terms o where
  open_ne : o.openQuantity ≠ 0

theorem factory_eq_some (h : factory asserted ty sd tif sym p s t q i = some o) :
    asserted = true ∧ 0 < i ∧ 0 < sym ∧ 0 < q ∧ o = new ty sd tif sym p s t q i := by
  unfold factory at h
  split at h
  · rename_i hc
    simp only [Bool.and_eq_true, decide_eq_true_eq] at hc
    exact ⟨hc.1.1.1, hc.1.1.2, hc.1.2, hc.2, (Option.some.inj h).symm⟩
  · cases h

theorem factory_wellFormed (h : factory asserted ty sd tif sym p s t q i = some o)
    (htif : asserted = true → ty = .market ∨ ty = .stop ∨ ty = .trailingStop → tif ≠ .gtc)
    (hp : asserted = true → ty = .limit ∨ ty = .stopLimit ∨ ty = .trailingStopLimit → p ≠ 0)
    (hs : asserted = true → ty = .stop ∨ ty = .stopLimit → s ≠ 0)
    (ht : asserted = true → ty = .trailingStop ∨ ty = .trailingStopLimit → t ≠ 0) :
    o.WellFormed := by
  obtain ⟨ha, _, _, hq, rfl⟩ := factory_eq_some h
  have hq' : q ≠ 0 := by grind
  exact ⟨⟨htif ha, hp ha, hs ha, ht ha⟩, hq'⟩

theorem FactoryBuilt.wellFormed (h : FactoryBuilt o) : o.WellFormed := by
  cases h <;> rename_i h <;> refine factory_wellFormed h ?_ ?_ ?_ ?_ <;>
    simp only [decide_eq_true_eq, reduceCtorEq, or_false, or_true, or_self,
      forall_const, false_implies, implies_true, ne_eq] <;> grind

end Order

end RapidTrader
