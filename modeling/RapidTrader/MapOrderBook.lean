import RapidTrader.Book
import RapidTrader.Lib.Loop

namespace RapidTrader
open Lib
set_option autoImplicit true

/-- The map the switch of `deleteOrder` erases from; `none` is its failing default case. -/
def Order.levelMap? (o : Order) : Option LevelMap :=
  match o.type with
  | .limit => some (if o.isAsk then .ask else .bid)
  | .stop | .stopLimit => some (if o.isAsk then .stopAsk else .stopBid)
  | .trailingStop | .trailingStopLimit =>
    some (if o.isAsk then .trailingStopAsk else .trailingStopBid)
  | .market => none

namespace Book

/-- The limit levels an incoming order trades with. -/
def oppositeMap : OrderSide → LevelMap
  | .ask => .bid
  | .bid => .ask

/-- The best level for an incoming order: the highest bid or the lowest ask. -/
def bestOpposite (b : Book) : OrderSide → Option (UInt64 × Level)
  | .ask => b.bidLevels.rbegin?
  | .bid => b.askLevels.begin?

/-- Whether a level crosses the price of an incoming order. -/
def crosses : OrderSide → UInt64 → UInt64 → Bool
  | .ask, key, price => price ≤ key
  | .bid, key, price => key ≤ price

/-- The condition of the loops of `match`. -/
def canTrade (b : Book) (order : Order) : Bool :=
  match b.bestOpposite order.side with
  | some (key, _) => crosses order.side key order.price && !order.isFilled
  | none => false

/-- The loops of `canMatchOrder`. The source never moves the level iterator. -/
def canMatchLoop (b : Book) (order : Order) : Nat → UInt64 → Option Bool
  | 0, _ => none
  | fuel + 1, quantityAvailable =>
    match b.bestOpposite order.side with
    | some (key, level) =>
      if crosses order.side key order.price then
        let quantityNeeded := order.openQuantity - quantityAvailable
        let quantityAvailable := quantityAvailable + min level.volume quantityNeeded
        if order.openQuantity ≤ quantityAvailable then some true
        else canMatchLoop b order fuel quantityAvailable
      else some false
    | none => some false

def canMatchOrder (fuel : Nat) (b : Book) (order : Order) : Option Bool :=
  b.canMatchLoop order fuel 0

/-- The level an activation loop looks at: the lowest stop of the bids, the highest of the asks. -/
def firstStop (b : Book) (t : LevelMap) : Option (UInt64 × Level) :=
  match t.side with
  | .bid => (b.levels t).begin?
  | .ask => (b.levels t).rbegin?

/-- The price condition of the activation loops. -/
def triggers : LevelSide → UInt64 → UInt64 → Bool
  | .bid, key, lastPrice => key ≤ lastPrice
  | .ask, key, lastPrice => lastPrice ≤ key

/-- The condition of the activation loops. -/
def canActivate (b : Book) (t : LevelMap) (lastPrice : UInt64) : Bool :=
  match b.firstStop t with
  | some (key, _) => triggers t.side key lastPrice
  | none => false

/-- The price `calculateStopPrice` computes: the market price less or plus the trail amount,
cut off at the ends of the 64-bit range. -/
def newStopPrice (b : Book) (order : Order) : UInt64 :=
  if order.isAsk then
    let marketPrice := b.lastTradedPriceBid
    if order.trailAmount < marketPrice then marketPrice - order.trailAmount else 0
  else
    let marketPrice := b.lastTradedPriceAsk
    if marketPrice < maxPrice - order.trailAmount then marketPrice + order.trailAmount else maxPrice

def calculateStopPrice (b : Book) (order : Order) : Order :=
  order.setStopPrice (b.newStopPrice order)

/-- The condition under which `addStopOrder` activates the order at once. -/
def stopTriggered (b : Book) (order : Order) : Bool :=
  if order.isAsk then b.lastTradedPriceBid ≤ order.stopPrice
  else order.stopPrice ≤ b.lastTradedPriceAsk

end Book

namespace MapOrderBook

/-- Erase the level a deleted order leaves empty. An iterator of one map cannot be erased from
another. -/
def eraseLevel (b : MapOrderBook) (order : Order) (it : LevelIt) : Exec MapOrderBook :=
  match order.levelMap? with
  | none => .ok b
  | some t => if t = it.levels then .ok (b.setLevels t ((b.levels t).erase it.key)) else .error b

/-- The private overload `deleteOrder(order_id, notification)`. -/
def deleteOrderWith (b : MapOrderBook) (orderId : UInt64) (notification : Bool) :
    Exec MapOrderBook := do
  let w ← b.orderAt orderId
  let b := if notification then b.emit (.orderDeleted w.order) else b
  let level ← b.levelAt w.levelIt
  let b := b.modifyLevel w.levelIt (·.deleteOrder w.order)
  let b ← (if (level.deleteOrder w.order).empty then b.eraseLevel w.order w.levelIt else .ok b)
  return { b with orders := b.orders.erase orderId }

/-- Emplace a level and an order in it. `emplace` leaves an order alone that already rests under
the id, and it is the order found there that joins the level. -/
def insertOrder (b : MapOrderBook) (t : LevelMap) (key : UInt64) (order : Order) : MapOrderBook :=
  let b := b.setLevels t ((b.levels t).emplace key (.new key t.side b.symbolId))
  let b := { b with orders := b.orders.emplace order.id ⟨order, ⟨t, key⟩⟩ }
  let stored := ((b.orders.find? order.id).map OrderWrapper.order).getD order
  b.modifyLevel ⟨t, key⟩ (·.addOrder stored)

def insertLimitOrder (b : MapOrderBook) (order : Order) : MapOrderBook :=
  b.insertOrder (if order.isAsk then .ask else .bid) order.price order

def insertStopOrder (b : MapOrderBook) (order : Order) : MapOrderBook :=
  b.insertOrder (if order.isAsk then .stopAsk else .stopBid) order.stopPrice order

/-- Unlike the other two insertions this one also sets the order's iterator. -/
def insertTrailingStopOrder (b : MapOrderBook) (order : Order) : MapOrderBook :=
  let t := if order.isAsk then LevelMap.trailingStopAsk else .trailingStopBid
  let b := b.insertOrder t order.stopPrice order
  { b with
    orders := b.orders.modify order.id (fun w => { w with levelIt := ⟨t, order.stopPrice⟩ }) }

/-- `executeOrders(ask, bid, executing_price)`: the book, the ask and the bid after it. -/
def executeOrders (b : MapOrderBook) (ask bid : Order) (executingPrice : UInt64) :
    MapOrderBook × Order × Order :=
  let matchedQuantity := min ask.openQuantity bid.openQuantity
  let bid := bid.execute executingPrice matchedQuantity
  let ask := ask.execute executingPrice matchedQuantity
  let b := b.note (.trade bid.id ask.id executingPrice matchedQuantity)
  let b := (b.emit (.executedOrder bid)).emit (.executedOrder ask)
  ({ b with lastTradedPrice := executingPrice }, ask, bid)

/-- The common end of trades, executions and cancellations: take an amount off the level of an
order and delete the order if it is filled. -/
def settle (b : MapOrderBook) (it : LevelIt) (order : Order) (orderId amount : UInt64) :
    Exec MapOrderBook :=
  let b := b.modifyLevel it (·.reduceVolume amount)
  if order.isFilled then b.deleteOrderWith orderId true else .ok b

/-- One turn of the loops of `match`: trade with the front order of the best level. -/
def matchFront (b : MapOrderBook) (order : Order) : Exec (MapOrderBook × Order) :=
  match b.bestOpposite order.side with
  | none => .error b
  | some (key, level) =>
    match level.front with
    | none => .error b
    | some orderId => do
      let w ← b.orderAt orderId
      let executingPrice := w.order.price
      match order.side with
      | .ask =>
        let (b, askOrder, bidOrder) := b.executeOrders order w.order executingPrice
        let b := b.writeOrder orderId bidOrder
        let b ← b.settle ⟨.bid, key⟩ bidOrder bidOrder.id bidOrder.lastExecutedQuantity
        return (b, askOrder)
      | .bid =>
        let (b, askOrder, bidOrder) := b.executeOrders w.order order executingPrice
        let b := b.writeOrder orderId askOrder
        let b ← b.settle ⟨.ask, key⟩ askOrder askOrder.id askOrder.lastExecutedQuantity
        return (b, bidOrder)

/-- `match`: the book and the incoming order after it. -/
def matchOrder (fuel : Nat) (b : MapOrderBook) (order : Order) : Exec (MapOrderBook × Order) := do
  let b := b.note (.matching order b.toBook)
  let killed ← (if order.isFok then
      match b.canMatchOrder fuel order with
      | none => .error b
      | some possible => .ok !possible
    else .ok false)
  if killed then return (b, order)
  whileLoop (fun s => s.1.canTrade s.2) (fun s => s.1.matchFront s.2) Prod.fst fuel (b, order)

def addLimitOrder (fuel : Nat) (b : MapOrderBook) (order : Order) : Exec MapOrderBook := do
  let (b, order) ← b.matchOrder fuel order
  if !order.isFilled && !order.isIoc && !order.isFok then return b.insertLimitOrder order
  else return b.emit (.orderDeleted order)

def addMarketOrder (fuel : Nat) (b : MapOrderBook) (order : Order) : Exec MapOrderBook := do
  let order := order.setPrice (if order.isAsk then 0 else maxPrice)
  let (b, order) ← b.matchOrder fuel order
  return b.emit (.orderDeleted order)

def addStopOrder (fuel : Nat) (b : MapOrderBook) (order : Order) : Exec MapOrderBook := do
  let order :=
    if order.isTrailingStop || order.isTrailingStopLimit then b.calculateStopPrice order else order
  if b.stopTriggered order then
    let order := order.setType (if order.isStop || order.isTrailingStop then .market else .limit)
    let order := (order.setStopPrice 0).setTrailAmount 0
    let b := b.emit (.orderUpdated order)
    if order.isMarket then addMarketOrder fuel b order else addLimitOrder fuel b order
  else if order.isTrailingStop || order.isTrailingStopLimit then
    return b.insertTrailingStopOrder order
  else
    return b.insertStopOrder order

def activateStopOrder (fuel : Nat) (b : MapOrderBook) (stopOrder : Order) :
    Exec MapOrderBook := do
  let b ← b.deleteOrderWith stopOrder.id false
  let order := (stopOrder.setStopPrice 0).setTrailAmount 0
  let b ← (if order.isStop || order.isTrailingStop then
      let order := order.setType .market
      addMarketOrder fuel (b.emit (.orderUpdated order)) order
    else
      let order := order.setType .limit
      addLimitOrder fuel (b.emit (.orderUpdated order)) order)
  return b.note (.activated stopOrder b.toBook)

/-- One turn of an activation loop: activate the front order of the first level. -/
def activateFront (fuel : Nat) (t : LevelMap) (b : MapOrderBook) : Exec MapOrderBook :=
  match b.firstStop t with
  | none => .error b
  | some (_, level) =>
    match level.front with
    | none => .error b
    | some orderId => do
      let w ← b.orderAt orderId
      activateStopOrder fuel b w.order

/-- An activation loop. The flag is the source's `activated_orders`. -/
def activateLevels (fuel : Nat) (t : LevelMap) (lastPrice : UInt64) :
    MapOrderBook × Bool → Exec (MapOrderBook × Bool) :=
  whileLoop (fun s => s.1.canActivate t lastPrice)
    (fun s => return (← s.1.activateFront fuel t, true)) Prod.fst fuel

def activateBidStopOrders (fuel : Nat) (b : MapOrderBook) : Exec (MapOrderBook × Bool) := do
  let (b, activatedOrders) ← activateLevels fuel .stopBid b.lastTradedPriceAsk (b, false)
  activateLevels fuel .trailingStopBid b.lastTradedPriceAsk (b, activatedOrders)

def activateAskStopOrders (fuel : Nat) (b : MapOrderBook) : Exec (MapOrderBook × Bool) := do
  let (b, activatedOrders) ← activateLevels fuel .stopAsk b.lastTradedPriceBid (b, false)
  activateLevels fuel .trailingStopAsk b.lastTradedPriceBid (b, activatedOrders)

/-- Move one trailing order to its new level. The old level is dropped with the old map, so
taking the order off it is left out. -/
def relevelOrder (t : LevelMap) (s : MapOrderBook × SortedMap UInt64 Level) (orderId : UInt64) :
    Exec (MapOrderBook × SortedMap UInt64 Level) := do
  let (b, newTrailingLevels) := s
  let w ← b.orderAt orderId
  let stopOrder := b.calculateStopPrice w.order
  let newStopPrice := stopOrder.stopPrice
  let newTrailingLevels :=
    newTrailingLevels.emplace newStopPrice (.new newStopPrice t.side b.symbolId)
  let b := { b with
    orders := b.orders.modify orderId (fun _ => ⟨stopOrder, ⟨t, newStopPrice⟩⟩) }
  let newTrailingLevels := newTrailingLevels.modify newStopPrice (·.addOrder stopOrder)
  return (b.emit (.orderUpdated stopOrder), newTrailingLevels)

/-- The nested loops of the two update functions: all levels from the lowest key on, and each
level from its front. -/
def relevel (b : MapOrderBook) (t : LevelMap) : Exec MapOrderBook := do
  let orderIds := (b.levels t).entries.flatMap (fun e => e.2.orders)
  let (b, newTrailingLevels) ← orderIds.foldlM (relevelOrder t) (b, .empty)
  return b.setLevels t newTrailingLevels

def updateBidStopOrders (b : MapOrderBook) : Exec MapOrderBook := do
  let b := b.note (.updating .bid b.toBook)
  if b.trailingAskPrice ≤ b.lastTradedPriceAsk ∨ b.trailingStopBidLevels.isEmpty then
    return { b with trailingAskPrice := b.lastTradedPrice }
  let b ← b.relevel .trailingStopBid
  return { b with trailingAskPrice := b.lastTradedPrice }

def updateAskStopOrders (b : MapOrderBook) : Exec MapOrderBook := do
  let b := b.note (.updating .ask b.toBook)
  if b.lastTradedPriceBid ≤ b.trailingBidPrice ∨ b.trailingStopAskLevels.isEmpty then
    return { b with trailingBidPrice := b.lastTradedPrice }
  let b ← b.relevel .trailingStopAsk
  return { b with trailingBidPrice := b.lastTradedPrice }

/-- The update function of a side. -/
def updateStopOrders (b : MapOrderBook) : OrderSide → Exec MapOrderBook
  | .ask => b.updateAskStopOrders
  | .bid => b.updateBidStopOrders

/-- One turn of the loop of `activateStopOrders`, with the new value of `activate`. -/
def activatePass (fuel : Nat) (b : MapOrderBook) : Exec (MapOrderBook × Bool) := do
  let (b, activate) ← activateBidStopOrders fuel b
  let b ← b.updateAskStopOrders
  let (b, activatedAsks) ← activateAskStopOrders fuel b
  let b ← b.updateBidStopOrders
  return (b, activatedAsks || activate)

def activateStopOrders (fuel : Nat) (b : MapOrderBook) : Exec MapOrderBook := do
  let (b, _) ← whileLoop Prod.snd (fun s => activatePass fuel s.1) Prod.fst fuel (b, true)
  return b

/-- `addOrder` before its call of `activateStopOrders`. -/
def submitOrder (fuel : Nat) (b : MapOrderBook) (order : Order) : Exec MapOrderBook :=
  let b := b.emit (.orderAdded order)
  match order.type with
  | .limit => addLimitOrder fuel b order
  | .market => addMarketOrder fuel b order
  | .stop | .stopLimit | .trailingStop | .trailingStopLimit => addStopOrder fuel b order

def addOrder (fuel : Nat) (b : MapOrderBook) (order : Order) : Exec MapOrderBook := do
  let b ← b.submitOrder fuel order
  activateStopOrders fuel b

/-- The two overloads of `executeOrder` before their call of `activateStopOrders`. They differ in
the executing price only. -/
def executeResting (b : MapOrderBook) (orderId quantity : UInt64) (price : Order → UInt64) :
    Exec MapOrderBook := do
  let w ← b.orderAt orderId
  let _ ← b.levelAt w.levelIt
  let executingQuantity := min quantity w.order.openQuantity
  let executingPrice := price w.order
  let executingOrder := w.order.execute executingPrice executingQuantity
  let b := b.writeOrder orderId executingOrder
  let b := { b with lastTradedPrice := executingPrice }
  let b := b.emit (.executedOrder executingOrder)
  b.settle w.levelIt executingOrder orderId executingOrder.lastExecutedQuantity

/-- The overload `executeOrder(order_id, quantity, price)`. -/
def executeOrderAt (fuel : Nat) (b : MapOrderBook) (orderId quantity price : UInt64) :
    Exec MapOrderBook := do
  let b ← b.executeResting orderId quantity (fun _ => price)
  activateStopOrders fuel b

/-- The overload `executeOrder(order_id, quantity)`, at the price of the order. -/
def executeOrder (fuel : Nat) (b : MapOrderBook) (orderId quantity : UInt64) :
    Exec MapOrderBook := do
  let b ← b.executeResting orderId quantity Order.price
  activateStopOrders fuel b

/-- `cancelOrder` before its call of `activateStopOrders`. -/
def cancelResting (b : MapOrderBook) (orderId quantity : UInt64) : Exec MapOrderBook := do
  let w ← b.orderAt orderId
  let _ ← b.levelAt w.levelIt
  let preCancellationQuantity := w.order.openQuantity
  let cancellingOrder := w.order.setQuantity quantity
  let b := b.writeOrder orderId cancellingOrder
  let b := b.emit (.orderUpdated cancellingOrder)
  b.settle w.levelIt cancellingOrder orderId
    (preCancellationQuantity - cancellingOrder.openQuantity)

def cancelOrder (fuel : Nat) (b : MapOrderBook) (orderId quantity : UInt64) :
    Exec MapOrderBook := do
  let b ← b.cancelResting orderId quantity
  activateStopOrders fuel b

def deleteOrder (fuel : Nat) (b : MapOrderBook) (orderId : UInt64) : Exec MapOrderBook := do
  let b ← b.deleteOrderWith orderId true
  activateStopOrders fuel b

def replaceOrder (fuel : Nat) (b : MapOrderBook) (orderId newOrderId newPrice : UInt64) :
    Exec MapOrderBook := do
  let w ← b.orderAt orderId
  let newOrder := (w.order.setOrderID newOrderId).setPrice newPrice
  let b ← b.deleteOrderWith orderId true
  let b ← b.addOrder fuel newOrder
  activateStopOrders fuel b

end MapOrderBook

/-- The public operations of the book. -/
inductive Op where
  | addOrder (order : Order)
  | executeOrderAt (orderId quantity price : UInt64)
  | executeOrder (orderId quantity : UInt64)
  | cancelOrder (orderId quantity : UInt64)
  | deleteOrder (orderId : UInt64)
  | replaceOrder (orderId newOrderId newPrice : UInt64)
  deriving DecidableEq, Repr

def MapOrderBook.apply (fuel : Nat) (b : MapOrderBook) : Op → Exec MapOrderBook
  | .addOrder order => b.addOrder fuel order
  | .executeOrderAt orderId quantity price => b.executeOrderAt fuel orderId quantity price
  | .executeOrder orderId quantity => b.executeOrder fuel orderId quantity
  | .cancelOrder orderId quantity => b.cancelOrder fuel orderId quantity
  | .deleteOrder orderId => b.deleteOrder fuel orderId
  | .replaceOrder orderId newOrderId newPrice => b.replaceOrder fuel orderId newOrderId newPrice

end RapidTrader
