import RapidTrader.Lib.SortedMap
import RapidTrader.Order

namespace RapidTrader
open Lib
set_option autoImplicit true

inductive LevelSide where
  | bid | ask
  deriving DecidableEq, Repr

/-- A price level. The intrusive list links orders that live in the book's `orders` map,
so it is kept as the list of their ids. -/
structure Level where
  orders : List UInt64
  side : LevelSide
  symbolId : UInt32
  volume : UInt64
  price : UInt64
  deriving DecidableEq, Repr

namespace Level

def new (price : UInt64) (side : LevelSide) (symbolId : UInt32) : Level :=
  ⟨[], side, symbolId, 0, price⟩

def empty (l : Level) : Bool := l.orders.isEmpty

def front (l : Level) : Option UInt64 := l.orders.head?

def addOrder (l : Level) (order : Order) : Level :=
  { l with volume := l.volume + order.openQuantity, orders := l.orders ++ [order.id] }

def deleteOrder (l : Level) (order : Order) : Level :=
  { l with volume := l.volume - order.openQuantity, orders := l.orders.erase order.id }

def reduceVolume (l : Level) (amount : UInt64) : Level := { l with volume := l.volume - amount }

def toString (l : Level) : String := s!"{l.price} X {l.volume}\n"

end Level

/-- The six maps from prices to levels. -/
inductive LevelMap where
  | ask | bid | stopAsk | stopBid | trailingStopAsk | trailingStopBid
  deriving DecidableEq, Repr

def LevelMap.side : LevelMap → LevelSide
  | .ask | .stopAsk | .trailingStopAsk => .ask
  | .bid | .stopBid | .trailingStopBid => .bid

/-- An iterator into one of the six maps. -/
structure LevelIt where
  levels : LevelMap
  key : UInt64
  deriving DecidableEq, Repr

structure OrderWrapper where
  order : Order
  levelIt : LevelIt
  deriving DecidableEq, Repr

/-- The events an `EventHandler` receives. -/
inductive Event where
  | orderAdded (order : Order)
  | orderDeleted (order : Order)
  | orderUpdated (order : Order)
  | executedOrder (order : Order)
  | symbolAdded (symbolId : UInt32) (name : String)
  | symbolDeleted (symbolId : UInt32) (name : String)
  deriving DecidableEq, Repr

/-- The data members of `MapOrderBook`, less the event handler. -/
structure Book where
  symbolId : UInt32
  orders : SortedMap UInt64 OrderWrapper
  askLevels : SortedMap UInt64 Level
  bidLevels : SortedMap UInt64 Level
  stopAskLevels : SortedMap UInt64 Level
  stopBidLevels : SortedMap UInt64 Level
  trailingStopAskLevels : SortedMap UInt64 Level
  trailingStopBidLevels : SortedMap UInt64 Level
  lastTradedPrice : UInt64
  trailingBidPrice : UInt64
  trailingAskPrice : UInt64
  deriving DecidableEq

/-- What happens while the book works. Besides the events given to the event handler these are
marks of calls that no event shows; the code never reads them. -/
inductive Note where
  | event (e : Event)
  | matching (order : Order) (before : Book)
  | trade (bidId askId price quantity : UInt64)
  | activated (order : Order) (after : Book)
  | updating (side : OrderSide) (before : Book)
  deriving DecidableEq

def Note.event? : Note → Option Event
  | .event e => some e
  | .matching _ _ | .trade _ _ _ _ | .activated _ _ | .updating _ _ => none

/-- The events a trace shows to the event handler. -/
def events (trace : List Note) : List Event := trace.filterMap Note.event?

theorem events_append (t ns : List Note) : events (t ++ ns) = events t ++ events ns :=
  List.filterMap_append

structure MapOrderBook extends Book where
  trace : List Note
  deriving DecidableEq

/-- A piece of code that works on the book. It returns a value, or the book in the state in which
it dereferenced a missing entry or ran out of fuel. -/
abbrev Exec (α : Type) := Except MapOrderBook α

namespace Book

def levels (b : Book) : LevelMap → SortedMap UInt64 Level
  | .ask => b.askLevels
  | .bid => b.bidLevels
  | .stopAsk => b.stopAskLevels
  | .stopBid => b.stopBidLevels
  | .trailingStopAsk => b.trailingStopAskLevels
  | .trailingStopBid => b.trailingStopBidLevels

def level? (b : Book) (it : LevelIt) : Option Level := (b.levels it.levels).find? it.key

/-- The orders of a level from its front on, and none where there is no level. -/
def queue (b : Book) (it : LevelIt) : List UInt64 :=
  ((b.level? it).map Level.orders).getD []

/-- The order that rests under an id. -/
def resting (b : Book) (i : UInt64) : Option Order := (b.orders.find? i).map OrderWrapper.order

/-- The last traded price if any trades have been made and the greatest price otherwise. -/
def lastTradedPriceAsk (b : Book) : UInt64 :=
  if b.lastTradedPrice = 0 then maxPrice else b.lastTradedPrice

def lastTradedPriceBid (b : Book) : UInt64 := b.lastTradedPrice

/-- The texts of the levels of a map, from the lowest price on. -/
def levelsString (b : Book) (t : LevelMap) : String :=
  String.join ((b.levels t).entries.map fun e => e.2.toString)

def toString (b : Book) : String :=
  s!"SYMBOL ID : {b.symbolId}\n" ++ s!"LAST TRADED PRICE: {b.lastTradedPrice}\n" ++
  "BID ORDERS\n" ++ b.levelsString .bid ++ "ASK ORDERS\n" ++ b.levelsString .ask ++
  "BID STOP ORDERS\n" ++ b.levelsString .stopBid ++
  "ASK STOP ORDERS\n" ++ b.levelsString .stopAsk ++
  "BID TRAILING STOP ORDERS\n" ++ b.levelsString .trailingStopBid ++
  "ASK TRAILING STOP ORDERS\n" ++ b.levelsString .trailingStopAsk

end Book

namespace MapOrderBook

/-- The constructor `MapOrderBook::MapOrderBook`. -/
def new (symbolId : UInt32) : MapOrderBook where
  symbolId := symbolId
  orders := .empty
  askLevels := .empty
  bidLevels := .empty
  stopAskLevels := .empty
  stopBidLevels := .empty
  trailingStopAskLevels := .empty
  trailingStopBidLevels := .empty
  lastTradedPrice := 0
  trailingBidPrice := 0
  trailingAskPrice := maxPrice
  trace := []

def note (b : MapOrderBook) (n : Note) : MapOrderBook := { b with trace := b.trace ++ [n] }

/-- Hand an event to the event handler. -/
def emit (b : MapOrderBook) (e : Event) : MapOrderBook := b.note (.event e)

def setLevels (b : MapOrderBook) (t : LevelMap) (m : SortedMap UInt64 Level) : MapOrderBook :=
  match t with
  | .ask => { b with askLevels := m }
  | .bid => { b with bidLevels := m }
  | .stopAsk => { b with stopAskLevels := m }
  | .stopBid => { b with stopBidLevels := m }
  | .trailingStopAsk => { b with trailingStopAskLevels := m }
  | .trailingStopBid => { b with trailingStopBidLevels := m }

/-- Dereference `orders.find(id)`. -/
def orderAt (b : MapOrderBook) (id : UInt64) : Exec OrderWrapper :=
  match b.orders.find? id with
  | some w => .ok w
  | none => .error b

/-- Dereference an iterator to a level. -/
def levelAt (b : MapOrderBook) (it : LevelIt) : Exec Level :=
  match b.level? it with
  | some l => .ok l
  | none => .error b

/-- Write an order back through a reference into the `orders` map. -/
def writeOrder (b : MapOrderBook) (id : UInt64) (order : Order) : MapOrderBook :=
  { b with orders := b.orders.modify id (fun w => { w with order := order }) }

/-- Change a level through a reference. -/
def modifyLevel (b : MapOrderBook) (it : LevelIt) (f : Level → Level) : MapOrderBook :=
  b.setLevels it.levels ((b.levels it.levels).modify it.key f)

end MapOrderBook

theorem orderAt_eq_ok {b : MapOrderBook} : b.orderAt i = .ok w ↔ b.orders.find? i = some w := by
  unfold MapOrderBook.orderAt
  cases b.orders.find? i <;> simp

theorem levelAt_eq_ok {b : MapOrderBook} : b.levelAt it = .ok l ↔ b.level? it = some l := by
  unfold MapOrderBook.levelAt
  cases b.level? it <;> simp

section Lookups
variable (b : MapOrderBook)

@[simp] theorem toBook_note (n : Note) : (b.note n).toBook = b.toBook := rfl

@[simp] theorem toBook_emit (e : Event) : (b.emit e).toBook = b.toBook := rfl

@[simp] theorem trace_note (n : Note) : (b.note n).trace = b.trace ++ [n] := rfl

@[simp] theorem trace_emit (e : Event) : (b.emit e).trace = b.trace ++ [.event e] := rfl

@[simp] theorem levels_setLevels (t t' : LevelMap) (m : SortedMap UInt64 Level) :
    (b.setLevels t m).levels t' = if t' = t then m else b.levels t' := by
  cases t <;> cases t' <;> rfl

@[simp] theorem orders_setLevels (t : LevelMap) (m : SortedMap UInt64 Level) :
    (b.setLevels t m).orders = b.orders := by
  cases t <;> rfl

@[simp] theorem trace_setLevels (t : LevelMap) (m : SortedMap UInt64 Level) :
    (b.setLevels t m).trace = b.trace := by
  cases t <;> rfl

@[simp] theorem symbolId_setLevels (t : LevelMap) (m : SortedMap UInt64 Level) :
    (b.setLevels t m).symbolId = b.symbolId := by
  cases t <;> rfl

@[simp] theorem lastTradedPrice_setLevels (t : LevelMap) (m : SortedMap UInt64 Level) :
    (b.setLevels t m).lastTradedPrice = b.lastTradedPrice := by
  cases t <;> rfl

@[simp] theorem trailingBidPrice_setLevels (t : LevelMap) (m : SortedMap UInt64 Level) :
    (b.setLevels t m).trailingBidPrice = b.trailingBidPrice := by
  cases t <;> rfl

@[simp] theorem trailingAskPrice_setLevels (t : LevelMap) (m : SortedMap UInt64 Level) :
    (b.setLevels t m).trailingAskPrice = b.trailingAskPrice := by
  cases t <;> rfl

theorem level?_of_mem {b : Book} (h : (key, l) ∈ (b.levels t).entries) :
    b.level? ⟨t, key⟩ = some l := SortedMap.find?_eq_some.2 h

theorem level?_setLevels (t : LevelMap) (m : SortedMap UInt64 Level) (it : LevelIt) :
    (b.setLevels t m).level? it = if it.levels = t then m.find? it.key else b.level? it := by
  unfold Book.level?
  rw [levels_setLevels]
  split <;> rfl

theorem level?_modifyLevel (it it' : LevelIt) (f : Level → Level) :
    (b.modifyLevel it f).level? it' =
      if it' = it then (b.level? it').map f else b.level? it' := by
  obtain ⟨t, k⟩ := it
  obtain ⟨t', k'⟩ := it'
  unfold MapOrderBook.modifyLevel
  rw [level?_setLevels, SortedMap.find?_modify]
  simp only [LevelIt.mk.injEq, Book.level?]
  grind

theorem level?_eraseAt (it it' : LevelIt) :
    (b.setLevels it.levels ((b.levels it.levels).erase it.key)).level? it' =
      if it' = it then none else b.level? it' := by
  obtain ⟨t, k⟩ := it
  obtain ⟨t', k'⟩ := it'
  rw [level?_setLevels, SortedMap.find?_erase]
  simp only [LevelIt.mk.injEq, Book.level?]
  grind

theorem level?_emplaceAt (it it' : LevelIt) (l : Level) :
    (b.setLevels it.levels ((b.levels it.levels).emplace it.key l)).level? it' =
      if it' = it then some ((b.level? it).getD l) else b.level? it' := by
  obtain ⟨t, k⟩ := it
  obtain ⟨t', k'⟩ := it'
  rw [level?_setLevels, SortedMap.find?_emplace]
  simp only [LevelIt.mk.injEq, Book.level?]
  grind

end Lookups

end RapidTrader
