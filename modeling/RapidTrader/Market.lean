import RapidTrader.Lib.Keyed
import RapidTrader.Mutations

namespace RapidTrader
open Lib Relation Function
set_option autoImplicit true

/-- What is rendered of a book: the book that is read and the text that is made of it. -/
structure Rendered where
  book : Book
  text : String
  deriving DecidableEq

/-- The text that a loop over the books joins when it meets the symbols in this order. -/
def joinText (rendered : UInt32 → Option Rendered) (symbolIds : List UInt32) : String :=
  String.join (symbolIds.filterMap fun symbolId => (rendered symbolId).map Rendered.text)

/-- `OrderBookHandler`, with the events that its event handler has received. -/
structure OrderBookHandler where
  idToBook : UInt32 → Option Book
  events : List Event

namespace OrderBookHandler

def new : OrderBookHandler := ⟨fun _ => none, []⟩

def addOrderBook (h : OrderBookHandler) (symbolId : UInt32) (symbolName : String) :
    Option OrderBookHandler :=
  match h.idToBook symbolId with
  | some _ => none
  | none => some {
      idToBook := update h.idToBook symbolId (some (MapOrderBook.new symbolId).toBook)
      events := h.events ++ [.symbolAdded symbolId symbolName] }

def deleteOrderBook (h : OrderBookHandler) (symbolId : UInt32) (symbolName : String) :
    Option OrderBookHandler :=
  match h.idToBook symbolId with
  | none => none
  | some _ => some {
      idToBook := update h.idToBook symbolId none
      events := h.events ++ [.symbolDeleted symbolId symbolName] }

/-- Find the book of a symbol, check the other assertions, and let the book work. -/
def withBook (h : OrderBookHandler) (symbolId : UInt32) (asserted : Bool)
    (work : MapOrderBook → Exec MapOrderBook) : Option OrderBookHandler :=
  match h.idToBook symbolId with
  | none => none
  | some book =>
    match asserted, work ⟨book, []⟩ with
    | true, .ok b => some {
        idToBook := update h.idToBook symbolId (some b.toBook)
        events := h.events ++ RapidTrader.events b.trace }
    | _, _ => none

/-- What `toString` renders. It joins the texts in the order in which the table has the symbols,
which `joinText` is given. -/
def toString (h : OrderBookHandler) : UInt32 → Option Rendered := fun symbolId =>
  (h.idToBook symbolId).map fun book => ⟨book, book.toString ++ "\n"⟩

section Orders
variable (fuel : Nat) (h : OrderBookHandler) (symbolId : UInt32)
  (orderId newOrderId newPrice quantity price : UInt64)

def addOrder (order : Order) : Option OrderBookHandler :=
  h.withBook order.symbolId true (·.addOrder fuel order)

def deleteOrder : Option OrderBookHandler := h.withBook symbolId true (·.deleteOrder fuel orderId)

def cancelOrder : Option OrderBookHandler :=
  h.withBook symbolId (0 < quantity) (·.cancelOrder fuel orderId quantity)

def replaceOrder : Option OrderBookHandler :=
  h.withBook symbolId (0 < newOrderId ∧ 0 < newPrice)
    (·.replaceOrder fuel orderId newOrderId newPrice)

/-- The overload `executeOrder(symbol_id, order_id, quantity, price)`. -/
def executeOrderAt : Option OrderBookHandler :=
  h.withBook symbolId (0 < quantity ∧ 0 < price) (·.executeOrderAt fuel orderId quantity price)

/-- The overload `executeOrder(symbol_id, order_id, quantity)`. -/
def executeOrder : Option OrderBookHandler :=
  h.withBook symbolId (0 < orderId ∧ 0 < quantity) (·.executeOrder fuel orderId quantity)

end Orders

end OrderBookHandler

/-- A call of one of the order operations that the handler and the two markets share. -/
inductive OrderCall where
  | addOrder (order : Order)
  | deleteOrder (symbolId : UInt32) (orderId : UInt64)
  | cancelOrder (symbolId : UInt32) (orderId cancelledQuantity : UInt64)
  | replaceOrder (symbolId : UInt32) (orderId newOrderId newPrice : UInt64)
  | executeOrderAt (symbolId : UInt32) (orderId quantity price : UInt64)
  | executeOrder (symbolId : UInt32) (orderId quantity : UInt64)
  deriving DecidableEq

namespace OrderCall

def symbolId : OrderCall → UInt32
  | addOrder order => order.symbolId
  | deleteOrder symbolId _ | cancelOrder symbolId _ _ | replaceOrder symbolId _ _ _
  | executeOrderAt symbolId _ _ _ | executeOrder symbolId _ _ => symbolId

def op : OrderCall → Op
  | addOrder order => .addOrder order
  | deleteOrder _ orderId => .deleteOrder orderId
  | cancelOrder _ orderId cancelledQuantity => .cancelOrder orderId cancelledQuantity
  | replaceOrder _ orderId newOrderId newPrice => .replaceOrder orderId newOrderId newPrice
  | executeOrderAt _ orderId quantity price => .executeOrderAt orderId quantity price
  | executeOrder _ orderId quantity => .executeOrder orderId quantity

end OrderCall

/-- A call of a function of the handler. -/
inductive HandlerCall where
  | addOrderBook (symbolId : UInt32) (symbolName : String)
  | deleteOrderBook (symbolId : UInt32) (symbolName : String)
  | order (c : OrderCall)
  deriving DecidableEq

def HandlerCall.symbolId : HandlerCall → UInt32
  | addOrderBook symbolId _ | deleteOrderBook symbolId _ => symbolId
  | order c => c.symbolId

namespace OrderBookHandler

def handleOrder (fuel : Nat) (h : OrderBookHandler) : OrderCall → Option OrderBookHandler
  | .addOrder order => h.addOrder fuel order
  | .deleteOrder symbolId orderId => h.deleteOrder fuel symbolId orderId
  | .cancelOrder symbolId orderId cancelledQuantity =>
    h.cancelOrder fuel symbolId orderId cancelledQuantity
  | .replaceOrder symbolId orderId newOrderId newPrice =>
    h.replaceOrder fuel symbolId orderId newOrderId newPrice
  | .executeOrderAt symbolId orderId quantity price =>
    h.executeOrderAt fuel symbolId orderId quantity price
  | .executeOrder symbolId orderId quantity => h.executeOrder fuel symbolId orderId quantity

def handle (fuel : Nat) (c : HandlerCall) (h : OrderBookHandler) : Option OrderBookHandler :=
  match c with
  | .addOrderBook symbolId symbolName => h.addOrderBook symbolId symbolName
  | .deleteOrderBook symbolId symbolName => h.deleteOrderBook symbolId symbolName
  | .order c => h.handleOrder fuel c

end OrderBookHandler

/-- A call of a function of a market. -/
inductive Call where
  | addSymbol (symbolId : UInt32) (symbolName : String)
  | deleteSymbol (symbolId : UInt32)
  | order (c : OrderCall)
  | toString
  deriving DecidableEq

/-- The symbols are kept with their names. -/
structure Market where
  orderbookHandler : OrderBookHandler
  idToSymbol : UInt32 → Option String

namespace Market

def new : Market := ⟨.new, fun _ => none⟩

/-- `insert` leaves a symbol alone that is already there. -/
def addSymbol (m : Market) (symbolId : UInt32) (symbolName : String) : Option Market :=
  (m.orderbookHandler.addOrderBook symbolId symbolName).map fun h => {
    orderbookHandler := h
    idToSymbol := update m.idToSymbol symbolId
      (some ((m.idToSymbol symbolId).getD symbolName)) }

def deleteSymbol (m : Market) (symbolId : UInt32) : Option Market :=
  (m.idToSymbol symbolId).bind fun name =>
    (m.orderbookHandler.deleteOrderBook symbolId name).map fun h => {
      orderbookHandler := h
      idToSymbol := update m.idToSymbol symbolId none }

/-- Pass a call on to the handler. -/
def delegate (m : Market) (f : OrderBookHandler → Option OrderBookHandler) : Option Market :=
  (f m.orderbookHandler).map fun h => { m with orderbookHandler := h }

section Orders
variable (fuel : Nat) (m : Market) (symbolId : UInt32)
  (orderId newOrderId newPrice quantity price : UInt64)

def addOrder (order : Order) : Option Market := m.delegate (·.addOrder fuel order)

def deleteOrder : Option Market := m.delegate (·.deleteOrder fuel symbolId orderId)

def cancelOrder : Option Market := m.delegate (·.cancelOrder fuel symbolId orderId quantity)

def replaceOrder : Option Market :=
  m.delegate (·.replaceOrder fuel symbolId orderId newOrderId newPrice)

def executeOrderAt : Option Market :=
  m.delegate (·.executeOrderAt fuel symbolId orderId quantity price)

def executeOrder : Option Market := m.delegate (·.executeOrder fuel symbolId orderId quantity)

end Orders

def order (fuel : Nat) (m : Market) : OrderCall → Option Market
  | .addOrder order => m.addOrder fuel order
  | .deleteOrder symbolId orderId => m.deleteOrder fuel symbolId orderId
  | .cancelOrder symbolId orderId cancelledQuantity =>
    m.cancelOrder fuel symbolId orderId cancelledQuantity
  | .replaceOrder symbolId orderId newOrderId newPrice =>
    m.replaceOrder fuel symbolId orderId newOrderId newPrice
  | .executeOrderAt symbolId orderId quantity price =>
    m.executeOrderAt fuel symbolId orderId quantity price
  | .executeOrder symbolId orderId quantity => m.executeOrder fuel symbolId orderId quantity

def call (fuel : Nat) (c : Call) (m : Market) : Option Market :=
  match c with
  | .addSymbol symbolId symbolName => m.addSymbol symbolId symbolName
  | .deleteSymbol symbolId => m.deleteSymbol symbolId
  | .order c => m.order fuel c
  | .toString => some m

/-- Take calls one after the other. -/
def run (fuel : Nat) (calls : List Call) : Option Market := runAll (call fuel) new calls

end Market

/-- The call of the handler that a call of the market makes, if it is none of `deleteSymbol`. -/
def Call.handlerCall? : Call → Option HandlerCall
  | .addSymbol symbolId symbolName => some (.addOrderBook symbolId symbolName)
  | .order c => some (.order c)
  | .deleteSymbol _ | .toString => none

def Call.IsDeletion : Call → Prop
  | .deleteSymbol _ => True
  | .addSymbol _ _ | .order _ | .toString => False

theorem Market.order_eq (fuel : Nat) (m : Market) (c : OrderCall) :
    m.order fuel c = m.delegate (OrderBookHandler.handle fuel (.order c)) := by
  cases c <;> rfl

/-- Without deletions a market does what its handler does. -/
theorem Market.exists_run_of_handler {m : Market} (hd : ∀ c ∈ calls, ¬ Call.IsDeletion c)
    (h : runAll (OrderBookHandler.handle fuel) m.orderbookHandler
      (calls.filterMap Call.handlerCall?) = some h') :
    ∃ m', runAll (Market.call fuel) m calls = some m' ∧ m'.orderbookHandler = h' := by
  induction calls generalizing m with
  | nil =>
    cases h
    exact ⟨m, rfl, rfl⟩
  | cons c calls ih =>
    have hd' := fun c hc => hd c (List.mem_cons_of_mem _ hc)
    cases c with
    | addSymbol symbolId symbolName =>
      obtain ⟨h₁, hh, h⟩ := Option.bind_eq_some_iff.1 h
      obtain ⟨m', hm, he⟩ := ih (m := ⟨h₁, _⟩) hd' h
      refine ⟨m', ?_, he⟩
      rw [runAll_cons]
      change ((OrderBookHandler.handle fuel (.addOrderBook symbolId symbolName)
        m.orderbookHandler).map _).bind _ = _
      rw [hh]
      exact hm
    | deleteSymbol symbolId => exact absurd trivial (hd _ List.mem_cons_self)
    | order c =>
      obtain ⟨h₁, hh, h⟩ := Option.bind_eq_some_iff.1 h
      obtain ⟨m', hm, he⟩ := ih (m := { m with orderbookHandler := h₁ }) hd' h
      refine ⟨m', ?_, he⟩
      rw [runAll_cons]
      change (m.order fuel c).bind _ = _
      rw [Market.order_eq, Market.delegate, hh]
      exact hm
    | toString => exact ih hd' h

/-! ### What a handler does, symbol by symbol -/

def Event.symbolId : Event → UInt32
  | .orderAdded o | .orderDeleted o | .orderUpdated o | .executedOrder o => o.symbolId
  | .symbolAdded symbolId _ | .symbolDeleted symbolId _ => symbolId

theorem kept_symbolId (symbolId : UInt32) : Kept (fun o => o.symbolId = symbolId) :=
  ⟨fun h _ => h, fun h => h, fun h => h, fun h => h, fun h => h⟩

theorem OrderCall.admits (c : OrderCall)
    (hb : Throughout (fun o => o.symbolId = c.symbolId) b) :
    c.op.Admits (Brings fun o => o.symbolId = c.symbolId) b := by
  cases c with
  | addOrder order => exact rfl
  | deleteOrder _ _ => trivial
  | cancelOrder _ _ _ => exact fun w hw => hb.resting hw
  | replaceOrder _ _ _ _ => exact ⟨trivial, fun w _ hw _ => hb.resting hw⟩
  | executeOrderAt _ _ _ _ => trivial
  | executeOrder _ _ _ => trivial

/-- A book keeps to the orders of its symbol, and tells of nothing else. -/
theorem OrderCall.keeps_symbolId {c : OrderCall} {book : Book}
    (hb : ∀ i w, book.orders.find? i = some w → w.order.symbolId = c.symbolId)
    (h : MapOrderBook.apply fuel ⟨book, []⟩ c.op = .ok b) :
    (∀ i w, b.orders.find? i = some w → w.order.symbolId = c.symbolId) ∧
      ∀ e ∈ events b.trace, e.symbolId = c.symbolId := by
  have h₀ : Throughout (fun o => o.symbolId = c.symbolId) (⟨book, []⟩ : MapOrderBook) :=
    ⟨fun hw => hb _ _ hw, fun he => (nomatch he)⟩
  have hs := apply_steps h (c.admits h₀)
  have he : Everywhere (fun o => o.symbolId = c.symbolId) ⟨b, none⟩ := by
    refine ReflTransGen.head_induction_on
      (motive := fun d _ => Everywhere _ d → Everywhere _ (⟨b, none⟩ : Config)) hs
      (fun h => h) ?_ (.of_none h₀)
    intro d d' hd _ ih hd'
    exact ih (hd'.step (kept_symbolId _) (fun _ _ h => h) hd)
  have hord := hs.mutations.order?_ne_none fun e he => (nomatch he)
  refine ⟨fun i w hw => he.book.resting hw, fun e hm => ?_⟩
  obtain ⟨n, hn, hne⟩ := List.mem_filterMap.1 hm
  have hev : n = .event e := by
    cases n <;> cases hne
    rfl
  rw [hev] at hn
  cases e with
  | symbolAdded _ _ => exact absurd rfl (hord _ hn)
  | symbolDeleted _ _ => exact absurd rfl (hord _ hn)
  | _ => exact he.book.told hn rfl

namespace OrderBookHandler

/-- What a handler holds of a symbol and has told of it. -/
def view (symbolId : UInt32) (h : OrderBookHandler) : Option Book × List Event :=
  (h.idToBook symbolId, h.events.filter (·.symbolId = symbolId))

/-- The orders of each book are of its symbol. -/
def OwnSymbols (h : OrderBookHandler) : Prop :=
  ∀ symbolId book i w, h.idToBook symbolId = some book → book.orders.find? i = some w →
    w.order.symbolId = symbolId

end OrderBookHandler

/-- The assertions of the handler about the arguments of a call. -/
def OrderCall.asserted : OrderCall → Bool
  | addOrder _ | deleteOrder _ _ => true
  | cancelOrder _ _ cancelledQuantity => 0 < cancelledQuantity
  | replaceOrder _ _ newOrderId newPrice => 0 < newOrderId ∧ 0 < newPrice
  | executeOrderAt _ _ quantity price => 0 < quantity ∧ 0 < price
  | executeOrder _ orderId quantity => 0 < orderId ∧ 0 < quantity

/-- What a call makes of the book of its symbol, and the events it tells. -/
def HandlerCall.answer (fuel : Nat) : HandlerCall → Option Book → Option (Option Book × List Event)
  | addOrderBook symbolId symbolName, none =>
    some (some (MapOrderBook.new symbolId).toBook, [.symbolAdded symbolId symbolName])
  | addOrderBook _ _, some _ => none
  | deleteOrderBook symbolId symbolName, some _ =>
    some (none, [.symbolDeleted symbolId symbolName])
  | order c, some book =>
    match c.asserted, MapOrderBook.apply fuel ⟨book, []⟩ c.op with
    | true, .ok b => some (some b.toBook, events b.trace)
    | _, _ => none
  | deleteOrderBook _ _, none | order _, none => none

namespace OrderBookHandler

/-- Put the answer to a call into the handler. -/
def put (h : OrderBookHandler) (symbolId : UInt32) (r : Option Book × List Event) :
    OrderBookHandler := ⟨update h.idToBook symbolId r.1, h.events ++ r.2⟩

theorem handle_eq (fuel : Nat) (c : HandlerCall) (h : OrderBookHandler) :
    handle fuel c h = (c.answer fuel (h.idToBook c.symbolId)).map (h.put c.symbolId) := by
  cases c with
  | addOrderBook symbolId symbolName =>
    change h.addOrderBook symbolId symbolName = _
    unfold addOrderBook HandlerCall.symbolId
    cases h.idToBook symbolId <;> rfl
  | deleteOrderBook symbolId symbolName =>
    change h.deleteOrderBook symbolId symbolName = _
    unfold deleteOrderBook HandlerCall.symbolId
    cases h.idToBook symbolId <;> rfl
  | order c =>
    have he : h.handleOrder fuel c = h.withBook c.symbolId c.asserted (·.apply fuel c.op) := by
      cases c <;> rfl
    change h.handleOrder fuel c = (HandlerCall.answer fuel _ (h.idToBook c.symbolId)).map _
    rw [he]
    unfold withBook
    cases h.idToBook c.symbolId with
    | none => rfl
    | some book =>
      change (match c.asserted, MapOrderBook.apply fuel ⟨book, []⟩ c.op with
        | true, .ok b => _
        | _, _ => _) = Option.map _ (match c.asserted, MapOrderBook.apply fuel ⟨book, []⟩ c.op with
        | true, .ok b => some (some b.toBook, RapidTrader.events b.trace)
        | _, _ => none)
      cases c.asserted <;> cases MapOrderBook.apply fuel ⟨book, []⟩ c.op <;> rfl

end OrderBookHandler

/-- The answer to a call keeps to its symbol. -/
theorem HandlerCall.answer_own {c : HandlerCall}
    (ho : ∀ book i w, book? = some book → book.orders.find? i = some w →
      w.order.symbolId = c.symbolId)
    (h : c.answer fuel book? = some (book', es)) :
    (∀ book i w, book' = some book → book.orders.find? i = some w →
      w.order.symbolId = c.symbolId) ∧ ∀ e ∈ es, e.symbolId = c.symbolId := by
  cases c with
  | addOrderBook symbolId symbolName =>
    cases book? with
    | some _ => cases h
    | none =>
      cases h
      refine ⟨fun book i w hb hw => ?_, fun e he => ?_⟩
      · cases hb
        cases hw
      · rw [List.mem_singleton.1 he]
        rfl
  | deleteOrderBook symbolId symbolName =>
    cases book? with
    | none => cases h
    | some _ =>
      cases h
      refine ⟨fun book i w hb => ?_, fun e he => ?_⟩
      · cases hb
      · rw [List.mem_singleton.1 he]
        rfl
  | order c =>
    cases book? with
    | none => cases h
    | some book =>
      unfold answer at h
      dsimp only at h
      split at h
      · rename_i b _ hb
        cases h
        obtain ⟨hown, htold⟩ := OrderCall.keeps_symbolId (fun i w hw => ho _ i w rfl hw) hb
        refine ⟨fun book i w hb' hw => ?_, htold⟩
        cases hb'
        exact hown i w hw
      · cases h

theorem OrderBookHandler.view_put (h : OrderBookHandler) (symbolId symbolId' : UInt32)
    (r : Option Book × List Event) (hr : ∀ e ∈ r.2, e.symbolId = symbolId) :
    (h.put symbolId r).view symbolId' =
      if symbolId' = symbolId then (r.1, (h.view symbolId').2 ++ r.2) else h.view symbolId' := by
  unfold view put
  by_cases hs : symbolId' = symbolId
  · subst hs
    dsimp only
    rw [if_pos rfl, update_self, List.filter_append,
      List.filter_eq_self.2 fun e he => decide_eq_true (hr e he)]
  · have hn : r.2.filter (·.symbolId = symbolId') = [] := by
      rw [List.filter_eq_nil_iff]
      intro e he
      rw [hr e he]
      simpa using fun he => hs he.symm
    dsimp only
    rw [if_neg hs, update_of_ne hs, List.filter_append, hn, List.append_nil]

/-- The symbols of a handler do not interfere. -/
theorem handle_keyed (fuel : Nat) : Keyed (OrderBookHandler.handle fuel)
    (fun c => some c.symbolId) OrderBookHandler.view OrderBookHandler.OwnSymbols := by
  have hput {c : HandlerCall} {h h' : OrderBookHandler} (ho : h.OwnSymbols)
      (hh : OrderBookHandler.handle fuel c h = some h') :
      ∃ r, c.answer fuel (h.idToBook c.symbolId) = some r ∧ h' = h.put c.symbolId r ∧
        (∀ book i w, r.1 = some book → book.orders.find? i = some w →
          w.order.symbolId = c.symbolId) ∧ ∀ e ∈ r.2, e.symbolId = c.symbolId := by
    rw [OrderBookHandler.handle_eq] at hh
    obtain ⟨r, hr, rfl⟩ := Option.map_eq_some_iff.1 hh
    obtain ⟨hown, htold⟩ := HandlerCall.answer_own (fun book i w hb => ho _ book i w hb) hr
    exact ⟨r, hr, rfl, hown, htold⟩
  constructor
  · intro h g c symbolId h' ho hg hk hv hh
    cases hk
    obtain ⟨r, hr, rfl, hown, htold⟩ := hput ho hh
    have hbook : h.idToBook c.symbolId = g.idToBook c.symbolId := congrArg Prod.fst hv
    refine ⟨g.put c.symbolId r, ?_, ?_⟩
    · rw [OrderBookHandler.handle_eq, ← hbook, hr]
      rfl
    · rw [h.view_put _ _ _ htold, g.view_put _ _ _ htold, hv]
  · intro h c h' symbolId ho hh hk
    obtain ⟨r, hr, rfl, hown, htold⟩ := hput ho hh
    rw [h.view_put _ _ _ htold, if_neg]
    exact fun he => hk (congrArg some he.symm)
  · intro c h hk
    cases hk
  · intro h c h' ho hh symbolId book i w hb hw
    obtain ⟨r, hr, rfl, hown, htold⟩ := hput ho hh
    change update h.idToBook c.symbolId r.1 symbolId = some book at hb
    by_cases hs : symbolId = c.symbolId
    · subst hs
      rw [update_self] at hb
      exact hown book i w hb hw
    · rw [update_of_ne hs] at hb
      exact ho symbolId book i w hb hw

end RapidTrader
