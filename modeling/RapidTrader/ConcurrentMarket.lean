import RapidTrader.Market
import RapidTrader.ThreadPool

namespace RapidTrader
open Lib Relation Function
set_option autoImplicit true

/-- The closures that are given to the thread pool. The one of `deleteSymbol` holds an iterator to
the symbol, and those of `toString` hold the promises of its futures. -/
inductive Job where
  | handle (c : HandlerCall)
  | deleteOrderBook (symbolId : UInt32) (symbol : Nat)
  | toString (futures : Nat)
  deriving DecidableEq

/-- A closure with the index of the handler it has captured. -/
structure Task (n : Nat) where
  handler : Fin n
  job : Job
  deriving DecidableEq

/-- What the client does besides submitting tasks. A failed assertion stops it. -/
inductive ClientStep (n : Nat) where
  | insertSymbol (symbol : Nat) (symbolName : String)
  | eraseSymbol (symbol : Nat)
  | get (futures : Nat) (i : Fin n)
  | abort

/-- The memory of the client and the workers: the handlers, the symbols by number, as long as they
live, and the values of the futures of each call of `toString`. -/
structure Memory (n : Nat) where
  orderbookHandlers : Fin n → OrderBookHandler
  symbols : Nat → Option String
  futures : Nat → Fin n → Option (UInt32 → Option Rendered)

namespace Memory

def new (n : Nat) : Memory n := ⟨fun _ => .new, fun _ => none, fun _ _ => none⟩

def setHandler (m : Memory n) (i : Fin n) (h : OrderBookHandler) : Memory n :=
  { m with orderbookHandlers := update m.orderbookHandlers i h }

end Memory

def Task.run (fuel : Nat) (t : Task n) (m : Memory n) : Option (Memory n) :=
  match t.job with
  | .handle c => ((m.orderbookHandlers t.handler).handle fuel c).map (m.setHandler t.handler)
  | .deleteOrderBook symbolId symbol => (m.symbols symbol).bind fun name =>
    ((m.orderbookHandlers t.handler).deleteOrderBook symbolId name).map (m.setHandler t.handler)
  | .toString futures => some { m with
      futures := update m.futures futures (update (m.futures futures) t.handler
        (some (m.orderbookHandlers t.handler).toString)) }

/-- `future.get()` waits for its value. -/
def ClientStep.run (k : ClientStep n) (m : Memory n) : Option (Memory n) :=
  match k with
  | .insertSymbol symbol symbolName =>
    some { m with symbols := update m.symbols symbol (some symbolName) }
  | .eraseSymbol symbol => some { m with symbols := update m.symbols symbol none }
  | .get futures i => if (m.futures futures i).isSome then some m else none
  | .abort => none

def marketEffects (n fuel : Nat) : Effects (Task n) (ClientStep n) (Memory n) :=
  ⟨Task.run fuel, ClientStep.run⟩

/-- The data members of `ConcurrentMarket` that only the client uses, with the numbers of symbols
and of futures it has made. -/
structure ConcurrentMarket (n : Nat) where
  idToSymbol : UInt32 → Option Nat
  idToSubmissionIndex : UInt32 → Option (Fin n)
  symbolSubmissionIndex : Fin n
  symbolsMade : Nat
  futuresMade : Nat

namespace ConcurrentMarket
variable {n : Nat} [NeZero n]

def new (n : Nat) [NeZero n] : ConcurrentMarket n := ⟨fun _ => none, fun _ => none, 0, 0, 0⟩

abbrev Actions (n : Nat) := List (ClientAction n (Task n) (ClientStep n))

def getSubmissionIndex (c : ConcurrentMarket n) (symbolId : UInt32) : Fin n :=
  (c.idToSubmissionIndex symbolId).getD 0

/-- Addition on `Fin n` is modulo the number of handlers. -/
def updateSymbolSubmissionIndex (c : ConcurrentMarket n) : ConcurrentMarket n :=
  { c with symbolSubmissionIndex := c.symbolSubmissionIndex + 1 }

def addSymbol (c : ConcurrentMarket n) (symbolId : UInt32) (symbolName : String) :
    Actions n × ConcurrentMarket n :=
  match c.idToSymbol symbolId with
  | some _ => ([.other .abort], c)
  | none => (
      [.other (.insertSymbol c.symbolsMade symbolName),
        .submitTask c.symbolSubmissionIndex
          ⟨c.symbolSubmissionIndex, .handle (.addOrderBook symbolId symbolName)⟩],
      updateSymbolSubmissionIndex { c with
        idToSymbol := update c.idToSymbol symbolId (some c.symbolsMade)
        idToSubmissionIndex := update c.idToSubmissionIndex symbolId
          (some ((c.idToSubmissionIndex symbolId).getD c.symbolSubmissionIndex))
        symbolsMade := c.symbolsMade + 1 })

/-- The handler is taken at `symbol_submission_index`, not at the index of the symbol. -/
def deleteSymbol (c : ConcurrentMarket n) (symbolId : UInt32) : Actions n × ConcurrentMarket n :=
  match c.idToSymbol symbolId with
  | none => ([.other .abort], c)
  | some symbol => (
      [.submitTask (c.getSubmissionIndex symbolId)
          ⟨c.symbolSubmissionIndex, .deleteOrderBook symbolId symbol⟩,
        .other (.eraseSymbol symbol)],
      { c with
        idToSymbol := update c.idToSymbol symbolId none
        idToSubmissionIndex := update c.idToSubmissionIndex symbolId none })

/-- Submit a call of the handler to the queue of a symbol. -/
def submit (c : ConcurrentMarket n) (symbolId : UInt32) (call : OrderCall) : Actions n :=
  let submissionIndex := c.getSubmissionIndex symbolId
  [.submitTask submissionIndex ⟨submissionIndex, .handle (.order call)⟩]

section Orders
variable (c : ConcurrentMarket n) (symbolId : UInt32)
  (orderId newOrderId newPrice quantity price : UInt64)

def addOrder (order : Order) : Actions n := c.submit order.symbolId (.addOrder order)

def deleteOrder : Actions n := c.submit symbolId (.deleteOrder symbolId orderId)

def cancelOrder : Actions n := c.submit symbolId (.cancelOrder symbolId orderId quantity)

def replaceOrder : Actions n :=
  c.submit symbolId (.replaceOrder symbolId orderId newOrderId newPrice)

def executeOrderAt : Actions n :=
  c.submit symbolId (.executeOrderAt symbolId orderId quantity price)

def executeOrder : Actions n := c.submit symbolId (.executeOrder symbolId orderId quantity)

end Orders

def order (c : ConcurrentMarket n) : OrderCall → Actions n
  | .addOrder order => c.addOrder order
  | .deleteOrder symbolId orderId => c.deleteOrder symbolId orderId
  | .cancelOrder symbolId orderId cancelledQuantity =>
    c.cancelOrder symbolId orderId cancelledQuantity
  | .replaceOrder symbolId orderId newOrderId newPrice =>
    c.replaceOrder symbolId orderId newOrderId newPrice
  | .executeOrderAt symbolId orderId quantity price =>
    c.executeOrderAt symbolId orderId quantity price
  | .executeOrder symbolId orderId quantity => c.executeOrder symbolId orderId quantity

def toString (c : ConcurrentMarket n) : Actions n × ConcurrentMarket n :=
  ((List.finRange n).map (fun i => .submitTask i ⟨i, .toString c.futuresMade⟩) ++
      (List.finRange n).map (fun i => .other (.get c.futuresMade i)),
    { c with futuresMade := c.futuresMade + 1 })

def call (c : ConcurrentMarket n) : Call → Actions n × ConcurrentMarket n
  | .addSymbol symbolId symbolName => c.addSymbol symbolId symbolName
  | .deleteSymbol symbolId => c.deleteSymbol symbolId
  | .order call => (c.order call, c)
  | .toString => c.toString

/-- What the client does in a sequence of calls. -/
def script (c : ConcurrentMarket n) : List Call → Actions n
  | [] => []
  | call :: calls => (c.call call).1 ++ (c.call call).2.script calls

/-- The market after a sequence of calls, as the client sees it. -/
def after (c : ConcurrentMarket n) : List Call → ConcurrentMarket n
  | [] => c
  | call :: calls => (c.call call).2.after calls

/-- A concurrent market whose client is about to make some calls. -/
def start (n : Nat) [NeZero n] (calls : List Call) :
    ThreadPool n (Task n) (ClientStep n) (Memory n) :=
  .start ((new n).script calls) (.new n)

section Script
variable (c : ConcurrentMarket n) (calls calls' : List Call)

theorem script_append :
    c.script (calls ++ calls') = c.script calls ++ (c.after calls).script calls' := by
  induction calls generalizing c with
  | nil => rfl
  | cons call calls ih =>
    rw [List.cons_append, script, ih, script, after, List.append_assoc]

theorem order_eq (call : OrderCall) : c.order call = c.submit call.symbolId call := by
  cases call <;> rfl

omit [NeZero n] in
/-- The actions of `toString` submit one task to each queue. -/
theorem tasksOf_toString (i : Fin n) :
    tasksOf i c.toString.1 = [⟨i, .toString c.futuresMade⟩] := by
  have hf (l : List (Fin n)) : tasksOf i (l.map fun j => (.submitTask j
      ⟨j, .toString c.futuresMade⟩ : ClientAction n (Task n) (ClientStep n))) =
      List.replicate (l.count i) ⟨i, .toString c.futuresMade⟩ := by
    induction l with
    | nil => rfl
    | cons j l ih =>
      rw [List.map_cons, tasksOf_submitTask, ih]
      by_cases hj : j = i
      · subst hj
        rw [if_pos rfl, List.count_cons_self, List.replicate_succ]
        rfl
      · rw [if_neg hj, List.count_cons_of_ne hj, List.nil_append]
  have hg (l : List (Fin n)) : tasksOf i (l.map fun j => (.other (.get c.futuresMade j) :
      ClientAction n (Task n) (ClientStep n))) = [] := by
    induction l with
    | nil => rfl
    | cons j l ih => exact ih
  unfold toString
  rw [tasksOf_append, hf, hg, List.count_eq_one_of_mem (List.nodup_finRange n)
    (List.mem_finRange i)]
  rfl

end Script

end ConcurrentMarket

/-- The calls a client may make when some symbols exist: it adds new symbols, and otherwise names
existing ones. -/
def ValidCalls (present : Finset UInt32) : List Call → Prop
  | [] => True
  | .addSymbol symbolId _ :: calls =>
    symbolId ∉ present ∧ ValidCalls (insert symbolId present) calls
  | .deleteSymbol symbolId :: calls =>
    symbolId ∈ present ∧ ValidCalls (present.erase symbolId) calls
  | .order c :: calls => c.symbolId ∈ present ∧ ValidCalls present calls
  | .toString :: calls => ValidCalls present calls

theorem ValidCalls.of_append (h : ValidCalls present (calls ++ calls')) :
    ValidCalls present calls := by
  induction calls generalizing present with
  | nil => trivial
  | cons a calls ih =>
    cases a with
    | addSymbol _ _ => exact ⟨h.1, ih h.2⟩
    | deleteSymbol _ => exact ⟨h.1, ih h.2⟩
    | order _ => exact ⟨h.1, ih h.2⟩
    | toString =>
      have h' : ValidCalls present (calls ++ calls') := h
      exact ih h'

/-- The symbols after a call. -/
def Call.present (present : Finset UInt32) : Call → Finset UInt32
  | .addSymbol symbolId _ => insert symbolId present
  | .deleteSymbol symbolId => present.erase symbolId
  | .order _ | .toString => present

/-- What the client holds of the symbols that exist. -/
structure Holds (present : Finset UInt32) (c : ConcurrentMarket n) : Prop where
  symbol : c.idToSymbol symbolId = none ↔ symbolId ∉ present
  index : c.idToSubmissionIndex symbolId = none ↔ symbolId ∉ present

namespace Holds
variable {n : Nat} [NeZero n] {c : ConcurrentMarket n} {present : Finset UInt32}

theorem new : Holds ∅ (ConcurrentMarket.new n) := by
  constructor <;> intro symbolId <;> simp [ConcurrentMarket.new]

theorem addSymbol (h : Holds present c) (hs : symbolId ∉ present) (symbolName : String) :
    Holds (insert symbolId present) (c.addSymbol symbolId symbolName).2 := by
  unfold ConcurrentMarket.addSymbol
  rw [h.symbol.2 hs]
  constructor <;> intro symbolId'
  · change update c.idToSymbol symbolId _ symbolId' = none ↔ _
    by_cases he : symbolId' = symbolId
    · subst he
      simp
    · rw [update_of_ne he, h.symbol, Finset.mem_insert, or_iff_right he]
  · change update c.idToSubmissionIndex symbolId _ symbolId' = none ↔ _
    by_cases he : symbolId' = symbolId
    · subst he
      simp
    · rw [update_of_ne he, h.index, Finset.mem_insert, or_iff_right he]

theorem deleteSymbol (h : Holds present c) (hs : symbolId ∈ present) :
    Holds (present.erase symbolId) (c.deleteSymbol symbolId).2 := by
  unfold ConcurrentMarket.deleteSymbol
  cases hc : c.idToSymbol symbolId with
  | none => exact absurd hs (h.symbol.1 hc)
  | some symbol =>
    constructor <;> intro symbolId'
    · change update c.idToSymbol symbolId _ symbolId' = none ↔ _
      by_cases he : symbolId' = symbolId
      · subst he
        simp
      · rw [update_of_ne he, h.symbol, Finset.mem_erase, and_iff_right he]
    · change update c.idToSubmissionIndex symbolId _ symbolId' = none ↔ _
      by_cases he : symbolId' = symbolId
      · subst he
        simp
      · rw [update_of_ne he, h.index, Finset.mem_erase, and_iff_right he]

/-- A valid call keeps the client's maps true. -/
theorem call {a : Call} (h : Holds present c) (hv : ValidCalls present (a :: calls)) :
    Holds (a.present present) (c.call a).2 ∧ ValidCalls (a.present present) calls := by
  cases a with
  | addSymbol symbolId symbolName => exact ⟨h.addSymbol hv.1 symbolName, hv.2⟩
  | deleteSymbol symbolId => exact ⟨h.deleteSymbol hv.1, hv.2⟩
  | order _ => exact ⟨h, hv.2⟩
  | toString => exact ⟨⟨h.symbol, h.index⟩, hv⟩

end Holds

/-! ### Where the calls go -/

def Job.handlerCall? : Job → Option HandlerCall
  | handle c => some c
  | deleteOrderBook _ _ | toString _ => none

/-- The calls of handlers that are submitted to the queue `i`. -/
def handledAt (i : Fin n) (script : ConcurrentMarket.Actions n) : List HandlerCall :=
  (tasksOf i script).filterMap fun t => t.job.handlerCall?

theorem handledAt_append (i : Fin n) (script script' : ConcurrentMarket.Actions n) :
    handledAt i (script ++ script') = handledAt i script ++ handledAt i script' := by
  rw [handledAt, tasksOf_append, List.filterMap_append]
  rfl

section Routing
variable {n : Nat} [NeZero n] {c : ConcurrentMarket n} {present : Finset UInt32}

/-- A call of a handler goes to the queue that the client's map names after it, and uses the
handler of that queue. -/
theorem Holds.routed {a : Call} (h : Holds present c) (hv : ValidCalls present (a :: calls))
    (ha : a.handlerCall? = some hc) :
    ∃ j, (c.call a).2.idToSubmissionIndex hc.symbolId = some j ∧
      ∀ i, tasksOf i (c.call a).1 = if j = i then [⟨j, .handle hc⟩] else [] := by
  cases a with
  | addSymbol symbolId symbolName =>
    cases ha
    refine ⟨c.symbolSubmissionIndex, ?_, fun i => ?_⟩
    · change (c.addSymbol symbolId symbolName).2.idToSubmissionIndex symbolId = _
      unfold ConcurrentMarket.addSymbol
      rw [h.symbol.2 hv.1]
      change update c.idToSubmissionIndex symbolId _ symbolId = _
      rw [update_self, h.index.2 hv.1]
      rfl
    · change tasksOf i (c.addSymbol symbolId symbolName).1 = _
      unfold ConcurrentMarket.addSymbol
      rw [h.symbol.2 hv.1]
      dsimp only
      rw [tasksOf_other, tasksOf_submitTask, tasksOf_nil, List.append_nil]
  | deleteSymbol symbolId => cases ha
  | order o =>
    cases ha
    obtain ⟨j, hj⟩ := Option.ne_none_iff_exists'.1 (fun hn => h.index.1 hn hv.1)
    refine ⟨j, hj, fun i => ?_⟩
    have hi : c.getSubmissionIndex o.symbolId = j := by
      rw [ConcurrentMarket.getSubmissionIndex, hj]
      rfl
    change tasksOf i (c.order o) = _
    rw [c.order_eq, ConcurrentMarket.submit, hi, tasksOf_submitTask, tasksOf_nil, List.append_nil]
  | toString => cases ha

/-- Without deletions the map of submission indices only grows. -/
theorem ConcurrentMarket.index_call {a : Call} (ha : ¬ a.IsDeletion)
    (hi : c.idToSubmissionIndex symbolId = some i) :
    (c.call a).2.idToSubmissionIndex symbolId = some i := by
  cases a with
  | addSymbol symbolId' symbolName =>
    change (c.addSymbol symbolId' symbolName).2.idToSubmissionIndex symbolId = _
    unfold ConcurrentMarket.addSymbol
    split
    · exact hi
    · change update c.idToSubmissionIndex symbolId' _ symbolId = _
      by_cases he : symbolId = symbolId'
      · subst he
        rw [update_self, hi]
        rfl
      · rw [update_of_ne he, hi]
  | deleteSymbol symbolId => exact absurd trivial ha
  | order _ => exact hi
  | toString => exact hi

theorem ConcurrentMarket.index_after (hd : ∀ a ∈ calls, ¬ Call.IsDeletion a)
    (hi : c.idToSubmissionIndex symbolId = some i) :
    (c.after calls).idToSubmissionIndex symbolId = some i := by
  induction calls generalizing c with
  | nil => exact hi
  | cons a calls ih =>
    exact ih (fun a ha => hd a (List.mem_cons_of_mem _ ha))
      (index_call (hd a List.mem_cons_self) hi)

/-- Without deletions every task uses the handler of its queue, and the calls that concern a symbol
go to one queue, in their order. -/
theorem Holds.script_routed (h : Holds present c) (hv : ValidCalls present calls)
    (hd : ∀ a ∈ calls, ¬ Call.IsDeletion a) (i : Fin n) :
    (∀ t ∈ tasksOf i (c.script calls), t.handler = i ∧
      ∀ symbolId symbol, t.job ≠ .deleteOrderBook symbolId symbol) ∧
    ∀ symbolId, (handledAt i (c.script calls)).filter (some ·.symbolId = some symbolId) =
      if (c.after calls).getSubmissionIndex symbolId = i then
        (calls.filterMap Call.handlerCall?).filter (some ·.symbolId = some symbolId)
      else [] := by
  induction calls generalizing c present with
  | nil =>
    refine ⟨fun t ht => (nomatch ht), fun symbolId => ?_⟩
    split <;> rfl
  | cons a calls ih =>
    obtain ⟨h', hv'⟩ := h.call hv
    have hd' := fun a ha => hd a (List.mem_cons_of_mem _ ha)
    obtain ⟨iht, ihs⟩ := ih h' hv' hd'
    rw [ConcurrentMarket.script, ConcurrentMarket.after, handledAt_append, tasksOf_append]
    cases ha : a.handlerCall? with
    | none =>
      cases a with
      | addSymbol _ _ => cases ha
      | order _ => cases ha
      | deleteSymbol _ => exact absurd trivial (hd _ List.mem_cons_self)
      | toString =>
        have ht : tasksOf i (c.call .toString).1 = [⟨i, .toString c.futuresMade⟩] :=
          c.tasksOf_toString i
        refine ⟨fun t hm => ?_, fun symbolId => ?_⟩
        · rw [ht, List.mem_append, List.mem_singleton] at hm
          rcases hm with rfl | hm
          · exact ⟨rfl, fun _ _ he => by cases he⟩
          · exact iht t hm
        · rw [handledAt, ht, List.filter_append, ihs]
          rfl
    | some hc =>
      obtain ⟨j, hj, ht⟩ := h.routed hv ha
      have hj' := ConcurrentMarket.index_after hd' hj
      refine ⟨fun t hm => ?_, fun symbolId => ?_⟩
      · rw [ht, List.mem_append] at hm
        refine hm.elim (fun hm => ?_) (iht t)
        split at hm
        · rename_i he
          rw [List.mem_singleton.1 hm]
          exact ⟨he, fun _ _ he => by cases he⟩
        · cases hm
      · rw [List.filter_append, ihs, handledAt, ht, List.filterMap_cons_some ha,
          List.filter_cons]
        by_cases hs : hc.symbolId = symbolId
        · subst hs
          have hr : ((c.call a).2.after calls).getSubmissionIndex hc.symbolId = j := by
            rw [ConcurrentMarket.getSubmissionIndex, hj']
            rfl
          rw [hr]
          by_cases hji : j = i
          · simp [hji, Job.handlerCall?]
          · simp [hji]
        · have hs' : ¬ (decide (some hc.symbolId = some symbolId)) = true := by simpa using hs
          rw [if_neg hs']
          by_cases hji : j = i
          · simp [hji, Job.handlerCall?, hs]
          · simp [hji]

end Routing

end RapidTrader
