import RapidTrader.MarketRuns
import RapidTrader.Rendering
import RapidTrader.Progress
import RapidTrader.Lib.Recency

namespace RapidTrader
open Lib Relation Function
set_option autoImplicit true

/-! ### What the workers hold before they are done -/

theorem Call.symbolId?_eq {a : Call} (hd : ¬ a.IsDeletion) :
    a.symbolId? = a.handlerCall?.map HandlerCall.symbolId := by
  cases a with
  | deleteSymbol _ => exact absurd trivial hd
  | _ => rfl

theorem handled_callsOf (hd : ∀ a ∈ calls, ¬ Call.IsDeletion a) (symbolId : UInt32) :
    (callsOf symbolId calls).filterMap Call.handlerCall? =
      (calls.filterMap Call.handlerCall?).filter (some ·.symbolId = some symbolId) := by
  induction calls with
  | nil => rfl
  | cons a calls ih =>
    have ih := ih fun a ha => hd a (List.mem_cons_of_mem _ ha)
    have hs := Call.symbolId?_eq (hd a List.mem_cons_self)
    unfold callsOf at ih ⊢
    rw [List.filter_cons, List.filterMap_cons, hs]
    cases ha : a.handlerCall? with
    | none => simpa using ih
    | some c =>
      rw [Option.map_some, List.filter_cons]
      split
      · rw [List.filterMap_cons_some ha, ih]
      · exact ih

section Workers
variable {n : Nat} [NeZero n] {calls : List Call}
  {s : ThreadPool n (Task n) (ClientStep n) (Memory n)}

/-- Each handler is what the tasks its worker has run have made of it. -/
theorem handler_ran (hv : ValidCalls ∅ calls) (hd : ∀ a ∈ calls, ¬ Call.IsDeletion a)
    (hs : ThreadPool.Steps (marketEffects n fuel) (ConcurrentMarket.start n calls) s) (i : Fin n) :
    runAll (OrderBookHandler.handle fuel) .new ((s.ran i).filterMap fun t => t.job.handlerCall?) =
      some (s.memory.orderbookHandlers i) :=
  runAll_handled ((sharded fun i => (Holds.new.script_routed hv hd i).1).ran hs i)

/-- The calls about a symbol that a worker has taken. -/
def handledOf (symbolId : UInt32) (i : Fin n)
    (s : ThreadPool n (Task n) (ClientStep n) (Memory n)) : List HandlerCall :=
  ((s.ran i).filterMap fun t => t.job.handlerCall?).filter (some ·.symbolId = some symbolId)

/-- One worker takes the calls about a symbol in their order, and the others take none of them. -/
theorem handledOf_prefix (hv : ValidCalls ∅ calls) (hd : ∀ a ∈ calls, ¬ Call.IsDeletion a)
    (hs : ThreadPool.Steps (marketEffects n fuel) (ConcurrentMarket.start n calls) s)
    (symbolId : UInt32) (i : Fin n) : handledOf symbolId i s <+:
      if ((ConcurrentMarket.new n).after calls).getSubmissionIndex symbolId = i then
        (calls.filterMap Call.handlerCall?).filter (some ·.symbolId = some symbolId)
      else [] := by
  rw [← (Holds.new.script_routed hv hd i).2 symbolId]
  exact (((List.prefix_append _ _).trans (ThreadPool.ran_prefix hs i)).filterMap _).filter _

theorem exists_first {handled : List HandlerCall} (h : handled <+:
      (calls.filterMap Call.handlerCall?).filter (some ·.symbolId = some symbolId)) :
    ∃ first, first <+: calls ∧
      handled = (first.filterMap Call.handlerCall?).filter (some ·.symbolId = some symbolId) := by
  obtain ⟨taken, htaken, hf⟩ := List.prefix_filter_iff.1 h
  obtain ⟨first, hfirst, rfl⟩ := List.prefix_filterMap_iff.1 htaken
  exact ⟨first, hfirst, hf⟩

/-- The worker that takes the calls about a symbol has taken those of the first calls. -/
theorem exists_handled (hv : ValidCalls ∅ calls) (hd : ∀ a ∈ calls, ¬ Call.IsDeletion a)
    (hs : ThreadPool.Steps (marketEffects n fuel) (ConcurrentMarket.start n calls) s)
    (symbolId : UInt32) : ∃ first, first <+: calls ∧
      handledOf symbolId (((ConcurrentMarket.new n).after calls).getSubmissionIndex symbolId) s =
        (first.filterMap Call.handlerCall?).filter (some ·.symbolId = some symbolId) := by
  have hran := handledOf_prefix hv hd hs symbolId
    (((ConcurrentMarket.new n).after calls).getSubmissionIndex symbolId)
  rw [if_pos rfl] at hran
  exact exists_first hran

/-- The worker that has taken the calls about a symbol from `first` holds what a market holds of it
after these calls. -/
theorem exists_shares (hv : ValidCalls ∅ calls) (hd : ∀ a ∈ calls, ¬ Call.IsDeletion a)
    (hs : ThreadPool.Steps (marketEffects n fuel) (ConcurrentMarket.start n calls) s)
    (hfirst : first <+: calls)
    (hf : handledOf symbolId
        (((ConcurrentMarket.new n).after calls).getSubmissionIndex symbolId) s =
      (first.filterMap Call.handlerCall?).filter (some ·.symbolId = some symbolId)) :
    ∃ m, Market.run fuel (callsOf symbolId first) = some m ∧
      SharesOf m s.memory.orderbookHandlers symbolId
        (((ConcurrentMarket.new n).after calls).getSubmissionIndex symbolId) := by
  have hk := handle_keyed fuel
  have hnew : OrderBookHandler.OwnSymbols .new := fun _ _ _ _ hb => by cases hb
  have hd' : ∀ a ∈ first, ¬ Call.IsDeletion a := fun a ha => hd a (hfirst.mem ha)
  obtain ⟨h, hh, hview⟩ :=
    hk.run_filter (k := symbolId) hnew hnew rfl (handler_ran hv hd hs _)
  rw [← handledOf, hf, ← handled_callsOf hd'] at hh
  obtain ⟨m, hm, rfl⟩ := Market.exists_run_of_handler (m := .new)
    (fun a ha => hd' a (List.mem_filter.1 ha).1) hh
  refine ⟨m, hm, hview, fun {j} hj => ?_⟩
  have hnil := handledOf_prefix hv hd hs symbolId j
  rw [if_neg (fun he => hj he.symm)] at hnil
  have hnone : runAll (OrderBookHandler.handle fuel) .new [] = some .new := rfl
  have hempty : ((s.ran j).filterMap fun t => t.job.handlerCall?).filter
      (some ·.symbolId = some symbolId) =
      ([] : List HandlerCall).filter (some ·.symbolId = some symbolId) := List.prefix_nil.1 hnil
  exact hk.view_eq hnew hnew rfl hempty (handler_ran hv hd hs j) hnone

/-- At any moment one worker holds of a symbol what a market holds of it after the first calls, and
the other workers hold nothing of it. At a later moment these are the first calls or more. -/
theorem concurrent_prefix {s' : ThreadPool n (Task n) (ClientStep n) (Memory n)}
    (hv : ValidCalls ∅ calls) (hd : ∀ a ∈ calls, ¬ Call.IsDeletion a)
    (hs : ThreadPool.Steps (marketEffects n fuel) (ConcurrentMarket.start n calls) s)
    (hs' : ThreadPool.Steps (marketEffects n fuel) s s') (symbolId : UInt32) :
    ∃ i first first', first <+: first' ∧ first' <+: calls ∧
      (∃ m, Market.run fuel (callsOf symbolId first) = some m ∧
        SharesOf m s.memory.orderbookHandlers symbolId i) ∧
      ∃ m, Market.run fuel (callsOf symbolId first') = some m ∧
        SharesOf m s'.memory.orderbookHandlers symbolId i := by
  obtain ⟨first', hfirst', hf'⟩ := exists_handled hv hd (hs.trans hs') symbolId
  have hran : handledOf symbolId (((ConcurrentMarket.new n).after calls).getSubmissionIndex
      symbolId) s <+: handledOf symbolId (((ConcurrentMarket.new n).after calls).getSubmissionIndex
      symbolId) s' := ((ThreadPool.ran_mono hs' _).filterMap _).filter _
  rw [hf'] at hran
  obtain ⟨first, hfirst, hf⟩ := exists_first hran
  exact ⟨_, first, first', hfirst, hfirst', exists_shares hv hd hs (hfirst.trans hfirst') hf,
    exists_shares hv hd (hs.trans hs') hfirst' hf'⟩

/-- At any moment every book of a worker is one that legal operations lead to, when the calls about
each symbol alone are legal. -/
theorem concurrent_books_reachable (hv : ValidCalls ∅ calls)
    (hd : ∀ a ∈ calls, ¬ Call.IsDeletion a)
    (hl : ∀ symbolId, LegalCalls fuel .new (callsOf symbolId calls))
    (hs : ThreadPool.Steps (marketEffects n fuel) (ConcurrentMarket.start n calls) s) (i : Fin n)
    (hb : (s.memory.orderbookHandlers i).idToBook symbolId = some book) :
    ∃ trace name earlier, Reachable Op.Legal symbolId ⟨book, trace⟩ ∧
      (s.memory.orderbookHandlers i).events.filter (·.symbolId = symbolId) =
        earlier ++ .symbolAdded symbolId name :: events trace := by
  obtain ⟨first, hfirst, hf⟩ := exists_handled hv hd hs symbolId
  obtain ⟨m, hm, hshare⟩ := exists_shares hv hd hs hfirst hf
  obtain ⟨later, rfl⟩ := hfirst
  have hlegal := hl symbolId
  rw [callsOf, List.filter_append] at hlegal
  by_cases hi : i = ((ConcurrentMarket.new n).after (first ++ later)).getSubmissionIndex symbolId
  · have hback := Backed.run ownSymbols_new .new hlegal.of_append hm symbolId
    have hheld := hshare.held
    rw [← hi] at hheld
    unfold Market.view at hback
    rw [← hheld] at hback
    obtain ⟨trace, name, earlier, hr, _, htold⟩ := hback.book book hb
    exact ⟨trace, name, earlier, hr, htold⟩
  · have hnone : (s.memory.orderbookHandlers i).idToBook symbolId = none :=
      congrArg Prod.fst (hshare.absent hi)
    rw [hnone] at hb
    cases hb

/-! ### The workers can always finish -/

/-- The handler of a market that takes calls takes the calls that are passed on to it. -/
theorem Market.handler_run {m m' : Market} (hd : ∀ a ∈ calls, ¬ Call.IsDeletion a)
    (hr : runAll (Market.call fuel) m calls = some m') :
    runAll (OrderBookHandler.handle fuel) m.orderbookHandler (calls.filterMap Call.handlerCall?) =
      some m'.orderbookHandler := by
  induction calls generalizing m with
  | nil =>
    cases hr
    rfl
  | cons a calls ih =>
    have ih {m₁ : Market} := ih (m := m₁) fun a ha => hd a (List.mem_cons_of_mem _ ha)
    obtain ⟨m₁, hm, hr⟩ := Option.bind_eq_some_iff.1 hr
    cases a with
    | addSymbol symbolId symbolName =>
      obtain ⟨h, hh, rfl⟩ := Option.map_eq_some_iff.1 hm
      have hc : OrderBookHandler.handle fuel (.addOrderBook symbolId symbolName)
          m.orderbookHandler = some h := hh
      change runAll _ _ (HandlerCall.addOrderBook symbolId symbolName :: calls.filterMap _) = _
      rw [runAll_cons, hc]
      exact ih hr
    | deleteSymbol _ => exact absurd trivial (hd _ List.mem_cons_self)
    | order c =>
      have hm' : m.order fuel c = some m₁ := hm
      rw [Market.order_eq] at hm'
      obtain ⟨h, hh, rfl⟩ := Option.map_eq_some_iff.1 hm'
      change runAll _ _ (HandlerCall.order c :: calls.filterMap _) = _
      rw [runAll_cons, hh]
      exact ih hr
    | toString =>
      cases hm
      exact ih hr

omit [NeZero n] in
/-- A worker's tasks other than deletions run if the calls in them do. -/
theorem exists_runAt {ts : List (Task n)} {p : Shard}
    (ht : ∀ t ∈ ts, ∀ symbolId symbol, t.job ≠ .deleteOrderBook symbolId symbol)
    (h : runAll (OrderBookHandler.handle fuel) p.1 (ts.filterMap fun t => t.job.handlerCall?) =
      some h') : ∃ p', runAll (fun t : Task n => t.job.runAt fuel) p ts = some p' := by
  induction ts generalizing p with
  | nil => exact ⟨p, rfl⟩
  | cons t ts ih =>
    have ih {p : Shard} := ih (p := p) fun t ht' => ht t (List.mem_cons_of_mem _ ht')
    obtain ⟨i, job⟩ := t
    cases job with
    | handle c =>
      change runAll _ _ (c :: ts.filterMap _) = _ at h
      obtain ⟨h₁, hh, h⟩ := Option.bind_eq_some_iff.1 h
      obtain ⟨p', hp⟩ := ih (p := (h₁, p.2)) h
      refine ⟨p', ?_⟩
      rw [runAll_cons]
      change ((OrderBookHandler.handle fuel c p.1).map _).bind _ = _
      rw [hh]
      exact hp
    | deleteOrderBook symbolId symbol => exact absurd rfl (ht _ List.mem_cons_self symbolId symbol)
    | toString k => exact ih (p := (p.1, update p.2 k (some p.1.toString))) h

/-- Each worker can run all the tasks submitted to it, if a market takes all the calls. -/
theorem exists_shard (hv : ValidCalls ∅ calls) (hd : ∀ a ∈ calls, ¬ Call.IsDeletion a)
    (hm : Market.run fuel calls = some m) (i : Fin n) :
    ∃ p, runAll (fun t : Task n => t.job.runAt fuel) ((Memory.new n).shard i)
      (tasksOf i ((ConcurrentMarket.new n).script calls)) = some p := by
  have hk := handle_keyed fuel
  have hnew : OrderBookHandler.OwnSymbols .new := fun _ _ _ _ hb => by cases hb
  obtain ⟨ht, hroute⟩ := Holds.new.script_routed hv hd i
  obtain ⟨h, hh⟩ : ∃ h, runAll (OrderBookHandler.handle fuel) .new
      (handledAt i ((ConcurrentMarket.new n).script calls)) = some h := by
    apply hk.exists_run hnew
    intro symbolId
    rw [hroute]
    split
    · obtain ⟨u, hu, _⟩ :=
        hk.run_filter (k := symbolId) hnew hnew rfl (Market.handler_run (m := .new) hd hm)
      exact ⟨u, hu⟩
    · exact ⟨.new, rfl⟩
  exact exists_runAt (fun t hmem => (ht t hmem).2) hh

/-- A worker never fails in a task it has taken. -/
theorem task_returns {i : Fin n} (hv : ValidCalls ∅ calls) (hd : ∀ a ∈ calls, ¬ Call.IsDeletion a)
    (hm : Market.run fuel calls = some m)
    (hs : ThreadPool.Steps (marketEffects n fuel) (ConcurrentMarket.start n calls) s)
    (hw : s.workers i = .run task) : (marketEffects n fuel).task task s.memory ≠ none := by
  have ht (i : Fin n) := (Holds.new.script_routed hv hd i).1
  have hpre := ThreadPool.ran_prefix hs i
  rw [hw] at hpre
  obtain ⟨later, hlater⟩ := hpre
  obtain ⟨p, hp⟩ := exists_shard (n := n) hv hd hm i
  rw [← hlater] at hp
  obtain ⟨p₁, hp₁, _⟩ := exists_runAll_append hp
  have hran : runAll (fun t : Task n => t.job.runAt fuel) ((Memory.new n).shard i) (s.ran i) =
      some (s.memory.shard i) := (sharded ht).ran hs i
  have hin : (WorkerPoint.run task).inHand = [task] := rfl
  rw [hin, runAll_concat, hran] at hp₁
  have hmem : task ∈ tasksOf i ((ConcurrentMarket.new n).script calls) := by
    rw [← hlater]
    exact List.mem_append_left _ (List.mem_append_right _ (List.mem_singleton_self _))
  obtain ⟨hi, hdel⟩ := ht i task hmem
  obtain ⟨j, job⟩ := task
  cases hi
  cases job with
  | handle c =>
    obtain ⟨h, hh, _⟩ := Option.map_eq_some_iff.1 hp₁
    have hh' : OrderBookHandler.handle fuel c (s.memory.orderbookHandlers j) = some h := hh
    change Option.map _ (OrderBookHandler.handle fuel c (s.memory.orderbookHandlers j)) ≠ none
    rw [hh']
    exact Option.some_ne_none _
  | deleteOrderBook symbolId symbol => exact absurd rfl (hdel symbolId symbol)
  | toString k => exact Option.some_ne_none _

/-- Whether the client does what cannot fail: it inserts a symbol, or waits for a future that a task
submitted before gives its value. -/
def Safe (done : ConcurrentMarket.Actions n) (k : ClientStep n) : Prop :=
  (∃ symbol symbolName, k = .insertSymbol symbol symbolName) ∨
    ∃ futures i, k = .get futures i ∧ (⟨i, .toString futures⟩ : Task n) ∈ tasksOf i done

theorem safe_call {c : ConcurrentMarket n} {a : Call} (h : Holds present c)
    (hv : ValidCalls present (a :: calls)) (hd : ¬ a.IsDeletion)
    (hs : (c.call a).1 = done ++ .other k :: rest) : Safe done k := by
  cases a with
  | addSymbol symbolId symbolName =>
    change (c.addSymbol symbolId symbolName).1 = _ at hs
    unfold ConcurrentMarket.addSymbol at hs
    rw [h.symbol.2 hv.1] at hs
    rcases List.cons_eq_append_iff.1 hs with ⟨_, he⟩ | ⟨done', _, he⟩
    · cases he
      exact .inl ⟨_, _, rfl⟩
    · have hm : .other k ∈ done' ++ .other k :: rest :=
        List.mem_append_right _ List.mem_cons_self
      rw [← he] at hm
      cases List.mem_singleton.1 hm
  | deleteSymbol _ => exact absurd trivial hd
  | order o =>
    change c.order o = _ at hs
    rw [c.order_eq, ConcurrentMarket.submit] at hs
    have hm : .other k ∈ done ++ .other k :: rest := List.mem_append_right _ List.mem_cons_self
    rw [← hs] at hm
    cases List.mem_singleton.1 hm
  | toString =>
    rcases append_eq_append_cons hs with ⟨us, hx⟩ | ⟨us, rfl, hy⟩
    · have hm : (.other k : ClientAction n (Task n) (ClientStep n)) ∈ _ :=
        hx ▸ List.mem_append_right _ List.mem_cons_self
      obtain ⟨i, _, he⟩ := List.mem_map.1 hm
      cases he
    · have hm : (.other k : ClientAction n (Task n) (ClientStep n)) ∈ _ :=
        hy ▸ List.mem_append_right _ List.mem_cons_self
      obtain ⟨i, _, he⟩ := List.mem_map.1 hm
      cases he
      refine .inr ⟨_, i, rfl, ?_⟩
      rw [tasksOf_append, List.mem_append]
      exact .inl
        (List.mem_filterMap.2 ⟨_, List.mem_map.2 ⟨i, List.mem_finRange i, rfl⟩, if_pos rfl⟩)

theorem safe_script {c : ConcurrentMarket n} (h : Holds present c) (hv : ValidCalls present calls)
    (hd : ∀ a ∈ calls, ¬ Call.IsDeletion a) (hs : c.script calls = done ++ .other k :: rest) :
    Safe done k := by
  induction calls generalizing c present done with
  | nil => exact absurd hs.symm (by simp [ConcurrentMarket.script])
  | cons a calls ih =>
    rcases append_eq_append_cons hs with ⟨us, hx⟩ | ⟨us, rfl, hy⟩
    · exact safe_call h hv (hd a List.mem_cons_self) hx
    · obtain ⟨h', hv'⟩ := h.call hv
      rcases ih h' hv' (fun a ha => hd a (List.mem_cons_of_mem _ ha)) hy with hi | ⟨k, i, he, hm⟩
      · exact .inl hi
      · refine .inr ⟨k, i, he, ?_⟩
        rw [tasksOf_append]
        exact List.mem_append_right _ hm

omit [NeZero n] in
/-- A future has a value once its task has run. -/
theorem future_ran {ts : List (Task n)} {p p' : Shard} (hk : (⟨i, .toString k⟩ : Task n) ∈ ts)
    (h : runAll (fun t : Task n => t.job.runAt fuel) p ts = some p') : p'.2 k ≠ none := by
  have hstep (t : Task n) (p p' : Shard) (hp : p.2 k ≠ none) (h : t.job.runAt fuel p = some p') :
      p'.2 k ≠ none := by
    obtain ⟨i, job⟩ := t
    cases job with
    | handle c =>
      obtain ⟨h₁, hh, rfl⟩ := Option.map_eq_some_iff.1 h
      exact hp
    | deleteOrderBook symbolId symbol => cases h
    | toString k' =>
      cases h
      change update p.2 k' _ k ≠ none
      by_cases he : k = k'
      · subst he
        rw [update_self]
        exact Option.some_ne_none _
      · rw [update_of_ne he]
        exact hp
  have hrest (ts : List (Task n)) (p p' : Shard) (hp : p.2 k ≠ none)
      (h : runAll (fun t : Task n => t.job.runAt fuel) p ts = some p') : p'.2 k ≠ none := by
    induction ts generalizing p with
    | nil =>
      cases h
      exact hp
    | cons t ts ih =>
      obtain ⟨p₁, hp₁, h⟩ := Option.bind_eq_some_iff.1 h
      exact ih p₁ (hstep t p p₁ hp hp₁) h
  obtain ⟨before, after, rfl⟩ := List.append_of_mem hk
  obtain ⟨p₁, _, h⟩ := exists_runAll_append h
  refine hrest after _ p' ?_ h
  change update p₁.2 k _ k ≠ none
  rw [update_self]
  exact Option.some_ne_none _

/-- A concurrent market whose calls a market takes never fails. -/
theorem concurrent_returns (hv : ValidCalls ∅ calls) (hd : ∀ a ∈ calls, ¬ Call.IsDeletion a)
    (hm : Market.run fuel calls = some m) :
    ThreadPool.Returns (marketEffects n fuel) ((ConcurrentMarket.new n).script calls)
      (.new n) := by
  constructor
  · intro s i task hs hw
    exact task_returns hv hd hm hs hw
  · intro s k rest hs hscript hidle
    obtain ⟨done, hdone, _⟩ := futures_ready hs
    rw [hscript] at hdone
    rcases safe_script Holds.new hv hd hdone with ⟨symbol, symbolName, rfl⟩ | ⟨k, i, rfl, hmem⟩
    · exact Option.some_ne_none _
    · have htasks := (hidle i).ran hs
      rw [hdone, hscript, tasksOf_append] at htasks
      have hran : s.ran i = tasksOf i done := List.append_cancel_right htasks
      rw [← hran] at hmem
      have hsome :=
        future_ran hmem ((sharded fun i => (Holds.new.script_routed hv hd i).1).ran hs i)
      have hget : (s.memory.futures k i).isSome = true := Option.isSome_iff_ne_none.2 hsome
      change (if (s.memory.futures k i).isSome then some s.memory else none) ≠ none
      rw [if_pos hget]
      exact Option.some_ne_none _

/-- When all calls are made and all workers are idle, the workers hold what a market holds. -/
theorem exists_market_of_idle (hv : ValidCalls ∅ calls) (hd : ∀ a ∈ calls, ¬ Call.IsDeletion a)
    (hs : ThreadPool.Steps (marketEffects n fuel) (ConcurrentMarket.start n calls) s)
    (hscript : s.script = []) (hidle : ∀ i, ThreadPool.Idle i s) :
    ∃ m, Market.run fuel calls = some m ∧
      ∀ symbolId, ∃ i, SharesOf m s.memory.orderbookHandlers symbolId i := by
  apply exists_market hv hd
  intro i
  have hran := (hidle i).ran hs
  rw [hscript, tasksOf_nil, List.append_nil] at hran
  have hrun := handler_ran hv hd hs i
  rwa [hran] at hrun

/-- If a market takes all the calls, no worker ever fails in a task, and from whatever point they
have come to, the client and the workers can finish. The workers then have left, and hold what the
market holds. -/
theorem concurrent_market_finishes (hv : ValidCalls ∅ calls)
    (hd : ∀ a ∈ calls, ¬ Call.IsDeletion a) (hm : Market.run fuel calls = some m)
    (hs : ThreadPool.Steps (marketEffects n fuel) (ConcurrentMarket.start n calls) s) :
    (∀ i, s.workers i ≠ .left → s.workerStep (marketEffects n fuel) i ≠ none) ∧
    ∃ s', ThreadPool.Steps (marketEffects n fuel) s s' ∧ s'.script = [] ∧
      (∀ i, s'.workers i = .left) ∧
      ∀ symbolId, ∃ i, SharesOf m s'.memory.orderbookHandlers symbolId i := by
  have hr : ThreadPool.Returns (marketEffects n fuel) ((ConcurrentMarket.new n).script calls)
      (.new n) := concurrent_returns hv hd hm
  refine ⟨fun i hw => ?_, ?_⟩
  · unfold ThreadPool.workerStep
    cases hp : s.workers i with
    | readRunning => exact Option.some_ne_none _
    | testEmpty => exact Option.some_ne_none _
    | tryPop =>
      dsimp only
      split <;> exact Option.some_ne_none _
    | run task =>
      obtain ⟨memory, hmem⟩ := Option.ne_none_iff_exists'.1 (hr.task s i task hs hp)
      dsimp only
      rw [hmem]
      exact Option.some_ne_none _
    | left => exact absurd hp hw
  · obtain ⟨s', hs', hscript, hleft⟩ := ThreadPool.exists_finished hr hs
    obtain ⟨m', hm', hshare⟩ := exists_market_of_idle hv hd (hs.trans hs') hscript fun i =>
      ThreadPool.idle_of_left (hs.trans hs') (hleft i)
    rw [hm] at hm'
    cases hm'
    exact ⟨s', hs', hscript, hleft, hshare⟩

end Workers

theorem twoSymbols_valid : ValidCalls ∅ twoSymbols := by
  simp [twoSymbols, ValidCalls, OrderCall.symbolId, Order.new]

theorem twoSymbols_not_deletion : ∀ a ∈ twoSymbols, ¬ Call.IsDeletion a := by
  simp [twoSymbols, Call.IsDeletion]

/-- Worker 1 has added its symbol; then it takes the order as well. -/
theorem concurrent_prefix_twoSymbols : ∃ s s',
    ThreadPool.Steps (marketEffects 2 9) (ConcurrentMarket.start 2 twoSymbols) s ∧
    ThreadPool.Steps (marketEffects 2 9) s s' ∧ (s.ran 1).length = 1 ∧ (s'.ran 1).length = 2 ∧
    ∃ i first first', first <+: first' ∧ first' <+: twoSymbols ∧
      (∃ m, Market.run 9 (callsOf 2 first) = some m ∧
        SharesOf m s.memory.orderbookHandlers 2 i) ∧
      ∃ m, Market.run 9 (callsOf 2 first') = some m ∧
        SharesOf m s'.memory.orderbookHandlers 2 i := by
  have h : (((ConcurrentMarket.start 2 twoSymbols).interleave (marketEffects 2 9)
      [none, none, none, none, some 1, some 1, some 1, none]).bind fun s =>
        (s.interleave (marketEffects 2 9) [some 1, some 1, some 1]).map fun s' =>
          ((s.ran 1).length, (s'.ran 1).length)) = some (1, 2) := by
    decide +kernel
  obtain ⟨s, hs, h⟩ := Option.bind_eq_some_iff.1 h
  obtain ⟨s', hs', he⟩ := Option.map_eq_some_iff.1 h
  have hs₁ := ThreadPool.steps_of_interleave hs
  have hs₂ := ThreadPool.steps_of_interleave hs'
  obtain ⟨he, he'⟩ := Prod.mk.inj he
  exact ⟨s, s', hs₁, hs₂, he, he',
    concurrent_prefix twoSymbols_valid twoSymbols_not_deletion hs₁ hs₂ 2⟩

theorem concurrent_books_reachable_twoSymbols : ∃ s book trace,
    ThreadPool.Steps (marketEffects 2 9) (ConcurrentMarket.start 2 twoSymbols) s ∧
    (s.memory.orderbookHandlers 1).idToBook 2 = some book ∧
    Reachable Op.Legal 2 ⟨book, trace⟩ := by
  have h : (((ConcurrentMarket.start 2 twoSymbols).interleave (marketEffects 2 9)
      [none, none, none, none, none, some 1, some 1, some 1, some 1, some 1, some 1]).bind fun s =>
        (s.memory.orderbookHandlers 1).idToBook 2).isSome = true := by
    decide +kernel
  obtain ⟨book, hb⟩ := Option.isSome_iff_exists.1 h
  obtain ⟨s, hs, hb⟩ := Option.bind_eq_some_iff.1 hb
  have hs' := ThreadPool.steps_of_interleave hs
  have hl (symbolId : UInt32) : LegalCalls 9 .new (callsOf symbolId twoSymbols) := by
    by_cases h₁ : symbolId = 1
    · subst h₁
      decide +kernel
    · by_cases h₂ : symbolId = 2
      · subst h₂
        decide +kernel
      · have hnil : callsOf symbolId twoSymbols = [] := by
          simp [callsOf, twoSymbols, Call.symbolId?, OrderCall.symbolId, Order.new, Ne.symm h₁,
            Ne.symm h₂]
        rw [hnil]
        trivial
  obtain ⟨trace, _, _, hr, _⟩ :=
    concurrent_books_reachable twoSymbols_valid twoSymbols_not_deletion hl hs' 1 hb
  exact ⟨s, book, trace, hs', hb, hr⟩

/-- The client has submitted half of its calls when worker 0 has begun. -/
theorem concurrent_market_finishes_twoSymbols : ∃ s s',
    ThreadPool.Steps (marketEffects 2 9) (ConcurrentMarket.start 2 twoSymbols) s ∧
    s.script.length = 2 ∧ ThreadPool.Steps (marketEffects 2 9) s s' ∧
    ∀ i, s'.workers i = .left := by
  have h : (((ConcurrentMarket.start 2 twoSymbols).interleave (marketEffects 2 9)
      [none, some 0, none, none, none, some 0]).map fun s => s.script.length) = some 2 := by
    decide +kernel
  obtain ⟨s, hs, hlen⟩ := Option.map_eq_some_iff.1 h
  have hsome : (Market.run 9 twoSymbols).isSome = true := by decide +kernel
  obtain ⟨m, hm⟩ := Option.isSome_iff_exists.1 hsome
  have hs₁ := ThreadPool.steps_of_interleave hs
  obtain ⟨s', hs', _, hleft, _⟩ :=
    (concurrent_market_finishes twoSymbols_valid twoSymbols_not_deletion hm hs₁).2
  exact ⟨s, s', hs₁, hlen, hs', hleft⟩

end RapidTrader
