import RapidTrader.ConcurrentMarket

namespace RapidTrader
open Lib Relation Function
set_option autoImplicit true

/-! ### What belongs to a worker -/

/-- The handler of a worker, and its future of each call of `toString`. -/
abbrev Shard := OrderBookHandler × (Nat → Option (UInt32 → Option Rendered))

def Memory.shard (i : Fin n) (m : Memory n) : Shard :=
  (m.orderbookHandlers i, fun k => m.futures k i)

/-- What a job other than a deletion does there. -/
def Job.runAt (fuel : Nat) (j : Job) (p : Shard) : Option Shard :=
  match j with
  | handle c => (p.1.handle fuel c).map fun h => (h, p.2)
  | toString futures => some (p.1, update p.2 futures (some p.1.toString))
  | deleteOrderBook _ _ => none

theorem Memory.shard_setHandler (m : Memory n) (i j : Fin n) (h : OrderBookHandler) :
    (m.setHandler i h).shard j = if j = i then (h, (m.shard j).2) else m.shard j := by
  unfold shard setHandler
  by_cases hj : j = i
  · subst hj
    rw [if_pos rfl]
    dsimp only
    rw [update_self]
  · rw [if_neg hj]
    dsimp only
    rw [update_of_ne hj]

/-- Tasks that use the handlers of their queues divide the memory among the workers. -/
theorem sharded {script : ConcurrentMarket.Actions n}
    (ht : ∀ i, ∀ t ∈ tasksOf i script, t.handler = i ∧
      ∀ symbolId symbol, t.job ≠ .deleteOrderBook symbolId symbol) :
    Sharded (marketEffects n fuel) script Memory.shard (fun t => t.job.runAt fuel) := by
  constructor
  · intro i t m m' hm hr
    obtain ⟨hi, hd⟩ := ht i t hm
    obtain ⟨i, job⟩ := t
    cases hi
    cases job with
    | handle c =>
      obtain ⟨h, hh, rfl⟩ := Option.map_eq_some_iff.1 hr
      refine ⟨?_, fun j hj => ?_⟩
      · rw [Memory.shard_setHandler, if_pos rfl]
        exact Option.map_eq_some_iff.2 ⟨h, hh, rfl⟩
      · rw [Memory.shard_setHandler, if_neg hj]
    | deleteOrderBook symbolId symbol => exact absurd rfl (hd symbolId symbol)
    | toString k =>
      cases hr
      refine ⟨congrArg some (Prod.ext rfl (funext fun k' => ?_)), fun j hj =>
        Prod.ext rfl (funext fun k' => ?_)⟩
      · change update (fun k => m.futures k i) k (some _) k' =
          update m.futures k (update (m.futures k) i (some _)) k' i
        by_cases hk : k' = k
        · subst hk
          rw [update_self, update_self, update_self]
          rfl
        · rw [update_of_ne hk, update_of_ne hk]
      · change update m.futures k (update (m.futures k) i (some _)) k' j = m.futures k' j
        by_cases hk : k' = k
        · subst hk
          rw [update_self, update_of_ne hj]
        · rw [update_of_ne hk]
  · intro k m m' j hk
    cases k with
    | insertSymbol symbol symbolName =>
      cases hk
      rfl
    | eraseSymbol symbol =>
      cases hk
      rfl
    | get k i =>
      change (if _ then some m else none) = some m' at hk
      split at hk
      · cases hk
        rfl
      · cases hk
    | abort => cases hk

/-- The handler of a worker is what the calls submitted to it make of it. -/
theorem runAll_handled {ts : List (Task n)} {p p' : Shard}
    (h : runAll (fun t : Task n => t.job.runAt fuel) p ts = some p') :
    runAll (OrderBookHandler.handle fuel) p.1 (ts.filterMap fun t => t.job.handlerCall?) =
      some p'.1 := by
  induction ts generalizing p with
  | nil =>
    cases h
    rfl
  | cons t ts ih =>
    obtain ⟨p₁, hp, h⟩ := Option.bind_eq_some_iff.1 h
    obtain ⟨i, job⟩ := t
    cases job with
    | handle c =>
      obtain ⟨h₁, hh, rfl⟩ := Option.map_eq_some_iff.1 hp
      change runAll _ p.1 (c :: ts.filterMap _) = _
      rw [runAll_cons, hh]
      exact ih h
    | deleteOrderBook symbolId symbol => cases hp
    | toString k =>
      cases hp
      exact ih (p := (p.1, update p.2 k (some p.1.toString))) h

/-! ### The workers together do what one handler does -/

/-- The handlers hold, each for its own symbols, what the handler of `m` holds. -/
structure SharesOf (m : Market) (handlers : Fin n → OrderBookHandler) (symbolId : UInt32)
    (i : Fin n) : Prop where
  held : (handlers i).view symbolId = m.orderbookHandler.view symbolId
  absent : j ≠ i → (handlers j).view symbolId = (none, [])

theorem exists_market {n : Nat} [NeZero n] {calls : List Call}
    {handlers : Fin n → OrderBookHandler} (hv : ValidCalls ∅ calls)
    (hd : ∀ a ∈ calls, ¬ Call.IsDeletion a)
    (hr : ∀ i, runAll (OrderBookHandler.handle fuel) .new
      (handledAt i ((ConcurrentMarket.new n).script calls)) = some (handlers i)) :
    ∃ m, Market.run fuel calls = some m ∧ ∀ symbolId, ∃ i, SharesOf m handlers symbolId i := by
  have hk := handle_keyed fuel
  have hnew : OrderBookHandler.OwnSymbols .new := fun _ _ _ _ hb => by cases hb
  have hroute (i : Fin n) (symbolId : UInt32) := (Holds.new.script_routed hv hd i).2 symbolId
  obtain ⟨h, hh⟩ : ∃ h, runAll (OrderBookHandler.handle fuel) .new
      (calls.filterMap Call.handlerCall?) = some h := by
    apply hk.exists_run hnew
    intro symbolId
    rw [← (hroute _ symbolId).trans (if_pos rfl)]
    obtain ⟨u, hu, _⟩ := hk.run_filter (k := symbolId) hnew hnew rfl (hr _)
    exact ⟨u, hu⟩
  obtain ⟨m, hm, rfl⟩ := Market.exists_run_of_handler (m := .new) hd hh
  refine ⟨m, hm, fun symbolId =>
    ⟨((ConcurrentMarket.new n).after calls).getSubmissionIndex symbolId, ?_, fun hj => ?_⟩⟩
  · exact hk.view_eq hnew hnew rfl ((hroute _ symbolId).trans (if_pos rfl)) (hr _) hh
  · have hf := (hroute _ symbolId).trans (if_neg (fun he => hj he.symm))
    have hnone : runAll (OrderBookHandler.handle fuel) .new [] = some .new := rfl
    exact hk.view_eq hnew hnew rfl hf (hr _) hnone

/-- Nothing is left to do. -/
structure ThreadPool.Drained (s : ThreadPool n τ κ σ) : Prop where
  script : s.script = []
  queues : s.threadQueues i = []
  workers : (s.workers i).inHand = []

/-- A drained concurrent market holds of each symbol what a market holds after the same calls, in
the handler of one worker, and that worker has told of the symbol what the market tells. -/
theorem concurrent_eq_sequential {n : Nat} [NeZero n] {calls : List Call}
    {s : ThreadPool n (Task n) (ClientStep n) (Memory n)} (hv : ValidCalls ∅ calls)
    (hd : ∀ a ∈ calls, ¬ Call.IsDeletion a)
    (hs : ThreadPool.Steps (marketEffects n fuel) (ConcurrentMarket.start n calls) s)
    (hdr : s.Drained) :
    ∃ m, Market.run fuel calls = some m ∧
      ∀ symbolId, ∃ i, SharesOf m s.memory.orderbookHandlers symbolId i := by
  have ht (i : Fin n) := (Holds.new.script_routed hv hd i).1
  apply exists_market hv hd
  intro i
  have hran : s.ran i = tasksOf i ((ConcurrentMarket.new n).script calls) := by
    have := (Orderly.steps hs).tasks i
    rw [hdr.script, hdr.queues, hdr.workers] at this
    simpa only [tasksOf_nil, List.append_nil] using this
  have hrun := (sharded ht).ran hs i
  rw [hran] at hrun
  exact runAll_handled hrun

def twoSymbols : List Call :=
  [.addSymbol 1 "A", .addSymbol 2 "B", .order (.addOrder (.new .limit .bid .gtc 2 90 0 0 5 1)),
    .order (.addOrder (.new .limit .ask .gtc 1 95 0 0 5 1))]

/-- What can be read off the end of an interleaving: that nothing is left to do. -/
def ThreadPool.drained (s : ThreadPool n τ κ σ) : Bool :=
  s.script.isEmpty && (List.finRange n).all fun i =>
    (s.threadQueues i).isEmpty && (s.workers i).inHand.isEmpty

theorem ThreadPool.drained_iff {s : ThreadPool n τ κ σ} : s.drained = true ↔ s.Drained := by
  simp only [drained, Bool.and_eq_true, List.all_eq_true, List.isEmpty_iff, List.mem_finRange,
    true_implies]
  exact ⟨fun h => ⟨h.1, (h.2 _).1, (h.2 _).2⟩, fun h => ⟨h.script, fun i => ⟨h.queues, h.workers⟩⟩⟩

/-- The two workers take turns with the client. -/
theorem concurrent_eq_sequential_twoSymbols : ∃ s,
    ThreadPool.Steps (marketEffects 2 9) (ConcurrentMarket.start 2 twoSymbols) s ∧ s.Drained ∧
    ∃ m, Market.run 9 twoSymbols = some m ∧
      ∀ symbolId, ∃ i, SharesOf m s.memory.orderbookHandlers symbolId i := by
  have h : ((ConcurrentMarket.start 2 twoSymbols).interleave (marketEffects 2 9)
      [none, none, some 0, some 0, none, some 0, none, none, none, some 1, some 1, some 1, some 1,
        some 1, some 1, some 0, some 0, some 0]).map ThreadPool.drained = some true := by
    decide +kernel
  obtain ⟨s, hs, hd⟩ := Option.map_eq_some_iff.1 h
  have hs' := ThreadPool.steps_of_interleave hs
  have hd' := ThreadPool.drained_iff.1 hd
  refine ⟨s, hs', hd', concurrent_eq_sequential ?_ ?_ hs' hd'⟩
  · simp [twoSymbols, ValidCalls, OrderCall.symbolId, Order.new]
  · simp [twoSymbols, Call.IsDeletion]

end RapidTrader
