import RapidTrader.LockedProgress
import RapidTrader.Interleavings

namespace RapidTrader
open Lib Relation Function
set_option autoImplicit true

section Market
variable {n : Nat} [NeZero n] [Inhabited (Task n)] {calls : List Call}

/-- However the threads of a concurrent market come to the statements of the functions that they
call, one worker holds of each symbol what a market holds of it after the first calls, and the other
workers hold nothing of it. When the workers have left, they hold what a market holds after all. -/
theorem locked_market {s : LockedPool n (Task n) (ClientStep n) (Memory n)}
    (hv : ValidCalls ∅ calls) (hd : ∀ a ∈ calls, ¬ Call.IsDeletion a)
    (hs : LockedPool.Steps (marketEffects n fuel)
      (.start ((ConcurrentMarket.new n).script calls) (.new n)) s) :
    (∀ symbolId, ∃ i first, first <+: calls ∧
      ∃ m, Market.run fuel (callsOf symbolId first) = some m ∧
        SharesOf m s.memory.orderbookHandlers symbolId i) ∧
    ((∀ i, s.workers i = .left) → ∃ m, Market.run fuel calls = some m ∧
      ∀ symbolId, ∃ i, SharesOf m s.memory.orderbookHandlers symbolId i) := by
  have hseen : ThreadPool.Steps (marketEffects n fuel) (ConcurrentMarket.start n calls) s.seen :=
    (LockedPool.Sound.steps hs).2
  constructor
  · intro symbolId
    obtain ⟨first, hfirst, hf⟩ := exists_handled hv hd hseen symbolId
    exact ⟨_, first, hfirst, exists_shares hv hd hseen hfirst hf⟩
  · intro hleft
    obtain ⟨hscript, hidle⟩ := LockedPool.seen_finished hs hleft
    exact exists_market_of_idle hv hd hseen hscript hidle

/-- If a market takes all the calls, then the client and the workers can finish at whatever
statements they are, those of the queues included, and hold what the market holds in the end. -/
theorem locked_market_finishes {s : LockedPool n (Task n) (ClientStep n) (Memory n)}
    (hv : ValidCalls ∅ calls) (hd : ∀ a ∈ calls, ¬ Call.IsDeletion a)
    (hm : Market.run fuel calls = some m)
    (hs : LockedPool.Steps (marketEffects n fuel)
      (.start ((ConcurrentMarket.new n).script calls) (.new n)) s) :
    ∃ s', LockedPool.Steps (marketEffects n fuel) s s' ∧ s'.script = [] ∧
      (∀ i, s'.workers i = .left) ∧
      ∀ symbolId, ∃ i, SharesOf m s'.memory.orderbookHandlers symbolId i := by
  obtain ⟨s', hs', hseen, hscript, hleft⟩ :=
    LockedPool.exists_finished (concurrent_returns hv hd hm) hs
  obtain ⟨m', hm', hshare⟩ := exists_market_of_idle hv hd hseen hscript fun i =>
    ThreadPool.idle_of_left hseen (hleft i)
  rw [hm] at hm'
  cases hm'
  exact ⟨s'.locked, hs', hscript, hleft, hshare⟩

end Market

/-- A pool never takes a default-constructed task out of a queue. -/
instance [NeZero n] : Inhabited (Task n) := ⟨⟨0, .toString 0⟩⟩

/-- Worker 0 wants the mutex of its queue while the client holds it. -/
theorem locked_market_twoSymbols : ∃ s : LockedPool 2 (Task 2) (ClientStep 2) (Memory 2),
    LockedPool.Steps (marketEffects 2 9)
      (.start ((ConcurrentMarket.new 2).script twoSymbols) (.new 2)) s ∧
    (∀ i, s.workers i = .left) ∧ ∃ m, Market.run 9 twoSymbols = some m ∧
      ∀ symbolId, ∃ i, SharesOf m s.memory.orderbookHandlers symbolId i := by
  have h : ((LockedPool.start ((ConcurrentMarket.new 2).script twoSymbols) (.new 2)).interleave
      (marketEffects 2 9) ([none, none, none, some 0, some 0] ++ List.replicate 24 none ++
        List.replicate 25 (some 0) ++ List.replicate 32 (some 1))).map
      (fun s => decide (∀ i, s.workers i = .left)) = some true := by
    decide +kernel
  obtain ⟨s, hs, hleft⟩ := Option.map_eq_some_iff.1 h
  have hsteps := LockedPool.steps_of_interleave hs
  have hleft := of_decide_eq_true hleft
  exact ⟨s, hsteps, hleft,
    (locked_market twoSymbols_valid twoSymbols_not_deletion hsteps).2 hleft⟩

/-- Worker 0 wants the mutex of its queue, and the client holds it. -/
theorem locked_market_finishes_twoSymbols :
    ∃ s s' : LockedPool 2 (Task 2) (ClientStep 2) (Memory 2),
    LockedPool.Steps (marketEffects 2 9)
      (.start ((ConcurrentMarket.new 2).script twoSymbols) (.new 2)) s ∧
    (s.threadQueues 0).m = some none ∧ (s.threadQueues 0).points (some 0) = .locking .tryPop ∧
    LockedPool.Steps (marketEffects 2 9) s s' ∧ ∀ i, s'.workers i = .left := by
  have h : ((LockedPool.start ((ConcurrentMarket.new 2).script twoSymbols) (.new 2)).interleave
      (marketEffects 2 9) [none, none, none, some 0, some 0]).map
      (fun s => ((s.threadQueues 0).m, (s.threadQueues 0).points (some 0))) =
        some (some none, .locking .tryPop) := by
    decide +kernel
  obtain ⟨s, hs, he⟩ := Option.map_eq_some_iff.1 h
  obtain ⟨hheld, hlocking⟩ := Prod.mk.inj he
  have hsome : (Market.run 9 twoSymbols).isSome = true := by decide +kernel
  obtain ⟨m, hm⟩ := Option.isSome_iff_exists.1 hsome
  have hsteps := LockedPool.steps_of_interleave hs
  obtain ⟨s', hs', _, hleft, _⟩ :=
    locked_market_finishes twoSymbols_valid twoSymbols_not_deletion hm hsteps
  exact ⟨s, s', hsteps, hheld, hlocking, hs', hleft⟩

end RapidTrader
