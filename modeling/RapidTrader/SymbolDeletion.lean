import RapidTrader.Sequential

namespace RapidTrader
open Lib Relation Function
set_option autoImplicit true

/-! ### A client that runs ahead -/

/-- The client can run to the end of its script before any worker moves, if nothing blocks it. -/
theorem ThreadPool.client_runs {E : Effects τ κ σ} {s : ThreadPool n τ κ σ}
    {script : List (ClientAction n τ κ)} (hscript : s.script = script)
    (h : runAll E.other s.memory (othersOf script) = some m) :
    ThreadPool.Steps E s { s with
      script := []
      threadQueues := fun i => s.threadQueues i ++ tasksOf i script
      memory := m } := by
  induction script generalizing s with
  | nil =>
    cases h
    simp only [tasksOf_nil, List.append_nil]
    rw [← hscript]
  | cons a script ih =>
    cases a with
    | submitTask i t =>
      have hstep : s.clientStep E = some { s with
          threadQueues := update s.threadQueues i ((s.threadQueues i).push t)
          script := script } := by
        unfold ThreadPool.clientStep
        rw [hscript]
      have hrest := ih (s := { s with
          threadQueues := update s.threadQueues i ((s.threadQueues i).push t)
          script := script }) rfl h
      refine ReflTransGen.head (.client hstep) ?_
      have hq : (fun j => update s.threadQueues i ((s.threadQueues i).push t) j ++
          tasksOf j script) =
          fun j => s.threadQueues j ++ tasksOf j (.submitTask i t :: script) := by
        funext j
        rw [tasksOf_submitTask]
        by_cases hj : j = i
        · subst hj
          rw [update_self, if_pos rfl, Queue.push, List.append_assoc]
        · rw [update_of_ne hj, if_neg (fun he => hj he.symm), List.nil_append]
      rw [← hq]
      exact hrest
    | other k =>
      obtain ⟨m₁, hk, h⟩ := Option.bind_eq_some_iff.1 h
      have hstep : s.clientStep E = some { s with script := script, memory := m₁ } := by
        unfold ThreadPool.clientStep
        rw [hscript]
        dsimp only
        rw [hk]
        rfl
      exact ReflTransGen.head (.client hstep)
        (ih (s := { s with script := script, memory := m₁ }) rfl h)

/-! ### Indices and symbols -/

def Call.added? : Call → Option (UInt32 × String)
  | addSymbol symbolId symbolName => some (symbolId, symbolName)
  | deleteSymbol _ | order _ | toString => none

/-- The symbols that some calls add. -/
def added (calls : List Call) : List (UInt32 × String) := calls.filterMap Call.added?

/-- The latest `addSymbol` of a symbol comes after as many others as this index says, counted
modulo the number of workers. -/
def RecordedIndex (n : Nat) [NeZero n] (calls : List Call) (symbolId : UInt32) (i : Fin n) : Prop :=
  ∃ pre symbolName post, calls = pre ++ .addSymbol symbolId symbolName :: post ∧
    (∀ name, .addSymbol symbolId name ∉ post) ∧ i = Fin.ofNat n (added pre).length

theorem RecordedIndex.append {n : Nat} [NeZero n] {calls : List Call} {i : Fin n} {a : Call}
    (h : RecordedIndex n calls symbolId i) (ha : ∀ name, a ≠ .addSymbol symbolId name) :
    RecordedIndex n (calls ++ [a]) symbolId i := by
  obtain ⟨pre, symbolName, post, rfl, hpost, hi⟩ := h
  refine ⟨pre, symbolName, post ++ [a], by simp, fun name hm => ?_, hi⟩
  rw [List.mem_append, List.mem_singleton] at hm
  exact hm.elim (hpost name) fun he => ha name he.symm

/-- What the client's data say of the calls it has made. -/
structure Tallies {n : Nat} [NeZero n] (calls : List Call) (c : ConcurrentMarket n) : Prop where
  counter : c.symbolSubmissionIndex = Fin.ofNat n (added calls).length
  recorded : c.idToSubmissionIndex symbolId = some i → RecordedIndex n calls symbolId i
  made : c.idToSymbol symbolId = some symbol → symbol < c.symbolsMade

theorem Tallies.call {n : Nat} [NeZero n] {c : ConcurrentMarket n} {a : Call}
    {present : Finset UInt32} (h : Tallies calls c) (hh : Holds present c)
    (hv : ValidCalls present (a :: calls')) : Tallies (calls ++ [a]) (c.call a).2 := by
  have hadded : (added (calls ++ [a])).length = (added calls).length + (added [a]).length := by
    rw [added, List.filterMap_append, List.length_append]
    rfl
  cases a with
  | addSymbol symbolId symbolName =>
    change Tallies _ (c.addSymbol symbolId symbolName).2
    unfold ConcurrentMarket.addSymbol
    rw [hh.symbol.2 hv.1]
    refine ⟨?_, fun {symbolId' i} hi => ?_, fun {symbolId' symbol} hs => ?_⟩
    · change c.symbolSubmissionIndex + 1 = _
      rw [h.counter, hadded]
      change _ = Fin.ofNat n (_ + 1)
      apply Fin.ext
      simp [Fin.val_add]
    · change update c.idToSubmissionIndex symbolId _ symbolId' = some i at hi
      by_cases he : symbolId' = symbolId
      · subst he
        rw [update_self, hh.index.2 hv.1] at hi
        cases hi
        exact ⟨calls, symbolName, [], rfl, fun _ hm => (nomatch hm), h.counter⟩
      · rw [update_of_ne he] at hi
        exact (h.recorded hi).append fun name heq => by cases heq; exact he rfl
    · change update c.idToSymbol symbolId _ symbolId' = some symbol at hs
      change symbol < c.symbolsMade + 1
      by_cases he : symbolId' = symbolId
      · subst he
        rw [update_self] at hs
        cases hs
        exact Nat.lt_succ_self _
      · rw [update_of_ne he] at hs
        exact Nat.lt_succ_of_lt (h.made hs)
  | deleteSymbol symbolId =>
    change Tallies _ (c.deleteSymbol symbolId).2
    unfold ConcurrentMarket.deleteSymbol
    cases hc : c.idToSymbol symbolId with
    | none => exact absurd hv.1 (hh.symbol.1 hc)
    | some symbol =>
      refine ⟨?_, fun {symbolId' i} hi => ?_, fun {symbolId' symbol} hs => ?_⟩
      · exact h.counter.trans (congrArg (Fin.ofNat n) hadded.symm)
      · change update c.idToSubmissionIndex symbolId none symbolId' = some i at hi
        by_cases he : symbolId' = symbolId
        · subst he
          rw [update_self] at hi
          cases hi
        · rw [update_of_ne he] at hi
          exact (h.recorded hi).append fun name heq => by cases heq
      · change update c.idToSymbol symbolId none symbolId' = some symbol at hs
        by_cases he : symbolId' = symbolId
        · subst he
          rw [update_self] at hs
          cases hs
        · rw [update_of_ne he] at hs
          exact h.made hs
  | order o =>
    exact ⟨h.counter.trans (congrArg (Fin.ofNat n) hadded.symm),
      fun hi => (h.recorded hi).append fun _ he => (nomatch he), fun hs => h.made hs⟩
  | toString =>
    exact ⟨h.counter.trans (congrArg (Fin.ofNat n) hadded.symm),
      fun hi => (h.recorded hi).append fun _ he => (nomatch he), fun hs => h.made hs⟩

theorem Tallies.new (n : Nat) [NeZero n] : Tallies [] (ConcurrentMarket.new n) :=
  ⟨rfl, fun hi => (nomatch hi), fun hs => (nomatch hs)⟩

/-- The client in the middle of valid calls. -/
theorem Tallies.after {n : Nat} [NeZero n] {c : ConcurrentMarket n} {present : Finset UInt32}
    {pre post : List Call} (hf : Tallies calls c) (hh : Holds present c)
    (hv : ValidCalls present (pre ++ post)) : ∃ present, Holds present (c.after pre) ∧
      ValidCalls present post ∧ Tallies (calls ++ pre) (c.after pre) := by
  induction pre generalizing c calls present with
  | nil => exact ⟨present, hh, hv, by rwa [List.append_nil]⟩
  | cons a pre ih =>
    obtain ⟨hh', hv'⟩ := hh.call hv
    obtain ⟨present', h⟩ := ih (hf.call hh hv) hh' hv'
    rw [List.append_assoc] at h
    exact ⟨present', h⟩

/-! ### Which handlers the tasks use -/

def Job.symbolId? : Job → Option UInt32
  | handle c => some c.symbolId
  | deleteOrderBook symbolId _ => some symbolId
  | toString _ => none

/-- Every task uses the handler of the queue it is placed on, and that is the index recorded for its
symbol by the latest `addSymbol`. -/
def Owned (n : Nat) [NeZero n] (calls : List Call) : Prop :=
  ∀ pre a post, calls = pre ++ a :: post → ∀ i, ∀ t ∈ tasksOf i
    (((ConcurrentMarket.new n).after pre).call a).1, t.handler = i ∧
      ∀ symbolId, t.job.symbolId? = some symbolId → RecordedIndex n (pre ++ [a]) symbolId i

/-- A deletion submits one task, to the queue of its symbol, with the handler of the counter. -/
theorem tasksOf_deleteSymbol {n : Nat} [NeZero n] {c : ConcurrentMarket n} (i : Fin n)
    (hs : c.idToSymbol symbolId = some symbol) : tasksOf i (c.call (.deleteSymbol symbolId)).1 =
      if c.getSubmissionIndex symbolId = i then
        [⟨c.symbolSubmissionIndex, .deleteOrderBook symbolId symbol⟩]
      else [] := by
  change tasksOf i (c.deleteSymbol symbolId).1 = _
  unfold ConcurrentMarket.deleteSymbol
  rw [hs]
  dsimp only
  rw [tasksOf_submitTask, tasksOf_other, tasksOf_nil, List.append_nil]

theorem RecordedIndex.unique {n : Nat} [NeZero n] {calls : List Call} {i j : Fin n}
    (h : RecordedIndex n calls symbolId i) (h' : RecordedIndex n calls symbolId j) : i = j := by
  obtain ⟨pre, name, post, rfl, hpost, rfl⟩ := h
  obtain ⟨pre', name', post', he, hpost', rfl⟩ := h'
  rcases List.append_eq_append_iff.1 he with ⟨xs, rfl, hxs⟩ | ⟨xs, rfl, hxs⟩
  · cases xs with
    | nil => rw [List.append_nil]
    | cons x xs =>
      cases hxs
      exact absurd (List.mem_append_right _ List.mem_cons_self) (hpost name')
  · cases xs with
    | nil => rw [List.append_nil]
    | cons x xs =>
      cases hxs
      exact absurd (List.mem_append_right _ List.mem_cons_self) (hpost' name)

/-- The handlers are the right ones exactly if each deletion happens to find the counter at the
index of its symbol. -/
theorem owned_iff {n : Nat} [NeZero n] {calls : List Call} (hv : ValidCalls ∅ calls) :
    Owned n calls ↔ ∀ pre symbolId post i, calls = pre ++ .deleteSymbol symbolId :: post →
      RecordedIndex n pre symbolId i → i = Fin.ofNat n (added pre).length := by
  constructor
  · intro h pre symbolId post i hc hi
    rw [hc] at hv
    obtain ⟨present, hh, hv', hf⟩ := (Tallies.new n).after .new hv
    obtain ⟨symbol, hs⟩ := Option.ne_none_iff_exists'.1 (fun hn => hh.symbol.1 hn hv'.1)
    have ht := tasksOf_deleteSymbol (((ConcurrentMarket.new n).after pre).getSubmissionIndex
      symbolId) hs
    rw [if_pos rfl] at ht
    obtain ⟨he, hr⟩ := h pre _ post hc _ _ (ht ▸ List.mem_singleton_self _)
    have hi' := hi.append (a := .deleteSymbol symbolId) fun name he => by cases he
    rw [hi'.unique (hr symbolId rfl), ← he]
    exact hf.counter
  · intro h pre a post hc i t ht
    have hv₀ := hv
    rw [hc] at hv
    obtain ⟨present, hh, hv', hf⟩ := (Tallies.new n).after .new hv
    have hf' := hf.call hh hv'
    cases ha : a.handlerCall? with
    | some c =>
      obtain ⟨j, hj, htasks⟩ := hh.routed hv' ha
      rw [htasks] at ht
      split at ht
      · rename_i he
        subst he
        rw [List.mem_singleton.1 ht]
        refine ⟨rfl, fun symbolId hs => ?_⟩
        cases hs
        exact hf'.recorded hj
      · cases ht
    | none =>
      cases a with
      | addSymbol _ _ => cases ha
      | order _ => cases ha
      | deleteSymbol symbolId =>
        obtain ⟨symbol, hs⟩ := Option.ne_none_iff_exists'.1 (fun hn => hh.symbol.1 hn hv'.1)
        obtain ⟨j, hj⟩ := Option.ne_none_iff_exists'.1 (fun hn => hh.index.1 hn hv'.1)
        have hget : ((ConcurrentMarket.new n).after pre).getSubmissionIndex symbolId = j := by
          rw [ConcurrentMarket.getSubmissionIndex, hj]
          rfl
        have hr := hf.recorded hj
        rw [tasksOf_deleteSymbol i hs, hget] at ht
        split at ht
        · rename_i he
          subst he
          rw [List.mem_singleton.1 ht]
          refine ⟨hf.counter.trans (h pre symbolId post j hc hr).symm, fun symbolId' hs' => ?_⟩
          cases hs'
          exact hr.append fun name he => by cases he
        · cases ht
      | toString =>
        have hto := ((ConcurrentMarket.new n).after pre).tasksOf_toString i
        change t ∈ tasksOf i ((ConcurrentMarket.new n).after pre).toString.1 at ht
        rw [hto] at ht
        rw [List.mem_singleton.1 ht]
        exact ⟨rfl, fun symbolId hs => by cases hs⟩

/-! ### What the deletions find -/

/-- A task that a worker holds or will find in its queue. -/
def ThreadPool.Pending (s : ThreadPool n τ κ σ) (task : τ) : Prop :=
  ∃ i, task ∈ (s.workers i).inHand ∨ task ∈ s.threadQueues i

/-- A deletion that is still to be run has a live symbol, of the name that `addSymbol` gave it; and
when it is run, it takes the book of its symbol out of the handler that holds it, nothing else, and
tells of that name. -/
def Deletes (fuel n : Nat) [NeZero n] (calls : List Call) : Prop :=
  ∀ s, ThreadPool.Steps (marketEffects n fuel) (ConcurrentMarket.start n calls) s →
    ∀ i symbolId symbol, s.Pending ⟨i, .deleteOrderBook symbolId symbol⟩ →
    ∃ name, (added calls)[symbol]? = some (symbolId, name) ∧ s.memory.symbols symbol = some name ∧
      (∀ j, s.workers j = .run ⟨i, .deleteOrderBook symbolId symbol⟩ →
        (s.memory.orderbookHandlers i).idToBook symbolId ≠ none ∧
        Task.run fuel ⟨i, .deleteOrderBook symbolId symbol⟩ s.memory =
          some (s.memory.setHandler i ((s.memory.orderbookHandlers i).put symbolId
            (none, [.symbolDeleted symbolId name]))))

/-- What the client does to the memory goes through as long as it makes valid calls without
rendering, and the symbols that are dead stay so. -/
theorem others_run {n : Nat} [NeZero n] {c : ConcurrentMarket n} {present : Finset UInt32}
    (hh : Holds present c) (hv : ValidCalls present calls) (ht : .toString ∉ calls)
    (m : Memory n) : ∃ m', runAll ClientStep.run m (othersOf (c.script calls)) = some m' ∧
      ∀ symbol, symbol < c.symbolsMade → m.symbols symbol = none → m'.symbols symbol = none := by
  induction calls generalizing c present m with
  | nil => exact ⟨m, rfl, fun _ _ h => h⟩
  | cons a calls ih =>
    obtain ⟨hh', hv'⟩ := hh.call hv
    have ht' : .toString ∉ calls := fun hm => ht (List.mem_cons_of_mem _ hm)
    rw [ConcurrentMarket.script, othersOf_append]
    cases a with
    | addSymbol symbolId symbolName =>
      have hcall : c.call (.addSymbol symbolId symbolName) = c.addSymbol symbolId symbolName := rfl
      rw [hcall] at hh' ⊢
      unfold ConcurrentMarket.addSymbol at hh' ⊢
      rw [hh.symbol.2 hv.1] at hh' ⊢
      obtain ⟨m', hm', hdead⟩ := ih hh' hv' ht'
        { m with symbols := update m.symbols c.symbolsMade (some symbolName) }
      refine ⟨m', hm', fun symbol hs hn => hdead symbol (Nat.lt_succ_of_lt hs) ?_⟩
      exact (update_of_ne (Nat.ne_of_lt hs) _ _).trans hn
    | deleteSymbol symbolId =>
      have hcall : c.call (.deleteSymbol symbolId) = c.deleteSymbol symbolId := rfl
      obtain ⟨symbol, hc⟩ := Option.ne_none_iff_exists'.1 (fun hn => hh.symbol.1 hn hv.1)
      rw [hcall] at hh' ⊢
      unfold ConcurrentMarket.deleteSymbol at hh' ⊢
      rw [hc] at hh' ⊢
      obtain ⟨m', hm', hdead⟩ := ih hh' hv' ht'
        { m with symbols := update m.symbols symbol none }
      refine ⟨m', hm', fun symbol' hs hn => hdead symbol' hs ?_⟩
      change update m.symbols symbol none symbol' = none
      by_cases he : symbol' = symbol
      · rw [he, update_self]
      · rw [update_of_ne he, hn]
    | order o =>
      obtain ⟨m', hm', hdead⟩ := ih hh' hv' ht' m
      refine ⟨m', ?_, hdead⟩
      change runAll _ m (othersOf (c.order o) ++ _) = _
      rw [c.order_eq]
      exact hm'
    | toString => exact absurd List.mem_cons_self ht

/-- A client that runs ahead has destroyed the symbol of every deletion it has submitted. -/
theorem not_deletes {n : Nat} [NeZero n] {calls : List Call} (hv : ValidCalls ∅ calls)
    (ht : .toString ∉ calls) (hd : .deleteSymbol symbolId ∈ calls) : ¬ Deletes fuel n calls := by
  intro h
  obtain ⟨pre, post, rfl⟩ := List.append_of_mem hd
  obtain ⟨present, hh, hv', hf⟩ := (Tallies.new n).after .new hv
  obtain ⟨hh', hv''⟩ := hh.call hv'
  obtain ⟨symbol, hs⟩ := Option.ne_none_iff_exists'.1 (fun hn => hh.symbol.1 hn hv'.1)
  obtain ⟨m₁, hm₁, _⟩ := others_run .new hv.of_append
    (fun hm => ht (List.mem_append_left _ hm)) (.new n)
  obtain ⟨m₂, hm₂, hdead⟩ := others_run hh' hv''
    (fun hm => ht (List.mem_append_right _ (List.mem_cons_of_mem _ hm)))
    { m₁ with symbols := update m₁.symbols symbol none }
  have hcall := tasksOf_deleteSymbol (((ConcurrentMarket.new n).after pre).getSubmissionIndex
    symbolId) hs
  rw [if_pos rfl] at hcall
  have hscript : (ConcurrentMarket.new n).script (pre ++ .deleteSymbol symbolId :: post) =
      (ConcurrentMarket.new n).script pre ++
        ((((ConcurrentMarket.new n).after pre).call (.deleteSymbol symbolId)).1 ++
          (((ConcurrentMarket.new n).after pre).call (.deleteSymbol symbolId)).2.script post) := by
    rw [ConcurrentMarket.script_append, ConcurrentMarket.script]
  have hothers : othersOf (((ConcurrentMarket.new n).after pre).call (.deleteSymbol symbolId)).1 =
      [.eraseSymbol symbol] := by
    change othersOf (((ConcurrentMarket.new n).after pre).deleteSymbol symbolId).1 = _
    unfold ConcurrentMarket.deleteSymbol
    rw [hs]
    rfl
  have hmade : symbol < (((ConcurrentMarket.new n).after pre).call
      (.deleteSymbol symbolId)).2.symbolsMade := by
    change symbol < (((ConcurrentMarket.new n).after pre).deleteSymbol symbolId).2.symbolsMade
    unfold ConcurrentMarket.deleteSymbol
    rw [hs]
    exact hf.made hs
  have hrun : runAll (marketEffects n fuel).other (.new n)
      (othersOf ((ConcurrentMarket.new n).script (pre ++ .deleteSymbol symbolId :: post))) =
      some m₂ := by
    rw [hscript, othersOf_append, othersOf_append, hothers, runAll_append]
    refine (congrArg (Option.bind · _) hm₁).trans ?_
    exact hm₂
  have hsteps := ThreadPool.client_runs
    (s := ConcurrentMarket.start n (pre ++ .deleteSymbol symbolId :: post)) rfl hrun
  have hmem : ⟨((ConcurrentMarket.new n).after pre).symbolSubmissionIndex,
      .deleteOrderBook symbolId symbol⟩ ∈
      tasksOf (((ConcurrentMarket.new n).after pre).getSubmissionIndex symbolId)
        ((ConcurrentMarket.new n).script (pre ++ .deleteSymbol symbolId :: post)) := by
    rw [hscript, tasksOf_append, tasksOf_append, hcall]
    exact List.mem_append_right _ (List.mem_append_left _ (List.mem_singleton_self _))
  obtain ⟨name, _, hlive, _⟩ := h _ hsteps _ symbolId symbol
    ⟨((ConcurrentMarket.new n).after pre).getSubmissionIndex symbolId,
      .inr (List.mem_append_right _ hmem)⟩
  exact absurd ((hdead symbol hmade (update_self _ _ _)).symm.trans hlive)
    (Option.some_ne_none _).symm

/-- The handlers are the right ones in every call, and all deletions do their work in every
interleaving, exactly if there is no deletion at all. -/
theorem deletions_iff {n : Nat} [NeZero n] {calls : List Call} (hv : ValidCalls ∅ calls)
    (ht : .toString ∉ calls) :
    (Owned n calls ↔ ∀ pre symbolId post i, calls = pre ++ .deleteSymbol symbolId :: post →
      RecordedIndex n pre symbolId i → i = Fin.ofNat n (added pre).length) ∧
    (Owned n calls ∧ Deletes fuel n calls ↔ ∀ symbolId, .deleteSymbol symbolId ∉ calls) := by
  refine ⟨owned_iff hv, fun h symbolId hd => not_deletes hv ht hd h.2, fun h => ⟨?_, ?_⟩⟩
  · refine (owned_iff hv).2 fun pre symbolId post i hc _ => ?_
    exact absurd (hc ▸ List.mem_append_right _ List.mem_cons_self) (h symbolId)
  · intro s hs i symbolId symbol hp
    have hd : ∀ a ∈ calls, ¬ Call.IsDeletion a := by
      intro a ha hda
      cases a with
      | deleteSymbol symbolId => exact h symbolId ha
      | _ => exact hda
    obtain ⟨j, hj⟩ := hp
    have hmem : ⟨i, .deleteOrderBook symbolId symbol⟩ ∈
        tasksOf j ((ConcurrentMarket.new n).script calls) := by
      rw [← (Orderly.steps hs).tasks j]
      simp only [List.mem_append]
      tauto
    exact absurd rfl (((Holds.new.script_routed hv hd j).1 _ hmem).2 symbolId symbol)

def deletionCalls : List Call := [.addSymbol 1 "A", .deleteSymbol 1]

/-- With two workers the deletion goes to worker 0 with the handler of worker 1; and when worker 0
has it in hand, the symbol that it is going to read may be gone. -/
theorem deletionCalls_fail : ¬ Owned 2 deletionCalls ∧ ¬ Deletes 1 2 deletionCalls := by
  constructor
  · intro h
    have ht : (⟨1, .deleteOrderBook 1 0⟩ : Task 2) ∈ tasksOf 0 ((((ConcurrentMarket.new 2).after
        [.addSymbol 1 "A"]).call (.deleteSymbol 1))).1 := by decide
    exact absurd (h [.addSymbol 1 "A"] (.deleteSymbol 1) [] rfl 0 _ ht).1 (by decide)
  · intro h
    have hread : ((ConcurrentMarket.start 2 deletionCalls).interleave (marketEffects 2 1)
        [none, none, none, none, some 0, some 0, some 0, some 0, some 0]).map
        (fun s => (s.workers 0, s.memory.symbols 0)) =
        some (.run ⟨1, .deleteOrderBook 1 0⟩, none) := by decide +kernel
    obtain ⟨s, hs, he⟩ := Option.map_eq_some_iff.1 hread
    obtain ⟨hw, hdead⟩ := Prod.mk.inj he
    have hp : s.Pending ⟨1, .deleteOrderBook 1 0⟩ :=
      ⟨0, .inl (by rw [hw]; exact List.mem_singleton_self _)⟩
    obtain ⟨name, _, hlive, _⟩ := h s (ThreadPool.steps_of_interleave hs) _ _ _ hp
    rw [hdead] at hlive
    cases hlive

/-- Of two symbols the first is deleted when the counter has come round to its index. -/
theorem deletions_iff_threeCalls :
    (Owned 2 [.addSymbol 1 "A", .addSymbol 2 "B", .deleteSymbol 1] ↔
      ∀ pre symbolId post i, [.addSymbol 1 "A", .addSymbol 2 "B", .deleteSymbol 1] =
        pre ++ .deleteSymbol symbolId :: post →
        RecordedIndex 2 pre symbolId i → i = Fin.ofNat 2 (added pre).length) ∧
    (Owned 2 [.addSymbol 1 "A", .addSymbol 2 "B", .deleteSymbol 1] ∧
      Deletes 1 2 [.addSymbol 1 "A", .addSymbol 2 "B", .deleteSymbol 1] ↔
      ∀ symbolId, .deleteSymbol symbolId ∉
        ([.addSymbol 1 "A", .addSymbol 2 "B", .deleteSymbol 1] : List Call)) :=
  deletions_iff (by simp [ValidCalls]) (by simp)

end RapidTrader
