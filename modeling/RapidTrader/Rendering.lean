import RapidTrader.Sequential

namespace RapidTrader
open Lib Relation Function
set_option autoImplicit true

/-! ### The futures of a call of `toString` -/

section Futures
variable {n : Nat} [NeZero n] {c : ConcurrentMarket n}

/-- Each call of `toString` makes futures with a number of its own. -/
theorem ConcurrentMarket.futuresMade_call (a : Call) (i : Fin n) (k : Nat) (j : Fin n)
    (hk : ⟨j, .toString k⟩ ∈ tasksOf i (c.call a).1) :
    k = c.futuresMade ∧ (c.call a).2.futuresMade = c.futuresMade + 1 := by
  cases a with
  | addSymbol symbolId symbolName =>
    change _ ∈ tasksOf i (c.addSymbol symbolId symbolName).1 at hk
    unfold ConcurrentMarket.addSymbol at hk
    split at hk
    · cases hk
    · dsimp only at hk
      rw [tasksOf_other, tasksOf_submitTask, tasksOf_nil, List.append_nil] at hk
      split at hk
      · cases List.mem_singleton.1 hk
      · cases hk
  | deleteSymbol symbolId =>
    change _ ∈ tasksOf i (c.deleteSymbol symbolId).1 at hk
    unfold ConcurrentMarket.deleteSymbol at hk
    split at hk
    · cases hk
    · dsimp only at hk
      rw [tasksOf_submitTask, tasksOf_other, tasksOf_nil, List.append_nil] at hk
      split at hk
      · cases List.mem_singleton.1 hk
      · cases hk
  | order o =>
    change _ ∈ tasksOf i (c.order o) at hk
    rw [c.order_eq, ConcurrentMarket.submit, tasksOf_submitTask, tasksOf_nil, List.append_nil] at hk
    split at hk
    · cases List.mem_singleton.1 hk
    · cases hk
  | toString =>
    change _ ∈ tasksOf i c.toString.1 at hk
    rw [c.tasksOf_toString] at hk
    cases List.mem_singleton.1 hk
    exact ⟨rfl, rfl⟩

theorem ConcurrentMarket.futuresMade_le (c : ConcurrentMarket n) (a : Call) :
    c.futuresMade ≤ (c.call a).2.futuresMade := by
  cases a with
  | addSymbol symbolId symbolName =>
    change _ ≤ (c.addSymbol symbolId symbolName).2.futuresMade
    unfold ConcurrentMarket.addSymbol
    split <;> exact Nat.le_refl _
  | deleteSymbol symbolId =>
    change _ ≤ (c.deleteSymbol symbolId).2.futuresMade
    unfold ConcurrentMarket.deleteSymbol
    split <;> exact Nat.le_refl _
  | order _ => exact Nat.le_refl _
  | toString => exact Nat.le_succ _

theorem ConcurrentMarket.futures_of_script (calls : List Call) (i : Fin n) (k : Nat) (j : Fin n)
    (hk : ⟨j, .toString k⟩ ∈ tasksOf i (c.script calls)) :
    c.futuresMade ≤ k ∧ k < (c.after calls).futuresMade := by
  have hle (c : ConcurrentMarket n) (calls : List Call) :
      c.futuresMade ≤ (c.after calls).futuresMade := by
    induction calls generalizing c with
    | nil => exact Nat.le_refl _
    | cons a calls ih => exact (c.futuresMade_le a).trans (ih _)
  induction calls generalizing c with
  | nil => cases hk
  | cons a calls ih =>
    rw [ConcurrentMarket.script, tasksOf_append, List.mem_append] at hk
    rcases hk with hk | hk
    · obtain ⟨rfl, hs⟩ := futuresMade_call a i k j hk
      have := hle (c.call a).2 calls
      exact ⟨Nat.le_refl _, by rw [ConcurrentMarket.after]; omega⟩
    · obtain ⟨h₁, h₂⟩ := ih hk
      exact ⟨(c.futuresMade_le a).trans h₁, h₂⟩

omit [NeZero n] in
/-- A future has no value, and keeps its value, where no task gives it one. -/
theorem runAll_future {ts : List (Task n)} {p p' : Shard}
    (hk : ∀ j, (⟨j, .toString k⟩ : Task n) ∉ ts)
    (h : runAll (fun t : Task n => t.job.runAt fuel) p ts = some p') : p'.2 k = p.2 k := by
  induction ts generalizing p with
  | nil =>
    cases h
    rfl
  | cons t ts ih =>
    obtain ⟨p₁, hp, h⟩ := Option.bind_eq_some_iff.1 h
    rw [ih (fun j hj => hk j (List.mem_cons_of_mem _ hj)) h]
    obtain ⟨i, job⟩ := t
    cases job with
    | handle c =>
      obtain ⟨h₁, hh, rfl⟩ := Option.map_eq_some_iff.1 hp
      rfl
    | deleteOrderBook symbolId symbol => cases hp
    | toString k' =>
      cases hp
      have hne : k ≠ k' := fun he => hk i (he ▸ List.mem_cons_self)
      exact update_of_ne hne _ _

end Futures

/-- The value a worker gives its future of a call of `toString` is what its tasks before that call
have made of its handler. -/
theorem future_eq {ts ts' rest : List (Task n)} {p p' : Shard} {i : Fin n}
    (hsplit : ran ++ rest = ts ++ ⟨i, .toString k⟩ :: ts')
    (hk : ∀ j, (⟨j, .toString k⟩ : Task n) ∉ ts) (hk' : ∀ j, (⟨j, .toString k⟩ : Task n) ∉ ts')
    (hp : p.2 k = none)
    (h : runAll (fun t : Task n => t.job.runAt fuel) p ran = some p') (hv : p'.2 k = some books) :
    ∃ p₁, runAll (fun t : Task n => t.job.runAt fuel) p ts = some p₁ ∧ books = p₁.1.toString := by
  rcases List.append_eq_append_iff.1 hsplit with ⟨ts₁, rfl, _⟩ | ⟨ts₁, rfl, hts₁⟩
  · have hn := runAll_future (fun j hj => hk j (List.mem_append_left _ hj)) h
    rw [hn, hp] at hv
    cases hv
  · cases ts₁ with
    | nil =>
      have hn := runAll_future (fun j hj => hk j (by rwa [List.append_nil] at hj)) h
      rw [hn, hp] at hv
      cases hv
    | cons t ts₁ =>
      cases hts₁
      obtain ⟨p₁, hp₁, h⟩ := exists_runAll_append h
      have hn := runAll_future (p := (p₁.1, update p₁.2 k (some p₁.1.toString)))
        (fun j hj => hk' j (List.mem_append_left _ hj)) h
      refine ⟨p₁, hp₁, ?_⟩
      have he : update p₁.2 k (some p₁.1.toString) k = some p₁.1.toString := update_self _ _ _
      rw [hn] at hv
      exact Option.some.inj (hv.symm.trans he)

/-! ### The client waits -/

/-- The futures which the client has got the values of have values. -/
theorem futures_ready {script : ConcurrentMarket.Actions n}
    {s : ThreadPool n (Task n) (ClientStep n) (Memory n)}
    (hs : ThreadPool.Steps (marketEffects n fuel) (.start script memory) s) :
    ∃ done, script = done ++ s.script ∧
      ∀ k i, .other (.get k i) ∈ done → s.memory.futures k i ≠ none := by
  induction hs with
  | refl => exact ⟨[], rfl, fun k i h => (nomatch h)⟩
  | @tail s₁ _ _ hs ih =>
    obtain ⟨done, hdone, hready⟩ := ih
    cases hs with
    | client hs =>
      unfold ThreadPool.clientStep at hs
      split at hs
      · rename_i i task rest hr
        cases hs
        refine ⟨done ++ [.submitTask i task], by rw [hdone, hr]; simp, fun k j hm => ?_⟩
        rw [List.mem_append, List.mem_singleton] at hm
        exact hready k j (hm.resolve_right fun he => by cases he)
      · rename_i a rest hr
        obtain ⟨m, hm, he⟩ := Option.map_eq_some_iff.1 hs
        cases he
        refine ⟨done ++ [.other a], by rw [hdone, hr]; simp, fun k j hmem => ?_⟩
        rw [List.mem_append, List.mem_singleton] at hmem
        cases a with
        | insertSymbol symbol symbolName =>
          cases hm
          exact hready k j (hmem.resolve_right fun he => by cases he)
        | eraseSymbol symbol =>
          cases hm
          exact hready k j (hmem.resolve_right fun he => by cases he)
        | get k' i =>
          change (if _ then some _ else none) = some m at hm
          split at hm
          · rename_i hsome
            cases hm
            rcases hmem with hmem | hmem
            · exact hready k j hmem
            · cases hmem
              exact Option.isSome_iff_ne_none.1 hsome
          · cases hm
        | abort => cases hm
      · split at hs
        · cases hs
          exact ⟨done, hdone, hready⟩
        · cases hs
    | worker hs =>
      unfold ThreadPool.workerStep at hs
      split at hs
      · cases hs
        exact ⟨done, hdone, hready⟩
      · cases hs
        exact ⟨done, hdone, hready⟩
      · split at hs <;> cases hs <;> exact ⟨done, hdone, hready⟩
      · rename_i task hw
        obtain ⟨m, hm, he⟩ := Option.map_eq_some_iff.1 hs
        cases he
        refine ⟨done, hdone, fun k j hmem => ?_⟩
        have hr := hready k j hmem
        obtain ⟨i, job⟩ := task
        cases job with
        | handle c =>
          obtain ⟨h, _, rfl⟩ := Option.map_eq_some_iff.1 hm
          exact hr
        | deleteOrderBook symbolId symbol =>
          obtain ⟨name, _, hm⟩ := Option.bind_eq_some_iff.1 hm
          obtain ⟨h, _, rfl⟩ := Option.map_eq_some_iff.1 hm
          exact hr
        | toString k' =>
          cases hm
          change update s₁.memory.futures k' (update (s₁.memory.futures k') i (some _)) k j ≠ none
          by_cases hk : k = k'
          · subst hk
            rw [update_self]
            by_cases hj : j = i
            · subst hj
              rw [update_self]
              exact Option.some_ne_none _
            · rw [update_of_ne hj]
              exact hr
          · rw [update_of_ne hk]
            exact hr
      · cases hs

/-- The client has returned from the calls whose actions come before `rest`. -/
def ThreadPool.Past (s : ThreadPool n τ κ σ) (rest : List (ClientAction n τ κ)) : Prop :=
  s.script <:+ rest

/-! ### The text -/

/-- The symbols of which something is rendered, in an order. -/
def Lists (symbolIds : List UInt32) (rendered : UInt32 → Option Rendered) : Prop :=
  symbolIds.Nodup ∧ ∀ symbolId, symbolId ∈ symbolIds ↔ (rendered symbolId).isSome

theorem joinText_append (rendered : UInt32 → Option Rendered) (symbolIds symbolIds' : List UInt32) :
    joinText rendered (symbolIds ++ symbolIds') =
      joinText rendered symbolIds ++ joinText rendered symbolIds' := by
  unfold joinText
  rw [List.filterMap_append, String.join_append]

section Shares
variable {n : Nat} {books : Fin n → UInt32 → Option Rendered} {rendered : UInt32 → Option Rendered}
  {symbolIds : Fin n → List UInt32}

theorem share_eq (hs : ∀ symbolId, ∃ i, books i symbolId = rendered symbolId ∧
    ∀ j, j ≠ i → books j symbolId = none) (h : (books i symbolId).isSome) :
    books i symbolId = rendered symbolId ∧ ∀ j, (books j symbolId).isSome → j = i := by
  obtain ⟨k, hk, hnone⟩ := hs symbolId
  have hown (j : Fin n) (hj : (books j symbolId).isSome) : j = k := by
    by_contra hne
    rw [hnone j hne] at hj
    cases hj
  rw [hown i h]
  exact ⟨hk, hown⟩

/-- When each book is rendered by one worker, the texts of the workers are one text of all. -/
theorem join_shares (hs : ∀ symbolId, ∃ i, books i symbolId = rendered symbolId ∧
    ∀ j, j ≠ i → books j symbolId = none) (hl : ∀ i, Lists (symbolIds i) (books i)) :
    Lists ((List.finRange n).flatMap symbolIds) rendered ∧
      String.join ((List.finRange n).map fun i => joinText (books i) (symbolIds i)) =
        joinText rendered ((List.finRange n).flatMap symbolIds) := by
  refine ⟨⟨List.nodup_flatMap.2 ⟨fun i _ => (hl i).1, ?_⟩, fun symbolId => ?_⟩, ?_⟩
  · refine (List.nodup_finRange n).imp fun {i j} hne symbolId hi hj => hne ?_
    exact (share_eq hs (((hl j).2 _).1 hj)).2 i (((hl i).2 _).1 hi)
  · rw [List.mem_flatMap]
    constructor
    · rintro ⟨i, _, hi⟩
      have hsome := ((hl i).2 symbolId).1 hi
      rw [← (share_eq hs hsome).1]
      exact hsome
    · intro hsome
      obtain ⟨i, hi, _⟩ := hs symbolId
      rw [← hi] at hsome
      exact ⟨i, List.mem_finRange i, ((hl i).2 symbolId).2 hsome⟩
  · induction List.finRange n with
    | nil => rfl
    | cons i is ih =>
      have hi : joinText (books i) (symbolIds i) = joinText rendered (symbolIds i) := by
        refine congrArg String.join (List.filterMap_congr fun symbolId hm => ?_)
        rw [(share_eq hs (((hl i).2 symbolId).1 hm)).1]
      rw [List.map_cons, String.join_cons, ih, hi, List.flatMap_cons, joinText_append]

end Shares

/-- `toString` renders the books of one moment. When the client returns from it, all its futures
have their values, and these are the books that a market holds after the calls before it: each book
is rendered by one worker, and no other. In whatever order the tables of the workers have their
symbols, what the client joins is a text of that market. -/
theorem rendered_books {n : Nat} [NeZero n] {earlier later : List Call}
    {s : ThreadPool n (Task n) (ClientStep n) (Memory n)}
    (hv : ValidCalls ∅ (earlier ++ .toString :: later))
    (hd : ∀ a ∈ earlier ++ .toString :: later, ¬ Call.IsDeletion a)
    (hs : ThreadPool.Steps (marketEffects n fuel)
      (ConcurrentMarket.start n (earlier ++ .toString :: later)) s) :
    (s.Past ((((ConcurrentMarket.new n).after earlier).call .toString).2.script later) →
      ∀ i, s.memory.futures ((ConcurrentMarket.new n).after earlier).futuresMade i ≠ none) ∧
    ∀ books : Fin n → UInt32 → Option Rendered,
      (∀ i, s.memory.futures ((ConcurrentMarket.new n).after earlier).futuresMade i =
        some (books i)) →
      ∃ m, Market.run fuel earlier = some m ∧
        (∀ symbolId, ∃ i,
          books i symbolId = (m.orderbookHandler.idToBook symbolId).map
            (fun book => ⟨book, book.toString ++ "\n"⟩) ∧
          ∀ j, j ≠ i → books j symbolId = none) ∧
        ∀ symbolIds : Fin n → List UInt32, (∀ i, Lists (symbolIds i) (books i)) →
          Lists ((List.finRange n).flatMap symbolIds) m.orderbookHandler.toString ∧
          String.join ((List.finRange n).map fun i => joinText (books i) (symbolIds i)) =
            joinText m.orderbookHandler.toString ((List.finRange n).flatMap symbolIds) := by
  have hscript : (ConcurrentMarket.new n).script (earlier ++ .toString :: later) =
      (ConcurrentMarket.new n).script earlier ++
        (((ConcurrentMarket.new n).after earlier).call .toString).1 ++
        (((ConcurrentMarket.new n).after earlier).call .toString).2.script later := by
    rw [ConcurrentMarket.script_append, ConcurrentMarket.script, List.append_assoc]
  constructor
  · intro hp i
    obtain ⟨done, hdone, hready⟩ := futures_ready hs
    obtain ⟨passed, hpassed⟩ := hp
    apply hready
    rw [hscript, ← hpassed, ← List.append_assoc] at hdone
    rw [← List.append_cancel_right hdone]
    refine List.mem_append_left _ (List.mem_append_right _ (List.mem_append_right _ ?_))
    exact List.mem_map.2 ⟨i, List.mem_finRange i, rfl⟩
  · intro books hbooks
    have ht (i : Fin n) := (Holds.new.script_routed hv hd i).1
    have hrun (i : Fin n) : ∃ p : Shard, runAll (fun t : Task n => t.job.runAt fuel)
        (.new, fun _ => none) (tasksOf i ((ConcurrentMarket.new n).script earlier)) = some p ∧
        books i = p.1.toString := by
      have htasks := (Orderly.steps hs).tasks i
      rw [hscript, tasksOf_append, tasksOf_append, List.append_assoc (s.ran i),
        List.append_assoc (s.ran i), List.append_assoc (tasksOf i _)] at htasks
      have hto := ((ConcurrentMarket.new n).after earlier).tasksOf_toString i
      refine future_eq (p := (.new, fun _ => none)) (htasks.trans (congrArg (_ ++ ·)
        (congrArg (· ++ _) hto))) ?_ ?_ rfl ((sharded ht).ran hs i) (hbooks i)
      · intro j hj
        exact Nat.lt_irrefl _ (ConcurrentMarket.futures_of_script _ i _ j hj).2
      · intro j hj
        exact Nat.lt_irrefl _ (ConcurrentMarket.futures_of_script _ i _ j hj).1
    obtain ⟨p, hp⟩ := Classical.axiomOfChoice hrun
    have hhandled (i : Fin n) := runAll_handled (hp i).1
    obtain ⟨m, hm, hshare⟩ := exists_market hv.of_append
      (fun a ha => hd a (List.mem_append_left _ ha)) hhandled
    have hbooks (symbolId : UInt32) : ∃ i,
        books i symbolId = m.orderbookHandler.toString symbolId ∧
          ∀ j, j ≠ i → books j symbolId = none := by
      obtain ⟨i, hi⟩ := hshare symbolId
      refine ⟨i, ?_, fun j hj => ?_⟩
      · rw [(hp i).2]
        exact congrArg (Option.map _) (congrArg Prod.fst hi.held)
      · rw [(hp j).2]
        exact congrArg (Option.map _) (congrArg Prod.fst (hi.absent hj))
    exact ⟨m, hm, hbooks, fun symbolIds hl => join_shares hbooks hl⟩

def earlierCalls : List Call :=
  [.addSymbol 1 "A", .order (.addOrder (.new .limit .bid .gtc 1 90 0 0 5 1))]

def laterCalls : List Call := [.addSymbol 2 "B"]

/-- The text of the book of symbol 1 after the earlier calls. -/
def earlierText : String :=
  "SYMBOL ID : 1\nLAST TRADED PRICE: 0\nBID ORDERS\n90 X 5\nASK ORDERS\n" ++
  "BID STOP ORDERS\nASK STOP ORDERS\nBID TRAILING STOP ORDERS\nASK TRAILING STOP ORDERS\n\n"

/-- The client waits for both workers and goes on; worker 1 has had nothing else to do. -/
theorem rendered_books_twoWorkers : ∃ s, ThreadPool.Steps (marketEffects 2 9)
      (ConcurrentMarket.start 2 (earlierCalls ++ .toString :: laterCalls)) s ∧ s.script = [] ∧
    ∃ books : Fin 2 → UInt32 → Option Rendered, (∀ i, s.memory.futures 0 i = some (books i)) ∧
      ∃ i, (books i 1).map Rendered.text = some earlierText ∧ ∀ j, j ≠ i → books j 1 = none := by
  have h : ((ConcurrentMarket.start 2 (earlierCalls ++ .toString :: laterCalls)).interleave
      (marketEffects 2 9)
      [none, none, some 0, none, none, none, some 1, some 1, some 1, some 0, some 0, some 0, some 0,
        some 0, some 0, some 0, some 0, none, none, none, none]).map (fun s => s.script.isEmpty) =
      some true := by
    decide +kernel
  obtain ⟨s, hs, hscript⟩ := Option.map_eq_some_iff.1 h
  have hs' := ThreadPool.steps_of_interleave hs
  have hscript' := List.isEmpty_iff.1 hscript
  have hv : ValidCalls ∅ (earlierCalls ++ .toString :: laterCalls) := by
    simp [earlierCalls, laterCalls, ValidCalls, OrderCall.symbolId, Order.new]
  have hd : ∀ a ∈ earlierCalls ++ .toString :: laterCalls, ¬ Call.IsDeletion a := by
    simp [earlierCalls, laterCalls, Call.IsDeletion]
  obtain ⟨hready, hbooks⟩ := rendered_books hv hd hs'
  obtain ⟨books, hb⟩ := Classical.axiomOfChoice fun i => Option.ne_none_iff_exists'.1
    (hready (by rw [ThreadPool.Past, hscript']; exact List.nil_suffix) i)
  obtain ⟨m, hm, hrendered, _⟩ := hbooks books hb
  obtain ⟨i, hi, hnone⟩ := hrendered 1
  have htext : (Market.run 9 earlierCalls).map (fun m => (m.orderbookHandler.idToBook 1).map
      fun book => book.toString ++ "\n") = some (some earlierText) := by
    decide +kernel
  rw [hm] at htext
  refine ⟨s, hs', hscript', books, hb, i, ?_, hnone⟩
  rw [hi, Option.map_map]
  exact Option.some.inj htext

end RapidTrader
