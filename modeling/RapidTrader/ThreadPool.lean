import RapidTrader.Lib.Keyed

namespace RapidTrader
open Lib Relation Function
set_option autoImplicit true

/-- `Queue<T>`. Its functions hold its mutex, so each takes effect at once. -/
abbrev Queue (τ : Type) := List τ

namespace Queue

def push (q : Queue τ) (data : τ) : Queue τ := q ++ [data]

def tryPop : Queue τ → Option (τ × Queue τ)
  | [] => none
  | data :: q => some (data, q)

def empty (q : Queue τ) : Bool := q.isEmpty

end Queue

/-- Where a thread is in `workerThread`. The condition of its loop reads the flag first and, if that
is false, tests the queue. -/
inductive WorkerPoint (τ : Type) where
  | readRunning | testEmpty | tryPop | run (task : τ) | left
  deriving DecidableEq

/-- What the client of a pool does: it submits a task, or it does something else, which may have to
wait. -/
inductive ClientAction (n : Nat) (τ κ : Type) where
  | submitTask (queueIndex : Fin n) (task : τ)
  | other (k : κ)

/-- What the tasks and the other actions of the client do to the memory they share. There is no
result while one does not return. -/
structure Effects (τ κ σ : Type) where
  task : τ → σ → Option σ
  other : κ → σ → Option σ

/-- What an action of the client does to the memory, or the task it submits when a worker runs
it. -/
def Effects.perform (E : Effects τ κ σ) : ClientAction n τ κ → σ → Option σ
  | .submitTask _ task => E.task task
  | .other k => E.other k

/-- A thread pool with `n` workers, together with what its client is still going to do and the
tasks that each worker has run. -/
structure ThreadPool (n : Nat) (τ κ σ : Type) where
  running : Bool
  threadQueues : Fin n → Queue τ
  workers : Fin n → WorkerPoint τ
  ran : Fin n → List τ
  script : List (ClientAction n τ κ)
  memory : σ

namespace ThreadPool

/-- A pool whose threads have just been spawned. -/
def start (script : List (ClientAction n τ κ)) (memory : σ) : ThreadPool n τ κ σ where
  running := true
  threadQueues _ := []
  workers _ := .readRunning
  ran _ := []
  script := script
  memory := memory

def moveTo (s : ThreadPool n τ κ σ) (i : Fin n) (p : WorkerPoint τ) : ThreadPool n τ κ σ :=
  { s with workers := update s.workers i p }

/-- The next step of worker `i` in `workerThread`. -/
def workerStep (E : Effects τ κ σ) (s : ThreadPool n τ κ σ) (i : Fin n) :
    Option (ThreadPool n τ κ σ) :=
  match s.workers i with
  | .readRunning => some (s.moveTo i (if s.running then .tryPop else .testEmpty))
  | .testEmpty => some (s.moveTo i (if (s.threadQueues i).empty then .left else .tryPop))
  | .tryPop =>
    match (s.threadQueues i).tryPop with
    | some (task, q) =>
      some { s.moveTo i (.run task) with threadQueues := update s.threadQueues i q }
    | none => some (s.moveTo i .readRunning)
  | .run task => (E.task task s.memory).map fun memory =>
    { s.moveTo i .readRunning with ran := update s.ran i (s.ran i ++ [task]), memory := memory }
  | .left => none

/-- The next step of the client, which calls the destructor in the end. -/
def clientStep (E : Effects τ κ σ) (s : ThreadPool n τ κ σ) : Option (ThreadPool n τ κ σ) :=
  match s.script with
  | .submitTask i task :: script => some { s with
      threadQueues := update s.threadQueues i ((s.threadQueues i).push task)
      script := script }
  | .other k :: script =>
    (E.other k s.memory).map fun memory => { s with script := script, memory := memory }
  | [] => if s.running then some { s with running := false } else none

inductive Step (E : Effects τ κ σ) : ThreadPool n τ κ σ → ThreadPool n τ κ σ → Prop
  | client : s.clientStep E = some s' → Step E s s'
  | worker : s.workerStep E i = some s' → Step E s s'

/-- Any interleaving of the steps of the client and of the workers. -/
abbrev Steps (E : Effects τ κ σ) : ThreadPool n τ κ σ → ThreadPool n τ κ σ → Prop :=
  ReflTransGen (Step E)

end ThreadPool

/-- The task an action submits to the queue `i`. -/
def ClientAction.taskFor (i : Fin n) : ClientAction n τ κ → Option τ
  | .submitTask j task => if j = i then some task else none
  | .other _ => none

/-- The tasks that are submitted to a queue. -/
def tasksOf (i : Fin n) (script : List (ClientAction n τ κ)) : List τ :=
  script.filterMap (ClientAction.taskFor i)

def ClientAction.other? : ClientAction n τ κ → Option κ
  | .submitTask .. => none
  | .other k => some k

/-- What the client does itself, without the pool. -/
def othersOf (script : List (ClientAction n τ κ)) : List κ := script.filterMap ClientAction.other?

def WorkerPoint.inHand : WorkerPoint τ → List τ
  | .run task => [task]
  | .readRunning | .testEmpty | .tryPop | .left => []

section Tasks
variable (i j : Fin n) (task : τ) (k : κ) (script : List (ClientAction n τ κ))

theorem tasksOf_submitTask : tasksOf i (.submitTask j task :: script) =
    (if j = i then [task] else []) ++ tasksOf i script := by
  unfold tasksOf
  by_cases hj : j = i
  · have ht : ClientAction.taskFor i (.submitTask j task : ClientAction n τ κ) = some task :=
      if_pos hj
    rw [List.filterMap_cons_some ht, if_pos hj]
    rfl
  · have ht : ClientAction.taskFor i (.submitTask j task : ClientAction n τ κ) = none := if_neg hj
    rw [List.filterMap_cons_none ht, if_neg hj]
    rfl

@[simp] theorem tasksOf_other :
    tasksOf i (.other k :: script : List (ClientAction n τ κ)) = tasksOf i script := rfl

@[simp] theorem tasksOf_nil : tasksOf i ([] : List (ClientAction n τ κ)) = [] := rfl

theorem tasksOf_append (script' : List (ClientAction n τ κ)) :
    tasksOf i (script ++ script') = tasksOf i script ++ tasksOf i script' := List.filterMap_append

theorem othersOf_append (script' : List (ClientAction n τ κ)) :
    othersOf (script ++ script') = othersOf script ++ othersOf script' := List.filterMap_append

end Tasks

/-- What holds in every interleaving of a client that started with `script`. A worker has run,
holds, or finds in its queue the tasks that have been submitted to it, in their order. -/
structure Orderly (script : List (ClientAction n τ κ)) (s : ThreadPool n τ κ σ) : Prop where
  tasks : ∀ i, s.ran i ++ (s.workers i).inHand ++ s.threadQueues i ++ tasksOf i s.script =
    tasksOf i script
  stopped : s.running = false → s.script = []
  testing : s.workers i = .testEmpty → s.running = false
  left : s.workers i = .left → s.running = false ∧ s.threadQueues i = []

namespace Orderly
variable {n : Nat} {τ κ σ : Type} {script : List (ClientAction n τ κ)}
  {s s' : ThreadPool n τ κ σ} {E : Effects τ κ σ}

theorem start (script : List (ClientAction n τ κ)) (memory : σ) :
    Orderly script (.start script memory) :=
  ⟨fun _ => rfl, nofun, nofun, nofun⟩

theorem clientStep (h : Orderly script s) (hs : s.clientStep E = some s') :
    Orderly script s' := by
  unfold ThreadPool.clientStep at hs
  split at hs
  · rename_i i task rest hr
    have hrun : s.running ≠ false := fun he => by
      have := h.stopped he
      rw [hr] at this
      cases this
    cases hs
    constructor
    · intro j
      have ht := h.tasks j
      rw [hr, tasksOf_submitTask] at ht
      rw [← ht]
      dsimp only
      by_cases hj : j = i
      · subst hj
        rw [update_self, if_pos rfl, Queue.push]
        simp only [List.append_assoc]
      · rw [update_of_ne hj, if_neg (fun he => hj he.symm), List.nil_append]
    · exact fun he => absurd he hrun
    · exact fun hw => absurd (h.testing hw) hrun
    · exact fun hw => absurd (h.left hw).1 hrun
  · rename_i k rest hr
    obtain ⟨m, _, he⟩ := Option.map_eq_some_iff.1 hs
    cases he
    constructor
    · intro j
      have ht := h.tasks j
      rw [hr, tasksOf_other] at ht
      exact ht
    · intro he
      have := h.stopped he
      rw [hr] at this
      cases this
    · exact h.testing
    · exact h.left
  · rename_i hr
    split at hs
    · cases hs
      exact ⟨h.tasks, fun _ => hr, fun _ => rfl, fun hw => ⟨rfl, (h.left hw).2⟩⟩
    · cases hs

/-- A worker moves on, and has, holds and finds what it had, held and found. -/
theorem moved (h : Orderly script s) (i : Fin n) (p : WorkerPoint τ) (ran : List τ) (q : Queue τ)
    (memory : σ) (he : ran ++ p.inHand ++ q = s.ran i ++ (s.workers i).inHand ++ s.threadQueues i)
    (ht : p = .testEmpty → s.running = false) (hl : p = .left → s.running = false ∧ q = []) :
    Orderly script { s with
      workers := update s.workers i p
      ran := update s.ran i ran
      threadQueues := update s.threadQueues i q
      memory := memory } := by
  constructor
  · intro j
    by_cases hj : j = i
    · subst hj
      simp only [update_self]
      rw [he]
      exact h.tasks j
    · simp only [update_of_ne hj]
      exact h.tasks j
  · exact h.stopped
  · intro j hw
    by_cases hj : j = i
    · subst hj
      simp only [update_self] at hw
      exact ht hw
    · simp only [update_of_ne hj] at hw
      exact h.testing hw
  · intro j hw
    by_cases hj : j = i
    · subst hj
      simp only [update_self] at hw ⊢
      exact hl hw
    · simp only [update_of_ne hj] at hw ⊢
      exact h.left hw

/-- A worker moves on in its code. -/
theorem moveTo (h : Orderly script s) (i : Fin n) (p : WorkerPoint τ)
    (he : p.inHand = (s.workers i).inHand) (ht : p = .testEmpty → s.running = false)
    (hl : p = .left → s.running = false ∧ s.threadQueues i = []) :
    Orderly script (s.moveTo i p) := by
  have hm := h.moved i p (s.ran i) (s.threadQueues i) s.memory (by rw [he]) ht hl
  rw [update_eq_self, update_eq_self] at hm
  exact hm

theorem workerStep (h : Orderly script s) (hs : s.workerStep E i = some s') :
    Orderly script s' := by
  unfold ThreadPool.workerStep at hs
  split at hs
  · rename_i hw
    cases hs
    apply h.moveTo
    · rw [hw]
      split <;> rfl
    · split
      · nofun
      · rename_i hr
        exact fun _ => by simpa using hr
    · split <;> nofun
  · rename_i hw
    cases hs
    apply h.moveTo
    · rw [hw]
      split <;> rfl
    · split <;> nofun
    · split
      · rename_i he
        exact fun _ => ⟨h.testing hw, List.isEmpty_iff.1 he⟩
      · nofun
  · rename_i hw
    split at hs
    · rename_i task q hp
      cases hs
      have hq : s.threadQueues i = task :: q := by
        cases hq : s.threadQueues i with
        | nil => rw [hq] at hp; cases hp
        | cons t q' => rw [hq] at hp; cases hp; rfl
      have hm := h.moved i (.run task) (s.ran i) q s.memory
        (by rw [hw, hq]; simp [WorkerPoint.inHand]) nofun nofun
      rw [update_eq_self] at hm
      exact hm
    · cases hs
      exact h.moveTo i _ (by rw [hw]; rfl) nofun nofun
  · rename_i task hw
    obtain ⟨m, _, he⟩ := Option.map_eq_some_iff.1 hs
    cases he
    have hm := h.moved i .readRunning (s.ran i ++ [task]) (s.threadQueues i) m
      (by rw [hw]; simp [WorkerPoint.inHand]) nofun nofun
    rw [update_eq_self] at hm
    exact hm
  · cases hs

theorem steps (h : ThreadPool.Steps E (.start script memory) s) : Orderly script s := by
  induction h with
  | refl => exact .start script memory
  | tail _ hs ih =>
    cases hs with
    | client hs => exact ih.clientStep hs
    | worker hs => exact ih.workerStep hs

end Orderly

/-- `done` is what has been done to the memory so far: the tasks that the workers have run and the
other actions of the client, in the order in which they took effect. -/
structure Performed (E : Effects τ κ σ) (script : List (ClientAction n τ κ)) (memory : σ)
    (done : List (ClientAction n τ κ)) (s : ThreadPool n τ κ σ) : Prop where
  memory : runAll E.perform memory done = some s.memory
  tasks : ∀ i, tasksOf i done = s.ran i
  others : othersOf done ++ othersOf s.script = othersOf script

namespace Performed
variable {n : Nat} {τ κ σ : Type} {script done : List (ClientAction n τ κ)} {memory : σ}
  {s s' : ThreadPool n τ κ σ} {E : Effects τ κ σ}

theorem start (E : Effects τ κ σ) (script : List (ClientAction n τ κ)) (memory : σ) :
    Performed E script memory [] (.start script memory) :=
  ⟨rfl, fun _ => rfl, rfl⟩

/-- The client or a worker moves on and does nothing to the memory. -/
theorem same (h : Performed E script memory done s) (hm : s'.memory = s.memory)
    (hr : s'.ran = s.ran) (ho : othersOf s'.script = othersOf s.script) :
    ∃ done', Performed E script memory done' s' := by
  refine ⟨done, ?_, fun i => ?_, ?_⟩
  · rw [hm]
    exact h.memory
  · rw [hr]
    exact h.tasks i
  · rw [ho]
    exact h.others

theorem clientStep (h : Performed E script memory done s) (hs : s.clientStep E = some s') :
    ∃ done', Performed E script memory done' s' := by
  unfold ThreadPool.clientStep at hs
  split at hs
  · rename_i i task rest hr
    cases hs
    refine h.same rfl rfl ?_
    rw [hr]
    rfl
  · rename_i k rest hr
    obtain ⟨m, hm, he⟩ := Option.map_eq_some_iff.1 hs
    cases he
    refine ⟨done ++ [.other k], ?_, fun i => ?_, ?_⟩
    · rw [runAll_concat, h.memory]
      exact hm
    · rw [tasksOf_append, tasksOf_other, tasksOf_nil, List.append_nil]
      exact h.tasks i
    · rw [← h.others, hr, othersOf_append, List.append_assoc]
      rfl
  · split at hs
    · cases hs
      exact h.same rfl rfl rfl
    · cases hs

theorem workerStep (h : Performed E script memory done s) (hs : s.workerStep E i = some s') :
    ∃ done', Performed E script memory done' s' := by
  unfold ThreadPool.workerStep at hs
  split at hs
  · cases hs
    exact h.same rfl rfl rfl
  · cases hs
    exact h.same rfl rfl rfl
  · split at hs
    · cases hs
      exact h.same rfl rfl rfl
    · cases hs
      exact h.same rfl rfl rfl
  · rename_i task hw
    obtain ⟨m, hm, he⟩ := Option.map_eq_some_iff.1 hs
    cases he
    refine ⟨done ++ [.submitTask i task], ?_, fun j => ?_, ?_⟩
    · rw [runAll_concat, h.memory]
      exact hm
    · rw [tasksOf_append, tasksOf_submitTask, tasksOf_nil, List.append_nil, h.tasks j]
      dsimp only
      by_cases hj : i = j
      · subst hj
        rw [if_pos rfl, update_self]
      · rw [if_neg hj, update_of_ne (Ne.symm hj), List.append_nil]
    · rw [← h.others, othersOf_append]
      exact congrArg (· ++ _) (List.append_nil _)
  · cases hs

theorem steps (h : ThreadPool.Steps E (.start script memory) s) :
    ∃ done, Performed E script memory done s := by
  induction h with
  | refl => exact ⟨[], .start E script memory⟩
  | tail _ hs ih =>
    obtain ⟨done, ih⟩ := ih
    cases hs with
    | client hs => exact ih.clientStep hs
    | worker hs => exact ih.workerStep hs

end Performed

/-- The memory is what the tasks run so far and the other actions of the client have made of it, one
after the other, and when a worker leaves its loop, those that it has run are all the tasks that
were submitted to its queue, each once and in the order in which they were submitted. -/
theorem no_task_lost {script : List (ClientAction n τ κ)}
    (h : ThreadPool.Steps E (.start script memory) s) :
    ∃ done, runAll E.perform memory done = some s.memory ∧
      othersOf done ++ othersOf s.script = othersOf script ∧
      ∀ i, s.ran i = tasksOf i done ∧
        (s.workers i = .left → tasksOf i done = tasksOf i script) := by
  obtain ⟨done, hd⟩ := Performed.steps h
  refine ⟨done, hd.memory, hd.others, fun i => ⟨(hd.tasks i).symm, fun hl => ?_⟩⟩
  have ho := Orderly.steps h
  obtain ⟨hr, hq⟩ := ho.left hl
  have ht := ho.tasks i
  rw [ho.stopped hr, hq, hl] at ht
  rw [hd.tasks i]
  simpa only [WorkerPoint.inHand, tasksOf_nil, List.append_nil] using ht

/-- The memory is divided among the workers: a task reads and writes what belongs to the worker that
runs it, and the client writes none of it. `runAt` is what a task does there. -/
structure Sharded (E : Effects τ κ σ) (script : List (ClientAction n τ κ)) (shard : Fin n → σ → ρ)
    (runAt : τ → ρ → Option ρ) : Prop where
  task : t ∈ tasksOf i script → E.task t memory = some memory' →
    runAt t (shard i memory) = some (shard i memory') ∧
      ∀ j, j ≠ i → shard j memory' = shard j memory
  other : E.other k memory = some memory' → shard j memory' = shard j memory

/-- Then each part is what the tasks of its worker have made of it, one after the other. -/
theorem Sharded.ran {E : Effects τ κ σ} {shard : Fin n → σ → ρ} {s : ThreadPool n τ κ σ}
    (h : Sharded E script shard runAt) (hs : ThreadPool.Steps E (.start script memory) s)
    (i : Fin n) : runAll runAt (shard i memory) (s.ran i) = some (shard i s.memory) := by
  induction hs with
  | refl => rfl
  | tail hst hs ih =>
    have ho := Orderly.steps hst
    cases hs with
    | client hs =>
      unfold ThreadPool.clientStep at hs
      split at hs
      · cases hs
        exact ih
      · obtain ⟨m, hm, he⟩ := Option.map_eq_some_iff.1 hs
        cases he
        rw [ih, h.other hm]
      · split at hs
        · cases hs
          exact ih
        · cases hs
    | @worker _ s₁ j hs =>
      unfold ThreadPool.workerStep at hs
      split at hs
      · cases hs
        exact ih
      · cases hs
        exact ih
      · split at hs
        · cases hs
          exact ih
        · cases hs
          exact ih
      · rename_i task hw
        obtain ⟨m, hm, he⟩ := Option.map_eq_some_iff.1 hs
        cases he
        have hmem : task ∈ tasksOf j script := by
          rw [← ho.tasks j, hw]
          simp [WorkerPoint.inHand]
        obtain ⟨hrun, hrest⟩ := h.task hmem hm
        by_cases hij : i = j
        · subst hij
          dsimp only
          rw [update_self, runAll_concat, ih, Option.bind_some, hrun]
        · dsimp only
          rw [update_of_ne hij, ih, hrest i hij]
      · cases hs

/-- The steps of one interleaving: `none` is a step of the client, `some i` one of worker `i`. -/
def ThreadPool.interleave (E : Effects τ κ σ) (s : ThreadPool n τ κ σ) :
    List (Option (Fin n)) → Option (ThreadPool n τ κ σ)
  | [] => some s
  | none :: turns => (s.clientStep E).bind fun s' => s'.interleave E turns
  | some i :: turns => (s.workerStep E i).bind fun s' => s'.interleave E turns

theorem ThreadPool.steps_of_interleave {s s' : ThreadPool n τ κ σ} {turns : List (Option (Fin n))}
    (h : s.interleave E turns = some s') : ThreadPool.Steps E s s' := by
  induction turns generalizing s with
  | nil =>
    cases h
    exact .refl
  | cons turn turns ih =>
    cases turn with
    | none =>
      obtain ⟨s₁, hs, h⟩ := Option.bind_eq_some_iff.1 h
      exact (ih h).head (.client hs)
    | some i =>
      obtain ⟨s₁, hs, h⟩ := Option.bind_eq_some_iff.1 h
      exact (ih h).head (.worker hs)

/-- Tasks that write a number into a log. -/
def logEffects : Effects Nat Empty (List Nat) where
  task k log := some (log ++ [k])
  other k := k.elim

def threeTasks : List (ClientAction 2 Nat Empty) :=
  [.submitTask 0 10, .submitTask 1 20, .submitTask 0 30]

/-- The client submits its tasks and calls the destructor after worker 0 has read the flag. Worker 0
then does its tasks and leaves. -/
theorem no_task_lost_threeTasks : ∃ s, ThreadPool.Steps logEffects (.start threeTasks []) s ∧
    s.workers 0 = .left ∧ ∃ done : List (ClientAction 2 Nat Empty),
      runAll logEffects.perform [] done = some [10, 30] ∧ s.memory = [10, 30] ∧
      tasksOf 0 done = [10, 30] := by
  have h : ((ThreadPool.start threeTasks []).interleave logEffects
      [none, some 0, none, none, none, some 0, some 0, some 0, some 0, some 0, some 0, some 0,
        some 0]).map (fun s => (s.workers 0, s.memory)) = some (.left, [10, 30]) := by decide
  obtain ⟨s, hs, he⟩ := Option.map_eq_some_iff.1 h
  have hw : s.workers 0 = .left := congrArg Prod.fst he
  have hm : s.memory = [10, 30] := congrArg Prod.snd he
  have hsteps := ThreadPool.steps_of_interleave hs
  obtain ⟨done, hrun, _, htasks⟩ := no_task_lost hsteps
  rw [hm] at hrun
  exact ⟨s, hsteps, hw, done, hrun, hm, (htasks 0).2 hw⟩

end RapidTrader
