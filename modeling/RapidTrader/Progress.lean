import RapidTrader.ThreadPool

namespace RapidTrader
open Lib Relation Function
set_option autoImplicit true

namespace ThreadPool
variable {n : Nat} {τ κ σ : Type} {E : Effects τ κ σ} {script : List (ClientAction n τ κ)}
  {memory : σ} {s s' : ThreadPool n τ κ σ} {i : Fin n}

theorem ran_prefix (hs : Steps E (start script memory) s) (i : Fin n) :
    s.ran i ++ (s.workers i).inHand <+: tasksOf i script := by
  have ht := (Orderly.steps hs).tasks i
  rw [List.append_assoc] at ht
  exact ⟨_, ht⟩

theorem ran_mono (hs : Steps E s s') (i : Fin n) : s.ran i <+: s'.ran i := by
  induction hs with
  | refl => exact List.prefix_rfl
  | @tail s₁ _ _ hs ih =>
    refine ih.trans ?_
    cases hs with
    | client hs =>
      unfold clientStep at hs
      split at hs
      · cases hs
        exact List.prefix_rfl
      · obtain ⟨m, _, he⟩ := Option.map_eq_some_iff.1 hs
        cases he
        exact List.prefix_rfl
      · split at hs <;> cases hs
        exact List.prefix_rfl
    | @worker _ _ j hs =>
      unfold workerStep at hs
      split at hs
      · cases hs
        exact List.prefix_rfl
      · cases hs
        exact List.prefix_rfl
      · split at hs <;> cases hs <;> exact List.prefix_rfl
      · rename_i task _
        obtain ⟨m, _, he⟩ := Option.map_eq_some_iff.1 hs
        cases he
        change s₁.ran i <+: update s₁.ran j (s₁.ran j ++ [task]) i
        by_cases hij : i = j
        · subst hij
          rw [update_self]
          exact List.prefix_append _ _
        · rw [update_of_ne hij]
      · cases hs

/-- No task is left for the worker `i`. -/
def Idle (i : Fin n) (s : ThreadPool n τ κ σ) : Prop :=
  s.threadQueues i = [] ∧ (s.workers i).inHand = []

/-- An idle worker has run what has been submitted to it so far. -/
theorem Idle.ran (hs : Steps E (start script memory) s) (hi : Idle i s) :
    s.ran i ++ tasksOf i s.script = tasksOf i script := by
  have ht := (Orderly.steps hs).tasks i
  rwa [hi.1, hi.2, List.append_nil, List.append_nil] at ht

theorem idle_of_left (hs : Steps E (start script memory) s) (hleft : s.workers i = .left) :
    Idle i s :=
  ⟨((Orderly.steps hs).left hleft).2, by rw [hleft]; rfl⟩

/-- No thread but the worker `i` has taken steps. -/
structure Aside (i : Fin n) (s s' : ThreadPool n τ κ σ) : Prop where
  script : s'.script = s.script
  running : s'.running = s.running
  queues : ∀ j, j ≠ i → s'.threadQueues j = s.threadQueues j
  workers : ∀ j, j ≠ i → s'.workers j = s.workers j

theorem Aside.refl (i : Fin n) (s : ThreadPool n τ κ σ) : Aside i s s :=
  ⟨rfl, rfl, fun _ _ => rfl, fun _ _ => rfl⟩

theorem Aside.trans {s'' : ThreadPool n τ κ σ} (h : Aside i s s') (h' : Aside i s' s'') :
    Aside i s s'' :=
  ⟨h'.script.trans h.script, h'.running.trans h.running,
    fun j hj => (h'.queues j hj).trans (h.queues j hj),
    fun j hj => (h'.workers j hj).trans (h.workers j hj)⟩

theorem workerStep_aside (hs : s.workerStep E i = some s') : Aside i s s' := by
  unfold workerStep at hs
  split at hs
  · cases hs
    exact ⟨rfl, rfl, fun _ _ => rfl, fun _ hj => update_of_ne hj _ _⟩
  · cases hs
    exact ⟨rfl, rfl, fun _ _ => rfl, fun _ hj => update_of_ne hj _ _⟩
  · split at hs
    · cases hs
      exact ⟨rfl, rfl, fun _ hj => update_of_ne hj _ _, fun _ hj => update_of_ne hj _ _⟩
    · cases hs
      exact ⟨rfl, rfl, fun _ _ => rfl, fun _ hj => update_of_ne hj _ _⟩
  · obtain ⟨m, _, he⟩ := Option.map_eq_some_iff.1 hs
    cases he
    exact ⟨rfl, rfl, fun _ _ => rfl, fun _ hj => update_of_ne hj _ _⟩
  · cases hs

/-- How far a worker is from its next task, besides the tasks before that. -/
def distance : WorkerPoint τ → Nat
  | .run _ => 3
  | .readRunning => 2
  | .testEmpty => 1
  | .tryPop | .left => 0

/-- The steps that a worker may take before it is idle. -/
def toIdle (i : Fin n) (s : ThreadPool n τ κ σ) : Nat :=
  4 * (s.threadQueues i).length + distance (s.workers i)

/-- A worker that is not idle can take a step, if its task returns, and comes closer to its end. -/
theorem exists_workerStep (ho : Orderly script s) (hi : ¬ Idle i s)
    (htask : ∀ task, s.workers i = .run task → E.task task s.memory ≠ none) :
    ∃ s', s.workerStep E i = some s' ∧ s'.toIdle i < s.toIdle i := by
  have hq (hw : (s.workers i).inHand = []) : ∃ task q, s.threadQueues i = task :: q := by
    cases hq : s.threadQueues i with
    | nil => exact absurd ⟨hq, hw⟩ hi
    | cons task q => exact ⟨task, q, rfl⟩
  unfold workerStep toIdle
  cases hw : s.workers i with
  | readRunning =>
    refine ⟨_, rfl, ?_⟩
    dsimp only [moveTo]
    rw [update_self]
    cases s.running <;> simp [distance]
  | testEmpty =>
    obtain ⟨task, q, hq⟩ := hq (by rw [hw]; rfl)
    refine ⟨_, rfl, ?_⟩
    dsimp only [moveTo]
    rw [update_self, hq]
    simp [Queue.empty, distance]
  | tryPop =>
    obtain ⟨task, q, hq⟩ := hq (by rw [hw]; rfl)
    refine ⟨_, by rw [hq]; rfl, ?_⟩
    dsimp only [moveTo]
    rw [update_self, update_self, hq, List.length_cons]
    simp only [distance]
    omega
  | run task =>
    obtain ⟨m, hm⟩ := Option.ne_none_iff_exists'.1 (htask task hw)
    refine ⟨_, by dsimp only; rw [hm]; rfl, ?_⟩
    dsimp only [moveTo]
    rw [update_self]
    simp [distance]
  | left => exact absurd ⟨(ho.left hw).2, by rw [hw]; rfl⟩ hi

/-- The client and the tasks of a pool never fail: a task returns where it is run, and what else the
client does returns, at the latest when the workers have nothing left to do. -/
structure Returns (E : Effects τ κ σ) (script : List (ClientAction n τ κ)) (memory : σ) :
    Prop where
  task : ∀ s i task, Steps E (start script memory) s → s.workers i = .run task →
    E.task task s.memory ≠ none
  other : ∀ s k rest, Steps E (start script memory) s → s.script = .other k :: rest →
    (∀ i, Idle i s) → E.other k s.memory ≠ none

/-- A worker can empty its queue while the other threads do nothing. -/
theorem exists_idle (hr : Returns E script memory) (i : Fin n)
    (hs : Steps E (start script memory) s) :
    ∃ s', Steps E s s' ∧ Idle i s' ∧ Aside i s s' := by
  generalize hk : s.toIdle i = k
  induction k using Nat.strongRecOn generalizing s with
  | ind k ih =>
    by_cases hi : Idle i s
    · exact ⟨s, .refl, hi, .refl i s⟩
    · obtain ⟨s₁, hw, hlt⟩ :=
        exists_workerStep (Orderly.steps hs) hi fun task => hr.task s i task hs
      have hstep : Steps E s s₁ := .single (.worker hw)
      obtain ⟨s', hs', hidle, haside⟩ := ih _ (hk ▸ hlt) (hs.trans hstep) rfl
      exact ⟨s', hstep.trans hs', hidle, (workerStep_aside hw).trans haside⟩

/-- All workers can. -/
theorem exists_all_idle (hr : Returns E script memory) (hs : Steps E (start script memory) s) :
    ∃ s', Steps E s s' ∧ (∀ i, Idle i s') ∧ s'.script = s.script ∧ s'.running = s.running := by
  have hall (l : List (Fin n)) : ∃ s', Steps E s s' ∧ (∀ i ∈ l, Idle i s') ∧
      s'.script = s.script ∧ s'.running = s.running := by
    induction l with
    | nil => exact ⟨s, .refl, fun i hi => absurd hi List.not_mem_nil, rfl, rfl⟩
    | cons i l ih =>
      obtain ⟨s₁, hs₁, hidle₁, hscript₁, hrun₁⟩ := ih
      obtain ⟨s₂, hs₂, hidle₂, haside⟩ := exists_idle hr i (hs.trans hs₁)
      refine ⟨s₂, hs₁.trans hs₂, fun j hj => ?_, haside.script.trans hscript₁,
        haside.running.trans hrun₁⟩
      by_cases hji : j = i
      · rw [hji]
        exact hidle₂
      · have hj₁ := hidle₁ j ((List.mem_cons.1 hj).resolve_left hji)
        rw [Idle, haside.queues j hji, haside.workers j hji]
        exact hj₁
  obtain ⟨s', hs', hidle, hrest⟩ := hall (List.finRange n)
  exact ⟨s', hs', fun i => hidle i (List.mem_finRange i), hrest⟩

/-- The client can do all it is going to do. -/
theorem exists_script_nil (hr : Returns E script memory)
    (hs : Steps E (start script memory) s) :
    ∃ s', Steps E s s' ∧ (∀ i, Idle i s') ∧ s'.script = [] := by
  generalize hk : s.script = rest
  induction rest generalizing s with
  | nil =>
    obtain ⟨s', hs', hidle, hscript, _⟩ := exists_all_idle hr hs
    exact ⟨s', hs', hidle, hscript.trans hk⟩
  | cons a rest ih =>
    obtain ⟨s₁, hs₁, hidle, hscript, _⟩ := exists_all_idle hr hs
    rw [hk] at hscript
    obtain ⟨s₂, hc, hrest⟩ : ∃ s₂, s₁.clientStep E = some s₂ ∧ s₂.script = rest := by
      unfold clientStep
      rw [hscript]
      cases a with
      | submitTask i task => exact ⟨_, rfl, rfl⟩
      | other k =>
        obtain ⟨m, hm⟩ :=
          Option.ne_none_iff_exists'.1 (hr.other _ k rest (hs.trans hs₁) hscript hidle)
        exact ⟨{ s₁ with script := rest, memory := m }, by dsimp only; rw [hm]; rfl, rfl⟩
    have hstep : Steps E s s₂ := hs₁.tail (.client hc)
    obtain ⟨s', hs', h⟩ := ih (hs.trans hstep) hrest
    exact ⟨s', hstep.trans hs', h⟩

/-- An idle worker can leave once the flag is false. -/
theorem exists_left (hrun : s.running = false) (hi : Idle i s) :
    ∃ s', Steps E s s' ∧ s'.workers i = .left ∧ Aside i s s' := by
  have htest (s₀ : ThreadPool n τ κ σ) (hw : s₀.workers i = .testEmpty)
      (hq : s₀.threadQueues i = []) :
      ∃ s', s₀.workerStep E i = some s' ∧ s'.workers i = .left := by
    unfold workerStep
    rw [hw, hq]
    exact ⟨_, rfl, update_self _ _ _⟩
  have hread (s₀ : ThreadPool n τ κ σ) (hw : s₀.workers i = .readRunning)
      (hr : s₀.running = false) (hq : s₀.threadQueues i = []) :
      ∃ s', Steps E s₀ s' ∧ s'.workers i = .left ∧ Aside i s₀ s' := by
    have hstep : s₀.workerStep E i = some (s₀.moveTo i .testEmpty) := by
      unfold workerStep
      rw [hw, hr]
      rfl
    obtain ⟨s', hs', hl⟩ := htest (s₀.moveTo i .testEmpty) (update_self _ _ _) hq
    exact ⟨s', (ReflTransGen.single (.worker hstep)).tail (.worker hs'), hl,
      (workerStep_aside hstep).trans (workerStep_aside hs')⟩
  cases hw : s.workers i with
  | readRunning => exact hread s hw hrun hi.1
  | testEmpty =>
    obtain ⟨s', hs', hl⟩ := htest s hw hi.1
    exact ⟨s', .single (.worker hs'), hl, workerStep_aside hs'⟩
  | tryPop =>
    have hstep : s.workerStep E i = some (s.moveTo i .readRunning) := by
      unfold workerStep
      rw [hw, hi.1]
      rfl
    obtain ⟨s', hs', hl, ha⟩ := hread (s.moveTo i .readRunning) (update_self _ _ _) hrun hi.1
    exact ⟨s', hs'.head (.worker hstep), hl, (workerStep_aside hstep).trans ha⟩
  | run task =>
    have hh := hi.2
    rw [hw] at hh
    cases hh
  | left => exact ⟨s, .refl, hw, .refl i s⟩

/-- A pool whose tasks and client never fail can finish from whatever point it has come to: the
client makes all its calls, and each worker runs all its tasks and leaves. -/
theorem exists_finished (hr : Returns E script memory) (hs : Steps E (start script memory) s) :
    ∃ s', Steps E s s' ∧ s'.script = [] ∧ ∀ i, s'.workers i = .left := by
  obtain ⟨s₁, hs₁, hidle₁, hscript₁⟩ := exists_script_nil hr hs
  obtain ⟨s₂, hs₂, hidle₂, hscript₂, hrun₂⟩ : ∃ s₂, Steps E s₁ s₂ ∧ (∀ i, Idle i s₂) ∧
      s₂.script = [] ∧ s₂.running = false := by
    cases hrun : s₁.running with
    | false => exact ⟨s₁, .refl, hidle₁, hscript₁, hrun⟩
    | true =>
      have hc : s₁.clientStep E = some { s₁ with running := false } := by
        unfold clientStep
        rw [hscript₁, hrun]
        rfl
      exact ⟨_, .single (.client hc), hidle₁, hscript₁, rfl⟩
  have hall (l : List (Fin n)) : ∃ s', Steps E s₂ s' ∧ (∀ i ∈ l, s'.workers i = .left) ∧
      (∀ i, Idle i s') ∧ s'.script = [] ∧ s'.running = false := by
    induction l with
    | nil => exact ⟨s₂, .refl, fun i hi => absurd hi List.not_mem_nil, hidle₂, hscript₂, hrun₂⟩
    | cons i l ih =>
      obtain ⟨s₃, hs₃, hleft₃, hidle₃, hscript₃, hrun₃⟩ := ih
      obtain ⟨s', hs', hl, ha⟩ := exists_left (E := E) hrun₃ (hidle₃ i)
      have ho := Orderly.steps ((hs.trans hs₁).trans ((hs₂.trans hs₃).trans hs'))
      refine ⟨s', hs₃.trans hs', fun j hj => ?_, fun j => ?_, ha.script.trans hscript₃,
        ha.running.trans hrun₃⟩
      · by_cases hji : j = i
        · rw [hji, hl]
        · rw [ha.workers j hji]
          exact hleft₃ j ((List.mem_cons.1 hj).resolve_left hji)
      · by_cases hji : j = i
        · rw [hji]
          exact ⟨(ho.left hl).2, by rw [hl]; rfl⟩
        · rw [Idle, ha.queues j hji, ha.workers j hji]
          exact hidle₃ j
  obtain ⟨s', hs', hleft, _, hscript, _⟩ := hall (List.finRange n)
  exact ⟨s', hs₁.trans (hs₂.trans hs'), hscript, fun i => hleft i (List.mem_finRange i)⟩

end ThreadPool

end RapidTrader
