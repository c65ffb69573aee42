import RapidTrader.LockedQueue

namespace RapidTrader
open Lib Relation Function
set_option autoImplicit true
set_option linter.unusedSectionVars false

/-- The threads of a pool: its client, and worker `i` as `some i`. -/
abbrev PoolThread (n : Nat) := Option (Fin n)

/-- A thread pool whose threads go through the functions of its queues statement by statement. -/
structure LockedPool (n : Nat) (τ κ σ : Type) where
  running : Bool
  threadQueues : Fin n → LockedQueue (PoolThread n) τ
  workers : Fin n → WorkerPoint τ
  ran : Fin n → List τ
  script : List (ClientAction n τ κ)
  memory : σ

/-- Where `workerThread` goes on with the result of a call of its queue. -/
def WorkerPoint.next (p : WorkerPoint τ) : QueueResult τ → WorkerPoint τ
  | .popped task => .run task
  | .notPopped => .readRunning
  | .tested isEmpty => if isEmpty then .left else .tryPop
  | .pushed => p

/-- The call of its queue that a worker makes at a point of `workerThread`. -/
def WorkerPoint.call? : WorkerPoint τ → Option (QueueCall τ)
  | .testEmpty => some .empty
  | .tryPop => some .tryPop
  | .readRunning | .run _ | .left => none

section Locked
variable {n : Nat} {τ κ σ : Type} [Inhabited τ]

namespace LockedPool

def start (script : List (ClientAction n τ κ)) (memory : σ) : LockedPool n τ κ σ where
  running := true
  threadQueues _ := .new
  workers _ := .readRunning
  ran _ := []
  script := script
  memory := memory

def moveTo (s : LockedPool n τ κ σ) (i : Fin n) (p : WorkerPoint τ) : LockedPool n τ κ σ :=
  { s with workers := update s.workers i p }

def setQueue (s : LockedPool n τ κ σ) (i : Fin n) (q : LockedQueue (PoolThread n) τ) :
    LockedPool n τ κ σ :=
  { s with threadQueues := update s.threadQueues i q }

/-- The next step of worker `i`, in `workerThread` or in a function of its queue. -/
def workerStep (E : Effects τ κ σ) (s : LockedPool n τ κ σ) (i : Fin n)
    (woken : Option (PoolThread n)) : Option (LockedPool n τ κ σ) :=
  match (s.threadQueues i).points (some i) with
  | .outside =>
    match s.workers i with
    | .readRunning => some (s.moveTo i (if s.running then .tryPop else .testEmpty))
    | .testEmpty => ((s.threadQueues i).call (some i) .empty).map (s.setQueue i)
    | .tryPop => ((s.threadQueues i).call (some i) .tryPop).map (s.setQueue i)
    | .run task => (E.task task s.memory).map fun memory =>
      { s.moveTo i .readRunning with ran := update s.ran i (s.ran i ++ [task]), memory := memory }
    | .left => none
  | .returning _ => ((s.threadQueues i).ret (some i)).map fun x =>
    (s.setQueue i x.2).moveTo i ((s.workers i).next x.1)
  | _ => ((s.threadQueues i).threadStep (some i) woken).map (s.setQueue i)

/-- The next step of the client, in `submitTask`, in a function of a queue or in between. -/
def clientStep (E : Effects τ κ σ) (s : LockedPool n τ κ σ) (woken : Option (PoolThread n)) :
    Option (LockedPool n τ κ σ) :=
  match s.script with
  | .submitTask i task :: script =>
    match (s.threadQueues i).points none with
    | .outside => ((s.threadQueues i).call none (.push task)).map (s.setQueue i)
    | .returning _ => ((s.threadQueues i).ret none).map fun x =>
      { s.setQueue i x.2 with script := script }
    | _ => ((s.threadQueues i).threadStep none woken).map (s.setQueue i)
  | .other k :: script =>
    (E.other k s.memory).map fun memory => { s with script := script, memory := memory }
  | [] => if s.running then some { s with running := false } else none

inductive Step (E : Effects τ κ σ) : LockedPool n τ κ σ → LockedPool n τ κ σ → Prop
  | client : s.clientStep E woken = some s' → Step E s s'
  | worker : s.workerStep E i woken = some s' → Step E s s'

/-- Any interleaving of the statements of the client and of the workers. -/
abbrev Steps (E : Effects τ κ σ) : LockedPool n τ κ σ → LockedPool n τ κ σ → Prop :=
  ReflTransGen (Step E)

end LockedPool

/-- The result of a call that has taken effect. -/
def AtomicPoint.result? : AtomicPoint τ → Option (QueueResult τ)
  | .answered r => some r
  | .outside | .called _ => none

namespace LockedPool

/-- A pool over queues on which each call takes effect at once: a thread is past its call when the
call has taken effect. -/
def seenAt (s : LockedPool n τ κ σ) (queues : Fin n → AtomicQueue (PoolThread n) τ) :
    ThreadPool n τ κ σ where
  running := s.running
  threadQueues i := (queues i).queue
  workers i := (((queues i).points (some i)).result?).elim (s.workers i) (s.workers i).next
  ran := s.ran
  script := match s.script with
    | .submitTask i task :: script =>
      if (((queues i).points none).result?).isSome then script else .submitTask i task :: script
    | script => script
  memory := s.memory

/-- The pool as it is meant, in which a call of a queue is one step. -/
def seen (s : LockedPool n τ κ σ) : ThreadPool n τ κ σ :=
  s.seenAt fun i => (s.threadQueues i).seen

/-- Which thread is in a function of which queue, and in what call. -/
structure Sound (s : LockedPool n τ κ σ) : Prop where
  guarded : ∀ i, (s.threadQueues i).Guarded
  stranger : ∀ i j, j ≠ i → (s.threadQueues i).points (some j) = .outside
  worker : ∀ i k, (s.threadQueues i).seen.points (some i) = .called k → (s.workers i).call? = some k
  client : ∀ i, (s.threadQueues i).points none ≠ .outside → ∃ task script,
    s.script = .submitTask i task :: script ∧
      ∀ k, (s.threadQueues i).seen.points none = .called k → k = .push task

theorem Sound.start (script : List (ClientAction n τ κ)) (memory : σ) :
    Sound (.start script memory) :=
  ⟨fun _ => .new, fun _ _ _ => rfl, fun _ _ h => (by cases h), fun _ h => absurd rfl h⟩

section Seen
variable {s : LockedPool n τ κ σ} {i : Fin n} {a : AtomicQueue (PoolThread n) τ}
  {queues : Fin n → AtomicQueue (PoolThread n) τ} {script : List (ClientAction n τ κ)}

theorem seen_setQueue (s : LockedPool n τ κ σ) (i : Fin n) (q : LockedQueue (PoolThread n) τ) :
    (s.setQueue i q).seen = s.seenAt (update (fun j => (s.threadQueues j).seen) i q.seen) := by
  have hq : (fun j => (update s.threadQueues i q j).seen) =
      update (fun j => (s.threadQueues j).seen) i q.seen := by
    funext j
    by_cases hj : j = i
    · subst hj
      rw [update_self, update_self]
    · rw [update_of_ne hj, update_of_ne hj]
  unfold seen setQueue
  dsimp only
  rw [hq]
  rfl

/-- Worker `i` has taken a step in its queue. -/
theorem seenAt_worker (hc : a.points none = (queues i).points none) :
    s.seenAt (update queues i a) = { s.seenAt queues with
      threadQueues := update (s.seenAt queues).threadQueues i a.queue
      workers := update (s.seenAt queues).workers i
        ((a.points (some i)).result?.elim (s.workers i) (s.workers i).next) } := by
  have hnone (j : Fin n) : (update queues i a j).points none = (queues j).points none := by
    by_cases hj : j = i
    · subst hj
      rw [update_self, hc]
    · rw [update_of_ne hj]
  unfold seenAt
  congr 1
  · funext j
    by_cases hj : j = i
    · subst hj
      simp only [update_self]
    · simp only [update_of_ne hj]
  · funext j
    by_cases hj : j = i
    · subst hj
      simp only [update_self]
    · simp only [update_of_ne hj]
  · dsimp only
    cases s.script with
    | nil => rfl
    | cons action script =>
      cases action with
      | submitTask j task => simp only [hnone]
      | other k => rfl

/-- The client has taken a step in the queue that it submits a task to. -/
theorem seenAt_client (hs : s.script = .submitTask i task :: script)
    (hw : a.points (some i) = (queues i).points (some i)) :
    s.seenAt (update queues i a) = { s.seenAt queues with
      threadQueues := update (s.seenAt queues).threadQueues i a.queue
      script := if ((a.points none).result?).isSome then script
        else .submitTask i task :: script } := by
  unfold seenAt
  congr 1
  · funext j
    by_cases hj : j = i
    · subst hj
      simp only [update_self]
    · simp only [update_of_ne hj]
  · funext j
    by_cases hj : j = i
    · subst hj
      simp only [update_self, hw]
    · simp only [update_of_ne hj]
  · rw [hs]
    simp only [update_self]

/-- A step that neither is nor follows the moment when a call takes effect. -/
theorem seenAt_same (hq : a.queue = (queues i).queue)
    (hw : (a.points (some i)).result? = ((queues i).points (some i)).result?)
    (hc : (a.points none).result? = ((queues i).points none).result?) :
    s.seenAt (update queues i a) = s.seenAt queues := by
  have hsame (j : Fin n) : (update queues i a j).queue = (queues j).queue ∧
      ((update queues i a j).points (some j)).result? = ((queues j).points (some j)).result? ∧
      ((update queues i a j).points none).result? = ((queues j).points none).result? := by
    by_cases hj : j = i
    · subst hj
      rw [update_self]
      exact ⟨hq, hw, hc⟩
    · rw [update_of_ne hj]
      exact ⟨rfl, rfl, rfl⟩
  unfold seenAt
  simp only [hsame]

theorem seen_moveTo (hp : (s.threadQueues i).points (some i) = .outside) (p : WorkerPoint τ) :
    (s.moveTo i p).seen = s.seen.moveTo i p := by
  unfold seen seenAt moveTo ThreadPool.moveTo
  congr 1
  funext j
  by_cases hj : j = i
  · subst hj
    have hnone : ((s.threadQueues j).seen.points (some j)).result? = none := by
      unfold LockedQueue.seen
      simp only [hp]
      rfl
    simp only [update_self, hnone, Option.elim_none]
  · simp only [update_of_ne hj]

/-- The client goes on to another action when it is in no call. -/
theorem seen_setScript (hc : ∀ j, (s.threadQueues j).points none = .outside)
    (script : List (ClientAction n τ κ)) (memory : σ) :
    ({ s with script := script, memory := memory } : LockedPool n τ κ σ).seen =
      { s.seen with script := script, memory := memory } := by
  have hnone (j : Fin n) : ((s.threadQueues j).seen.points none).result? = none := by
    unfold LockedQueue.seen
    simp only [hc j]
    rfl
  unfold seen seenAt
  congr 1
  cases script with
  | nil => rfl
  | cons action script =>
    cases action with
    | submitTask j task =>
      simp only [hnone, Option.isSome_none, Bool.false_eq_true, if_false]
    | other k => rfl

end Seen

namespace Sound
variable {s s' : LockedPool n τ κ σ} {i : Fin n} {q : LockedQueue (PoolThread n) τ}
  {t : PoolThread n}

/-- A step of the client, or of the worker that the queue belongs to. -/
theorem setQueue (h : Sound s) (hg : q.Guarded) (ht : t = none ∨ t = some i)
    (hu : ∀ u, u ≠ t → q.points u = (s.threadQueues i).points u)
    (hw : ∀ k, t = some i → q.seen.points t = .called k → (s.workers i).call? = some k)
    (hc : t = none → q.points t ≠ .outside → ∃ task script,
      s.script = .submitTask i task :: script ∧ ∀ k, q.seen.points t = .called k → k = .push task) :
    Sound (s.setQueue i q) := by
  constructor
  · intro j
    by_cases hj : j = i
    · subst hj
      simpa only [LockedPool.setQueue, update_self] using hg
    · simpa only [LockedPool.setQueue, update_of_ne hj] using h.guarded j
  · intro j j' hne
    by_cases hj : j = i
    · subst hj
      simp only [LockedPool.setQueue, update_self]
      rw [hu _ (by rcases ht with rfl | rfl <;> simp [hne])]
      exact h.stranger j j' hne
    · simpa only [LockedPool.setQueue, update_of_ne hj] using h.stranger j j' hne
  · intro j k hk
    by_cases hj : j = i
    · subst hj
      simp only [LockedPool.setQueue, update_self] at hk
      by_cases htj : t = some j
      · subst htj
        exact hw k rfl hk
      · refine h.worker j k ?_
        rw [← hk]
        exact congrArg QueuePoint.seen (hu _ (Ne.symm htj)).symm
    · simp only [LockedPool.setQueue, update_of_ne hj] at hk
      exact h.worker j k hk
  · intro j hout
    by_cases hj : j = i
    · subst hj
      simp only [LockedPool.setQueue, update_self] at hout ⊢
      by_cases htn : t = none
      · subst htn
        exact hc rfl hout
      · have hsame := hu none (Ne.symm htn)
        rw [hsame] at hout
        have hseen : q.seen.points none = (s.threadQueues j).seen.points none :=
          congrArg QueuePoint.seen hsame
        rw [hseen]
        exact h.client j hout
    · simp only [LockedPool.setQueue, update_of_ne hj] at hout ⊢
      exact h.client j hout

/-- A worker that is in no call moves on. -/
theorem moveTo (h : Sound s) (p : WorkerPoint τ)
    (hp : ∀ k, (s.threadQueues i).seen.points (some i) ≠ .called k) : Sound (s.moveTo i p) := by
  refine ⟨h.guarded, h.stranger, fun j k hk => ?_, h.client⟩
  by_cases hj : j = i
  · subst hj
    exact absurd hk (hp k)
  · simpa only [LockedPool.moveTo, update_of_ne hj] using h.worker j k hk

theorem outside_of_script (h : Sound s) (hs : ∀ i task script,
    s.script ≠ .submitTask i task :: script) (i : Fin n) :
    (s.threadQueues i).points none = .outside := by
  by_contra hout
  obtain ⟨task, script, he, _⟩ := h.client i hout
  exact hs i task script he

end Sound

/-- The call of a worker takes effect: that is a step of the worker of the pool that is seen. -/
theorem workerStep_answered {s : ThreadPool n τ κ σ} (hk : (s.workers i).call? = some k)
    (hr : k.answer (s.threadQueues i) = some (r, q)) : s.workerStep E i = some { s with
      threadQueues := update s.threadQueues i q
      workers := update s.workers i ((s.workers i).next r) } := by
  unfold ThreadPool.workerStep
  cases hp : s.workers i with
  | readRunning =>
    rw [hp] at hk
    cases hk
  | run task =>
    rw [hp] at hk
    cases hk
  | left =>
    rw [hp] at hk
    cases hk
  | testEmpty =>
    rw [hp] at hk
    cases hk
    cases hr
    dsimp only [ThreadPool.moveTo]
    rw [update_eq_self]
    rfl
  | tryPop =>
    rw [hp] at hk
    cases hk
    cases hq : s.threadQueues i with
    | nil =>
      rw [hq] at hr
      cases hr
      dsimp only [ThreadPool.moveTo, Queue.tryPop]
      rw [← hq, update_eq_self]
      rfl
    | cons task q' =>
      rw [hq] at hr
      cases hr
      rfl

/-- A step inside of a function of a queue is none of the pool that is seen, or the one step that
the call is there. -/
theorem Sound.inside {s : LockedPool n τ κ σ} {q : LockedQueue (PoolThread n) τ} (h : Sound s)
    (hs : (s.threadQueues i).threadStep t woken = some q) (ht : t = none ∨ t = some i) :
    Sound (s.setQueue i q) ∧ ThreadPool.Steps E s.seen (s.setQueue i q).seen := by
  have hin := LockedQueue.threadStep_inside hs
  have hu := hin.points_of_ne
  have hout : (s.threadQueues i).points t ≠ .outside := hin.not_outside
  rcases hin.seen (h.guarded i) with he | ⟨k, r, hk, hr, he⟩
  · refine ⟨h.setQueue ((h.guarded i).inside hin) ht hu (fun k hti hk => ?_) (fun htn _ => ?_), ?_⟩
    · subst hti
      exact h.worker i k (he ▸ hk)
    · subst htn
      rw [he]
      exact h.client i hout
    · rw [seen_setQueue, he, update_eq_self i fun j => (s.threadQueues j).seen]
      exact .refl
  · have hafter : q.seen.points t = .answered r := by
      rw [he]
      exact update_self ..
    have hother (u : PoolThread n) (hne : u ≠ t) :
        q.seen.points u = (s.threadQueues i).seen.points u := congrArg QueuePoint.seen (hu u hne)
    refine ⟨h.setQueue ((h.guarded i).inside hin) ht hu (fun k' _ hk' => ?_) (fun htn _ => ?_), ?_⟩
    · rw [hafter] at hk'
      cases hk'
    · subst htn
      obtain ⟨task, script, hscript, _⟩ := h.client i hout
      refine ⟨task, script, hscript, fun k' hk' => ?_⟩
      rw [hafter] at hk'
      cases hk'
    · have hcalled : (s.threadQueues i).seen.points t = .called k := hk
      rw [seen_setQueue]
      rcases ht with rfl | rfl
      · obtain ⟨task, script, hscript, hpush⟩ := h.client i hout
        rw [hpush k hcalled] at hr
        obtain ⟨rfl, hq⟩ := Prod.mk.inj (Option.some.inj hr)
        have hqueue : q.seen.queue = (s.threadQueues i).seen.queue.push task := hq.symm
        rw [seenAt_client hscript (hother _ (by simp)), hafter]
        refine .single (.client ?_)
        have hbefore : s.seen.script = .submitTask i task :: script := by
          unfold seen seenAt
          rw [hscript]
          simp only [hcalled, AtomicPoint.result?, Option.isSome_none, Bool.false_eq_true, if_false]
        unfold ThreadPool.clientStep
        rw [hbefore, hqueue]
        rfl
      · rw [seenAt_worker (hother _ (by simp)), hafter]
        have hbefore : s.seen.workers i = s.workers i := by
          unfold seen seenAt
          simp only [hcalled, AtomicPoint.result?, Option.elim_none]
        have hstep := workerStep_answered (E := E) (s := s.seen) (i := i) (k := k)
          (hbefore ▸ h.worker i k hcalled) hr
        rw [hbefore] at hstep
        exact .single (.worker hstep)

/-- A thread calls a function of the queue that it may use. -/
theorem Sound.call {s : LockedPool n τ κ σ} {q : LockedQueue (PoolThread n) τ} (h : Sound s)
    (hs : (s.threadQueues i).call t k = some q) (ht : t = none ∨ t = some i)
    (hw : t = some i → (s.workers i).call? = some k)
    (hc : t = none → ∃ task script, s.script = .submitTask i task :: script ∧ k = .push task) :
    Sound (s.setQueue i q) ∧ (s.setQueue i q).seen = s.seen := by
  have hg := (h.guarded i).step (.call hs)
  obtain ⟨hp, rfl⟩ := LockedQueue.call_eq_some hs
  have hnow : ((s.threadQueues i).moveTo t (.locking k)).seen.points t = .called k := by
    unfold LockedQueue.seen LockedQueue.moveTo
    simp only [update_self]
    rfl
  have hbefore : (s.threadQueues i).seen.points t = .outside := congrArg QueuePoint.seen hp
  have hother (u : PoolThread n) (hne : u ≠ t) :
      ((s.threadQueues i).moveTo t (.locking k)).points u = (s.threadQueues i).points u :=
    update_of_ne hne _ _
  have hresult (u : PoolThread n) :
      (((s.threadQueues i).moveTo t (.locking k)).seen.points u).result? =
        ((s.threadQueues i).seen.points u).result? := by
    by_cases hut : u = t
    · subst hut
      rw [hnow, hbefore]
      rfl
    · exact congrArg AtomicPoint.result? (congrArg QueuePoint.seen (hother u hut))
  refine ⟨h.setQueue hg ht hother (fun k' hti hk' => ?_) (fun htn _ => ?_), ?_⟩
  · rw [hnow] at hk'
    cases hk'
    exact hw hti
  · obtain ⟨task, script, hscript, hk⟩ := hc htn
    refine ⟨task, script, hscript, fun k' hk' => ?_⟩
    rw [hnow] at hk'
    cases hk'
    exact hk
  · rw [seen_setQueue]
    exact seenAt_same rfl (hresult _) (hresult _)

/-- A thread leaves a function of its queue. -/
theorem Sound.ret {s : LockedPool n τ κ σ} {q : LockedQueue (PoolThread n) τ} (h : Sound s)
    (hs : (s.threadQueues i).ret t = some (r, q)) (ht : t = none ∨ t = some i) :
    Sound (s.setQueue i q) ∧ (s.threadQueues i).seen.points t = .answered r ∧
      q.queue = (s.threadQueues i).queue ∧ q.points t = .outside ∧
      ∀ u, u ≠ t → q.points u = (s.threadQueues i).points u := by
  have hg := (h.guarded i).step (.ret hs)
  obtain ⟨hp, rfl⟩ := LockedQueue.ret_eq_some hs
  have hout : ((s.threadQueues i).moveTo t .outside).points t = .outside := update_self ..
  have hother (u : PoolThread n) (hne : u ≠ t) :
      ((s.threadQueues i).moveTo t .outside).points u = (s.threadQueues i).points u :=
    update_of_ne hne _ _
  refine ⟨h.setQueue hg ht hother (fun k _ hk => ?_) (fun _ hne => absurd hout hne),
    congrArg QueuePoint.seen hp, rfl, hout, hother⟩
  rw [show ((s.threadQueues i).moveTo t .outside).seen.points t = .outside from
    congrArg QueuePoint.seen hout] at hk
  cases hk

theorem Sound.workerStep {s : LockedPool n τ κ σ} (h : Sound s)
    (hs : s.workerStep E i woken = some s') : Sound s' ∧ ThreadPool.Steps E s.seen s'.seen := by
  unfold LockedPool.workerStep at hs
  split at hs
  · rename_i hp
    have hbefore : (s.threadQueues i).seen.points (some i) = .outside :=
      congrArg QueuePoint.seen hp
    have hidle (k : QueueCall τ) : (s.threadQueues i).seen.points (some i) ≠ .called k := by
      rw [hbefore]
      exact fun he => by cases he
    have hworker : s.seen.workers i = s.workers i := by
      unfold seen seenAt
      simp only [hbefore, AtomicPoint.result?, Option.elim_none]
    split at hs
    · rename_i hw
      cases hs
      refine ⟨h.moveTo _ hidle, .single (.worker (i := i) ?_)⟩
      unfold ThreadPool.workerStep
      rw [hworker, hw, seen_moveTo hp]
      rfl
    · rename_i hw
      obtain ⟨q, hq, rfl⟩ := Option.map_eq_some_iff.1 hs
      obtain ⟨hsound, hseen⟩ := h.call hq (.inr rfl) (fun _ => by rw [hw]; rfl) (by simp)
      exact ⟨hsound, hseen ▸ .refl⟩
    · rename_i hw
      obtain ⟨q, hq, rfl⟩ := Option.map_eq_some_iff.1 hs
      obtain ⟨hsound, hseen⟩ := h.call hq (.inr rfl) (fun _ => by rw [hw]; rfl) (by simp)
      exact ⟨hsound, hseen ▸ .refl⟩
    · rename_i task hw
      obtain ⟨memory, hm, rfl⟩ := Option.map_eq_some_iff.1 hs
      have hmoved : Sound (s.moveTo i .readRunning) := h.moveTo _ hidle
      refine ⟨⟨hmoved.guarded, hmoved.stranger, hmoved.worker, hmoved.client⟩,
        .single (.worker (i := i) ?_)⟩
      unfold ThreadPool.workerStep
      rw [hworker, hw]
      refine Option.map_eq_some_iff.2 ⟨memory, hm, ?_⟩
      rw [← seen_moveTo hp]
      rfl
    · cases hs
  · rename_i r hp
    obtain ⟨⟨r', q⟩, hq, rfl⟩ := Option.map_eq_some_iff.1 hs
    obtain ⟨hsound, hr, hqueue, hout, hother⟩ := h.ret hq (.inr rfl)
    have hnow : ((s.setQueue i q).threadQueues i).points (some i) = .outside := by
      unfold LockedPool.setQueue
      simpa only [update_self] using hout
    have hworker : s.seen.workers i = (s.workers i).next r' := by
      unfold seen seenAt
      simp only [hr, AtomicPoint.result?, Option.elim_some]
    refine ⟨hsound.moveTo _ fun k hk => ?_, ?_⟩
    · rw [show ((s.setQueue i q).threadQueues i).seen.points (some i) = .outside from
        congrArg QueuePoint.seen hnow] at hk
      cases hk
    · have hsame : ((s.setQueue i q).moveTo i ((s.workers i).next r')).seen = s.seen := by
        rw [seen_moveTo hnow, seen_setQueue,
          seenAt_worker (congrArg QueuePoint.seen (hother none (by simp)))]
        unfold ThreadPool.moveTo
        have hq' : update s.seen.threadQueues i q.queue = s.seen.threadQueues :=
          update_eq_iff.2 ⟨hqueue, fun _ _ => rfl⟩
        have hw' : update s.seen.workers i ((s.workers i).next r') = s.seen.workers :=
          update_eq_iff.2 ⟨hworker.symm, fun _ _ => rfl⟩
        have hset (p : WorkerPoint τ) : { s.seen with
            threadQueues := update s.seen.threadQueues i q.queue
            workers := update (update s.seen.workers i p) i ((s.workers i).next r') } = s.seen := by
          rw [update_idem, hq', hw']
        exact hset _
      exact hsame ▸ .refl
  · rename_i hout hret
    obtain ⟨q, hq, rfl⟩ := Option.map_eq_some_iff.1 hs
    exact h.inside hq (.inr rfl)

theorem Sound.clientStep {s : LockedPool n τ κ σ} (h : Sound s)
    (hs : s.clientStep E woken = some s') : Sound s' ∧ ThreadPool.Steps E s.seen s'.seen := by
  unfold LockedPool.clientStep at hs
  split at hs
  · rename_i i task script hscript
    split at hs
    · obtain ⟨q, hq, rfl⟩ := Option.map_eq_some_iff.1 hs
      obtain ⟨hsound, hseen⟩ :=
        h.call hq (.inl rfl) (by simp) (fun _ => ⟨task, script, hscript, rfl⟩)
      exact ⟨hsound, hseen ▸ .refl⟩
    · obtain ⟨⟨r, q⟩, hq, rfl⟩ := Option.map_eq_some_iff.1 hs
      obtain ⟨hsound, hr, hqueue, hout, hother⟩ := h.ret hq (.inl rfl)
      -- the client was in no other queue
      have hfree (j : Fin n) : ((s.setQueue i q).threadQueues j).points none = .outside := by
        unfold LockedPool.setQueue
        by_cases hj : j = i
        · subst hj
          simpa only [update_self] using hout
        · simp only [update_of_ne hj]
          by_contra hne
          obtain ⟨_, _, he, _⟩ := h.client j hne
          rw [hscript] at he
          cases he
          exact hj rfl
      refine ⟨⟨hsound.guarded, hsound.stranger, hsound.worker,
        fun j hne => absurd (hfree j) hne⟩, ?_⟩
      have hbefore : s.seen.script = script := by
        unfold seen seenAt
        rw [hscript]
        simp only [hr, AtomicPoint.result?, Option.isSome_some, if_true]
      have hsame :
          ({ s.setQueue i q with script := script } : LockedPool n τ κ σ).seen = s.seen := by
        have hset := seen_setScript hfree script (s.setQueue i q).memory
        rw [seen_setQueue, seenAt_client hscript
          (congrArg QueuePoint.seen (hother (some i) (by simp)))] at hset
        have hq' : update s.seen.threadQueues i q.queue = s.seen.threadQueues :=
          update_eq_iff.2 ⟨hqueue, fun _ _ => rfl⟩
        refine hset.trans ?_
        show { s.seen with
          threadQueues := update s.seen.threadQueues i q.queue
          script := script } = s.seen
        rw [hq', ← hbefore]
      exact hsame ▸ .refl
    · obtain ⟨q, hq, rfl⟩ := Option.map_eq_some_iff.1 hs
      exact h.inside hq (.inl rfl)
  · rename_i k script hscript
    obtain ⟨memory, hm, rfl⟩ := Option.map_eq_some_iff.1 hs
    have hfree := h.outside_of_script fun i task rest he => by
      rw [hscript] at he
      cases he
    refine ⟨⟨h.guarded, h.stranger, h.worker, fun j hne => absurd (hfree j) hne⟩,
      .single (.client ?_)⟩
    rw [seen_setScript hfree script memory]
    have hother : s.seen.script = .other k :: script := by
      unfold seen seenAt
      rw [hscript]
    unfold ThreadPool.clientStep
    rw [hother]
    exact Option.map_eq_some_iff.2 ⟨memory, hm, rfl⟩
  · rename_i hscript
    split at hs
    · rename_i hrun
      cases hs
      refine ⟨⟨h.guarded, h.stranger, h.worker, h.client⟩, .single (.client ?_)⟩
      have hempty : s.seen.script = [] := by
        unfold seen seenAt
        rw [hscript]
      have hrunning : s.seen.running = true := hrun
      unfold ThreadPool.clientStep
      rw [hempty]
      dsimp only
      rw [if_pos hrunning, ← hempty]
      rfl
    · cases hs

theorem Sound.steps {script : List (ClientAction n τ κ)} {memory : σ} {s : LockedPool n τ κ σ}
    (h : LockedPool.Steps E (.start script memory) s) :
    Sound s ∧ ThreadPool.Steps E (.start script memory) s.seen := by
  induction h with
  | refl =>
    refine ⟨.start script memory, ?_⟩
    have hstart : (LockedPool.start script memory : LockedPool n τ κ σ).seen =
        .start script memory := by
      unfold seen seenAt
      cases script with
      | nil => rfl
      | cons action script => cases action <;> rfl
    exact hstart ▸ .refl
  | tail _ hs ih =>
    obtain ⟨hsound, hsteps⟩ := ih
    cases hs with
    | client hs =>
      obtain ⟨hsound', hsteps'⟩ := hsound.clientStep (E := E) hs
      exact ⟨hsound', hsteps.trans hsteps'⟩
    | worker hs =>
      obtain ⟨hsound', hsteps'⟩ := hsound.workerStep (E := E) hs
      exact ⟨hsound', hsteps.trans hsteps'⟩

end LockedPool

/-- Taking each function of a queue as one step loses nothing. Whatever the threads of a pool do,
when they hold and release the mutexes statement by statement, is also what a pool does in which
each call of a queue takes effect at once: the same flag, values in the queues, tasks run and
memory. A thread that is in no call is at the same point there. -/
theorem pool_refines {script : List (ClientAction n τ κ)} {s : LockedPool n τ κ σ}
    (h : LockedPool.Steps E (.start script memory) s) :
    ∃ s' : ThreadPool n τ κ σ, ThreadPool.Steps E (.start script memory) s' ∧
      s'.running = s.running ∧ (∀ i, s'.threadQueues i = (s.threadQueues i).queue) ∧
      s'.ran = s.ran ∧ s'.memory = s.memory ∧
      (∀ i, (s.threadQueues i).points (some i) = .outside → s'.workers i = s.workers i) ∧
      ((∀ i, (s.threadQueues i).points none = .outside) → s'.script = s.script) := by
  refine ⟨s.seen, (LockedPool.Sound.steps h).2, rfl, fun _ => rfl, rfl, rfl, fun i hp => ?_,
    fun hc => ?_⟩
  · have hout : (s.threadQueues i).seen.points (some i) = .outside := congrArg QueuePoint.seen hp
    unfold LockedPool.seen LockedPool.seenAt
    simp only [hout, AtomicPoint.result?, Option.elim_none]
  · exact congrArg ThreadPool.script (LockedPool.seen_setScript hc s.script s.memory)

/-- The steps of one interleaving: `none` is a step of the client, `some i` one of worker `i`. -/
def LockedPool.interleave (E : Effects τ κ σ) (s : LockedPool n τ κ σ) :
    List (Option (Fin n)) → Option (LockedPool n τ κ σ)
  | [] => some s
  | none :: turns => (s.clientStep E none).bind fun s' => s'.interleave E turns
  | some i :: turns => (s.workerStep E i none).bind fun s' => s'.interleave E turns

theorem LockedPool.steps_of_interleave {s s' : LockedPool n τ κ σ} {turns : List (Option (Fin n))}
    (h : s.interleave E turns = some s') : LockedPool.Steps E s s' := by
  induction turns generalizing s with
  | nil =>
    cases h
    exact .refl
  | cons turn turns ih =>
    cases turn with
    | none =>
      obtain ⟨s₁, hs, h⟩ := Option.bind_eq_some_iff.1 h
      exact (ih h).head (.client hs)
    | some i =>
      obtain ⟨s₁, hs, h⟩ := Option.bind_eq_some_iff.1 h
      exact (ih h).head (.worker hs)

end Locked

/-- Worker 0 wants the mutex of its queue while the client holds it, and then runs the task. -/
theorem pool_refines_threeTasks : ∃ (s : LockedPool 2 Nat Empty (List Nat))
    (s' : ThreadPool 2 Nat Empty (List Nat)),
    LockedPool.Steps logEffects (.start threeTasks []) s ∧
    ThreadPool.Steps logEffects (.start threeTasks []) s' ∧ s'.ran = s.ran ∧ s.memory = [10] := by
  have h : ((LockedPool.start threeTasks []).interleave logEffects
      [some 0, none, some 0, none, none, none, none, some 0, some 0, some 0, some 0, some 0,
        some 0]).map (fun s => s.memory) = some [10] := by decide
  obtain ⟨s, hs, hm⟩ := Option.map_eq_some_iff.1 h
  have hsteps := LockedPool.steps_of_interleave hs
  obtain ⟨s', hs', _, _, hran, _⟩ := pool_refines hsteps
  exact ⟨s, s', hsteps, hs', hran, hm⟩

end RapidTrader
