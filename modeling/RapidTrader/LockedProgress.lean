import RapidTrader.LockedPool
import RapidTrader.Progress

namespace RapidTrader
open Lib Relation Function
set_option autoImplicit true
set_option linter.unusedSectionVars false

/-! ### A call of a queue that nobody else is in the way of -/

namespace LockedQueue
section Calls
variable {θ τ : Type} [DecidableEq θ] [Inhabited τ] {s s' : LockedQueue θ τ} {t : θ}

/-- Thread `t` goes on in a function, while the others stand still. -/
def Goes (t : θ) (s s' : LockedQueue θ τ) : Prop := ∃ woken, s.threadStep t woken = some s'

/-- What thread `t` can come to: it has released the mutex. -/
structure Ended (t : θ) (s s' : LockedQueue θ τ) : Prop where
  goes : ReflTransGen (Goes t) s s'
  free : s'.m = none
  nobody : s'.c = ∅
  others : ∀ u, u ≠ t → s'.points u = s.points u
  done : s'.points t = .outside ∨ ∃ r, s'.points t = .returning r

theorem Ended.head (hs : s.threadStep t woken = some s₁) (h : Ended t s₁ s') : Ended t s s' :=
  ⟨h.goes.head ⟨woken, hs⟩, h.free, h.nobody,
    fun u hu => (h.others u hu).trans ((threadStep_inside hs).points_of_ne u hu), h.done⟩

theorem ret_of_returning (hp : s.points t = .returning r) :
    s.ret t = some (r, s.moveTo t .outside) := by
  unfold ret
  rw [hp]

theorem exists_ended_unlocking (hp : s.points t = .unlocking r) (hc : s.c = ∅) :
    ∃ s', Ended t s s' := by
  have hs : s.threadStep t none = some { s.moveTo t (.returning r) with m := none } := by
    unfold threadStep
    rw [hp]
  exact ⟨_, .head hs ⟨.refl, rfl, hc, fun _ _ => rfl, .inr ⟨r, update_self ..⟩⟩⟩

theorem exists_ended_notifying (hp : s.points t = .notifying) (hc : s.c = ∅) :
    ∃ s', Ended t s s' := by
  have hs : s.threadStep t none = some (s.moveTo t (.unlocking .pushed)) := by
    unfold threadStep notifyOne
    rw [hp]
    dsimp only
    rw [if_pos hc]
    rfl
  obtain ⟨s', h⟩ := exists_ended_unlocking (s := s.moveTo t (.unlocking .pushed))
    (update_self ..) hc
  exact ⟨s', h.head hs⟩

theorem exists_ended_popping (hp : s.points t = .popping k data) (hc : s.c = ∅) :
    ∃ s', Ended t s s' := by
  have hs : s.threadStep t none =
      some { s.moveTo t (.unlocking (.popped data)) with queue := s.queue.tail } := by
    unfold threadStep
    rw [hp]
  obtain ⟨s', h⟩ := exists_ended_unlocking
    (s := { s.moveTo t (.unlocking (.popped data)) with queue := s.queue.tail }) (update_self ..) hc
  exact ⟨s', h.head hs⟩

theorem exists_ended_locked (hp : s.points t = .locked k) (hk : k ≠ .waitAndPop) (hc : s.c = ∅) :
    ∃ s', Ended t s s' := by
  have hs : s.threadStep t none = some (s.enter t k) := by
    unfold threadStep
    rw [hp]
  have hin := enter_inside hp
  generalize s.enter t k = s₁ at hs hin
  obtain ⟨s', h⟩ : ∃ s', Ended t s₁ s' := by
    cases hin with
    | pushes => exact exists_ended_notifying (update_self ..) hc
    | tests => exact exists_ended_unlocking (update_self ..) hc
    | finds => exact exists_ended_popping (update_self ..) hc
    | misses => exact exists_ended_unlocking (update_self ..) hc
    | waits hp' _ =>
      rw [hp] at hp'
      cases hp'
      exact absurd rfl hk
    | locks hp' _ => rw [hp] at hp'; cases hp'
    | relocks hp' _ _ => rw [hp] at hp'; cases hp'
    | notifies hp' _ => rw [hp] at hp'; cases hp'
    | notifiesNone hp' _ => rw [hp] at hp'; cases hp'
    | pops hp' => rw [hp] at hp'; cases hp'
    | unlocks hp' => rw [hp] at hp'; cases hp'
  exact ⟨s', h.head hs⟩

/-- A thread that does not wait comes to the end of its call, if no other one holds the mutex. -/
theorem exists_ended (hg : Guarded s) (hm : s.m = none ∨ s.m = some t) (hc : s.c = ∅)
    (hk : (s.points t).seen ≠ .called .waitAndPop) : ∃ s', Ended t s s' := by
  have hfree (hn : ¬ (s.points t).Holds) : s.m = none :=
    hm.resolve_right fun h => hn ((hg.held t).2 h)
  cases hp : s.points t with
  | outside => exact ⟨s, .refl, hfree (by rw [hp]; exact id), hc, fun _ _ => rfl, .inl hp⟩
  | returning r =>
    exact ⟨s, .refl, hfree (by rw [hp]; exact id), hc, fun _ _ => rfl, .inr ⟨r, hp⟩⟩
  | waiting =>
    rw [hp] at hk
    exact absurd rfl hk
  | locking k =>
    have hs : s.threadStep t none = some { s.moveTo t (.locked k) with m := some t } := by
      unfold threadStep
      rw [hp]
      dsimp only
      rw [if_pos (hfree (by rw [hp]; exact id))]
    obtain ⟨s', h⟩ := exists_ended_locked (s := { s.moveTo t (.locked k) with m := some t })
      (update_self ..) (fun he => hk (by rw [hp, he]; rfl)) hc
    exact ⟨s', h.head hs⟩
  | locked k => exact exists_ended_locked hp (fun he => hk (by rw [hp, he]; rfl)) hc
  | notifying => exact exists_ended_notifying hp hc
  | popping k data => exact exists_ended_popping hp hc
  | unlocking r => exact exists_ended_unlocking hp hc

/-- A thread that goes on from the beginning of its call sees nothing of it, or the call has taken
effect. -/
theorem Goes.seen (hg : Guarded s) (hk : (s.points t).seen = .called k)
    (h : ReflTransGen (Goes t) s s') : Guarded s' ∧ (s'.seen = s.seen ∨
      ∃ r, k.answer s.queue = some (r, s'.queue) ∧ (s'.points t).seen = .answered r) := by
  induction h with
  | refl => exact ⟨hg, .inl rfl⟩
  | @tail s₁ s₂ _ hs ih =>
    obtain ⟨woken, hs⟩ := hs
    obtain ⟨hg₁, ih⟩ := ih
    have hin := threadStep_inside hs
    refine ⟨hg₁.inside hin, ?_⟩
    have hstep := hin.seen hg₁
    rcases ih with he | ⟨r, hr, hp⟩
    · have hp₁ : (s₁.points t).seen = .called k := (congrArg (·.points t) he).trans hk
      have hq₁ : s₁.queue = s.queue := congrArg AtomicQueue.queue he
      rcases hstep with he' | ⟨k', r, hk', hr, he'⟩
      · exact .inl (he'.trans he)
      · rw [hp₁] at hk'
        cases hk'
        rw [hq₁] at hr
        exact .inr ⟨r, hr, (congrArg (·.points t) he').trans (update_self ..)⟩
    · rcases hstep with he' | ⟨k', r', hk', _, _⟩
      · have hq₂ : s₂.queue = s₁.queue := congrArg AtomicQueue.queue he'
        exact .inr ⟨r, hq₂ ▸ hr, (congrArg (·.points t) he').trans hp⟩
      · rw [hp] at hk'
        cases hk'

/-- A queue that no thread is in. -/
def resting (q : Queue τ) : LockedQueue θ τ where
  m := none
  queue := q
  c := ∅
  points _ := .outside

theorem Guarded.resting (q : Queue τ) : Guarded (resting q : LockedQueue θ τ) :=
  ⟨Guarded.new.held, fun _ _ _ h => (by cases h), Guarded.new.blocked⟩

theorem eq_resting (hg : Guarded s) (hout : ∀ u, s.points u = .outside) :
    s = resting s.queue := by
  have hm : s.m = none := by
    by_contra hne
    obtain ⟨u, hu⟩ := Option.ne_none_iff_exists'.1 hne
    have hh := (hg.held u).2 hu
    rw [hout u] at hh
    exact hh
  have hc : s.c = ∅ := Finset.eq_empty_of_forall_notMem fun u hu => by
    have hw := hg.blocked u hu
    rw [hout u] at hw
    cases hw
  have hp : s.points = fun _ => .outside := funext hout
  cases s
  cases hm
  cases hc
  cases hp
  rfl

/-- A call that does not wait, from its beginning to its end. -/
theorem exists_call (t : θ) (hk : k ≠ .waitAndPop) (q : Queue τ) : ∃ s₁ s₂ r q',
    (resting q : LockedQueue θ τ).call t k = some s₁ ∧ ReflTransGen (Goes t) s₁ s₂ ∧
    s₂.ret t = some (r, resting q') ∧ k.answer q = some (r, q') := by
  have hcall : (resting q : LockedQueue θ τ).call t k =
      some ((resting q).moveTo t (.locking k)) := rfl
  have hg : Guarded ((resting q : LockedQueue θ τ).moveTo t (.locking k)) :=
    (Guarded.resting q).step (.call hcall)
  have hp : (((resting q : LockedQueue θ τ).moveTo t (.locking k)).points t) = .locking k :=
    update_self ..
  have hseen : (((resting q : LockedQueue θ τ).moveTo t (.locking k)).points t).seen =
      .called k := by
    rw [hp]
    rfl
  obtain ⟨s₂, h⟩ := exists_ended hg (.inl rfl) rfl (t := t)
    (by rw [hseen]; exact fun he => hk (AtomicPoint.called.inj he))
  obtain ⟨hg₂, hs⟩ := Goes.seen hg hseen h.goes
  have hother (u : θ) (hu : u ≠ t) : s₂.points u = .outside :=
    (h.others u hu).trans (update_of_ne hu _ _)
  obtain ⟨r, hr, hanswer⟩ : ∃ r, s₂.points t = .returning r ∧
      k.answer q = some (r, s₂.queue) := by
    rcases hs with he | ⟨r, hanswer, hr⟩
    · have hcalled : (s₂.points t).seen = .called k := (congrArg (·.points t) he).trans hseen
      rcases h.done with hd | ⟨r, hd⟩ <;>
      · rw [hd] at hcalled
        cases hcalled
    · rcases h.done with hd | ⟨r', hd⟩
      · rw [hd] at hr
        cases hr
      · rw [hd] at hr
        cases hr
        exact ⟨r, hd, hanswer⟩
  have hret := ret_of_returning hr
  have hrest : s₂.moveTo t .outside = resting s₂.queue := by
    refine eq_resting (s := s₂.moveTo t .outside) (hg₂.step (.ret hret)) fun u => ?_
    by_cases hu : u = t
    · subst hu
      exact update_self ..
    · exact (update_of_ne hu _ _).trans (hother u hu)
  exact ⟨_, s₂, r, s₂.queue, hcall, h.goes, hrest ▸ hret, hanswer⟩

end Calls
end LockedQueue

/-! ### A pool with no thread in a queue -/

section Pool
variable {n : Nat} {τ κ σ : Type} [Inhabited τ] {E : Effects τ κ σ}

/-- The same pool with queues that are taken statement by statement, when no thread is in one. -/
def ThreadPool.locked (p : ThreadPool n τ κ σ) : LockedPool n τ κ σ where
  running := p.running
  threadQueues i := .resting (p.threadQueues i)
  workers := p.workers
  ran := p.ran
  script := p.script
  memory := p.memory

theorem WorkerPoint.call?_ne {w : WorkerPoint τ} (hk : w.call? = some k) : k ≠ .waitAndPop := by
  rintro rfl
  cases w <;> cases hk

namespace LockedPool
variable {s : LockedPool n τ κ σ} {i : Fin n} {q : LockedQueue (PoolThread n) τ}
  {p p' : ThreadPool n τ κ σ} {script : List (ClientAction n τ κ)}

theorem threadQueues_setQueue (s : LockedPool n τ κ σ) (i : Fin n)
    (q : LockedQueue (PoolThread n) τ) : (s.setQueue i q).threadQueues i = q :=
  update_self ..

theorem setQueue_idem (s : LockedPool n τ κ σ) (i : Fin n) (q q' : LockedQueue (PoolThread n) τ) :
    (s.setQueue i q).setQueue i q' = s.setQueue i q' := by
  unfold setQueue
  dsimp only
  rw [update_idem]

theorem setQueue_self (s : LockedPool n τ κ σ) (i : Fin n) :
    s.setQueue i (s.threadQueues i) = s := by
  unfold setQueue
  rw [update_eq_self]

theorem workerStep_call (hk : (s.workers i).call? = some k)
    (hs : (s.threadQueues i).call (some i) k = some q) :
    s.workerStep E i none = some (s.setQueue i q) := by
  obtain ⟨hout, _⟩ := LockedQueue.call_eq_some hs
  unfold workerStep
  rw [hout]
  dsimp only
  cases hw : s.workers i with
  | testEmpty =>
    rw [hw] at hk
    cases hk
    dsimp only
    rw [hs]
    rfl
  | tryPop =>
    rw [hw] at hk
    cases hk
    dsimp only
    rw [hs]
    rfl
  | readRunning => rw [hw] at hk; cases hk
  | run task => rw [hw] at hk; cases hk
  | left => rw [hw] at hk; cases hk

theorem workerStep_inside (hs : (s.threadQueues i).threadStep (some i) woken = some q) :
    s.workerStep E i woken = some (s.setQueue i q) := by
  unfold workerStep
  split
  · exact absurd ‹_› (LockedQueue.threadStep_inside hs).not_outside
  · rename_i hp
    unfold LockedQueue.threadStep at hs
    rw [hp] at hs
    cases hs
  · rw [hs]
    rfl

theorem workerStep_ret (hs : (s.threadQueues i).ret (some i) = some (r, q)) :
    s.workerStep E i none = some ((s.setQueue i q).moveTo i ((s.workers i).next r)) := by
  obtain ⟨hp, _⟩ := LockedQueue.ret_eq_some hs
  unfold workerStep
  rw [hp]
  dsimp only
  rw [hs]
  rfl

theorem clientStep_call (hscript : s.script = .submitTask i task :: script)
    (hs : (s.threadQueues i).call none (.push task) = some q) :
    s.clientStep E none = some (s.setQueue i q) := by
  obtain ⟨hout, _⟩ := LockedQueue.call_eq_some hs
  unfold clientStep
  rw [hscript]
  dsimp only
  rw [hout]
  dsimp only
  rw [hs]
  rfl

theorem clientStep_inside (hscript : s.script = .submitTask i task :: script)
    (hs : (s.threadQueues i).threadStep none woken = some q) :
    s.clientStep E woken = some (s.setQueue i q) := by
  unfold clientStep
  rw [hscript]
  dsimp only
  split
  · exact absurd ‹_› (LockedQueue.threadStep_inside hs).not_outside
  · rename_i hp
    unfold LockedQueue.threadStep at hs
    rw [hp] at hs
    cases hs
  · rw [hs]
    rfl

theorem clientStep_ret (hscript : s.script = .submitTask i task :: script)
    (hs : (s.threadQueues i).ret none = some (r, q)) :
    s.clientStep E none = some { s.setQueue i q with script := script } := by
  obtain ⟨hp, _⟩ := LockedQueue.ret_eq_some hs
  unfold clientStep
  rw [hscript]
  dsimp only
  rw [hp]
  dsimp only
  rw [hs]
  rfl

/-- What a worker can do in its queue, it can do in the pool. -/
theorem steps_worker (h : ReflTransGen (LockedQueue.Goes (some i)) (s.threadQueues i) q) :
    Steps E s (s.setQueue i q) := by
  induction h with
  | refl => rw [setQueue_self]
  | @tail q₁ q₂ _ hs ih =>
    obtain ⟨woken, hs⟩ := hs
    rw [← threadQueues_setQueue s i q₁] at hs
    have hstep := workerStep_inside (E := E) hs
    rw [setQueue_idem] at hstep
    exact ih.tail (.worker hstep)

theorem steps_client (hscript : s.script = .submitTask i task :: script)
    (h : ReflTransGen (LockedQueue.Goes none) (s.threadQueues i) q) :
    Steps E s (s.setQueue i q) := by
  induction h with
  | refl => rw [setQueue_self]
  | @tail q₁ q₂ _ hs ih =>
    obtain ⟨woken, hs⟩ := hs
    rw [← threadQueues_setQueue s i q₁] at hs
    have hstep := clientStep_inside (E := E) (s := s.setQueue i q₁) hscript hs
    rw [setQueue_idem] at hstep
    exact ih.tail (.client hstep)

/-! ### What a pool does whose calls take effect at once -/

theorem setQueue_resting (p : ThreadPool n τ κ σ) (i : Fin n) (q : Queue τ) :
    p.locked.setQueue i (.resting q) =
      ThreadPool.locked { p with threadQueues := update p.threadQueues i q } := by
  have hq : update (fun j => (.resting (p.threadQueues j) : LockedQueue (PoolThread n) τ)) i
      (.resting q) = fun j => .resting (update p.threadQueues i q j) := by
    funext j
    by_cases hj : j = i
    · subst hj
      rw [update_self, update_self]
    · rw [update_of_ne hj, update_of_ne hj]
  unfold setQueue ThreadPool.locked
  dsimp only
  rw [hq]

/-- A worker whose next step is a call can make it statement by statement. -/
theorem locked_worker_call (hk : (p.workers i).call? = some k)
    (hs : p.workerStep E i = some p') : Steps E p.locked p'.locked := by
  obtain ⟨q₁, q₂, r, q, hcall, hgoes, hret, hanswer⟩ :=
    LockedQueue.exists_call (some i) (WorkerPoint.call?_ne hk) (p.threadQueues i)
  rw [workerStep_answered hk hanswer] at hs
  cases hs
  have h₁ : Steps E p.locked (p.locked.setQueue i q₁) :=
    .single (.worker (workerStep_call hk hcall))
  have h₂ : Steps E (p.locked.setQueue i q₁) (p.locked.setQueue i q₂) := by
    rw [← setQueue_idem p.locked i q₁ q₂]
    exact steps_worker (by rw [threadQueues_setQueue]; exact hgoes)
  have h₃ := workerStep_ret (E := E) (s := p.locked.setQueue i q₂)
    (by rw [threadQueues_setQueue]; exact hret)
  rw [setQueue_idem, setQueue_resting] at h₃
  exact (h₁.trans h₂).tail (.worker h₃)

theorem locked_submit (hscript : p.script = .submitTask i task :: script) :
    Steps E p.locked (ThreadPool.locked { p with
      threadQueues := update p.threadQueues i ((p.threadQueues i).push task)
      script := script }) := by
  obtain ⟨q₁, q₂, r, q, hcall, hgoes, hret, hanswer⟩ :=
    LockedQueue.exists_call (none : PoolThread n) (k := .push task) (by simp) (p.threadQueues i)
  cases hanswer
  have hs : p.locked.script = .submitTask i task :: script := hscript
  have h₁ : Steps E p.locked (p.locked.setQueue i q₁) :=
    .single (.client (clientStep_call hs hcall))
  have h₂ : Steps E (p.locked.setQueue i q₁) (p.locked.setQueue i q₂) := by
    rw [← setQueue_idem p.locked i q₁ q₂]
    exact steps_client hs (by rw [threadQueues_setQueue]; exact hgoes)
  have h₃ := clientStep_ret (E := E) (s := p.locked.setQueue i q₂) hs
    (by rw [threadQueues_setQueue]; exact hret)
  rw [setQueue_idem, setQueue_resting] at h₃
  exact (h₁.trans h₂).tail (.client h₃)

theorem locked_step (h : ThreadPool.Step E p p') : Steps E p.locked p'.locked := by
  cases h with
  | client hs =>
    unfold ThreadPool.clientStep at hs
    split at hs
    · cases hs
      exact locked_submit ‹_›
    · rename_i k script hscript
      obtain ⟨memory, hm, rfl⟩ := Option.map_eq_some_iff.1 hs
      refine .single (.client (show p.locked.clientStep E none = some _ from ?_))
      have hlocked : p.locked.script = .other k :: script := hscript
      unfold LockedPool.clientStep
      rw [hlocked]
      exact Option.map_eq_some_iff.2 ⟨memory, hm, rfl⟩
    · rename_i hscript
      obtain ⟨hrun, he⟩ := Option.ite_none_right_eq_some.1 hs
      cases he
      refine .single (.client (show p.locked.clientStep E none = some _ from ?_))
      have hlocked : p.locked.script = [] := hscript
      unfold LockedPool.clientStep
      rw [hlocked]
      dsimp only
      rw [if_pos (show p.locked.running = true from hrun), ← hlocked]
      rfl
  | worker hs =>
    rename_i i
    have hout : (p.locked.threadQueues i).points (some i) = .outside := rfl
    cases hw : p.workers i with
    | testEmpty => exact locked_worker_call (k := .empty) (by rw [hw]; rfl) hs
    | tryPop => exact locked_worker_call (k := .tryPop) (by rw [hw]; rfl) hs
    | readRunning =>
      unfold ThreadPool.workerStep at hs
      rw [hw] at hs
      cases hs
      refine .single (.worker (show p.locked.workerStep E i none = some _ from ?_))
      have hlocked : p.locked.workers i = .readRunning := hw
      unfold LockedPool.workerStep
      rw [hout]
      dsimp only
      rw [hlocked]
      rfl
    | run task =>
      unfold ThreadPool.workerStep at hs
      rw [hw] at hs
      obtain ⟨memory, hm, rfl⟩ := Option.map_eq_some_iff.1 hs
      refine .single (.worker (show p.locked.workerStep E i none = some _ from ?_))
      have hlocked : p.locked.workers i = .run task := hw
      unfold LockedPool.workerStep
      rw [hout]
      dsimp only
      rw [hlocked]
      exact Option.map_eq_some_iff.2 ⟨memory, hm, rfl⟩
    | left =>
      unfold ThreadPool.workerStep at hs
      rw [hw] at hs
      cases hs

theorem locked_steps (h : ThreadPool.Steps E p p') : Steps E p.locked p'.locked :=
  h.lift' _ fun _ _ => locked_step

/-! ### Out of the queues -/

theorem Sound.not_waiting (h : Sound s) (i : Fin n) (u : PoolThread n) :
    ((s.threadQueues i).points u).seen ≠ .called .waitAndPop := by
  intro hw
  cases u with
  | none =>
    have hout : (s.threadQueues i).points none ≠ .outside := fun he => by
      rw [he] at hw
      cases hw
    obtain ⟨task, script, _, hpush⟩ := h.client i hout
    cases hpush _ hw
  | some j =>
    by_cases hj : j = i
    · subst hj
      exact WorkerPoint.call?_ne (h.worker j _ hw) rfl
    · rw [h.stranger i j hj] at hw
      cases hw

theorem Sound.nobody (h : Sound s) (i : Fin n) : (s.threadQueues i).c = ∅ :=
  Finset.eq_empty_of_forall_notMem fun u hu =>
    h.not_waiting i u (by rw [(h.guarded i).blocked u hu]; rfl)

/-- A thread has come out of the queue `i`. -/
structure Out (i : Fin n) (u : PoolThread n) (s s' : LockedPool n τ κ σ) : Prop where
  free : (s'.threadQueues i).m = none
  outside : (s'.threadQueues i).points u = .outside
  others : ∀ v, v ≠ u → (s'.threadQueues i).points v = (s.threadQueues i).points v
  queues : ∀ j, j ≠ i → s'.threadQueues j = s.threadQueues j

theorem Out.of_setQueue {q' : LockedQueue (PoolThread n) τ} {u : PoolThread n}
    (h : LockedQueue.Ended u (s.threadQueues i) q) (hm : q'.m = none)
    (hp : q'.points u = .outside) (hv : ∀ v, v ≠ u → q'.points v = q.points v) :
    Out i u s (s.setQueue i q') := by
  constructor
  · rw [threadQueues_setQueue]
    exact hm
  · rw [threadQueues_setQueue]
    exact hp
  · intro v hne
    rw [threadQueues_setQueue]
    exact (hv v hne).trans (h.others v hne)
  · exact fun j hj => update_of_ne hj _ _

theorem exists_worker_out (h : Sound s) (i : Fin n)
    (hm : (s.threadQueues i).m = none ∨ (s.threadQueues i).m = some (some i)) :
    ∃ s', Steps E s s' ∧ Out i (some i) s s' := by
  obtain ⟨q, hq⟩ := LockedQueue.exists_ended (h.guarded i) hm (h.nobody i) (h.not_waiting i _)
  have hsteps : Steps E s (s.setQueue i q) := steps_worker hq.goes
  rcases hq.done with hp | ⟨r, hp⟩
  · exact ⟨_, hsteps, .of_setQueue hq hq.free hp fun _ _ => rfl⟩
  · have hstep := workerStep_ret (E := E) (s := s.setQueue i q)
      (by rw [threadQueues_setQueue]; exact LockedQueue.ret_of_returning hp)
    rw [setQueue_idem] at hstep
    have hout : Out i (some i) s (s.setQueue i (q.moveTo (some i) .outside)) :=
      .of_setQueue hq hq.free (update_self ..) fun v hv => update_of_ne hv _ _
    exact ⟨_, hsteps.tail (.worker hstep), hout.free, hout.outside, hout.others, hout.queues⟩

theorem exists_client_out (h : Sound s) (i : Fin n)
    (hm : (s.threadQueues i).m = none ∨ (s.threadQueues i).m = some none) :
    ∃ s', Steps E s s' ∧ Out i none s s' := by
  by_cases hin : (s.threadQueues i).points none = .outside
  · have hfree : (s.threadQueues i).m = none := hm.resolve_right fun he => by
      have hholds := ((h.guarded i).held none).2 he
      rw [hin] at hholds
      exact hholds
    exact ⟨s, .refl, hfree, hin, fun _ _ => rfl, fun _ _ => rfl⟩
  · obtain ⟨task, script, hscript, _⟩ := h.client i hin
    obtain ⟨q, hq⟩ := LockedQueue.exists_ended (h.guarded i) hm (h.nobody i) (h.not_waiting i _)
    have hsteps : Steps E s (s.setQueue i q) := steps_client hscript hq.goes
    rcases hq.done with hp | ⟨r, hp⟩
    · exact ⟨_, hsteps, .of_setQueue hq hq.free hp fun _ _ => rfl⟩
    · have hstep := clientStep_ret (E := E) (s := s.setQueue i q) hscript
        (by rw [threadQueues_setQueue]; exact LockedQueue.ret_of_returning hp)
      rw [setQueue_idem] at hstep
      have hout : Out i none s (s.setQueue i (q.moveTo none .outside)) :=
        .of_setQueue hq hq.free (update_self none _ q.points) fun v hv => update_of_ne hv _ _
      exact ⟨_, hsteps.tail (.client hstep), hout.free, hout.outside, hout.others, hout.queues⟩

/-- The thread that holds the mutex of a queue comes out of it first, then the other one. -/
theorem exists_queue_out {memory : σ} (hs : Steps E (.start script memory) s) (i : Fin n) :
    ∃ s', Steps E s s' ∧ (∀ u, (s'.threadQueues i).points u = .outside) ∧
      ∀ j, j ≠ i → s'.threadQueues j = s.threadQueues j := by
  have hsound := (Sound.steps hs).1
  have hall {s' : LockedPool n τ κ σ} (hs' : Steps E s s')
      (hw : (s'.threadQueues i).points (some i) = .outside)
      (hc : (s'.threadQueues i).points none = .outside) (u : PoolThread n) :
      (s'.threadQueues i).points u = .outside := by
    cases u with
    | none => exact hc
    | some j =>
      by_cases hj : j = i
      · subst hj
        exact hw
      · exact (Sound.steps (hs.trans hs')).1.stranger i j hj
  by_cases hm : (s.threadQueues i).m = some none
  · obtain ⟨s₁, hs₁, h₁⟩ := exists_client_out (E := E) hsound i (.inr hm)
    have hsound₁ := (Sound.steps (hs.trans hs₁)).1
    obtain ⟨s₂, hs₂, h₂⟩ := exists_worker_out (E := E) hsound₁ i (.inl h₁.free)
    have hc : (s₂.threadQueues i).points none = .outside :=
      (h₂.others none (by simp)).trans h₁.outside
    exact ⟨s₂, hs₁.trans hs₂, hall (hs₁.trans hs₂) h₂.outside hc,
      fun j hj => (h₂.queues j hj).trans (h₁.queues j hj)⟩
  · have hm' : (s.threadQueues i).m = none ∨ (s.threadQueues i).m = some (some i) := by
      cases hu : (s.threadQueues i).m with
      | none => exact .inl rfl
      | some u =>
        cases u with
        | none => exact absurd hu hm
        | some j =>
          by_cases hj : j = i
          · rw [hj]
            exact .inr rfl
          · have hholds := ((hsound.guarded i).held (some j)).2 hu
            rw [hsound.stranger i j hj] at hholds
            exact hholds.elim
    obtain ⟨s₁, hs₁, h₁⟩ := exists_worker_out (E := E) hsound i hm'
    have hsound₁ := (Sound.steps (hs.trans hs₁)).1
    obtain ⟨s₂, hs₂, h₂⟩ := exists_client_out (E := E) hsound₁ i (.inl h₁.free)
    have hw : (s₂.threadQueues i).points (some i) = .outside :=
      (h₂.others (some i) (by simp)).trans h₁.outside
    exact ⟨s₂, hs₁.trans hs₂, hall (hs₁.trans hs₂) hw h₂.outside,
      fun j hj => (h₂.queues j hj).trans (h₁.queues j hj)⟩

theorem eq_locked (h : Sound s) (hout : ∀ i u, (s.threadQueues i).points u = .outside) :
    s = s.seen.locked := by
  have hq : s.threadQueues = fun i => .resting (s.threadQueues i).queue :=
    funext fun i => LockedQueue.eq_resting (h.guarded i) (hout i)
  have hw : s.seen.workers = s.workers := funext fun i => by
    have hi : (s.threadQueues i).seen.points (some i) = .outside :=
      congrArg QueuePoint.seen (hout i _)
    unfold seen seenAt
    simp only [hi, AtomicPoint.result?, Option.elim_none]
  have hscript : s.seen.script = s.script :=
    congrArg ThreadPool.script (seen_setScript (fun j => hout j none) s.script s.memory)
  unfold ThreadPool.locked
  rw [hw, hscript]
  change s = { s with threadQueues := fun i => .resting (s.threadQueues i).queue }
  rw [← hq]

/-- All threads can come out of the queues. -/
theorem exists_locked {memory : σ} (hs : Steps E (.start script memory) s) :
    ∃ s', Steps E s s' ∧ s' = s'.seen.locked := by
  have hall (l : List (Fin n)) : ∃ s', Steps E s s' ∧
      ∀ i ∈ l, ∀ u, (s'.threadQueues i).points u = .outside := by
    induction l with
    | nil => exact ⟨s, .refl, nofun⟩
    | cons i l ih =>
      obtain ⟨s₁, hs₁, h₁⟩ := ih
      obtain ⟨s₂, hs₂, h₂, hother⟩ := exists_queue_out (hs.trans hs₁) i
      refine ⟨s₂, hs₁.trans hs₂, fun j hj => ?_⟩
      by_cases hji : j = i
      · subst hji
        exact h₂
      · rw [hother j hji]
        exact h₁ j ((List.mem_cons.1 hj).resolve_left hji)
  obtain ⟨s', hs', hout⟩ := hall (List.finRange n)
  exact ⟨s', hs', eq_locked (Sound.steps (hs.trans hs')).1 fun i => hout i (List.mem_finRange i)⟩

/-- The threads can finish at whatever statements they are. -/
theorem exists_finished {memory : σ} (hr : ThreadPool.Returns E script memory)
    (hs : Steps E (.start script memory) s) :
    ∃ s' : ThreadPool n τ κ σ, Steps E s s'.locked ∧ ThreadPool.Steps E (.start script memory) s' ∧
      s'.script = [] ∧ ∀ i, s'.workers i = .left := by
  obtain ⟨s₁, hs₁, he⟩ := exists_locked hs
  have hseen := (Sound.steps (hs.trans hs₁)).2
  obtain ⟨s', hs', hscript, hleft⟩ := ThreadPool.exists_finished hr hseen
  have hlocked := locked_steps hs'
  rw [← he] at hlocked
  exact ⟨s', hs₁.trans hlocked, hseen.trans hs', hscript, hleft⟩

/-! ### The end of a pool -/

/-- A worker that has left its loop is in no function of its queue. -/
def Departed (s : LockedPool n τ κ σ) : Prop :=
  ∀ i, s.workers i = .left → (s.threadQueues i).points (some i) = .outside

theorem Departed.setQueue (h : Departed s)
    (hq : s.workers i = .left → q.points (some i) = .outside) : Departed (s.setQueue i q) := by
  intro j hj
  unfold LockedPool.setQueue
  dsimp only
  by_cases hji : j = i
  · subst hji
    rw [update_self]
    exact hq hj
  · rw [update_of_ne hji]
    exact h j hj

theorem Departed.moveTo {w : WorkerPoint τ} (h : Departed s)
    (hw : w = .left → (s.threadQueues i).points (some i) = .outside) :
    Departed (s.moveTo i w) := by
  intro j hj
  unfold LockedPool.moveTo at hj
  dsimp only at hj
  by_cases hji : j = i
  · subst hji
    rw [update_self] at hj
    exact hw hj
  · rw [update_of_ne hji] at hj
    exact h j hj

/-- A worker that has left has also left in the pool that is seen. -/
theorem Departed.seen_left (h : Departed s) (hleft : s.workers i = .left) :
    s.seen.workers i = .left := by
  have hout : (s.threadQueues i).seen.points (some i) = .outside :=
    congrArg QueuePoint.seen (h i hleft)
  unfold seen seenAt
  simp only [hout, AtomicPoint.result?, Option.elim_none]
  exact hleft

theorem Departed.workerStep {s' : LockedPool n τ κ σ} (h : Departed s)
    (hs : s.workerStep E i woken = some s') : Departed s' := by
  unfold LockedPool.workerStep at hs
  split at hs
  · rename_i hp
    split at hs
    · cases hs
      exact h.moveTo fun _ => hp
    · rename_i hw
      obtain ⟨q, _, rfl⟩ := Option.map_eq_some_iff.1 hs
      exact h.setQueue fun hleft => by rw [hw] at hleft; cases hleft
    · rename_i hw
      obtain ⟨q, _, rfl⟩ := Option.map_eq_some_iff.1 hs
      exact h.setQueue fun hleft => by rw [hw] at hleft; cases hleft
    · obtain ⟨memory, _, rfl⟩ := Option.map_eq_some_iff.1 hs
      exact h.moveTo (w := .readRunning) fun hleft => by cases hleft
    · cases hs
  · obtain ⟨⟨r, q⟩, hq, rfl⟩ := Option.map_eq_some_iff.1 hs
    obtain ⟨_, rfl⟩ := LockedQueue.ret_eq_some hq
    have hout : ((s.threadQueues i).moveTo (some i) .outside).points (some i) = .outside :=
      update_self ..
    refine (h.setQueue fun _ => hout).moveTo fun _ => ?_
    unfold LockedPool.setQueue
    dsimp only
    rw [update_self]
    exact hout
  · rename_i hout _
    obtain ⟨q, _, rfl⟩ := Option.map_eq_some_iff.1 hs
    exact h.setQueue fun hleft => absurd (h i hleft) hout

theorem Departed.clientStep {s' : LockedPool n τ κ σ} (h : Departed s)
    (hs : s.clientStep E woken = some s') : Departed s' := by
  -- the client does not move a worker
  have hother {i : Fin n} {q : LockedQueue (PoolThread n) τ}
      (hu : ∀ u, u ≠ none → q.points u = (s.threadQueues i).points u) :
      Departed (s.setQueue i q) :=
    h.setQueue fun hleft => (hu (some i) (by simp)).trans (h i hleft)
  unfold LockedPool.clientStep at hs
  split at hs
  · split at hs
    · obtain ⟨q, hq, rfl⟩ := Option.map_eq_some_iff.1 hs
      obtain ⟨_, rfl⟩ := LockedQueue.call_eq_some hq
      exact hother fun u hu => update_of_ne hu _ _
    · obtain ⟨⟨r, q⟩, hq, rfl⟩ := Option.map_eq_some_iff.1 hs
      obtain ⟨_, rfl⟩ := LockedQueue.ret_eq_some hq
      exact hother fun u hu => update_of_ne hu _ _
    · obtain ⟨q, hq, rfl⟩ := Option.map_eq_some_iff.1 hs
      exact hother (LockedQueue.threadStep_inside hq).points_of_ne
  · obtain ⟨memory, _, rfl⟩ := Option.map_eq_some_iff.1 hs
    exact h
  · split at hs
    · cases hs
      exact h
    · cases hs

theorem Departed.steps {memory : σ} (h : Steps E (.start script memory) s) : Departed s := by
  induction h with
  | refl => exact fun _ _ => rfl
  | tail _ hs ih =>
    cases hs with
    | client hs => exact ih.clientStep hs
    | worker hs => exact ih.workerStep hs

/-- The destructor has joined the workers: then nothing is left to do. -/
theorem seen_finished [NeZero n] {memory : σ} (h : Steps E (.start script memory) s)
    (hleft : ∀ i, s.workers i = .left) :
    s.seen.script = [] ∧ ∀ i, ThreadPool.Idle i s.seen := by
  have horderly := Orderly.steps (Sound.steps h).2
  have hseen (i : Fin n) := (Departed.steps h).seen_left (hleft i)
  exact ⟨horderly.stopped (horderly.left (hseen 0)).1,
    fun i => ThreadPool.idle_of_left (Sound.steps h).2 (hseen i)⟩

end LockedPool

/-- Taking each function of a queue as one step adds nothing. Whatever a pool does in which each
call of a queue takes effect at once, a pool can do whose threads hold and release the mutexes, and
no thread is in a queue then. -/
theorem pool_attained {script : List (ClientAction n τ κ)} {p : ThreadPool n τ κ σ}
    (h : ThreadPool.Steps E (.start script memory) p) :
    LockedPool.Steps E (.start script memory) p.locked :=
  LockedPool.locked_steps h

end Pool

theorem pool_attained_threeTasks : ∃ p : ThreadPool 2 Nat Empty (List Nat),
    ThreadPool.Steps logEffects (.start threeTasks []) p ∧ p.memory = [10, 20] ∧
    LockedPool.Steps logEffects (.start threeTasks []) p.locked := by
  have h : ((ThreadPool.start threeTasks []).interleave logEffects
      [none, none, some 0, some 1, some 0, some 1, some 0, some 1]).map (fun p => p.memory) =
        some [10, 20] := by decide
  obtain ⟨p, hp, hm⟩ := Option.map_eq_some_iff.1 h
  have hsteps := ThreadPool.steps_of_interleave hp
  exact ⟨p, hsteps, hm, pool_attained hsteps⟩

end RapidTrader
