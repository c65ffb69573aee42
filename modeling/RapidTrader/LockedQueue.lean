import RapidTrader.ThreadPool
import RapidTrader.Lib.Simulation

namespace RapidTrader
open Lib Function
set_option autoImplicit true
set_option linter.unusedSectionVars false

/-- A call of a function of `Queue`. `tryPopPtr` is the `tryPop` without a parameter, which returns
a pointer to the value, or to a default-constructed one if there is none. -/
inductive QueueCall (τ : Type) where
  | push (data : τ) | waitAndPop | tryPopPtr | tryPop | empty
  deriving DecidableEq

inductive QueueResult (τ : Type) where
  | pushed | popped (data : τ) | notPopped | tested (isEmpty : Bool)
  deriving DecidableEq

inductive QueueAction (θ τ : Type) where
  | call (t : θ) (k : QueueCall τ)
  | ret (t : θ) (r : QueueResult τ)
  deriving DecidableEq

/-- Whether a call takes a value out of the queue. -/
def QueueCall.Pops : QueueCall τ → Prop
  | .waitAndPop | .tryPopPtr | .tryPop => True
  | .push _ | .empty => False

/-- What a call returns that finds the queue empty and does not wait. -/
def QueueCall.missed [Inhabited τ] : QueueCall τ → Option (QueueResult τ)
  | .tryPopPtr => some (.popped default)
  | .tryPop => some .notPopped
  | .push _ | .waitAndPop | .empty => none

/-! ### The queue and its mutex -/

/-- Where a thread is in a function of the queue. From `locked` to `unlocking` it holds the mutex. A
thread that waits is blocked as long as the condition variable has it. -/
inductive QueuePoint (τ : Type) where
  | outside
  | locking (k : QueueCall τ)
  | locked (k : QueueCall τ)
  | notifying
  | popping (k : QueueCall τ) (data : τ)
  | waiting
  | unlocking (r : QueueResult τ)
  | returning (r : QueueResult τ)
  deriving DecidableEq

/-- A `Queue` that is shared by threads, one statement after the other. -/
structure LockedQueue (θ τ : Type) where
  m : Option θ
  queue : Queue τ
  c : Finset θ
  points : θ → QueuePoint τ

section Locked
variable {θ τ : Type} [DecidableEq θ] [Inhabited τ]

namespace LockedQueue

def new : LockedQueue θ τ where
  m := none
  queue := []
  c := ∅
  points _ := .outside

def moveTo (s : LockedQueue θ τ) (t : θ) (p : QueuePoint τ) : LockedQueue θ τ :=
  { s with points := update s.points t p }

def call (s : LockedQueue θ τ) (t : θ) (k : QueueCall τ) : Option (LockedQueue θ τ) :=
  match s.points t with
  | .outside => some (s.moveTo t (.locking k))
  | _ => none

def ret (s : LockedQueue θ τ) (t : θ) : Option (QueueResult τ × LockedQueue θ τ) :=
  match s.points t with
  | .returning r => some (r, s.moveTo t .outside)
  | _ => none

/-- What a function does first when it has the mutex. -/
def enter (s : LockedQueue θ τ) (t : θ) (k : QueueCall τ) : LockedQueue θ τ :=
  match k, s.queue with
  | .push data, q => { s.moveTo t .notifying with queue := q.push data }
  | .empty, q => s.moveTo t (.unlocking (.tested q.empty))
  | k, data :: _ => s.moveTo t (.popping k data)
  | .waitAndPop, [] => { s.moveTo t .waiting with m := none, c := insert t s.c }
  | .tryPopPtr, [] => s.moveTo t (.unlocking (.popped default))
  | .tryPop, [] => s.moveTo t (.unlocking .notPopped)

/-- `c.notify_one()` wakes a thread that waits, if there is one. -/
def notifyOne (s : LockedQueue θ τ) : Option θ → Option (LockedQueue θ τ)
  | some u => if u ∈ s.c then some { s with c := s.c.erase u } else none
  | none => if s.c = ∅ then some s else none

/-- The next step of a thread inside of a function. -/
def threadStep (s : LockedQueue θ τ) (t : θ) (woken : Option θ) : Option (LockedQueue θ τ) :=
  match s.points t with
  | .locking k => if s.m = none then some { s.moveTo t (.locked k) with m := some t } else none
  | .locked k => some (s.enter t k)
  | .notifying => (s.notifyOne woken).map fun s' => s'.moveTo t (.unlocking .pushed)
  | .popping _ data =>
    some { s.moveTo t (.unlocking (.popped data)) with queue := s.queue.tail }
  | .waiting => if t ∉ s.c ∧ s.m = none then
      some { s.moveTo t (.locked .waitAndPop) with m := some t } else none
  | .unlocking r => some { s.moveTo t (.returning r) with m := none }
  | .outside | .returning _ => none

/-- Any thread may go on, and one that waits may wake up without having been notified. -/
inductive Step : LockedQueue θ τ → Option (QueueAction θ τ) → LockedQueue θ τ → Prop
  | call : s.call t k = some s' → Step s (some (.call t k)) s'
  | inside : s.threadStep t woken = some s' → Step s none s'
  | woken : t ∈ s.c → Step s none { s with c := s.c.erase t }
  | ret : s.ret t = some (r, s') → Step s (some (.ret t r)) s'

/-- What a step of a thread inside of a function can be. -/
inductive Inside (s : LockedQueue θ τ) (t : θ) : LockedQueue θ τ → Prop
  | locks : s.points t = .locking k → s.m = none →
    Inside s t { s.moveTo t (.locked k) with m := some t }
  | relocks : s.points t = .waiting → t ∉ s.c → s.m = none →
    Inside s t { s.moveTo t (.locked .waitAndPop) with m := some t }
  | pushes : s.points t = .locked (.push data) →
    Inside s t { s.moveTo t .notifying with queue := s.queue.push data }
  | tests : s.points t = .locked .empty →
    Inside s t (s.moveTo t (.unlocking (.tested s.queue.empty)))
  | finds : s.points t = .locked k → k.Pops → s.queue = data :: q →
    Inside s t (s.moveTo t (.popping k data))
  | misses : s.points t = .locked k → k.missed = some r → s.queue = [] →
    Inside s t (s.moveTo t (.unlocking r))
  | waits : s.points t = .locked .waitAndPop → s.queue = [] →
    Inside s t { s.moveTo t .waiting with m := none, c := insert t s.c }
  | notifies : s.points t = .notifying → u ∈ s.c →
    Inside s t { s.moveTo t (.unlocking .pushed) with c := s.c.erase u }
  | notifiesNone : s.points t = .notifying → s.c = ∅ →
    Inside s t (s.moveTo t (.unlocking .pushed))
  | pops : s.points t = .popping k data →
    Inside s t { s.moveTo t (.unlocking (.popped data)) with queue := s.queue.tail }
  | unlocks : s.points t = .unlocking r →
    Inside s t { s.moveTo t (.returning r) with m := none }

theorem Inside.points_of_ne {s s' : LockedQueue θ τ} (h : Inside s t s') (u : θ) (hu : u ≠ t) :
    s'.points u = s.points u := by
  cases h <;> exact update_of_ne hu _ _

theorem Inside.not_outside {s s' : LockedQueue θ τ} (h : Inside s t s') :
    s.points t ≠ .outside := by
  cases h <;> simp [*]

theorem enter_inside {s : LockedQueue θ τ} {k : QueueCall τ} (hp : s.points t = .locked k) :
    Inside s t (s.enter t k) := by
  unfold enter
  split
  · exact .pushes hp
  · exact .tests hp
  · rename_i k _ _ data q hpush hempty hq
    have hk : k.Pops := by
      cases k with
      | push data => exact absurd rfl (hpush data)
      | empty => exact absurd rfl hempty
      | waitAndPop => trivial
      | tryPopPtr => trivial
      | tryPop => trivial
    exact .finds hp hk hq
  · rename_i hq
    exact .waits hp hq
  · rename_i hq
    exact .misses hp rfl hq
  · rename_i hq
    exact .misses hp rfl hq

theorem threadStep_inside {s : LockedQueue θ τ} (h : s.threadStep t woken = some s') :
    Inside s t s' := by
  unfold threadStep at h
  split at h
  · rename_i k hp
    split at h
    · cases h
      exact .locks hp ‹_›
    · cases h
  · rename_i k hp
    cases h
    exact enter_inside hp
  · rename_i hp
    obtain ⟨s₁, hn, rfl⟩ := Option.map_eq_some_iff.1 h
    cases woken with
    | some u =>
      obtain ⟨hu, he⟩ := Option.ite_none_right_eq_some.1 hn
      cases he
      exact .notifies hp hu
    | none =>
      obtain ⟨hc, he⟩ := Option.ite_none_right_eq_some.1 hn
      cases he
      exact .notifiesNone hp hc
  · rename_i k data hp
    cases h
    exact .pops hp
  · rename_i hp
    split at h
    · rename_i hc
      cases h
      exact .relocks hp hc.1 hc.2
    · cases h
  · rename_i r hp
    cases h
    exact .unlocks hp
  · cases h
  · cases h

theorem call_eq_some {s : LockedQueue θ τ} (h : s.call t k = some s') :
    s.points t = .outside ∧ s' = s.moveTo t (.locking k) := by
  unfold call at h
  split at h
  · cases h
    exact ⟨‹_›, rfl⟩
  · cases h

theorem ret_eq_some {s : LockedQueue θ τ} (h : s.ret t = some (r, s')) :
    s.points t = .returning r ∧ s' = s.moveTo t .outside := by
  unfold ret at h
  split at h
  · cases h
    exact ⟨‹_›, rfl⟩
  · cases h

/-! ### The mutex -/

end LockedQueue

/-- Whether a thread holds the mutex. -/
def QueuePoint.Holds : QueuePoint τ → Prop
  | .locked _ | .notifying | .popping _ _ | .unlocking _ => True
  | .outside | .locking _ | .waiting | .returning _ => False

namespace LockedQueue

/-- What holds in every interleaving: the mutex is held by the one thread that is where it holds it,
and nobody else has changed the queue while a thread is about to take the front from it. -/
structure Guarded (s : LockedQueue θ τ) : Prop where
  held : ∀ t, (s.points t).Holds ↔ s.m = some t
  front : ∀ t k data, s.points t = .popping k data → k.Pops ∧ ∃ q, s.queue = data :: q
  blocked : ∀ t ∈ s.c, s.points t = .waiting

namespace Guarded
variable {s s' : LockedQueue θ τ} {t : θ}

theorem new : Guarded (LockedQueue.new : LockedQueue θ τ) :=
  ⟨fun _ => ⟨False.elim, fun h => absurd h.symm (Option.some_ne_none _)⟩,
    fun _ _ _ h => (by cases h), fun _ h => absurd h (Finset.notMem_empty _)⟩

/-- A thread moves to another point. It may change the queue if it holds the mutex. -/
theorem moved (h : Guarded s) (t : θ) (p : QueuePoint τ) (m : Option θ) (q : Queue τ) (c : Finset θ)
    (hm : p.Holds ↔ m = some t) (hother : ∀ u, u ≠ t → (s.m = some u ↔ m = some u))
    (hq : (s.points t).Holds ∨ q = s.queue)
    (hp : ∀ k data, p = .popping k data → k.Pops ∧ ∃ q', q = data :: q')
    (hc : ∀ u ∈ c, u ≠ t → u ∈ s.c) (ht : t ∈ c → p = .waiting) :
    Guarded ⟨m, q, c, update s.points t p⟩ := by
  constructor
  · intro u
    by_cases hu : u = t
    · subst hu
      simpa only [update_self] using hm
    · simpa only [update_of_ne hu] using (h.held u).trans (hother u hu)
  · intro u k data hpop
    by_cases hu : u = t
    · subst hu
      simp only [update_self] at hpop
      exact hp k data hpop
    · simp only [update_of_ne hu] at hpop
      have hholds : (s.points u).Holds := by
        rw [hpop]
        trivial
      -- two threads never hold the mutex at once
      have hsame : q = s.queue := hq.resolve_left fun htholds => hu <| Option.some.inj <|
        ((h.held u).1 hholds).symm.trans ((h.held t).1 htholds)
      rw [hsame]
      exact h.front u k data hpop
  · intro u huc
    by_cases hu : u = t
    · subst hu
      simpa only [update_self] using ht huc
    · simpa only [update_of_ne hu] using h.blocked u (hc u huc hu)

theorem holds (h : Guarded s) (hp : s.points t = p) (hh : p.Holds) : s.m = some t :=
  (h.held t).1 (hp ▸ hh)

/-- A thread goes on in the same section, or outside of any, and leaves the condition variable. -/
theorem moveTo (h : Guarded s) (p : QueuePoint τ) (hm : p.Holds ↔ (s.points t).Holds)
    (hp : ∀ k data, p = .popping k data → k.Pops ∧ ∃ q', s.queue = data :: q')
    (ht : t ∉ s.c) : Guarded (s.moveTo t p) :=
  h.moved t p s.m s.queue s.c (hm.trans (h.held t)) (fun _ _ => .rfl) (.inr rfl) hp
    (fun _ hu _ => hu) fun hc => absurd hc ht

theorem not_blocked (h : Guarded s) (hp : s.points t = p) (hw : p ≠ .waiting) : t ∉ s.c :=
  fun hc => hw (hp.symm.trans (h.blocked t hc))

theorem inside (h : Guarded s) (hs : Inside s t s') : Guarded s' := by
  cases hs with
  | @locks k hp hm =>
    exact h.moved t (.locked k) (some t) s.queue s.c (iff_of_true trivial rfl)
      (fun u hu => by simp [hm, Ne.symm hu]) (.inr rfl) (fun _ _ he => by cases he)
      (fun _ hu _ => hu) fun hc => absurd hc (h.not_blocked hp (by simp))
  | relocks hp hc hm =>
    exact h.moved t (.locked .waitAndPop) (some t) s.queue s.c (iff_of_true trivial rfl)
      (fun u hu => by simp [hm, Ne.symm hu]) (.inr rfl) (fun _ _ he => by cases he)
      (fun _ hu _ => hu) fun hc' => absurd hc' hc
  | @pushes data hp =>
    exact h.moved t .notifying s.m (s.queue.push data) s.c
      (iff_of_true trivial (h.holds hp trivial)) (fun _ _ => .rfl)
      (.inl (by rw [hp]; trivial)) (fun _ _ he => by cases he) (fun _ hu _ => hu)
      fun hc => absurd hc (h.not_blocked hp (by simp))
  | tests hp =>
    exact h.moveTo _ (by rw [hp]; exact Iff.rfl) (fun _ _ he => by cases he)
      (h.not_blocked hp (by simp))
  | @finds k data q hp hk hq =>
    refine h.moveTo _ (by rw [hp]; exact Iff.rfl) (fun k' data' he => ?_)
      (h.not_blocked hp (by simp))
    cases he
    exact ⟨hk, q, hq⟩
  | misses hp _ _ =>
    exact h.moveTo _ (by rw [hp]; exact Iff.rfl) (fun _ _ he => by cases he)
      (h.not_blocked hp (by simp))
  | waits hp _ =>
    have hm := h.holds hp trivial
    exact h.moved t .waiting none s.queue (insert t s.c) ⟨False.elim, fun he => by cases he⟩
      (fun u hu => by simp [hm, Ne.symm hu]) (.inr rfl) (fun _ _ he => by cases he)
      (fun _ hu hne => (Finset.mem_insert.1 hu).resolve_left hne) fun _ => rfl
  | @notifies u hp hu =>
    have hc := h.not_blocked hp (by simp)
    exact h.moved t (.unlocking .pushed) s.m s.queue (s.c.erase u)
      (iff_of_true trivial (h.holds hp trivial)) (fun _ _ => .rfl) (.inr rfl)
      (fun _ _ he => by cases he) (fun _ hv _ => Finset.mem_of_mem_erase hv)
      fun ht => absurd (Finset.mem_of_mem_erase ht) hc
  | notifiesNone hp _ =>
    exact h.moveTo _ (by rw [hp]; exact Iff.rfl) (fun _ _ he => by cases he)
      (h.not_blocked hp (by simp))
  | @pops k data hp =>
    exact h.moved t (.unlocking (.popped data)) s.m s.queue.tail s.c
      (iff_of_true trivial (h.holds hp trivial)) (fun _ _ => .rfl)
      (.inl (by rw [hp]; trivial)) (fun _ _ he => by cases he) (fun _ hu _ => hu)
      fun hc => absurd hc (h.not_blocked hp (by simp))
  | @unlocks r hp =>
    have hm := h.holds hp trivial
    exact h.moved t (.returning r) none s.queue s.c ⟨False.elim, fun he => by cases he⟩
      (fun u hu => by simp [hm, Ne.symm hu]) (.inr rfl) (fun _ _ he => by cases he)
      (fun _ hu _ => hu) fun hc => absurd hc (h.not_blocked hp (by simp))

theorem step (h : Guarded s) (hs : Step s a s') : Guarded s' := by
  cases hs with
  | call hs =>
    obtain ⟨hp, rfl⟩ := call_eq_some hs
    exact h.moveTo _ (by rw [hp]; exact Iff.rfl) (fun _ _ he => by cases he)
      (h.not_blocked hp (by simp))
  | inside hs => exact h.inside (threadStep_inside hs)
  | woken _ => exact ⟨h.held, h.front, fun t ht => h.blocked t (Finset.mem_of_mem_erase ht)⟩
  | ret hs =>
    obtain ⟨hp, rfl⟩ := ret_eq_some hs
    exact h.moveTo _ (by rw [hp]; exact Iff.rfl) (fun _ _ he => by cases he)
      (h.not_blocked hp (by simp))

end Guarded

end LockedQueue

/-! ### What the threads see of it -/

/-- What a call does to a queue. `waitAndPop` has no answer while it is empty. -/
def QueueCall.answer (q : Queue τ) : QueueCall τ → Option (QueueResult τ × Queue τ)
  | .push data => some (.pushed, q.push data)
  | .empty => some (.tested q.empty, q)
  | k => match q.tryPop with
    | some (data, q') => some (.popped data, q')
    | none => k.missed.map fun r => (r, q)

theorem QueueCall.answer_cons {k : QueueCall τ} (hk : k.Pops) (data : τ) (q : Queue τ) :
    k.answer (data :: q) = some (.popped data, q) := by
  cases k with
  | push _ => exact hk.elim
  | empty => exact hk.elim
  | waitAndPop => rfl
  | tryPopPtr => rfl
  | tryPop => rfl

theorem QueueCall.answer_nil {k : QueueCall τ} (hr : k.missed = some r) :
    k.answer [] = some (r, []) := by
  cases k with
  | push _ => cases hr
  | empty => cases hr
  | waitAndPop => cases hr
  | tryPopPtr => cases hr; rfl
  | tryPop => cases hr; rfl

/-- Where a thread is in a call that takes effect at once. -/
inductive AtomicPoint (τ : Type) where
  | outside
  | called (k : QueueCall τ)
  | answered (r : QueueResult τ)
  deriving DecidableEq

/-- The queue as it is meant: each call takes effect at one moment between its beginning and its
end. -/
structure AtomicQueue (θ τ : Type) where
  queue : Queue τ
  points : θ → AtomicPoint τ

namespace AtomicQueue

def new : AtomicQueue θ τ := ⟨[], fun _ => .outside⟩

def moveTo (s : AtomicQueue θ τ) (t : θ) (p : AtomicPoint τ) : AtomicQueue θ τ :=
  { s with points := update s.points t p }

inductive Step : AtomicQueue θ τ → Option (QueueAction θ τ) → AtomicQueue θ τ → Prop
  | call : s.points t = .outside → Step s (some (.call t k)) (s.moveTo t (.called k))
  | answer : s.points t = .called k → k.answer s.queue = some (r, q) →
    Step s none { s.moveTo t (.answered r) with queue := q }
  | ret : s.points t = .answered r → Step s (some (.ret t r)) (s.moveTo t .outside)

end AtomicQueue

/-- A call has taken effect when it has changed the queue, or when it has read that it is empty. -/
def QueuePoint.seen : QueuePoint τ → AtomicPoint τ
  | .outside => .outside
  | .locking k | .locked k | .popping k _ => .called k
  | .waiting => .called .waitAndPop
  | .notifying => .answered .pushed
  | .unlocking r | .returning r => .answered r

namespace LockedQueue

def seen (s : LockedQueue θ τ) : AtomicQueue θ τ := ⟨s.queue, fun t => (s.points t).seen⟩

theorem seen_update (points : θ → QueuePoint τ) (t : θ) (p : QueuePoint τ) :
    (fun u => (update points t p u).seen) = update (fun u => (points u).seen) t p.seen := by
  funext u
  by_cases hu : u = t
  · subst hu
    rw [update_self, update_self]
  · rw [update_of_ne hu, update_of_ne hu]

/-- A step inside of a function is not seen, or it is the moment when the call takes effect. -/
theorem Inside.seen {s s' : LockedQueue θ τ} (h : Guarded s) (hs : Inside s t s') :
    s'.seen = s.seen ∨ ∃ k r, (s.points t).seen = .called k ∧
      k.answer s.queue = some (r, s'.queue) ∧
      s'.seen = { s.seen.moveTo t (.answered r) with queue := s'.queue } := by
  have hsame (p : QueuePoint τ) (hp : p.seen = (s.points t).seen) (m : Option θ) (c : Finset θ) :
      LockedQueue.seen ⟨m, s.queue, c, update s.points t p⟩ = s.seen := by
    unfold LockedQueue.seen
    rw [seen_update, hp]
    exact congrArg _ (update_eq_self t fun u => (s.points u).seen)
  have hanswer (p : QueuePoint τ) (r : QueueResult τ) (hp : p.seen = .answered r) (m : Option θ)
      (q : Queue τ) (c : Finset θ) : LockedQueue.seen ⟨m, q, c, update s.points t p⟩ =
        { s.seen.moveTo t (.answered r) with queue := q } := by
    unfold LockedQueue.seen
    rw [seen_update, hp]
    rfl
  cases hs with
  | locks hp _ => exact .inl (hsame _ (by rw [hp]; rfl) _ _)
  | relocks hp _ _ => exact .inl (hsame _ (by rw [hp]; rfl) _ _)
  | @pushes data hp =>
    exact .inr ⟨.push data, .pushed, by rw [hp]; rfl, rfl, hanswer _ _ rfl _ _ _⟩
  | tests hp =>
    exact .inr ⟨.empty, .tested s.queue.empty, by rw [hp]; rfl, rfl, hanswer _ _ rfl _ _ _⟩
  | finds hp _ _ => exact .inl (hsame _ (by rw [hp]; rfl) _ _)
  | @misses k r hp hr hq =>
    refine .inr ⟨k, r, by rw [hp]; rfl, ?_, hanswer _ _ rfl _ _ _⟩
    rw [hq, QueueCall.answer_nil hr]
    exact congrArg _ (congrArg _ hq.symm)
  | waits hp _ => exact .inl (hsame _ (by rw [hp]; rfl) _ _)
  | notifies hp _ => exact .inl (hsame _ (by rw [hp]; rfl) _ _)
  | notifiesNone hp _ => exact .inl (hsame _ (by rw [hp]; rfl) _ _)
  | @pops k data hp =>
    obtain ⟨hk, q, hq⟩ := h.front t k data hp
    refine .inr ⟨k, .popped data, by rw [hp]; rfl, ?_, hanswer _ _ rfl _ _ _⟩
    rw [hq]
    exact QueueCall.answer_cons hk data q
  | unlocks hp => exact .inl (hsame _ (by rw [hp]; rfl) _ _)

theorem Step.seen {s s' : LockedQueue θ τ} (h : Guarded s) (hs : Step s a s') :
    Runs AtomicQueue.Step s.seen a.toList s'.seen := by
  have hmoved (t : θ) (p : QueuePoint τ) : (s.moveTo t p).seen = s.seen.moveTo t p.seen := by
    unfold LockedQueue.seen LockedQueue.moveTo
    rw [seen_update]
    rfl
  cases hs with
  | call hs =>
    obtain ⟨hp, rfl⟩ := call_eq_some hs
    rw [hmoved]
    exact .single (.call (congrArg QueuePoint.seen hp))
  | inside hs =>
    rcases (threadStep_inside hs).seen h with he | ⟨k, r, hk, hr, he⟩
    · rw [he]
      exact .refl
    · rw [he]
      exact .single (.answer hk hr)
  | woken _ => exact .refl
  | ret hs =>
    obtain ⟨hp, rfl⟩ := ret_eq_some hs
    rw [hmoved]
    exact .single (.ret (congrArg QueuePoint.seen hp))

end LockedQueue

/-- The functions of `Queue` are linearizable. For any number of threads and any interleaving of
their statements, the calls and results are those of a queue on which each call takes effect at one
moment between its beginning and its end, and that queue has the same values in the same order. -/
theorem queue_linearizable {s : LockedQueue θ τ} (h : Runs LockedQueue.Step .new history s) :
    ∃ s' : AtomicQueue θ τ, Runs AtomicQueue.Step .new history s' ∧ s'.queue = s.queue ∧
      ∀ t, s'.points t = (s.points t).seen := by
  have hr : LockedQueue.Guarded (.new : LockedQueue θ τ) ∧
      (AtomicQueue.new : AtomicQueue θ τ) = LockedQueue.seen .new := ⟨.new, rfl⟩
  have hstep (s : LockedQueue θ τ) (a) (s₁ : LockedQueue θ τ) (s' : AtomicQueue θ τ)
      (hst : s.Guarded ∧ s' = s.seen) (hs : s.Step a s₁) :
      ∃ s₁', Runs AtomicQueue.Step s' a.toList s₁' ∧ s₁.Guarded ∧ s₁' = s₁.seen :=
    ⟨s₁.seen, hst.2 ▸ hs.seen hst.1, hst.1.step hs, rfl⟩
  obtain ⟨s', hs', _, rfl⟩ := Runs.simulate
    (R := fun s s' => LockedQueue.Guarded s ∧ s' = s.seen) hstep h hr
  exact ⟨_, hs', rfl, fun _ => rfl⟩

/-- A turn in an interleaving of threads that call the functions of a queue. -/
inductive QueueTurn (θ τ : Type) where
  | call (t : θ) (k : QueueCall τ)
  | inside (t : θ) (woken : Option θ)
  | ret (t : θ)

/-- The actions that the turns of one interleaving show, and the state they lead to. -/
def LockedQueue.interleave (s : LockedQueue θ τ) :
    List (QueueTurn θ τ) → Option (List (QueueAction θ τ) × LockedQueue θ τ)
  | [] => some ([], s)
  | .call t k :: turns => (s.call t k).bind fun s' =>
    (s'.interleave turns).map fun x => (.call t k :: x.1, x.2)
  | .inside t woken :: turns => (s.threadStep t woken).bind fun s' => s'.interleave turns
  | .ret t :: turns => (s.ret t).bind fun y =>
    (y.2.interleave turns).map fun x => (.ret t y.1 :: x.1, x.2)

theorem LockedQueue.runs_of_interleave {s s' : LockedQueue θ τ} {turns : List (QueueTurn θ τ)}
    (h : s.interleave turns = some (history, s')) : Runs LockedQueue.Step s history s' := by
  induction turns generalizing s history with
  | nil =>
    cases h
    exact .refl
  | cons turn turns ih =>
    cases turn with
    | call t k =>
      obtain ⟨s₁, hs, h⟩ := Option.bind_eq_some_iff.1 h
      obtain ⟨x, hx, he⟩ := Option.map_eq_some_iff.1 h
      cases he
      exact (Runs.single (.call hs)).trans (ih hx)
    | inside t woken =>
      obtain ⟨s₁, hs, h⟩ := Option.bind_eq_some_iff.1 h
      exact (Runs.single (.inside hs)).trans (ih h)
    | ret t =>
      obtain ⟨⟨r, s₁⟩, hs, h⟩ := Option.bind_eq_some_iff.1 h
      obtain ⟨x, hx, he⟩ := Option.map_eq_some_iff.1 h
      cases he
      exact (Runs.single (.ret hs)).trans (ih hx)

end Locked

/-- One thread waits until another one has pushed a value. -/
def waitingTurns : List (QueueTurn Bool Nat) :=
  [.call false .waitAndPop, .inside false none, .inside false none, .call true (.push 7),
    .inside true none, .inside true none, .inside true (some false), .inside true none, .ret true,
    .inside false none, .inside false none, .inside false none, .inside false none, .ret false]

theorem queue_linearizable_waitingTurns : ∃ s s',
    Runs LockedQueue.Step (.new : LockedQueue Bool Nat) [.call false .waitAndPop,
      .call true (.push 7), .ret true .pushed, .ret false (.popped 7)] s ∧
    Runs AtomicQueue.Step .new [.call false .waitAndPop, .call true (.push 7), .ret true .pushed,
      .ret false (.popped 7)] s' ∧ s'.queue = s.queue := by
  have h : ((LockedQueue.new : LockedQueue Bool Nat).interleave waitingTurns).map Prod.fst =
      some [.call false .waitAndPop, .call true (.push 7), .ret true .pushed,
        .ret false (.popped 7)] := by decide
  obtain ⟨⟨history, s⟩, hs, rfl⟩ := Option.map_eq_some_iff.1 h
  have hr := LockedQueue.runs_of_interleave hs
  obtain ⟨s', hs', hq, _⟩ := queue_linearizable hr
  exact ⟨s, s', hr, hs', hq⟩

/-! ### Threads that wait -/

section Locked
variable {θ τ : Type} [DecidableEq θ] [Inhabited τ]

namespace LockedQueue

/-- A thread in `waitAndPop` that is going to look into the queue, or is taking a value from it. -/
def Awake (s : LockedQueue θ τ) (t : θ) : Prop :=
  s.points t = .waiting ∧ t ∉ s.c ∨ s.points t = .locked .waitAndPop ∨
    ∃ data, s.points t = .popping .waitAndPop data

theorem Awake.congr {s s' : LockedQueue θ τ} (h : s.Awake t) (hp : s'.points t = s.points t)
    (hc : s'.c ⊆ s.c) : s'.Awake t := by
  unfold Awake
  rw [hp]
  exact h.imp_left fun hw => ⟨hw.1, fun hmem => hw.2 (hc hmem)⟩

/-- While a thread is blocked, each value in the queue has a thread that is awake for it, or is the
one whose push is about to notify. -/
structure Attended (s : LockedQueue θ τ) : Prop where
  guarded : Guarded s
  awake : s.c.Nonempty → ∃ ts : Finset θ, (∀ t ∈ ts, s.Awake t) ∧
    (s.queue.length ≤ ts.card ∨ (∃ t, s.points t = .notifying) ∧ s.queue.length ≤ ts.card + 1)

namespace Attended
variable {s s' : LockedQueue θ τ} {t : θ}

theorem new : Attended (LockedQueue.new : LockedQueue θ τ) :=
  ⟨.new, fun h => absurd h Finset.not_nonempty_empty⟩

/-- A thread moves on, and neither takes a value nor puts one in, nor is it awake and falls
asleep. -/
theorem moved (h : Attended s) (hg : Guarded s') (hq : s'.queue = s.queue) (hc : s'.c ⊆ s.c)
    (hu : ∀ u, u ≠ t → s'.points u = s.points u) (ht : s.Awake t → s'.Awake t)
    (hn : s.points t ≠ .notifying) : Attended s' := by
  refine ⟨hg, fun hne => ?_⟩
  obtain ⟨ts, hts, hlen⟩ := h.awake (hne.mono hc)
  refine ⟨ts, fun u hmem => ?_, ?_⟩
  · by_cases hut : u = t
    · rw [hut]
      exact ht (hut ▸ hts u hmem)
    · exact (hts u hmem).congr (hu u hut) hc
  · rw [hq]
    refine hlen.imp_right fun ⟨⟨u, hun⟩, hle⟩ => ⟨⟨u, ?_⟩, hle⟩
    rw [hu u fun he => hn (he ▸ hun)]
    exact hun

/-- While a thread that has the mutex is elsewhere, nobody is about to notify. -/
theorem length_le (h : Attended s) (hp : (s.points t).Holds) (hn : s.points t ≠ .notifying)
    (hne : s.c.Nonempty) :
    ∃ ts : Finset θ, (∀ u ∈ ts, s.Awake u) ∧ s.queue.length ≤ ts.card := by
  obtain ⟨ts, hts, hlen⟩ := h.awake hne
  refine ⟨ts, hts, hlen.resolve_right fun ⟨⟨u, hu⟩, _⟩ => ?_⟩
  have hut : u = t := Option.some.inj <|
    (h.guarded.holds hu trivial).symm.trans ((h.guarded.held t).1 hp)
  exact hn (hut ▸ hu)

theorem inside (h : Attended s) (hs : Inside s t s') : Attended s' := by
  have hg := h.guarded.inside hs
  have hasleep {p : QueuePoint τ} (hp : s.points t = p) (hw : p ≠ .waiting)
      (hl : p ≠ .locked .waitAndPop) (hpop : ∀ data, p ≠ .popping .waitAndPop data) :
      ¬ s.Awake t := by
    rintro (⟨he, _⟩ | he | ⟨data, he⟩)
    · exact hw (hp.symm.trans he)
    · exact hl (hp.symm.trans he)
    · exact hpop data (hp.symm.trans he)
  have hother {p : QueuePoint τ} (u : θ) (hu : u ≠ t) : update s.points t p u = s.points u :=
    update_of_ne hu _ _
  cases hs with
  | locks hp _ =>
    exact h.moved hg rfl (Finset.Subset.refl _) hother
      (fun ha => absurd ha (hasleep hp (by simp) (by simp) (by simp))) (by simp [hp])
  | relocks hp _ _ =>
    exact h.moved hg rfl (Finset.Subset.refl _) hother (fun _ => .inr (.inl (update_self ..)))
      (by simp [hp])
  | @pushes data hp =>
    refine ⟨hg, fun hne => ?_⟩
    obtain ⟨ts, hts, hlen⟩ := h.length_le (t := t) (by rw [hp]; trivial) (by simp [hp]) hne
    have hnot := hasleep hp (by simp) (by simp) (by simp)
    refine ⟨ts, fun u hu => ?_, .inr ⟨⟨t, update_self ..⟩, ?_⟩⟩
    · exact (hts u hu).congr (hother u fun he => hnot (he ▸ hts u hu)) (Finset.Subset.refl _)
    · simpa [Queue.push] using hlen
  | tests hp =>
    exact h.moved hg rfl (Finset.Subset.refl _) hother
      (fun ha => absurd ha (hasleep hp (by simp) (by simp) (by simp))) (by simp [hp])
  | @finds k data q hp hk hq =>
    refine h.moved hg rfl (Finset.Subset.refl _) hother (fun ha => ?_) (by simp [hp])
    have hwait : k = .waitAndPop := by simpa [Awake, hp] using ha
    rw [hwait]
    exact .inr (.inr ⟨data, update_self ..⟩)
  | @misses k r hp hr hq =>
    have hk : k ≠ .waitAndPop := by
      rintro rfl
      cases hr
    exact h.moved hg rfl (Finset.Subset.refl _) hother
      (fun ha => absurd ha (hasleep hp (by simp) (by simpa using hk) (by simp))) (by simp [hp])
  | waits hp hq =>
    exact ⟨hg, fun _ =>
      ⟨∅, fun u hu => absurd hu (Finset.notMem_empty u), .inl (by simp [moveTo, hq])⟩⟩
  | @notifies u hp hu =>
    refine ⟨hg, fun hne => ?_⟩
    obtain ⟨ts, hts, hlen⟩ := h.awake (hne.mono (Finset.erase_subset _ _))
    have hwait : s.points u = .waiting := h.guarded.blocked u hu
    have hut : u ≠ t := by
      rintro rfl
      rw [hp] at hwait
      cases hwait
    have hmem : u ∉ ts := fun hmem => by
      rcases hts u hmem with ⟨_, hc⟩ | he | ⟨data, he⟩
      · exact hc hu
      · rw [hwait] at he
        cases he
      · rw [hwait] at he
        cases he
    have hnot := hasleep hp (by simp) (by simp) (by simp)
    refine ⟨insert u ts, fun v hv => ?_, .inl ?_⟩
    · rcases Finset.mem_insert.1 hv with rfl | hv
      · exact .inl ⟨(hother v hut).trans hwait, Finset.notMem_erase v s.c⟩
      · exact (hts v hv).congr (hother v fun he => hnot (he ▸ hts v hv)) (Finset.erase_subset _ _)
    · rw [Finset.card_insert_of_notMem hmem]
      show s.queue.length ≤ _
      rcases hlen with hle | ⟨_, hle⟩
      · omega
      · exact hle
  | notifiesNone hp hc =>
    refine ⟨hg, fun hne => absurd hne ?_⟩
    show ¬ s.c.Nonempty
    rw [hc]
    exact Finset.not_nonempty_empty
  | @pops k data hp =>
    refine ⟨hg, fun hne => ?_⟩
    obtain ⟨ts, hts, hlen⟩ := h.length_le (t := t) (by rw [hp]; trivial) (by simp [hp]) hne
    refine ⟨ts.erase t, fun u hu => ?_, .inl ?_⟩
    · exact (hts u (Finset.mem_of_mem_erase hu)).congr (hother u (Finset.ne_of_mem_erase hu))
        (Finset.Subset.refl _)
    · have hcard := Finset.pred_card_le_card_erase (s := ts) (a := t)
      show s.queue.tail.length ≤ _
      rw [List.length_tail]
      omega
  | unlocks hp =>
    exact h.moved hg rfl (Finset.Subset.refl _) hother
      (fun ha => absurd ha (hasleep hp (by simp) (by simp) (by simp))) (by simp [hp])

theorem step (h : Attended s) (hs : Step s a s') : Attended s' := by
  have hg := h.guarded.step hs
  cases hs with
  | call hs =>
    obtain ⟨hp, rfl⟩ := call_eq_some hs
    exact h.moved hg rfl (Finset.Subset.refl _) (fun u hu => update_of_ne hu _ _)
      (fun ha => by simp [Awake, hp] at ha) (by simp [hp])
  | inside hs => exact h.inside (threadStep_inside hs)
  | woken ht =>
    refine ⟨hg, fun hne => ?_⟩
    obtain ⟨ts, hts, hlen⟩ := h.awake (hne.mono (Finset.erase_subset _ _))
    exact ⟨ts, fun u hu => (hts u hu).congr rfl (Finset.erase_subset _ _), hlen⟩
  | ret hs =>
    obtain ⟨hp, rfl⟩ := ret_eq_some hs
    exact h.moved hg rfl (Finset.Subset.refl _) (fun u hu => update_of_ne hu _ _)
      (fun ha => by simp [Awake, hp] at ha) (by simp [hp])

end Attended

/-- A thread can go on with its call. -/
def GoesOn (s : LockedQueue θ τ) (t : θ) : Prop :=
  (∃ woken s', s.threadStep t woken = some s') ∨ ∃ r s', s.ret t = some (r, s')

/-- The thread that has the mutex can go on, whatever it does. -/
theorem goesOn_of_holds {s : LockedQueue θ τ} (h : (s.points t).Holds) : s.GoesOn t := by
  unfold GoesOn threadStep
  cases hp : s.points t with
  | outside => exact absurd h (by rw [hp]; exact id)
  | locking k => exact absurd h (by rw [hp]; exact id)
  | waiting => exact absurd h (by rw [hp]; exact id)
  | returning r => exact absurd h (by rw [hp]; exact id)
  | locked k => exact .inl ⟨none, _, rfl⟩
  | popping k data => exact .inl ⟨none, _, rfl⟩
  | unlocking r => exact .inl ⟨none, _, rfl⟩
  | notifying =>
    rcases s.c.eq_empty_or_nonempty with hc | ⟨u, hu⟩
    · exact .inl ⟨none, _, Option.map_eq_some_iff.2 ⟨_, if_pos hc, rfl⟩⟩
    · exact .inl ⟨some u, _, Option.map_eq_some_iff.2 ⟨_, if_pos hu, rfl⟩⟩

end LockedQueue

/-- No wake-up is lost and no thread is locked out. In every interleaving, as long as a thread is in
a function and is not blocked in `waitAndPop`, some thread can go on, and while the queue has a
value, not all the threads in functions are blocked. -/
theorem queue_never_stuck {s : LockedQueue θ τ} (h : Runs LockedQueue.Step .new history s) :
    (∃ t, s.GoesOn t) ∨
      (∀ t, s.points t = .outside ∨ t ∈ s.c) ∧ (s.c.Nonempty → s.queue = []) := by
  have ha : LockedQueue.Attended s :=
    h.induct (fun _ _ _ ha hs => LockedQueue.Attended.step ha hs) .new
  cases hm : s.m with
  | some t => exact .inl ⟨t, LockedQueue.goesOn_of_holds ((ha.guarded.held t).2 hm)⟩
  | none =>
    by_cases hg : ∃ t, s.GoesOn t
    · exact .inl hg
    · have hfree {t : θ} {p : QueuePoint τ} (hp : s.points t = p) : ¬ p.Holds := fun hh => by
        rw [ha.guarded.holds hp hh] at hm
        cases hm
      have hin (t : θ) : s.points t = .outside ∨ t ∈ s.c := by
        by_contra hne
        obtain ⟨hout, hc⟩ := not_or.1 hne
        refine hg ⟨t, ?_⟩
        unfold LockedQueue.GoesOn LockedQueue.threadStep LockedQueue.ret
        cases hp : s.points t with
        | outside => exact absurd hp hout
        | locking k => exact .inl ⟨none, _, if_pos hm⟩
        | waiting => exact .inl ⟨none, _, if_pos ⟨hc, hm⟩⟩
        | returning r => exact .inr ⟨r, _, rfl⟩
        | locked k => exact absurd trivial (hfree hp)
        | notifying => exact absurd trivial (hfree hp)
        | popping k data => exact absurd trivial (hfree hp)
        | unlocking r => exact absurd trivial (hfree hp)
      refine .inr ⟨hin, fun hne => ?_⟩
      obtain ⟨ts, hts, hlen⟩ := ha.awake hne
      have hasleep : ts = ∅ := Finset.eq_empty_of_forall_notMem fun t ht => by
        rcases hts t ht with ⟨hw, hc⟩ | hl | ⟨data, hl⟩
        · rcases hin t with hout | hmem
          · rw [hout] at hw
            cases hw
          · exact hc hmem
        · exact hfree hl trivial
        · exact hfree hl trivial
      rw [hasleep, Finset.card_empty] at hlen
      rcases hlen with hle | ⟨⟨t, hn⟩, _⟩
      · exact List.eq_nil_of_length_eq_zero (Nat.le_zero.1 hle)
      · exact absurd trivial (hfree hn)

end Locked

/-- The thread that waits has been notified, and has yet to get the mutex. -/
theorem queue_never_stuck_waitingTurns : ∃ s,
    Runs LockedQueue.Step (.new : LockedQueue Bool Nat)
      [.call false .waitAndPop, .call true (.push 7)] s ∧ s.queue = [7] ∧
    ((∃ t, s.GoesOn t) ∨
      (∀ t, s.points t = .outside ∨ t ∈ s.c) ∧ (s.c.Nonempty → s.queue = [])) := by
  have h : ((LockedQueue.new : LockedQueue Bool Nat).interleave (waitingTurns.take 7)).map
      (fun x => (x.1, x.2.queue)) =
      some ([.call false .waitAndPop, .call true (.push 7)], [7]) := by
    decide
  obtain ⟨⟨history, s⟩, hs, he⟩ := Option.map_eq_some_iff.1 h
  obtain ⟨rfl, hq⟩ := Prod.mk.inj he
  have hr := LockedQueue.runs_of_interleave hs
  exact ⟨s, hr, hq, queue_never_stuck hr⟩

end RapidTrader
