import SystemsProjects.Qthreads.Placement

/-!
# The Location Invariant Along Runs

Every step of the abstract scheduler keeps `Placed`, provided no thread is joined by two
threads or by itself. The wake loop holds its head outside every queue while it rotates
the others, the choice of the next thread takes the front of the active list, and the code
before the call of `schedule` leaves the current thread for `schedule` to file.

## Main results

* `SchedFrame`: what the scheduler proper does not touch.
* `Dispatch.placed`: the choice of the next thread.
* `Sched.Inv`, `Sched.Step.inv`: the invariant, and its preservation.
-/

namespace SystemsProjects.Qthreads

/-- Observations of the scheduler's own work: clock readings and traffic on the active
list and the sleeping set. -/
def Event.Internal : Event → Prop
  | .reading _ => True
  | .pushed q _ => q = .runnable ∨ q = .sleeping
  | .popped q _ => q = .runnable ∨ q = .sleeping
  | _ => False

/-- The scheduler proper changes the active list, the sleeping set, the clock and the
current thread only, and all it adds to the trace is internal. -/
structure SchedFrame (a b : Sched) : Prop where
  point : b.point = a.point
  result : b.result = a.result
  joiner : b.joiner = a.joiner
  deadline : b.deadline = a.deadline
  locked : b.locked = a.locked
  nthreads : b.nthreads = a.nthreads
  nmutexes : b.nmutexes = a.nmutexes
  nconds : b.nconds = a.nconds
  queue : ∀ q, q ≠ .runnable → q ≠ .sleeping → b.queue q = a.queue q
  trace : ∃ new, b.trace = a.trace ++ new ∧ ∀ e ∈ new, e.Internal

namespace SchedFrame

variable {a b c : Sched}

/-- Doing nothing is within the frame of the scheduler proper. -/
theorem refl (a : Sched) : SchedFrame a a :=
  ⟨rfl, rfl, rfl, rfl, rfl, rfl, rfl, rfl, fun _ _ _ => rfl, [], (List.append_nil _).symm,
    fun _ h => absurd h List.not_mem_nil⟩

/-- So are two stretches, if both are. -/
theorem trans (h : SchedFrame a b) (h' : SchedFrame b c) : SchedFrame a c := by
  obtain ⟨n₁, ht₁, hi₁⟩ := h.trace
  obtain ⟨n₂, ht₂, hi₂⟩ := h'.trace
  refine ⟨h'.point.trans h.point, h'.result.trans h.result, h'.joiner.trans h.joiner,
    h'.deadline.trans h.deadline, h'.locked.trans h.locked, h'.nthreads.trans h.nthreads,
    h'.nmutexes.trans h.nmutexes, h'.nconds.trans h.nconds,
    fun q hr hs => (h'.queue q hr hs).trans (h.queue q hr hs), n₁ ++ n₂, ?_, ?_⟩
  · rw [ht₂, ht₁, List.append_assoc]
  · intro e he
    rcases List.mem_append.mp he with he | he
    · exact hi₁ e he
    · exact hi₂ e he

/-- Reading the clock is within the frame. -/
theorem read (a : Sched) (now : ℤ) (rest : List ℤ) : SchedFrame a (a.read now rest) :=
  ⟨rfl, rfl, rfl, rfl, rfl, rfl, rfl, rfl, fun _ _ _ => rfl, [.reading now], rfl,
    fun e he => by
      rw [List.mem_singleton.mp he]
      exact True.intro⟩

/-- So is an append to the active list or the sleeping set. -/
theorem push {q : QueueId} (hq : q = .runnable ∨ q = .sleeping) (t : Tid) :
    SchedFrame a (a.push q t) := by
  refine ⟨rfl, rfl, rfl, rfl, rfl, rfl, rfl, rfl, fun q' hr hs => ?_,
    [.pushed q (some t)], rfl, fun e he => ?_⟩
  · refine Sched.queue_push_of_ne fun h => ?_
    rcases hq with rfl | rfl
    · exact hr h
    · exact hs h
  · rw [List.mem_singleton.mp he]
    exact hq

/-- And so is taking a thread from the front of either. -/
theorem pop {q : QueueId} (hq : q = .runnable ∨ q = .sleeping) : SchedFrame a (a.pop q) := by
  cases hl : a.queue q with
  | nil =>
      rw [Sched.pop, hl]
      exact refl a
  | cons t l =>
      have hne : ∀ q', q' ≠ .runnable → q' ≠ .sleeping → q' ≠ q := by
        rintro q' hr hs rfl
        rcases hq with rfl | rfl
        · exact hr rfl
        · exact hs rfl
      rw [Sched.pop_of_cons hl]
      refine ⟨rfl, rfl, rfl, rfl, rfl, rfl, rfl, rfl,
        fun q' hr hs => Function.update_of_ne (hne q' hr hs) .., [.popped q (some t)], rfl,
        fun e he => ?_⟩
      rw [List.mem_singleton.mp he]
      exact hq

end SchedFrame

/-! ### The scheduler proper -/

/-- The wake loop leaves the current thread and everything outside the sleeping set, the
clock and the trace alone. -/
theorem Waking.frame {a b : Sched} {h w : Tid} {linked : Bool}
    (hw : Waking a h linked b w) :
    SchedFrame a b ∧ b.current = a.current ∧ b.queue .runnable = a.queue .runnable := by
  induction hw with
  | due _ _ => exact ⟨.read _ _ _, rfl, rfl⟩
  | spin _ _ _ ih => exact ⟨(SchedFrame.read _ _ _).trans ih.1, ih.2⟩
  | @rotate a b h h' w l now rest _ _ hq _ ih =>
      have hread : (a.read now rest).queue .sleeping = h' :: l := hq
      refine ⟨((SchedFrame.read a now rest).trans
        ((SchedFrame.pop (.inr rfl)).trans (SchedFrame.push (.inr rfl) h))).trans ih.1, ?_, ?_⟩
      · rw [ih.2.1, Sched.pop_of_cons hread]
        rfl
      · rw [ih.2.2, Sched.queue_push_of_ne (by decide), Sched.queue_pop_of_ne (by decide)]
        rfl

/-- A round of the wake loop takes the front of the sleeping set out and puts its head
back. -/
theorem Placed.rotate {a : Sched} {h h' : Tid} {l : List Tid} {now : ℤ} {rest : List ℤ}
    (hp : Placed {h} a) (hq : a.queue .sleeping = h' :: l)
    (hh : (a.point h).home = some .sleeping) :
    Placed {h'} (((a.read now rest).pop .sleeping).push .sleeping h) ∧
      ((((a.read now rest).pop .sleeping).push .sleeping h).point h').home = some .sleeping := by
  have hread : (a.read now rest).queue .sleeping = h' :: l := hq
  have hmem : h' ∈ a.queue .sleeping := hq ▸ List.mem_cons_self
  have hne : h ∉ ({h'} : Set Tid) := fun heq =>
    (hp.queued _ h' hmem).2 (Set.mem_singleton_iff.mp heq).symm
  have hpr : Placed {h} (a.read now rest) := hp.congr rfl rfl rfl rfl rfl
  have hpop := hpr.pop hread
  rw [Set.pair_comm] at hpop
  have hpoint : ((a.read now rest).pop .sleeping).point = a.point :=
    ((a.read now rest).pop_fields .sleeping).2.1
  refine ⟨hpop.arrive hne (.inr ?_), ?_⟩
  · rw [hpoint]
    exact hh
  · change (((a.read now rest).pop .sleeping).point h').home = _
    rw [hpoint]
    exact hp.home _ h' hmem (by decide)

/-- The head of the sleeping set is taken out. -/
theorem Placed.popSleeping {a : Sched} {h : Tid} {l : List Tid} (hp : Placed ∅ a)
    (hq : a.queue .sleeping = h :: l) :
    Placed {h} (a.pop .sleeping) ∧ ((a.pop .sleeping).point h).home = some .sleeping := by
  have hpop := hp.pop hq
  rw [insert_empty_eq] at hpop
  refine ⟨hpop, ?_⟩
  rw [(a.pop_fields .sleeping).2.1]
  exact hp.home _ h (hq ▸ List.mem_cons_self) (by decide)

/-- The wake loop has one sleeper outside the queues, first the head and at last the one
it wakes. -/
theorem Waking.placed {a b : Sched} {h w : Tid} {linked : Bool}
    (hw : Waking a h linked b w) (hp : Placed {h} a)
    (hh : (a.point h).home = some .sleeping) : Placed {w} b := by
  induction hw with
  | due _ _ => exact hp.congr rfl rfl rfl rfl rfl
  | spin _ _ _ ih => exact ih (hp.congr rfl rfl rfl rfl rfl) hh
  | rotate _ _ hq _ ih =>
      obtain ⟨hp', hh'⟩ := hp.rotate hq hh
      exact ih hp' hh'

/-- The idle test changes neither the current thread nor anything outside the active list
and the sleeping set. -/
theorem Idle.frame {a b : Sched} (h : Idle a b) : SchedFrame a b ∧ b.current = a.current := by
  cases h with
  | busy _ => exact ⟨.refl a, rfl⟩
  | @wakes b h w l _ hs hw =>
      obtain ⟨hf, hc, -⟩ := hw.frame
      refine ⟨((SchedFrame.pop (.inr rfl)).trans hf).trans (.push (.inl rfl) w), ?_⟩
      change b.current = a.current
      rw [hc, Sched.pop_of_cons hs]

/-- The idle test moves a sleeper to the active list. -/
theorem Idle.placed {a b : Sched} (h : Idle a b) (hp : Placed ∅ a) : Placed ∅ b := by
  cases h with
  | busy _ => exact hp
  | @wakes b h w l _ hs hw =>
      obtain ⟨hpop, hhome⟩ := hp.popSleeping hs
      have hw' := hw.placed hpop hhome
      have hE : ({w} : Set Tid) = insert w ∅ := by simp
      rw [hE] at hw'
      exact hw'.arrive (fun hh => hh) (.inl rfl)

/-- The choice of the next thread touches nothing outside the active list and the
sleeping set. -/
theorem Dispatch.frame {a b : Sched} (h : Dispatch a b) : SchedFrame a b := by
  cases h with
  | @mk b t l hi _ =>
      have hpop : SchedFrame b (b.pop .runnable) := .pop (.inl rfl)
      exact hi.frame.1.trans ⟨hpop.point, hpop.result, hpop.joiner, hpop.deadline, hpop.locked,
        hpop.nthreads, hpop.nmutexes, hpop.nconds, hpop.queue, hpop.trace⟩

/-- The thread chosen leaves the active list and becomes current. -/
theorem Dispatch.placed {a b : Sched} (h : Dispatch a b) (hp : Placed ∅ a) :
    Placed {b.current} b := by
  cases h with
  | @mk b t l hi hq =>
      have hpop := (hi.placed hp).pop hq
      have hsing : insert t (∅ : Set Tid) = {t} := by simp
      rw [hsing] at hpop
      exact hpop.congr rfl rfl rfl rfl rfl

/-! ### The code before the call of `schedule` -/

namespace Sched

/-- Waking the front of a queue, when it is known. -/
theorem wakeFront_of_cons {a : Sched} {q : QueueId} {t : Tid} {l : List Tid}
    (hq : a.queue q = t :: l) (hne : q ≠ .runnable) :
    a.wakeFront q = { a with
      queue := Function.update (Function.update a.queue q l) .runnable
        (a.queue .runnable ++ [t])
      trace := a.trace ++ [.popped q (some t), .pushed .runnable (some t)] } := by
  rw [wakeFront, hq]
  simp only [pop_of_cons hq, push, Function.update_of_ne hne.symm, List.append_assoc,
    List.cons_append, List.nil_append]

/-- Waking the front of an empty queue. -/
theorem wakeFront_of_nil {a : Sched} {q : QueueId} (hq : a.queue q = []) :
    a.wakeFront q = a := by
  rw [wakeFront, hq]

/-- What an observer sees of waking threads of a queue. -/
def wakeEvents (q : QueueId) (l : List Tid) : List Event :=
  l.flatMap fun t => [.popped q (some t), .pushed .runnable (some t)]

/-- Waking all threads of a queue appends them to the active list in their order. -/
theorem wakeAll_eq {a : Sched} {q : QueueId} (hne : q ≠ .runnable) :
    a.wakeAll q = { a with
      queue := Function.update (Function.update a.queue q []) .runnable
        (a.queue .runnable ++ a.queue q)
      trace := a.trace ++ wakeEvents q (a.queue q) } := by
  rw [wakeAll]
  generalize hl : a.queue q = l
  induction l generalizing a with
  | nil =>
      have h1 : Function.update a.queue q [] = a.queue := by rw [← hl, Function.update_eq_self]
      simp only [List.length_nil, Function.iterate_zero, id_eq, wakeEvents, List.flatMap_nil,
        List.append_nil, h1, Function.update_eq_self]
  | cons t l ih =>
      have hstep := wakeFront_of_cons hl hne
      have hq : (a.wakeFront q).queue q = l := by
        rw [hstep]
        simp only [Function.update_of_ne hne, Function.update_self]
      rw [List.length_cons, Function.iterate_succ_apply, ih hq, hstep]
      simp only [Function.update_self, wakeEvents, List.flatMap_cons, List.append_assoc,
        List.cons_append, List.nil_append]
      congr 1
      funext q'
      by_cases hr : q' = .runnable
      · subst hr
        simp only [Function.update_self]
      · simp only [Function.update_of_ne hr]
        by_cases hqq : q' = q
        · subst hqq
          simp only [Function.update_self]
        · simp only [Function.update_of_ne hqq, Function.update_of_ne hr]

/-- An unlock with nobody waiting frees the mutex. -/
theorem unlock_of_nil {a : Sched} {m : MutexId} (hq : a.queue (.mutex m) = []) :
    a.unlock m = (a.log (.unlocks a.current m)).setLocked m 0 := by
  rw [unlock, hq]

/-- An unlock with somebody waiting hands the mutex to the first waiter. -/
theorem unlock_of_cons {a : Sched} {m : MutexId} {t : Tid} {l : List Tid}
    (hq : a.queue (.mutex m) = t :: l) :
    a.unlock m = (a.log (.unlocks a.current m)).wakeFront (.mutex m) := by
  rw [unlock, hq]

/-- Locking a free mutex. -/
theorem lock_of_free {a : Sched} {after : Point} {m : MutexId} (h : a.locked m = 0) :
    a.lock after m =
      (.returns, ((a.log (.locks a.current m)).setLocked m 1).log (.took a.current m)) := by
  rw [lock, if_pos h]

/-- Locking a mutex that is not free. -/
theorem lock_of_held {a : Sched} {after : Point} {m : MutexId} (h : a.locked m ≠ 0) :
    a.lock after m =
      (.schedules after 2, (a.log (.locks a.current m)).push (.mutex m) a.current) := by
  rw [lock, if_neg h]

/-- Leaving a wait when the mutex is free. -/
theorem relock_of_free {a : Sched} {c : CondId} {m : MutexId} (h : a.locked m = 0) :
    a.relock c m = (.returns, (((a.log (.locks a.current m)).setLocked m 1).log
      (.took a.current m)).log (.waited a.current c m)) := by
  rw [relock, lock_of_free h]

/-- Leaving a wait when the mutex is not free. -/
theorem relock_of_held {a : Sched} {c : CondId} {m : MutexId} (h : a.locked m ≠ 0) :
    a.relock c m = (.schedules (.relock c m) 2,
      (a.log (.locks a.current m)).push (.mutex m) a.current) := by
  rw [relock, lock_of_held h]

/-- The test of a join on a thread that has not exited. -/
theorem joinLoop_of_none {a : Sched} {t : Tid} (h : a.result t = none) :
    a.joinLoop t = (.schedules (.join t) 2, a) := by
  rw [joinLoop, h]

/-- The test of a join on a thread that has exited. -/
theorem joinLoop_of_some {a : Sched} {t : Tid} {v : Value} (h : a.result t = some v) :
    a.joinLoop t = (.returns, a.log (.joined a.current t v)) := by
  rw [joinLoop, h]

/-! ### What the operations leave alone -/

section Untouched

variable {a : Sched} {q q' : QueueId} {m : MutexId}

/-- Waking a waiter concerns its queue and the active list only. -/
theorem queue_wakeFront_of_ne (hq : q' ≠ q) (hr : q' ≠ .runnable) :
    (a.wakeFront q).queue q' = a.queue q' := by
  cases h : a.queue q with
  | nil => rw [wakeFront_of_nil h]
  | cons t l =>
      rw [wakeFront, h]
      exact (queue_push_of_ne hr).trans (queue_pop_of_ne hq)

/-- So does waking all waiters. -/
theorem queue_wakeAll_of_ne (hne : q ≠ .runnable) (hq : q' ≠ q) (hr : q' ≠ .runnable) :
    (a.wakeAll q).queue q' = a.queue q' := by
  rw [wakeAll_eq hne]
  change Function.update (Function.update a.queue q []) .runnable _ q' = _
  rw [Function.update_of_ne hr, Function.update_of_ne hq]

/-- Unlocking concerns the queue of the mutex and the active list only. -/
theorem queue_unlock_of_ne (hq : q' ≠ .mutex m) (hr : q' ≠ .runnable) :
    (a.unlock m).queue q' = a.queue q' := by
  cases h : a.queue (.mutex m) with
  | nil =>
      rw [unlock_of_nil h]
      rfl
  | cons t l =>
      rw [unlock_of_cons h]
      exact queue_wakeFront_of_ne hq hr

/-- Locking concerns the queue of the mutex only. -/
theorem queue_lock_of_ne {after : Point} (hq : q' ≠ .mutex m) :
    (a.lock after m).2.queue q' = a.queue q' := by
  by_cases h : a.locked m = 0
  · rw [lock_of_free h]
    rfl
  · rw [lock_of_held h]
    exact queue_push_of_ne hq

/-- So does locking it again behind a wait. -/
theorem queue_relock_of_ne {c : CondId} (hq : q' ≠ .mutex m) :
    (a.relock c m).2.queue q' = a.queue q' := by
  by_cases h : a.locked m = 0
  · rw [relock_of_free h]
    rfl
  · rw [relock_of_held h]
    exact queue_push_of_ne hq

/-- A join loop concerns no queue at all. -/
theorem queue_joinLoop {t : Tid} : (a.joinLoop t).2.queue = a.queue := by
  rw [joinLoop]
  split <;> rfl

/-- An exit concerns the active list only. -/
theorem queue_finish_of_ne {v : Value} (hr : q' ≠ .runnable) :
    (a.finish v).queue q' = a.queue q' := by
  rw [finish]
  split
  · rfl
  · exact queue_push_of_ne hr

end Untouched

end Sched

/-! ### What no code before the call of `schedule` does -/

/-- The same thread is current, and the trace has only been extended. -/
structure Later (a b : Sched) : Prop where
  current : b.current = a.current
  trace : a.trace <+: b.trace

namespace Later

variable {a b c : Sched}

/-- A state is later than itself. -/
theorem refl (a : Sched) : Later a a := ⟨rfl, List.prefix_rfl⟩

/-- What is later than something later is later. -/
theorem trans (h : Later a b) (h' : Later b c) : Later a c :=
  ⟨h'.current.trans h.current, h.trace.trans h'.trace⟩

/-- Whatever else has changed, the current thread and the trace decide. -/
theorem same (h : Later a b) (hc : c.current = b.current) (ht : c.trace = b.trace) :
    Later a c :=
  h.trans ⟨hc, ht ▸ List.prefix_rfl⟩

/-- An observation makes a state later. -/
theorem log (h : Later a b) (e : Event) : Later a (b.log e) :=
  h.trans ⟨rfl, List.prefix_append ..⟩

/-- So does an append to a queue. -/
theorem push (h : Later a b) (q : QueueId) (t : Tid) : Later a (b.push q t) :=
  h.trans ⟨rfl, List.prefix_append ..⟩

/-- Waking a waiter leaves the current thread current. -/
theorem wakeFront (h : Later a b) (q : QueueId) : Later a (b.wakeFront q) := by
  cases hq : b.queue q with
  | nil => rwa [Sched.wakeFront_of_nil hq]
  | cons t l =>
      rw [Sched.wakeFront, hq]
      refine Later.push ?_ _ _
      rw [Sched.pop_of_cons hq]
      exact h.trans ⟨rfl, List.prefix_append ..⟩

/-- Waking all waiters does, too. -/
theorem wakeAll (h : Later a b) (q : QueueId) : Later a (b.wakeAll q) := by
  rw [Sched.wakeAll]
  generalize (b.queue q).length = n
  induction n with
  | zero => exact h
  | succ n ih =>
      rw [Function.iterate_succ_apply']
      exact ih.wakeFront q

/-- Unlocking leaves the current thread current, even where it hands the mutex over. -/
theorem unlock (h : Later a b) (m : MutexId) : Later a (b.unlock m) := by
  cases hq : b.queue (.mutex m) with
  | nil =>
      rw [Sched.unlock_of_nil hq]
      exact h.trans ⟨rfl, List.prefix_append ..⟩
  | cons t l =>
      rw [Sched.unlock_of_cons hq]
      exact (h.log _).wakeFront _

/-- Locking leaves it current: it goes only in the `schedule` behind. -/
theorem lock (h : Later a b) (after : Point) (m : MutexId) : Later a (b.lock after m).2 := by
  rw [Sched.lock]
  split
  · refine Later.log ?_ _
    exact (h.log _).same rfl rfl
  · exact (h.log _).push _ _

/-- So does locking again behind a wait. -/
theorem relock (h : Later a b) (c : CondId) (m : MutexId) : Later a (b.relock c m).2 := by
  by_cases hm : b.locked m = 0
  · rw [Sched.relock_of_free hm]
    refine Later.log (Later.log ?_ _) _
    exact (h.log _).same rfl rfl
  · rw [Sched.relock_of_held hm]
    exact (h.log _).push _ _

/-- The loop of a join leaves it current. -/
theorem joinLoop (h : Later a b) (t : Tid) : Later a (b.joinLoop t).2 := by
  rw [Sched.joinLoop]
  split
  · exact h
  · exact h.log _

/-- The current thread stays current while it exits, up to the `schedule` behind. -/
theorem finish (h : Later a b) (val : Value) : Later a (b.finish val) := by
  rw [Sched.finish]
  split
  · exact h.same rfl rfl
  · refine Later.push ?_ _ _
    exact h.same rfl rfl

end Later

/-- The code before the call of `schedule` neither switches threads nor rewrites the
trace. -/
theorem Effect.later {a b : Sched} {act : Action} {flow : Flow} (h : Effect a act flow b) :
    Later a b := by
  have hl := fun e => (Later.refl a).log e
  cases h with
  | create _ =>
      refine Later.log (Later.push ?_ _ _) _
      exact (hl _).same rfl rfl
  | yield _ => exact hl _
  | exit _ | finish _ _ => exact (hl _).finish _
  | join _ _ =>
      refine Later.joinLoop ?_ _
      exact (hl _).same rfl rfl
  | usleep _ _ => exact (hl _).trans ⟨rfl, List.prefix_append ..⟩
  | mutexCreate _ _ | condCreate _ => exact (hl _).same rfl rfl
  | lock _ _ => exact (hl _).lock _ _
  | unlock _ _ => exact (hl _).unlock _
  | condWait _ _ _ => exact ((hl _).unlock _).push _ _
  | signal _ _ => exact (hl _).wakeFront _
  | broadcast _ _ => exact (hl _).wakeAll _
  | goOn _ => exact .refl a
  | awake _ | handed _ => exact hl _
  | rejoin _ _ => exact (Later.refl a).joinLoop _
  | signaled _ _ => exact (Later.refl a).relock _ _

/-- The two states differ in queues, flags and the trace only. -/
structure SameThreads (a b : Sched) : Prop where
  current : b.current = a.current
  point : b.point = a.point
  result : b.result = a.result
  joiner : b.joiner = a.joiner
  deadline : b.deadline = a.deadline
  nthreads : b.nthreads = a.nthreads
  clock : b.clock = a.clock
  nmutexes : b.nmutexes = a.nmutexes
  nconds : b.nconds = a.nconds

namespace SameThreads

variable {a b c : Sched}

/-- A state has the threads of itself. -/
theorem refl (a : Sched) : SameThreads a a := ⟨rfl, rfl, rfl, rfl, rfl, rfl, rfl, rfl, rfl⟩

/-- Having the same threads is transitive. -/
theorem trans (h : SameThreads a b) (h' : SameThreads b c) : SameThreads a c :=
  ⟨h'.current.trans h.current, h'.point.trans h.point, h'.result.trans h.result,
    h'.joiner.trans h.joiner, h'.deadline.trans h.deadline, h'.nthreads.trans h.nthreads,
    h'.clock.trans h.clock, h'.nmutexes.trans h.nmutexes, h'.nconds.trans h.nconds⟩

/-- An observation changes nothing about the threads. -/
theorem log (a : Sched) (e : Event) : SameThreads a (a.log e) :=
  ⟨rfl, rfl, rfl, rfl, rfl, rfl, rfl, rfl, rfl⟩

/-- Nor does an append to a queue. -/
theorem push (a : Sched) (q : QueueId) (t : Tid) : SameThreads a (a.push q t) :=
  ⟨rfl, rfl, rfl, rfl, rfl, rfl, rfl, rfl, rfl⟩

/-- Nor does the flag of a mutex. -/
theorem setLocked (a : Sched) (m : MutexId) (v : UInt16) : SameThreads a (a.setLocked m v) :=
  ⟨rfl, rfl, rfl, rfl, rfl, rfl, rfl, rfl, rfl⟩

/-- Waking a waiter moves it between queues, and changes nothing else about it. -/
theorem wakeFront (a : Sched) (q : QueueId) : SameThreads a (a.wakeFront q) := by
  cases hq : a.queue q with
  | nil =>
      rw [Sched.wakeFront_of_nil hq]
      exact refl a
  | cons t l =>
      rw [Sched.wakeFront, hq, Sched.pop_of_cons hq]
      exact ⟨rfl, rfl, rfl, rfl, rfl, rfl, rfl, rfl, rfl⟩

/-- Nor does waking all waiters change them. -/
theorem wakeAll (a : Sched) (q : QueueId) : SameThreads a (a.wakeAll q) := by
  rw [Sched.wakeAll]
  generalize (a.queue q).length = n
  induction n with
  | zero => exact refl a
  | succ n ih =>
      rw [Function.iterate_succ_apply']
      exact ih.trans (wakeFront _ q)

/-- Unlocking a mutex changes no thread. -/
theorem unlock (a : Sched) (m : MutexId) : SameThreads a (a.unlock m) := by
  cases hq : a.queue (.mutex m) with
  | nil =>
      rw [Sched.unlock_of_nil hq]
      exact (log a _).trans (setLocked _ m 0)
  | cons t l =>
      rw [Sched.unlock_of_cons hq]
      exact (log a _).trans (wakeFront _ _)

/-- Nor does locking one. -/
theorem lock (a : Sched) (after : Point) (m : MutexId) : SameThreads a (a.lock after m).2 := by
  by_cases hm : a.locked m = 0
  · rw [Sched.lock_of_free hm]
    exact ((log a _).trans (setLocked _ m 1)).trans (log _ _)
  · rw [Sched.lock_of_held hm]
    exact (log a _).trans (push _ _ _)

/-- Nor does locking it again behind a wait. -/
theorem relock (a : Sched) (c : CondId) (m : MutexId) : SameThreads a (a.relock c m).2 := by
  by_cases hm : a.locked m = 0
  · rw [Sched.relock_of_free hm]
    exact (((log a _).trans (setLocked _ m 1)).trans (log _ _)).trans (log _ _)
  · rw [Sched.relock_of_held hm]
    exact (log a _).trans (push _ _ _)

/-- The loop of a join logs what it sees, and changes no thread. -/
theorem joinLoop (a : Sched) (t : Tid) : SameThreads a (a.joinLoop t).2 := by
  rw [Sched.joinLoop]
  split
  · exact refl a
  · exact log a _

end SameThreads

/-- The calls that change more than queues, flags and the trace before `schedule`. -/
def Action.ChangesThreads : Action → Prop
  | .call (.create _ _) => True
  | .call (.exit _) => True
  | .call (.finish _) => True
  | .call (.join _) => True
  | .call (.usleep _) => True
  | .call (.mutexCreate _) => True
  | .call (.condCreate _) => True
  | _ => False

/-- The code of all other steps changes queues, flags and the trace only. -/
theorem Effect.sameThreads {a b : Sched} {act : Action} {flow : Flow} (h : Effect a act flow b)
    (hact : ¬act.ChangesThreads) : SameThreads a b := by
  have hlog := fun e => SameThreads.log a e
  cases h with
  | yield _ | awake _ | handed _ => exact hlog _
  | lock _ _ => exact (hlog _).trans (.lock _ _ _)
  | unlock _ _ => exact (hlog _).trans (.unlock _ _)
  | condWait _ _ _ => exact ((hlog _).trans (.unlock _ _)).trans (.push _ _ _)
  | signal _ _ => exact (hlog _).trans (.wakeFront _ _)
  | broadcast _ _ => exact (hlog _).trans (.wakeAll _ _)
  | goOn _ => exact .refl a
  | rejoin _ _ => exact .joinLoop _ _
  | signaled _ _ => exact .relock _ _ _
  | create _ | exit _ | finish _ _ | join _ _ | usleep _ _ | mutexCreate _ _ | condCreate _ =>
      exact absurd True.intro hact

/-! ### The invariant -/

/-- The current thread is on its way, everybody else is in place, and who is recorded as a
joiner has called `qthread_join`. -/
structure Sched.Inv (a : Sched) : Prop where
  placed : Placed {a.current} a
  recorded : ∀ u j, a.joiner u = some j → Event.called j (.join u) ∈ a.trace

namespace Placed

variable {a : Sched}

/-- The current thread is the only one on its way: its code may move. -/
theorem moves {p : Point} (h : Placed {a.current} a) (hp : p ≠ .exit)
    (hj : ∀ u, p ≠ .join u) : Placed {a.current} (a.goto p) :=
  h.goto (fun _ _ hE => hE) fun _ => ⟨hp, hj⟩

/-- The current thread is filed in the queue its code now waits in. -/
theorem files {t : Tid} {p : Point} {q : QueueId} (h : Placed {t} a) (hc : a.current = t)
    (hp : p ≠ .exit) (hj : ∀ u, p ≠ .join u) (hq : q = .runnable ∨ p.home = some q) :
    Placed ∅ ((a.goto p).push q t) := by
  subst hc
  have hm := h.moves hp hj
  have hE : ({a.current} : Set Tid) = insert a.current ∅ := by simp
  rw [hE] at hm
  refine hm.arrive (fun hh => hh) (hq.imp_right fun hh => ?_)
  rw [show (a.goto p).point a.current = p from Function.update_self ..]
  exact hh

end Placed

/-- Where the code of the current thread stands when a part of a function has ended. -/
def Flow.point : Flow → Point
  | .returns => .user
  | .schedules after _ => after

/-- What the code before the call of `schedule` has to leave behind: the current thread
alone on its way if it returns, and nobody once it has been filed if it schedules. -/
def Flow.Leaves : Flow → Sched → Prop
  | .returns, b => Placed {b.current} (b.goto .user)
  | .schedules after exit, b => Placed ∅ ((b.goto after).file exit)

/-- A step's code that changes queues and flags only, and returns. -/
private theorem leaves_returns {a b : Sched} (hp : Placed {a.current} b)
    (hc : b.current = a.current) : Flow.returns.Leaves b :=
  Placed.moves (hc ▸ hp) Point.noConfusion fun _ => Point.noConfusion

/-- The lock attempts leave the invariant behind. -/
private theorem leaves_lock {a : Sched} {after : Point} {m : MutexId}
    (hp : Placed {a.current} a) (hq : after.home = some (.mutex m)) :
    (a.lock after m).1.Leaves (a.lock after m).2 := by
  by_cases hm : a.locked m = 0
  · rw [Sched.lock_of_free hm]
    exact leaves_returns (a := a) (hp.congr rfl rfl rfl rfl rfl) rfl
  · rw [Sched.lock_of_held hm]
    refine Placed.files (a := a.log _) (hp.log _) rfl ?_ (fun u => ?_) (.inr hq)
    · rintro rfl
      cases hq
    · rintro rfl
      cases hq

/-- The test of a join leaves the invariant behind, whoever's exit it waits for. -/
private theorem leaves_joined {a : Sched} {t : Tid} {v : Value} (hp : Placed {a.current} a)
    (h : a.result t = some v) : (a.joinLoop t).1.Leaves (a.joinLoop t).2 := by
  rw [Sched.joinLoop_of_some h]
  exact leaves_returns (a := a) (hp.log _) rfl

/-- The exit of the current thread leaves nobody on its way. -/
private theorem leaves_finish {a : Sched} (v : Value) (hp : Placed {a.current} a) :
    (Flow.schedules .exit 1).Leaves (a.finish v) := by
  have hcur : (a.finish v).current = a.current := ((Later.refl a).finish v).current
  have hres : (a.finish v).result a.current = some v := by
    rw [Sched.finish]
    split
    · exact Function.update_self ..
    · exact Function.update_self ..
  have hdead : ¬(a.finish v).Alive (a.finish v).current := by
    rintro ⟨-, h⟩
    rw [hcur, hres] at h
    cases h
  exact (hp.finish v).goto (fun t ht _ htc => hdead (htc ▸ ht)) fun h => absurd h hdead

/-- **The code of every call keeps the threads in place**, if no thread is joined by two
threads or by itself. -/
theorem Effect.leaves {a b : Sched} {act : Action} {flow : Flow} (h : Effect a act flow b)
    (hi : a.Inv) (hD : a.Allowed JoinOnce act) : flow.Leaves b := by
  have hp := hi.placed
  cases h with
  | create _ => exact leaves_returns (a := a) (((hp.log _).spawn _).log _) rfl
  | yield _ =>
      exact Placed.files (a := a.log _) (hp.log _) rfl Point.noConfusion
        (fun _ => Point.noConfusion) (.inl rfl)
  | exit _ | finish _ _ => exact leaves_finish (a := a.log _) _ (hp.log _)
  | @join t _ ht =>
      cases hr : a.result t with
      | some v =>
          have hdead : ¬(a.log (.called a.current (.join t))).Alive t := by
            rintro ⟨-, h⟩
            rw [show (a.log _).result t = some v from hr] at h
            cases h
          exact leaves_joined ((hp.log _).setJoiner_dead hdead) hr
      | none =>
          -- A joiner recorded earlier would be the current thread itself, but whoever is
          -- recorded at a live thread is blocked.
          have hno : a.joiner t = none := by
            cases hj : a.joiner t with
            | none => rfl
            | some j =>
                have hjc := hD.2 j (hi.recorded t j hj)
                exact absurd hjc (hp.joins t j ⟨ht, hr⟩ hj).2.1
          rw [Sched.joinLoop_of_none (by exact hr)]
          exact Placed.block (a := a.log _) (hp.log _) ⟨ht, hr⟩ hno
  | usleep _ _ =>
      exact Placed.files (a := (((a.log _).read _ _).setDeadline _))
        (hp.congr rfl rfl rfl rfl rfl) rfl Point.noConfusion (fun _ => Point.noConfusion)
        (.inr rfl)
  | mutexCreate _ _ | condCreate _ =>
      exact leaves_returns (a := a) (hp.congr rfl rfl rfl rfl rfl) rfl
  | lock _ _ => exact leaves_lock (a := a.log _) (hp.log _) rfl
  | @unlock m _ _ =>
      refine leaves_returns (a := a) ?_ (SameThreads.unlock (a.log _) m).current
      exact (hp.log _).unlock m
  | @condWait c m _ _ _ =>
      have hc := (SameThreads.unlock (a.log (.called a.current (.condWait c m))) m).current
      exact Placed.files ((hp.log _).unlock m) hc Point.noConfusion
        (fun _ => Point.noConfusion) (.inr rfl)
  | @signal c _ _ =>
      exact leaves_returns (a := a) ((hp.log _).wakeFront _)
        (SameThreads.wakeFront (a.log _) _).current
  | @broadcast c _ _ =>
      exact leaves_returns (a := a) ((hp.log _).wakeAll _)
        (SameThreads.wakeAll (a.log _) _).current
  | goOn _ => exact leaves_returns hp rfl
  | awake _ | handed _ => exact leaves_returns (a := a) (hp.log _) rfl
  | @rejoin t hpt ht =>
      cases hr : a.result t with
      | some v => exact leaves_joined hp hr
      | none =>
          have hcur := hp.exempt a.current rfl
          have hj := (hp.joining a.current t hcur hpt).2 hr
          exact absurd rfl (hp.joins t a.current ⟨ht, hr⟩ hj).2.1
  | @signaled c m _ _ =>
      by_cases hm : a.locked m = 0
      · rw [Sched.relock_of_free hm]
        exact leaves_returns (a := a) (hp.congr rfl rfl rfl rfl rfl) rfl
      · rw [Sched.relock_of_held hm]
        exact Placed.files (a := a.log _) (hp.log _) rfl Point.noConfusion
          (fun _ => Point.noConfusion) (.inr rfl)

/-- Only `qthread_join` records joiners. -/
theorem Effect.joiner {a b : Sched} {act : Action} {flow : Flow} (h : Effect a act flow b)
    {u j : Tid} (hj : b.joiner u = some j) :
    a.joiner u = some j ∨ (act = .call (.join u) ∧ j = a.current) := by
  have hsame := h.sameThreads
  cases h with
  | create _ =>
      rcases eq_or_ne u a.nthreads with rfl | hu
      · have : some j = none := hj.symm.trans (Function.update_self ..)
        cases this
      · exact .inl ((Function.update_of_ne hu ..).symm.trans hj)
  | exit _ | finish _ _ =>
      rw [Sched.finish] at hj
      split at hj
      · exact .inl hj
      · exact .inl hj
  | @join t _ _ =>
      rw [(SameThreads.joinLoop _ t).joiner] at hj
      rcases eq_or_ne u t with rfl | hu
      · have hjc : some j = some a.current := hj.symm.trans (Function.update_self ..)
        exact .inr ⟨rfl, Option.some.inj hjc⟩
      · exact .inl ((Function.update_of_ne hu ..).symm.trans hj)
  | usleep _ _ | mutexCreate _ _ | condCreate _ => exact .inl hj
  | _ => exact .inl ((hsame id).joiner ▸ hj)

/-- The first observation of a call is the call itself. -/
theorem Effect.called {a b : Sched} {op : Op} {flow : Flow}
    (h : Effect a (.call op) flow b) : Later (a.log (.called a.current op)) b := by
  have hl := Later.refl (a.log (.called a.current op))
  cases h with
  | create _ =>
      refine Later.log (Later.push ?_ _ _) _
      exact hl.same rfl rfl
  | yield _ => exact hl
  | exit _ | finish _ _ => exact hl.finish _
  | join _ _ =>
      refine Later.joinLoop ?_ _
      exact hl.same rfl rfl
  | usleep _ _ => exact hl.trans ⟨rfl, List.prefix_append ..⟩
  | mutexCreate _ _ | condCreate _ => exact hl.same rfl rfl
  | lock _ _ => exact hl.lock _ _
  | unlock _ _ => exact hl.unlock _
  | condWait _ _ _ => exact (hl.unlock _).push _ _
  | signal _ _ => exact hl.wakeFront _
  | broadcast _ _ => exact hl.wakeAll _

/-- Filing the current thread touches the active list or the sleeping set only. -/
theorem Sched.file_frame (a : Sched) (exit : ℤ) : SchedFrame a (a.file exit) := by
  rw [Sched.file]
  split
  · exact .refl _
  · split
    · exact .push (.inr rfl) _
    · exact .push (.inl rfl) _

/-- How a step ends, as a frame: everything but the current thread's point, the queues it
is filed in, the clock and internal observations stays. -/
theorem Settles.frame {flow : Flow} {b c : Sched} (h : Settles flow b c) :
    SchedFrame (b.goto flow.point) c := by
  cases h with
  | returns => exact .refl _
  | @schedules _ _ after exit hd => exact (Sched.file_frame _ exit).trans hd.frame

/-- A step that leaves everybody in place settles with everybody but the current thread in
place. -/
theorem Settles.placed {flow : Flow} {b c : Sched} (h : Settles flow b c)
    (hl : flow.Leaves b) : Placed {c.current} c := by
  cases h with
  | returns => exact hl
  | schedules hd => exact hd.placed hl

/-- **Every step keeps the invariant.** -/
theorem Sched.Step.inv {D : Discipline} {a c : Sched} {act : Action}
    (h : Sched.Step D a act c) (hD : ∀ t tr op, D t tr op → JoinOnce t tr op)
    (hi : a.Inv) : c.Inv := by
  cases h with
  | @mk flow b _ hA he hs =>
      have hA' : a.Allowed JoinOnce act := by
        cases act with
        | call op => exact hD _ _ _ hA
        | resume => exact hA
      refine ⟨hs.placed (he.leaves hi hA'), fun u j hj => ?_⟩
      have hf := hs.frame
      obtain ⟨new, htr, -⟩ := hf.trace
      rw [htr]
      refine List.mem_append_left _ ?_
      change Event.called j (.join u) ∈ b.trace
      rw [hf.joiner] at hj
      rcases he.joiner hj with hj | ⟨rfl, rfl⟩
      · exact he.later.trace.subset (hi.recorded u j hj)
      · exact he.called.trace.subset (List.mem_append_right _ (List.mem_singleton.mpr rfl))

/-- Initially the main thread is alone. -/
theorem Sched.inv_initial {mem : Qthread} {clock : List ℤ} (hd : mem.dead ≠ 1)
    (hw : mem.waiter = none) : (Sched.initial mem clock).Inv := by
  have hA : ∀ t, (Sched.initial mem clock).Alive t → t = mainThread := fun t ht =>
    Nat.lt_one_iff.mp ht.1
  refine ⟨⟨fun _ => List.nodup_nil, fun q q' t h => absurd h List.not_mem_nil,
    fun q t h => absurd h List.not_mem_nil, fun q t h => absurd h List.not_mem_nil,
    fun u j _ hj => ?_, fun j u hj hp => ?_, fun t ht hne => absurd (hA t ht) hne,
    fun t ht => ?_, fun t ht => ?_⟩, fun u j hj => ?_⟩
  · rw [show (Sched.initial mem clock).joiner u = none from hw] at hj
    cases hj
  · rw [hA j hj] at hp
    cases hp
  · obtain rfl := Set.mem_singleton_iff.mp ht
    exact ⟨Nat.one_pos, if_neg hd⟩
  · rw [hA t ht]
    exact Point.noConfusion
  · rw [show (Sched.initial mem clock).joiner u = none from hw] at hj
    cases hj

end SystemsProjects.Qthreads
