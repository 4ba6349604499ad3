import SystemsProjects.Library.History
import SystemsProjects.Qthreads.Simulation

/-!
# What a Step Lets an Observer See

The code of a step before its call of `schedule` adds a list of observations to the trace
that depends on the state and the action only; `schedule` adds internal ones. So what a run
has shown of any kind of observation can be followed step by step.

## Main definitions

* `Sched.observes`: the observations of a step's code.
* `ExitsWith`: a trace in which a thread has exited with a value.

## Main results

* `Effect.trace_eq`, `Sched.Ran.trace_eq`: what is added to the trace.
* `Sched.explains_of_mem`: why an observation was made.
* `Sched.Ran.called_mem_iff`: the calls in the trace.
* `Sched.Reachable.recorded`: the recorded exit values are those of the calls.
-/

namespace SystemsProjects.Qthreads

/-- The thread has exited with the value: it called `qthread_exit`, or its start function
returned. -/
def ExitsWith (trace : List Event) (t : Tid) (v : Value) : Prop :=
  Event.called t (.exit v) ∈ trace ∨ Event.called t (.finish v) ∈ trace

namespace Sched

/-! ### Observations of the operations -/

/-- The observations of a lock attempt of the current thread. -/
def lockEvents (a : Sched) (m : MutexId) : List Event :=
  .locks a.current m ::
    if a.locked m = 0 then [.took a.current m] else [.pushed (.mutex m) (some a.current)]

/-- The observations of an unlock by the current thread. -/
def unlockEvents (a : Sched) (m : MutexId) : List Event :=
  .unlocks a.current m :: wakeEvents (.mutex m) ((a.queue (.mutex m)).take 1)

/-- The observations of a test of the loop of `qthread_join`. -/
def joinEvents (a : Sched) (t : Tid) : List Event :=
  (a.result t).toList.map fun v => .joined a.current t v

/-- What the code of a call lets an observer see after the call itself. -/
def callEvents (a : Sched) : Op → List Event
  | .create _ _ => [.pushed .runnable (some a.nthreads), .created a.current a.nthreads]
  | .yield => []
  | .exit _ => (a.joiner a.current).toList.map fun j => .pushed .runnable (some j)
  | .finish _ => (a.joiner a.current).toList.map fun j => .pushed .runnable (some j)
  | .join t => a.joinEvents t
  | .usleep _ => a.clock.head?.toList.map .reading
  | .mutexCreate _ => []
  | .lock m => a.lockEvents m
  | .unlock m => a.unlockEvents m
  | .condCreate _ => []
  | .condWait c m => a.unlockEvents m ++ [.pushed (.cond c) (some a.current)]
  | .signal c => wakeEvents (.cond c) ((a.queue (.cond c)).take 1)
  | .broadcast c => wakeEvents (.cond c) (a.queue (.cond c))

/-- What the code behind a call of `schedule` lets an observer see. -/
def resumeEvents (a : Sched) : Point → List Event
  | .usleep => [.slept a.current]
  | .join t => a.joinEvents t
  | .condWait c m =>
      a.lockEvents m ++ if a.locked m = 0 then [.waited a.current c m] else []
  | .relock c m => [.waited a.current c m]
  | _ => []

/-- What the code of a step lets an observer see before the call of `schedule`. -/
def observes (a : Sched) : Action → List Event
  | .call op => .called a.current op :: a.callEvents op
  | .resume => a.resumeEvents (a.point a.current)

/-- What is observed when the first waiter of a queue is woken. -/
theorem trace_wakeFront {a : Sched} {q : QueueId} (hq : q ≠ .runnable) :
    (a.wakeFront q).trace = a.trace ++ wakeEvents q ((a.queue q).take 1) := by
  cases h : a.queue q with
  | nil => rw [wakeFront_of_nil h, List.take_nil, wakeEvents, List.flatMap_nil, List.append_nil]
  | cons t l => rw [wakeFront_of_cons h hq]; rfl

/-- What is observed when all its waiters are woken. -/
theorem trace_wakeAll {a : Sched} {q : QueueId} (hq : q ≠ .runnable) :
    (a.wakeAll q).trace = a.trace ++ wakeEvents q (a.queue q) := by
  rw [wakeAll_eq hq]

/-- What is observed of an attempt to lock a mutex. -/
theorem trace_lock {a : Sched} {after : Point} {m : MutexId} :
    (a.lock after m).2.trace = a.trace ++ a.lockEvents m := by
  by_cases h : a.locked m = 0
  · rw [lock_of_free h, lockEvents, if_pos h, ← List.singleton_append, ← List.append_assoc]
    rfl
  · rw [lock_of_held h, lockEvents, if_neg h, ← List.singleton_append, ← List.append_assoc]
    rfl

/-- What is observed of an unlock, which may hand the mutex over. -/
theorem trace_unlock {a : Sched} {m : MutexId} :
    (a.unlock m).trace = a.trace ++ a.unlockEvents m := by
  cases h : a.queue (.mutex m) with
  | nil => rw [unlock_of_nil h, unlockEvents, h]; rfl
  | cons t l =>
      rw [unlock_of_cons h, trace_wakeFront QueueId.noConfusion, unlockEvents,
        ← List.singleton_append, ← List.append_assoc]
      rfl

/-- What is observed when a wait on a condition comes back to its mutex. -/
theorem trace_relock {a : Sched} {c : CondId} {m : MutexId} :
    (a.relock c m).2.trace = a.trace ++ a.resumeEvents (.condWait c m) := by
  by_cases h : a.locked m = 0
  · rw [relock_of_free h, resumeEvents, lockEvents, if_pos h, if_pos h, ← List.append_assoc,
      ← List.singleton_append, ← List.append_assoc]
    rfl
  · rw [relock_of_held h, resumeEvents, lockEvents, if_neg h, if_neg h, List.append_nil,
      ← List.singleton_append, ← List.append_assoc]
    rfl

/-- What is observed of a turn of the loop of `qthread_join`. -/
theorem trace_joinLoop {a : Sched} {t : Tid} :
    (a.joinLoop t).2.trace = a.trace ++ a.joinEvents t := by
  cases h : a.result t with
  | none => rw [joinLoop_of_none h, joinEvents, h]; exact (List.append_nil _).symm
  | some v => rw [joinLoop_of_some h, joinEvents, h]; rfl

/-- What is observed of an exit, where somebody may be waiting for the thread. -/
theorem trace_finish {a : Sched} {v : Value} :
    (a.finish v).trace =
      a.trace ++ (a.joiner a.current).toList.map fun j => .pushed .runnable (some j) := by
  cases h : a.joiner a.current with
  | none => rw [finish, h]; exact (List.append_nil _).symm
  | some j => rw [finish, h]; rfl

end Sched

/-! ### Steps -/

/-- **The code of a step** adds its observations to the trace. -/
theorem Effect.trace_eq {a b : Sched} {act : Action} {flow : Flow} (h : Effect a act flow b) :
    b.trace = a.trace ++ a.observes act := by
  have hcalled : ∀ op {l : List Event}, b.trace = (a.log (.called a.current op)).trace ++ l →
      b.trace = a.trace ++ .called a.current op :: l := fun op l hb => by
    rw [hb, ← List.singleton_append (l := l), ← List.append_assoc]
    rfl
  cases h with
  | create _ =>
      refine hcalled _ ?_
      rw [Sched.callEvents, ← List.singleton_append, ← List.append_assoc]
      rfl
  | yield _ | mutexCreate _ _ | condCreate _ =>
      exact hcalled _ (List.append_nil _).symm
  | exit _ | finish _ _ => exact hcalled _ Sched.trace_finish
  | join _ _ => exact hcalled _ Sched.trace_joinLoop
  | usleep _ hc =>
      refine hcalled _ ?_
      rw [Sched.callEvents, hc]
      rfl
  | lock _ _ => exact hcalled _ Sched.trace_lock
  | unlock _ _ => exact hcalled _ Sched.trace_unlock
  | @condWait c m _ _ _ =>
      refine hcalled _ ?_
      rw [Sched.callEvents, ← List.append_assoc]
      exact congrArg (· ++ [Event.pushed (.cond c) (some a.current)]) Sched.trace_unlock
  | signal _ _ => exact hcalled _ (Sched.trace_wakeFront QueueId.noConfusion)
  | broadcast _ _ => exact hcalled _ (Sched.trace_wakeAll QueueId.noConfusion)
  | goOn hp =>
      rw [Sched.observes]
      rcases hp with hp | hp | ⟨m, hp⟩
      all_goals rw [hp]; exact (List.append_nil _).symm
  | awake hp | handed hp => rw [Sched.observes, hp]; rfl
  | rejoin hp _ => rw [Sched.observes, hp]; exact Sched.trace_joinLoop
  | signaled hp _ => rw [Sched.observes, hp]; exact Sched.trace_relock

/-- The code of a step has run, its thread's code has moved, and the scheduler proper has
done all or some of its work. -/
def Sched.Ran (a : Sched) (act : Action) (c : Sched) : Prop :=
  ∃ flow b, Effect a act flow b ∧ SchedFrame (b.goto flow.point) c

/-- A step has run its code. -/
theorem Sched.Step.ran {D : Discipline} {a c : Sched} {act : Action}
    (h : Sched.Step D a act c) : a.Ran act c := by
  cases h with
  | mk _ he hs =>
      exact ⟨_, _, he, hs.frame⟩

/-- **A step** adds the observations of its code and internal ones. -/
theorem Sched.Ran.trace_eq {a c : Sched} {act : Action} (h : a.Ran act c) :
    ∃ new, c.trace = a.trace ++ a.observes act ++ new ∧ ∀ e ∈ new, e.Internal := by
  obtain ⟨flow, b, he, hf⟩ := h
  obtain ⟨new, htr, hnew⟩ := hf.trace
  refine ⟨new, ?_, hnew⟩
  rw [htr, ← he.trace_eq]
  rfl

/-- An observation that is not internal is added by the code of the step. -/
theorem Sched.Ran.mem_trace_iff {a c : Sched} {act : Action} (h : a.Ran act c) {e : Event}
    (he : ¬e.Internal) : e ∈ c.trace ↔ e ∈ a.trace ∨ e ∈ a.observes act := by
  obtain ⟨new, htr, hnew⟩ := h.trace_eq
  rw [htr, List.mem_append, List.mem_append]
  exact ⟨fun hm => hm.resolve_right fun hn => he (hnew e hn), .inl⟩

/-! ### Calls and exits -/

/-- Why the code of a step lets an observer see an event that is neither traffic on a queue
nor a clock reading. -/
def Sched.Explains (a : Sched) (act : Action) : Event → Prop
  | .called t op => act = .call op ∧ t = a.current
  | .created t u => t = a.current ∧ u = a.nthreads ∧
      ∃ stack mem, act = .call (.create stack mem)
  | .locks t m => t = a.current ∧
      (act = .call (.lock m) ∨ (act = .resume ∧ ∃ c, a.point t = .condWait c m))
  | .took t m => t = a.current ∧ a.locked m = 0 ∧
      (act = .call (.lock m) ∨ (act = .resume ∧ ∃ c, a.point t = .condWait c m))
  | .unlocks t m => t = a.current ∧
      (act = .call (.unlock m) ∨ ∃ c, act = .call (.condWait c m))
  | .joined t u v => t = a.current ∧ a.result u = some v
  | .waited t c m => t = a.current ∧ act = .resume ∧
      (a.point t = .relock c m ∨ (a.point t = .condWait c m ∧ a.locked m = 0))
  | .slept t => t = a.current ∧ act = .resume ∧ a.point t = .usleep
  | _ => True

section Explains

variable {a : Sched} {act : Action} {e : Event}

/-- Waking threads is traffic on queues, which needs no explanation. -/
private theorem explains_wake {q : QueueId} {l : List Tid} (he : e ∈ Sched.wakeEvents q l) :
    a.Explains act e := by
  obtain ⟨t, -, ht⟩ := List.mem_flatMap.mp he
  rcases List.mem_cons.mp ht with rfl | ht
  · exact True.intro
  · rw [List.mem_singleton.mp ht]
    exact True.intro

/-- The events of a lock attempt are those of the step that locks. -/
private theorem explains_lock {m : MutexId} (he : e ∈ a.lockEvents m)
    (hact : act = .call (.lock m) ∨ (act = .resume ∧ ∃ c, a.point a.current = .condWait c m)) :
    a.Explains act e := by
  rw [Sched.lockEvents, List.mem_cons] at he
  rcases he with rfl | he
  · exact ⟨rfl, hact⟩
  · split at he
    · rename_i h0
      rw [List.mem_singleton.mp he]
      exact ⟨rfl, h0, hact⟩
    · rw [List.mem_singleton.mp he]
      exact True.intro

/-- The events of an unlock are those of the step that unlocks. -/
private theorem explains_unlock {m : MutexId} (he : e ∈ a.unlockEvents m)
    (hact : act = .call (.unlock m) ∨ ∃ c, act = .call (.condWait c m)) :
    a.Explains act e := by
  rw [Sched.unlockEvents, List.mem_cons] at he
  rcases he with rfl | he
  · exact ⟨rfl, hact⟩
  · exact explains_wake he

/-- The events of a join are those of the step that looks at the thread. -/
private theorem explains_join {u : Tid} (he : e ∈ a.joinEvents u) : a.Explains act e := by
  rw [Sched.joinEvents, List.mem_map] at he
  obtain ⟨v, hv, rfl⟩ := he
  exact ⟨rfl, by simpa using hv⟩

/-- The events of a call are those of the step that makes it. -/
private theorem explains_call {op : Op} (he : e ∈ a.callEvents op) :
    a.Explains (.call op) e := by
  cases op with
  | create stack mem =>
      rcases List.mem_cons.mp he with rfl | he
      · exact True.intro
      · rw [List.mem_singleton.mp he]
        exact ⟨rfl, rfl, stack, mem, rfl⟩
  | exit _ | finish _ | usleep _ =>
      obtain ⟨x, -, rfl⟩ := List.mem_map.mp he
      exact True.intro
  | join u => exact explains_join he
  | lock m => exact explains_lock he (.inl rfl)
  | unlock m => exact explains_unlock he (.inl rfl)
  | condWait c m =>
      rcases List.mem_append.mp he with he | he
      · exact explains_unlock he (.inr ⟨c, rfl⟩)
      · rw [List.mem_singleton.mp he]
        exact True.intro
  | signal c | broadcast c => exact explains_wake he
  | yield | mutexCreate _ | condCreate _ => cases he

/-- **Every observation of a step's code is explained** by the action and the state. -/
theorem Sched.explains_of_mem (he : e ∈ a.observes act) : a.Explains act e := by
  cases act with
  | call op =>
      rcases List.mem_cons.mp he with rfl | he
      · exact ⟨rfl, rfl⟩
      · exact explains_call he
  | resume =>
      rw [observes] at he
      cases hp : a.point a.current with
      | usleep =>
          rw [hp] at he
          rw [List.mem_singleton.mp he]
          exact ⟨rfl, rfl, hp⟩
      | join u =>
          rw [hp] at he
          exact explains_join he
      | condWait c m =>
          rw [hp] at he
          rcases List.mem_append.mp he with he | he
          · exact explains_lock he (.inr ⟨rfl, c, hp⟩)
          · split at he
            · rename_i h0
              rw [List.mem_singleton.mp he]
              exact ⟨rfl, rfl, .inr ⟨hp, h0⟩⟩
            · cases he
      | relock c m =>
          rw [hp] at he
          rw [List.mem_singleton.mp he]
          exact ⟨rfl, rfl, .inl hp⟩
      | user | entry | yield | exit | lock _ =>
          rw [hp] at he
          cases he

end Explains

/-- The only call a step lets an observer see is its own. -/
theorem Sched.called_mem_observes {a : Sched} {act : Action} {t : Tid} {op : Op} :
    Event.called t op ∈ a.observes act ↔ act = .call op ∧ t = a.current := by
  refine ⟨Sched.explains_of_mem, ?_⟩
  rintro ⟨rfl, rfl⟩
  exact List.mem_cons_self

/-- **The calls in the trace** after a step. -/
theorem Sched.Ran.called_mem_iff {a c : Sched} {act : Action} (h : a.Ran act c) {t : Tid}
    {op : Op} :
    Event.called t op ∈ c.trace ↔
      Event.called t op ∈ a.trace ∨ (act = .call op ∧ t = a.current) := by
  rw [h.mem_trace_iff id, Sched.called_mem_observes]

/-- The value an action exits the current thread with. -/
def Action.exitValue : Action → Option Value
  | .call (.exit v) => some v
  | .call (.finish v) => some v
  | _ => none

/-- An exit sets the current thread's result. -/
theorem Sched.result_finish {a : Sched} {v : Value} :
    (a.finish v).result = Function.update a.result a.current (some v) := by
  rw [finish]
  split <;> rfl

/-- The code of a step sets the current thread's result if it exits. -/
theorem Effect.result_eq {a b : Sched} {act : Action} {flow : Flow} (h : Effect a act flow b)
    {t : Tid} (ht : t = a.nthreads → a.result t = none) :
    b.result t = if t = a.current then act.exitValue.or (a.result t) else a.result t := by
  have hkeep : b.result t = a.result t → act.exitValue = none →
      b.result t = if t = a.current then act.exitValue.or (a.result t) else a.result t :=
    fun hb hact => by
    rw [hb, hact, Option.none_or, ite_self]
  have hfin : ∀ {v : Value}, b.result = Function.update a.result a.current (some v) →
      act.exitValue = some v →
      b.result t = if t = a.current then act.exitValue.or (a.result t) else a.result t :=
    fun hb hact => by
    rw [hb, hact, Option.some_or, Function.update_apply]
  have hsame := h.sameThreads
  cases h with
  | create _ =>
      refine hkeep ?_ rfl
      rcases eq_or_ne t a.nthreads with htn | htn
      · rw [ht htn, htn]
        exact Function.update_self ..
      · exact Function.update_of_ne htn ..
  | exit _ | finish _ _ => exact hfin Sched.result_finish rfl
  | join _ _ => exact hkeep (congrFun (SameThreads.joinLoop _ _).result t) rfl
  | usleep _ _ | mutexCreate _ _ | condCreate _ => exact hkeep rfl rfl
  | _ => exact hkeep (congrFun (hsame id).result t) rfl

/-- Threads are made one at a time, by `qthread_create`, and nobody else is moved. -/
theorem Effect.threads {a b : Sched} {act : Action} {flow : Flow} (h : Effect a act flow b) :
    (b.nthreads = a.nthreads ∧ b.point = a.point) ∨
      (b.nthreads = a.nthreads + 1 ∧ b.point = Function.update a.point a.nthreads .entry ∧
        ∃ mem, act = .call (.create true (some mem))) := by
  have hsame := h.sameThreads
  cases h with
  | @create mem _ => exact .inr ⟨rfl, rfl, mem, rfl⟩
  | exit _ | finish _ _ =>
      rw [Sched.finish]
      split <;> exact .inl ⟨rfl, rfl⟩
  | join _ _ =>
      rw [Sched.joinLoop]
      split <;> exact .inl ⟨rfl, rfl⟩
  | usleep _ _ | mutexCreate _ _ | condCreate _ => exact .inl ⟨rfl, rfl⟩
  | _ => exact .inl ⟨(hsame id).nthreads, (hsame id).point⟩

/-- What the code of a step leaves of another thread. -/
theorem Effect.others {a b : Sched} {act : Action} {flow : Flow} (h : Effect a act flow b)
    {t : Tid} (hc : t ≠ a.current) (hn : t ≠ a.nthreads) :
    b.point t = a.point t ∧ (b.Alive t ↔ a.Alive t) := by
  have hres : b.result t = a.result t := by
    rw [h.result_eq fun htn => absurd htn hn, if_neg hc]
  rw [Sched.Alive, Sched.Alive, hres]
  rcases h.threads with ⟨hb, hp⟩ | ⟨hb, hp, -⟩
  · exact ⟨congrFun hp t, by rw [hb]⟩
  · rw [hp, hb]
    exact ⟨Function.update_of_ne hn .., by
      rw [Nat.lt_succ_iff_lt_or_eq, or_iff_left hn]⟩

/-- Whoever is made by a step is about to enter its start function. -/
theorem Effect.newcomer {a b : Sched} {act : Action} {flow : Flow} (h : Effect a act flow b)
    (hA : b.Alive a.nthreads) : b.point a.nthreads = .entry := by
  rcases h.threads with ⟨hb, -⟩ | ⟨-, hp, -⟩
  · exact absurd hA.1 (hb ▸ lt_irrefl _)
  · rw [hp]
    exact Function.update_self ..

/-- The current thread is alive after its code if it does not exit. -/
theorem Effect.alive_current {a b : Sched} {act : Action} {flow : Flow}
    (h : Effect a act flow b) (hA : a.Alive a.current) (hexit : act.exitValue = none) :
    b.Alive a.current := by
  constructor
  · rcases h.threads with ⟨hn, -⟩ | ⟨hn, -⟩
    · exact hn ▸ hA.1
    · exact hn ▸ Nat.lt_succ_of_lt hA.1
  · rw [h.result_eq fun hn => absurd hA.1 (hn ▸ lt_irrefl _), if_pos rfl, hexit]
    exact hA.2

/-- A step exits the current thread, or nobody. -/
theorem Sched.Ran.exitsWith_iff {a c : Sched} {act : Action} (h : a.Ran act c) {t : Tid}
    {v : Value} :
    ExitsWith c.trace t v ↔ ExitsWith a.trace t v ∨ (t = a.current ∧ act.exitValue = some v) := by
  rw [ExitsWith, ExitsWith, h.called_mem_iff, h.called_mem_iff]
  constructor
  · rintro ((he | ⟨rfl, rfl⟩) | (he | ⟨rfl, rfl⟩))
    · exact .inl (.inl he)
    · exact .inr ⟨rfl, rfl⟩
    · exact .inl (.inr he)
    · exact .inr ⟨rfl, rfl⟩
  · rintro ((he | he) | ⟨rfl, he⟩)
    · exact .inl (.inl he)
    · exact .inr (.inl he)
    · cases act with
      | resume => cases he
      | call op =>
          cases op with
          | exit v' =>
              obtain rfl := Option.some.inj he
              exact .inl (.inr ⟨rfl, rfl⟩)
          | finish v' =>
              obtain rfl := Option.some.inj he
              exact .inr (.inr ⟨rfl, rfl⟩)
          | _ => cases he

/-- Whoever has made a call exists, and the recorded results are the values of the exits in
the trace. -/
structure Sched.Recorded (a : Sched) : Prop where
  caller : ∀ t op, Event.called t op ∈ a.trace → t < a.nthreads
  exits : ∀ t v, a.result t = some v ↔ ExitsWith a.trace t v

/-- Every step keeps the records right. -/
theorem Sched.Ran.recorded {a c : Sched} {act : Action} (h : a.Ran act c) (hi : a.Inv)
    (hr : a.Recorded) : c.Recorded := by
  have hcur := hi.placed.exempt a.current rfl
  obtain ⟨flow, b, he, hf⟩ := id h
  have hres : c.result = b.result := hf.result
  have hn : c.nthreads = b.nthreads := hf.nthreads
  have hle : a.nthreads ≤ b.nthreads := by
    rcases he.threads with ⟨h, -⟩ | ⟨h, -⟩
    · exact h.ge
    · exact h ▸ Nat.le_succ _
  have hfresh : ∀ t, ¬t < a.nthreads → a.result t = none := fun t ht => by
    rw [Option.eq_none_iff_forall_ne_some]
    rintro v hv
    rcases (hr.exits t v).mp hv with hv | hv
    · exact ht (hr.caller _ _ hv)
    · exact ht (hr.caller _ _ hv)
  refine ⟨fun t op ht => ?_, fun t v => ?_⟩
  · rw [hn]
    rcases h.called_mem_iff.mp ht with ht | ⟨-, rfl⟩
    · exact (hr.caller t op ht).trans_le hle
    · exact hcur.1.trans_le hle
  · have htn : t = a.nthreads → a.result t = none := fun htn =>
      hfresh t (htn ▸ lt_irrefl _)
    rw [hres, h.exitsWith_iff, he.result_eq htn]
    by_cases htc : t = a.current
    · have hno : ∀ v, ¬ExitsWith a.trace t v := fun v hv => by
        rw [← hr.exits t v, htc, hcur.2] at hv
        cases hv
      rw [if_pos htc, show a.result t = none from htc ▸ hcur.2, Option.or_none]
      exact ⟨fun hv => .inr ⟨htc, hv⟩, fun hv => (hv.resolve_left (hno v)).2⟩
    · rw [if_neg htc, hr.exits t v]
      exact ⟨.inl, fun hv => hv.resolve_right fun hv => htc hv.1⟩

/-- Initially nobody has called anything. -/
theorem Sched.recorded_initial {mem : Qthread} {clock : List ℤ} (hd : mem.dead ≠ 1) :
    (Sched.initial mem clock).Recorded := by
  refine ⟨fun _ _ h => absurd h List.not_mem_nil, fun t v => ⟨fun h => ?_, ?_⟩⟩
  · rw [show (Sched.initial mem clock).result t = none from if_neg hd] at h
    cases h
  · rintro (h | h) <;> exact absurd h List.not_mem_nil

/-- **What holds of every reachable state of the scheduler.** -/
theorem Sched.Reachable.recorded {D : Discipline} {mem : Qthread} {clock : List ℤ} {a : Sched}
    (h : Sched.Reachable D mem clock a) (hD : ∀ t tr op, D t tr op → JoinOnce t tr op)
    (hd : mem.dead ≠ 1) (hj : mem.waiter = none) : a.Inv ∧ a.Recorded :=
  Runs.invariant_of_run (I := fun a => a.Inv ∧ a.Recorded) h
    ⟨Sched.inv_initial hd hj, Sched.recorded_initial hd⟩ fun _ _ hI ⟨_, hs⟩ =>
      ⟨hs.inv hD hI.1, hs.ran.recorded hI.1 hI.2⟩

/-- **The invariant rule for runs of the scheduler**: a step may use that everybody is in
place and that the records are right. -/
theorem Sched.Reachable.invariant {D : Discipline} {mem : Qthread} {clock : List ℤ}
    {a : Sched} {I : Sched → Prop} (h : Sched.Reachable D mem clock a)
    (hD : ∀ t tr op, D t tr op → JoinOnce t tr op) (hd : mem.dead ≠ 1)
    (hj : mem.waiter = none) (hinit : I (Sched.initial mem clock))
    (hstep : ∀ a act c, a.Inv → a.Recorded → I a → Sched.Step D a act c → I c) : I a := by
  have hall : (a.Inv ∧ a.Recorded) ∧ I a := by
    refine Runs.invariant_of_run (I := fun a => (a.Inv ∧ a.Recorded) ∧ I a) h
      ⟨⟨Sched.inv_initial hd hj, Sched.recorded_initial hd⟩, hinit⟩ ?_
    rintro x y ⟨⟨hi, hr⟩, hI⟩ ⟨act, hs⟩
    exact ⟨⟨hs.inv hD hi, hs.ran.recorded hi hr⟩, hstep x act y hi hr hI hs⟩
  exact hall.2

end SystemsProjects.Qthreads
