import Mathlib.Logic.Relation
import SystemsProjects.Qthreads.Manager

/-!
# Mutexes, Condition Variables, and the Running Program

The functions of `qthread.c`, and the program around the library: at any time one context
runs. When its code is in user code, it makes some call; when it is in the library, behind
a call of `schedule` that has come back, the function's remaining code runs. Either way
the step ends where control is next in user code or where another context has been
switched to, so every interleaving the library can produce is a sequence of such steps.

## Main definitions

* `perform`: the code of one step up to its call of `schedule`, if it makes one.
* `step`: the whole step.
* `Reachable D mem clock`: the states of the runs whose calls obey the discipline `D`.
-/

namespace SystemsProjects.Qthreads

/-! ### Mutexes -/

/-- The flag of a mutex. A mutex that has not been created is a wild pointer. -/
def lockedFlag (mutex : MutexId) : Lib UInt16 := fun s =>
  if mutex < s.nmutexes then .ok (s.locked mutex) s else .error .wild s

/-- A write to the flag of a mutex. It is written behind a read of the flag or of the queue
only, so that the mutex is known to exist. -/
def setLocked (mutex : MutexId) (v : UInt16) : Lib Unit := fun s =>
  .ok () { s with locked := Function.update s.locked mutex v }

/-- `qthread_mutex_create`. Of the queue's fields only `size` is set; the other two are what
`malloc` has left there, and `push_back` does not read them while the size is 0. -/
def qthreadMutexCreate (mem : Threadq) : Lib Flow := fun s =>
  .ok .returns { s with
    locked := Function.update s.locked s.nmutexes 0
    queue := Function.update s.queue (.mutex s.nmutexes) ⟨mem.front, mem.end_, 0⟩
    nmutexes := s.nmutexes + 1 }

/-- `qthread_mutex_lock`, up to its call of `schedule`; `after` is the point behind that
call, which depends on who called. -/
def qthreadMutexLock (after : Point) (mutex : MutexId) : Lib Flow := do
  log (.locks (← self) mutex)
  if (← lockedFlag mutex) = 0 then do
    setLocked mutex 1
    log (.took (← self) mutex)
    return .returns
  else do
    pushBack (.mutex mutex) (← currentThread)
    return .schedules after 2

/-- `qthread_mutex_unlock`. Where somebody waits the flag stays 1: the mutex goes over to the
first waiter, which does not try again. -/
def qthreadMutexUnlock (mutex : MutexId) : Lib Unit := do
  log (.unlocks (← self) mutex)
  let _ ← lockedFlag mutex
  if (← header (.mutex mutex)).size > 0 then do
    let tmp ← popFront (.mutex mutex)
    if tmp ≠ none then
      pushBack .runnable tmp
  else
    setLocked mutex 0

/-! ### Condition variables -/

/-- The queue of a condition variable is there. The test of `cond->queue` for `NULL` in the
source never fails behind `qthread_cond_create`. -/
def condQueue (cond : CondId) : Lib QueueId := fun s =>
  if cond < s.nconds then .ok (.cond cond) s else .error .wild s

/-- `qthread_cond_create`. Of the queue's fields only `size` is set, as for a mutex. -/
def qthreadCondCreate (mem : Threadq) : Lib Flow := fun s =>
  .ok .returns { s with
    queue := Function.update s.queue (.cond s.nconds) ⟨mem.front, mem.end_, 0⟩
    nconds := s.nconds + 1 }

/-- `qthread_cond_wait`, up to its call of `schedule`. The mutex is given away before the thread
is queued, but nobody else runs in between. -/
def qthreadCondWait (cond : CondId) (mutex : MutexId) : Lib Flow := do
  qthreadMutexUnlock mutex
  pushBack (← condQueue cond) (← currentThread)
  return .schedules (.condWait cond mutex) 2

/-- `qthread_cond_wait`, behind its call of `schedule`: the mutex is locked again, and that may
block a second time. -/
def condWaitRelock (cond : CondId) (mutex : MutexId) : Lib Flow := do
  let flow ← qthreadMutexLock (.relock cond mutex) mutex
  if flow = .returns then
    log (.waited (← self) cond mutex)
  return flow

/-- The body both wake-up functions share: one waiter is made runnable. It is called where there
is one. -/
def wakeWaiter (queue : QueueId) : Lib Unit := do
  let tmp ← popFront queue
  pushBack .runnable tmp

/-- `qthread_cond_signal`. Without a waiter nothing happens, and nothing is remembered. -/
def qthreadCondSignal (cond : CondId) : Lib Flow := do
  let queue ← condQueue cond
  if (← header queue).size > 0 then
    wakeWaiter queue
  return .returns

/-- The loop of `qthread_cond_broadcast`, which ends when the queue is empty. Every turn
takes one waiter out, so as many turns as there are waiters are enough. -/
def broadcastLoop (queue : QueueId) : ℕ → Lib Unit
  | 0 => return ()
  | n + 1 => do
      if (← header queue).size > 0 then do
        wakeWaiter queue
        broadcastLoop queue n

/-- `qthread_cond_broadcast`. The waiters become runnable in the order in which they were
queued. -/
def qthreadCondBroadcast (cond : CondId) : Lib Flow := do
  let queue ← condQueue cond
  broadcastLoop queue (← header queue).size
  return .returns

/-! ### The running program -/

/-- `create_thread_wrapper`, behind the call of the start function. The main thread's
start function is `main`, whose return ends the process. -/
def createThreadWrapper (val : Value) : Lib Flow := do
  if (← self) = mainThread then
    stop .exited
  else
    qthreadExit val

/-- The code of a call, up to its call of `schedule`. A `create` is logged with the new thread
once it has been made. -/
def call : Op → Lib Flow
  | .create stack mem => do
      let thread ← qthreadCreate stack mem
      log (.created (← self) thread)
      return .returns
  | .yield => qthreadYield
  | .exit val => qthreadExit val
  | .finish val => createThreadWrapper val
  | .join thread => qthreadJoin thread
  | .usleep usecs => qthreadUsleep usecs
  | .mutexCreate mem => qthreadMutexCreate mem
  | .lock mutex => qthreadMutexLock (.lock mutex) mutex
  | .unlock mutex => do
      qthreadMutexUnlock mutex
      return .returns
  | .condCreate mem => qthreadCondCreate mem
  | .condWait cond mutex => qthreadCondWait cond mutex
  | .signal cond => qthreadCondSignal cond
  | .broadcast cond => qthreadCondBroadcast cond

/-- The code a function has left behind its call of `schedule`. User code has none, so that a
step at that point is an action of its own. -/
def resume : Point → Lib Flow
  | .user => stop .disabled
  | .entry => return .returns
  | .yield => return .returns
  | .exit => return .returns
  | .usleep => do
      log (.slept (← self))
      return .returns
  | .join thread => joinLoop thread
  | .lock _ => return .returns
  | .condWait cond mutex => condWaitRelock cond mutex
  | .relock cond mutex => do
      log (.waited (← self) cond mutex)
      return .returns

/-- What the running context does next: its user code makes a call, or a library function
goes on behind its call of `schedule`. -/
inductive Action
  | call (op : Op)
  | resume

/-- One step, up to its call of `schedule`. A call can be made from user code only. -/
def perform (act : Action) : Lib Flow := do
  let point ← fun s => .ok s.running.point s
  match act with
  | .call op =>
      if point = .user then do
        log (.called (← self) op)
        call op
      else
        stop .disabled
  | .resume => resume point

/-- One step of the program: the code of the running context up to the next switch to another
context, or up to its return to user code. -/
def step (act : Action) : Lib Unit := do
  match ← perform act with
  | .returns => goto .user
  | .schedules after exit => do
      goto after
      schedule exit

/-- What a class of programs promises about a call: who makes it, after which trace. The states
of the library are not mentioned, only what has been observed. -/
abbrev Discipline := Tid → List Event → Op → Prop

/-- No thread is joined by two threads or by itself. The field `waiter` has room for one of them
only, and a thread that waits for itself is never woken. -/
def JoinOnce : Discipline := fun t trace op =>
  match op with
  | .join u => u ≠ t ∧ ∀ j, Event.called j (.join u) ∈ trace → j = t
  | _ => True

/-- The discipline allows what the running context does. The library's own code behind
`schedule` is never restricted. -/
def Allowed (D : Discipline) (s : St) : Action → Prop
  | .call op => D s.running.stack s.trace op
  | .resume => True

/-- A step of a program of the class `D`, whichever call it makes. Programs are not fixed here:
a run may make any calls that the discipline allows. -/
def Step (D : Discipline) (s s' : St) : Prop :=
  ∃ act, Allowed D s act ∧ step act s = .ok () s'

/-- The states reachable from `qthread_init` by programs of the class `D`, with the memory of
the main thread's structure and the clock readings given. -/
def Reachable (D : Discipline) (mem : Qthread) (clock : List ℤ) : St → Prop :=
  Relation.ReflTransGen (Step D) (qthreadInit mem clock)

/-! ### Runs that can be computed -/

/-- The state a step ends in. -/
def St.after (s : St) (act : Action) : St :=
  match step act s with
  | .ok _ s' => s'
  | .error _ s' => s'

/-- The step does not stop. -/
def St.goesOn (s : St) (act : Action) : Bool :=
  match step act s with
  | .ok _ _ => true
  | .error _ _ => false

/-- The actions can be done one after the other, as the discipline allows. This can be
evaluated, and so serves for concrete runs. -/
def Permits (D : Discipline) : St → List Action → Prop
  | _, [] => True
  | s, act :: acts => Allowed D s act ∧ s.goesOn act = true ∧ Permits D (s.after act) acts

/-- A step that does not stop, in a run. -/
theorem Reachable.step {D : Discipline} {mem : Qthread} {clock : List ℤ} {s s' : St}
    (h : Reachable D mem clock s) (act : Action) (hA : Allowed D s act)
    (hs : step act s = .ok () s') : Reachable D mem clock s' :=
  h.tail ⟨act, hA, hs⟩

/-- A step that does not stop ends in the state after it. -/
theorem St.step_after {s : St} {act : Action} (h : s.goesOn act = true) :
    step act s = .ok () (s.after act) := by
  rw [St.goesOn] at h
  rw [St.after]
  split at h
  · rename_i hrun
    rw [hrun]
  · cases h

/-- Actions that are permitted lead to a reachable state. -/
theorem Reachable.actions {D : Discipline} {mem : Qthread} {clock : List ℤ}
    {acts : List Action} {s : St} (h : Reachable D mem clock s) (hp : Permits D s acts) :
    Reachable D mem clock (acts.foldl St.after s) := by
  induction acts generalizing s with
  | nil => exact h
  | cons act acts ih =>
      obtain ⟨hA, hgo, hp⟩ := hp
      exact ih (h.step act hA (St.step_after hgo)) hp

end SystemsProjects.Qthreads
