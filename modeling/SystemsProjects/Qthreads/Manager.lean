import Mathlib.Algebra.Ring.Int.Defs
import Mathlib.Algebra.Ring.Nat
import SystemsProjects.Qthreads.State

/-!
# The Thread Manager

The functions of `qthread_manager.c`: the queue operations, the wake loop over the
sleeping set, the scheduler, and `qthread_create`, `qthread_exit`, `qthread_join`,
`qthread_usleep` and `qthread_yield`.

A call of `schedule` comes back on another stack, so a library function is run up to the
point where it calls `schedule`. Its `Flow` says so, together with the point its code goes
on at when it is next dispatched; `Qthreads.Machine` puts the parts together. No function
calls `schedule` before its last step of a part.

`gettimeofday` is `getUsecs`: the next reading of the state's `clock`. Since the loop of
`wake_sleeping_threads` makes one reading a turn, it is a recursion on those readings.
-/

namespace SystemsProjects.Qthreads

/-- How a part of a library function ends: it returns to its caller, or it calls
`schedule(exit)` with the rest of the function left to do at `after`. -/
inductive Flow
  | returns
  | schedules (after : Point) (exit : ℤ)
  deriving DecidableEq, Repr

/-! ### Queue operations -/

/-- `push_back`. The link of the appended structure is cleared first, so that a thread is the
last of a queue exactly if its own link is `NULL`, even behind `pop_front`. -/
def pushBack (queue : QueueId) (thread : Ptr) : Lib Unit := do
  store thread fun th => { th with next := none }
  let q ← header queue
  if q.size = 0 then
    setHeader queue ⟨thread, thread, q.size + 1⟩
  else do
    store q.end_ fun th => { th with next := thread }
    setHeader queue ⟨q.front, thread, q.size + 1⟩
  log (.pushed queue thread)

/-- `pop_front`. The removed structure keeps its link, which `wake_sleeping_threads` reads, and
the new front is that link. -/
def popFront (queue : QueueId) : Lib Ptr := do
  let q ← header queue
  if q.size = 0 then
    return none
  let head := q.front
  let h ← load head
  setHeader queue ⟨h.next, if q.size - 1 = 0 then none else q.end_, q.size - 1⟩
  log (.popped queue head)
  return head

/-! ### The clock -/

/-- A C `long`: 64 bits, two's complement. The sum in `qthread_usleep` is undefined in C where
it overflows; here it wraps around, as the compiled code does. -/
def toLong (x : ℤ) : ℤ := x.bmod (2 ^ 64)

/-- The readings still to come. Only the loop below counts by them; no decision of the library
depends on how many there are. -/
def clockReadings : Lib (List ℤ) := fun s => .ok s.clock s

/-- `get_usecs`. The readings are given in advance, in any order whatever, and a computation
that needs one more than there are stops. -/
def getUsecs : Lib ℤ := fun s =>
  match s.clock with
  | [] => .error .clock s
  | now :: rest => .ok now { s with clock := rest, trace := s.trace ++ [.reading now] }

/-! ### The scheduler -/

/-- The loop of `wake_sleeping_threads`, from a head already removed. It looks at the
removed head's own link to see whether anyone else sleeps. -/
def wakeLoop : List ℤ → Ptr → Lib Ptr
  | [], _ => stop .clock
  | _ :: readings, head => do
      let now ← getUsecs
      let h ← load head
      if h.timingInformation > now then
        if h.next ≠ none then do
          let newHead ← popFront .sleeping
          pushBack .sleeping head
          wakeLoop readings newHead
        else
          wakeLoop readings head
      else
        return head

/-- `wake_sleeping_threads`. What it returns is not used by its callers; behind its loop one
sleeper has become runnable. -/
def wakeSleepingThreads : Lib ℤ := do
  if (← header .sleeping).size = 0 then
    return 0
  let head ← popFront .sleeping
  let woken ← wakeLoop (← clockReadings) head
  pushBack .runnable woken
  return 1

/-- `switch_thread`: the running context is saved behind `old`, and `context` runs. That the
assembly does this, on the stacks of the threads, is shown in `Stacks`. -/
def switchThread (old : Ptr) (context : Context) : Lib Unit := do
  let running ← fun s => .ok s.running s
  store old fun th => { th with savedStackPointer := running }
  fun s => .ok () { s with running := context }

/-- `switch_runnable`. The new thread is taken from the active list without a test that there is
one; the switch is left out for the caller itself, and for a thread that is marked dead. -/
def switchRunnable (oldCurrent : Ptr) : Lib Unit := do
  setCurrentThread (← popFront .runnable)
  let current ← currentThread
  if current = oldCurrent then
    return ()
  let th ← load current
  if th.dead ≠ 1 then
    switchThread oldCurrent th.savedStackPointer

/-- The test `schedule` makes twice: when nobody is runnable and somebody sleeps, wake
one of them. -/
def wakeIfIdle : Lib Unit := do
  if (← header .runnable).size = 0 then
    if (← header .sleeping).size > 0 then
      let _ ← wakeSleepingThreads

/-- The first half of `schedule`, before it looks at the queues to choose: the calling
thread is put where its exit code says. -/
def scheduleFile (exit : ℤ) (oldCurrent : Ptr) : Lib Unit := do
  if exit = 1 then
    wakeIfIdle
  if exit = 1 then
    return ()
  else if exit = 2 then
    return ()
  else if exit = 3 then
    pushBack .sleeping oldCurrent
  else
    pushBack .runnable oldCurrent

/-- `schedule`. The exit codes are 0 for yield, 1 for exit, 2 for wait, 3 for sleep. Sleepers
are looked at only where nobody is runnable. -/
def schedule (exit : ℤ) : Lib Unit := do
  let oldCurrent ← currentThread
  scheduleFile exit oldCurrent
  wakeIfIdle
  switchRunnable oldCurrent

/-! ### Thread operations -/

/-- A new structure, with the content `malloc` hands it out with. Nothing is known of that
content, so that a field counts only once it has been written. -/
def mallocThread (mem : Qthread) : Lib Tid := fun s =>
  .ok s.nthreads { s with
    thread := Function.update s.thread s.nthreads mem
    nthreads := s.nthreads + 1 }

/-- `qthread_create`. Both allocations may fail, and then the process exits. Of the new
structure `timing_information` and `return_val` are left as they are. -/
def qthreadCreate (stack : Bool) (mem : Option Qthread) : Lib Tid := do
  if stack = false then
    stop .exited
  else
    match mem with
    | none => stop .exited
    | some content =>
        let thread ← mallocThread content
        store (some thread) fun th => { th with
          savedStackPointer := ⟨thread, .entry⟩
          next := none
          dead := 0
          waiter := none }
        pushBack .runnable (some thread)
        return thread

/-- `qthread_init`: the state it leaves, given what `malloc` hands it out for the main
thread's structure. Only the queues are initialised, not the structure. -/
def qthreadInit (mem : Qthread) (clock : List ℤ) : St where
  thread := fun _ => mem
  nthreads := 1
  queue := fun _ => ⟨none, none, 0⟩
  locked := fun _ => 0
  nmutexes := 0
  nconds := 0
  currentThread := some mainThread
  running := ⟨mainThread, .user⟩
  clock := clock
  trace := []

/-- `qthread_yield`, up to its call of `schedule`. Behind that call there is nothing left to do. -/
def qthreadYield : Lib Flow :=
  return .schedules .yield 0

/-- `qthread_exit`, up to its call of `schedule`. The waiter, if there is one, is queued before
the exiting thread gives up control. -/
def qthreadExit (val : Value) : Lib Flow := do
  let current ← currentThread
  store current fun th => { th with returnVal := val }
  store current fun th => { th with dead := 1 }
  let th ← load current
  if th.waiter ≠ none then
    pushBack .runnable th.waiter
  return .schedules .exit 1

/-- One turn of the loop of `qthread_join`, and the code behind it. A joiner that is woken comes
back to the test. -/
def joinLoop (thread : Tid) : Lib Flow := do
  let th ← load (some thread)
  if th.dead ≠ 1 then
    return .schedules (.join thread) 2
  else do
    log (.joined (← self) thread th.returnVal)
    return .returns

/-- `qthread_join`, up to its first call of `schedule`. A second joiner would overwrite the
first in the field `waiter`, which is why programs join a thread from one thread only. -/
def qthreadJoin (thread : Tid) : Lib Flow := do
  let current ← currentThread
  store (some thread) fun th => { th with waiter := current }
  joinLoop thread

/-- `qthread_usleep`, up to its call of `schedule`. The deadline is computed from a reading of
the clock of its own. -/
def qthreadUsleep (usecs : ℤ) : Lib Flow := do
  let now ← getUsecs
  store (← currentThread) fun th => { th with timingInformation := toLong (now + usecs) }
  return .schedules .usleep 3

end SystemsProjects.Qthreads
