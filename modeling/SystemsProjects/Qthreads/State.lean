import Mathlib.Data.Int.Notation
import Mathlib.Logic.Function.Basic
import SystemsProjects.Library.IntrusiveQueue

/-!
# The State of the Thread Library

The data of `qthread_manager.c` and `qthread.c`: the thread structures with their single
`next` field, the four kinds of queues threaded through it, the mutex flags, and the
global `current_thread`. Beside these the state has the machine's own part, which the
library manipulates only through `switch_thread`: the context that is running, that is,
whose stack it is on and at which point the code on that stack stands.

Two components stand for the outside. `clock` lists the readings `gettimeofday` is still
going to give; a run that uses them up is cut at that reading. `trace` records what an
observer of the library sees; nothing reads it.

## Main definitions

* `Qthread`, `Threadq`, `St`: the C structures and the whole state.
* `Point`, `Context`: what a saved stack pointer restores.
* `Op`, `Event`: the calls user code can make, and the observations.
* `contents`: the threads linked in a queue.
-/

namespace SystemsProjects.Qthreads

open IntrusiveQueue

/-- Threads are numbered in the order their structures are allocated; main is `0`. -/
abbrev Tid := ℕ

/-- Mutexes are numbered in the order of their creation. -/
abbrev MutexId := ℕ

/-- Condition variables are numbered in the order of their creation. -/
abbrev CondId := ℕ

/-- A `qthread_t`; `none` is `NULL`. -/
abbrev Ptr := Option Tid

/-- A `void *` passed from `qthread_exit` to `qthread_join`. -/
abbrev Value := ℕ

/-- The main (OS-provided) thread. -/
abbrev mainThread : Tid := 0

/-- Where the code on a stack stands: in the user's code, at the first instruction of
`create_thread_wrapper`, or in the library function named, behind its call of
`schedule`. -/
inductive Point
  | user
  | entry
  | yield
  | exit
  | usleep
  | join (thread : Tid)
  | lock (mutex : MutexId)
  | condWait (cond : CondId) (mutex : MutexId)
  | relock (cond : CondId) (mutex : MutexId)
  deriving DecidableEq, Repr

/-- What a saved stack pointer restores: a stack, named by the thread it was made for,
and the point the code on it continues at. -/
structure Context where
  stack : Tid
  point : Point
  deriving DecidableEq, Repr

/-- `struct qthread`. The field `stack_low_pointer`, which no function reads or writes,
is left out. -/
structure Qthread where
  next : Ptr
  savedStackPointer : Context
  returnVal : Value
  dead : ℤ
  timingInformation : ℤ
  waiter : Ptr
  deriving DecidableEq, Repr

/-- `struct threadq`. The C `int size` never goes below zero, since `pop_front` returns at an
empty queue, so that a natural number will do. -/
abbrev Threadq := Header Tid

/-- The queues: `runnable_queue`, `sleeping_set`, and one for each mutex and condition
variable. -/
inductive QueueId
  | runnable
  | sleeping
  | mutex (m : MutexId)
  | cond (c : CondId)
  deriving DecidableEq, Repr

/-- The calls of user code. The constructors for allocating calls carry what `malloc`
hands out: nothing, or memory with some content. `finish` is the return of a start
function to `create_thread_wrapper`. -/
inductive Op
  | create (stack : Bool) (mem : Option Qthread)
  | yield
  | exit (val : Value)
  | finish (val : Value)
  | join (thread : Tid)
  | usleep (usecs : ℤ)
  | mutexCreate (mem : Threadq)
  | lock (mutex : MutexId)
  | unlock (mutex : MutexId)
  | condCreate (mem : Threadq)
  | condWait (cond : CondId) (mutex : MutexId)
  | signal (cond : CondId)
  | broadcast (cond : CondId)
  deriving DecidableEq

/-- What an observer sees, in order: the calls of user code, the threads made, the clock
readings, every append to and removal from a queue, entries of `qthread_mutex_lock` and
`qthread_mutex_unlock`, the mutexes taken on the fast path, and the returns of
`qthread_join`, `qthread_cond_wait` and `qthread_usleep`. -/
inductive Event
  | called (t : Tid) (op : Op)
  | created (t child : Tid)
  | reading (now : ℤ)
  | pushed (q : QueueId) (p : Ptr)
  | popped (q : QueueId) (p : Ptr)
  | locks (t : Tid) (m : MutexId)
  | took (t : Tid) (m : MutexId)
  | unlocks (t : Tid) (m : MutexId)
  | joined (t thread : Tid) (val : Value)
  | waited (t : Tid) (c : CondId) (m : MutexId)
  | slept (t : Tid)
  deriving DecidableEq

/-- The state of a program that uses the library: the structures that were allocated, the
queues, the flags of the mutexes, the running context, the clock readings still to come, and
what has been observed so far. -/
structure St where
  thread : Tid → Qthread
  nthreads : ℕ
  queue : QueueId → Threadq
  locked : MutexId → UInt16
  nmutexes : ℕ
  nconds : ℕ
  currentThread : Ptr
  running : Context
  clock : List ℤ
  trace : List Event

/-- Why a computation does not go on: a `NULL` pointer is dereferenced, a pointer to no
live structure is, the clock reading it waits for is not there, the process has exited,
or the code is not at the point the step is about. -/
inductive Stop
  | null
  | wild
  | clock
  | exited
  | disabled
  deriving DecidableEq, Repr

/-- Library code: it changes the state and returns, or stops with a reason. A stop keeps the
state that it has come to. -/
abbrev Lib := EStateM Stop St

/-- The threads linked in a queue, front first: as many links are followed as its `size` says. -/
def contents (s : St) (q : QueueId) : List Tid :=
  walk (fun t => (s.thread t).next) (s.queue q).front (s.queue q).size

/-- The point the code on a thread's stack stands at. For the running stack it is the machine's
own; for the others it is what their structure has saved. -/
def St.point (s : St) (t : Tid) : Point :=
  if t = s.running.stack then s.running.point else (s.thread t).savedStackPointer.point

/-! ### Memory accesses -/

/-- The structure behind a pointer. The null pointer stops, and so does one to a thread that has
not been made. -/
def load (p : Ptr) : Lib Qthread := fun s =>
  match p with
  | none => .error .null s
  | some t => if t < s.nthreads then .ok (s.thread t) s else .error .wild s

/-- A write to the structure behind a pointer, with the same two ways to stop. -/
def store (p : Ptr) (f : Qthread → Qthread) : Lib Unit := fun s =>
  match p with
  | none => .error .null s
  | some t =>
      if t < s.nthreads then
        .ok () { s with thread := Function.update s.thread t (f (s.thread t)) }
      else .error .wild s

/-- The header of a queue. -/
def header (q : QueueId) : Lib Threadq := fun s => .ok (s.queue q) s

/-- A write to the header of a queue. -/
def setHeader (q : QueueId) (h : Threadq) : Lib Unit := fun s =>
  .ok () { s with queue := Function.update s.queue q h }

/-- The global `current_thread`. -/
def currentThread : Lib Ptr := fun s => .ok s.currentThread s

/-- A write to the global `current_thread`. -/
def setCurrentThread (p : Ptr) : Lib Unit := fun s => .ok () { s with currentThread := p }

/-- The thread whose stack the code runs on. The library has no name for it: it only has
`current_thread`, which is meant to be the same. -/
def self : Lib Tid := fun s => .ok s.running.stack s

/-- The code on the running stack moves to a point. -/
def goto (p : Point) : Lib Unit := fun s =>
  .ok () { s with running := ⟨s.running.stack, p⟩ }

/-- Ghost code: one more observation. No function reads the trace. -/
def log (e : Event) : Lib Unit := fun s => .ok () { s with trace := s.trace ++ [e] }

/-- Execution ends here. -/
def stop {α : Type} (why : Stop) : Lib α := fun s => .error why s

end SystemsProjects.Qthreads
