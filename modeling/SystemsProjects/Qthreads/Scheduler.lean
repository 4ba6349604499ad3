import Mathlib.Logic.Function.Iterate
import SystemsProjects.Qthreads.Machine

/-!
# The Scheduler as Lists of Threads

What the library is for, without links and stacks: threads stand at points, every queue is
a list, one thread is current, and a step either leaves it current or parks it and takes
the front of the active list. This is the scheduling pattern of the library's README:
the current thread is put somewhere, the next one is the head of the active list, and
waking a thread appends it to the tail of that list.

`Effect` says what the code of a step does before it calls `schedule`, `Idle` and
`Dispatch` what `schedule` does, and `Sched.Step` puts the two together. The refinement of
this model by the C code is proved in `Qthreads.Refinement`.

## Main definitions

* `Sched`: the scheduler's state; `Sched.Alive`, `Point.home`: who is there, and which
  queue a blocked thread waits in.
* `Effect`, `Waking`, `Late`, `Idle`, `Dispatch`, `Sched.Step`: the transitions.
-/

namespace SystemsProjects.Qthreads

/-- The state of the abstract scheduler. `result` holds the exit value of a thread that
has exited, `joiner` the thread recorded to be woken by its exit. -/
structure Sched where
  current : Tid
  point : Tid → Point
  result : Tid → Option Value
  joiner : Tid → Ptr
  deadline : Tid → ℤ
  queue : QueueId → List Tid
  locked : MutexId → UInt16
  nthreads : ℕ
  nmutexes : ℕ
  nconds : ℕ
  clock : List ℤ
  trace : List Event

/-- The queue a thread blocked at a point waits in, if it waits in one. -/
def Point.home : Point → Option QueueId
  | .usleep => some .sleeping
  | .lock m => some (.mutex m)
  | .condWait c _ => some (.cond c)
  | .relock _ m => some (.mutex m)
  | _ => none

namespace Sched

/-- The thread was created and has not exited. -/
def Alive (a : Sched) (t : Tid) : Prop := t < a.nthreads ∧ a.result t = none

/-! ### Elementary changes -/

/-- One more observation. -/
def log (a : Sched) (e : Event) : Sched := { a with trace := a.trace ++ [e] }

/-- Append a thread to a queue, where an observer sees it. -/
def push (a : Sched) (q : QueueId) (t : Tid) : Sched :=
  { a with
    queue := Function.update a.queue q (a.queue q ++ [t])
    trace := a.trace ++ [.pushed q (some t)] }

/-- Remove the front of a queue. An empty one is left as it is. -/
def pop (a : Sched) (q : QueueId) : Sched :=
  match a.queue q with
  | [] => a
  | t :: l => { a with
      queue := Function.update a.queue q l
      trace := a.trace ++ [.popped q (some t)] }

/-- Make the front of a queue runnable. The thread is then the last in the active list. -/
def wakeFront (a : Sched) (q : QueueId) : Sched :=
  match a.queue q with
  | [] => a
  | t :: _ => (a.pop q).push .runnable t

/-- The current thread's code moves to a point. -/
def goto (a : Sched) (p : Point) : Sched :=
  { a with point := Function.update a.point a.current p }

/-- Read the clock. -/
def read (a : Sched) (now : ℤ) (rest : List ℤ) : Sched :=
  { a with clock := rest, trace := a.trace ++ [.reading now] }

/-! ### What the calls do -/

/-- A new thread, about to enter its start function, is made runnable. Its deadline is what its
memory says, until it sleeps. -/
def spawn (a : Sched) (deadline : ℤ) : Sched :=
  push { a with
    nthreads := a.nthreads + 1
    point := Function.update a.point a.nthreads .entry
    result := Function.update a.result a.nthreads none
    joiner := Function.update a.joiner a.nthreads none
    deadline := Function.update a.deadline a.nthreads deadline } .runnable a.nthreads

/-- The current thread exits with a value and makes its joiner runnable. -/
def finish (a : Sched) (val : Value) : Sched :=
  let b := { a with result := Function.update a.result a.current (some val) }
  match a.joiner a.current with
  | none => b
  | some j => b.push .runnable j

/-- The current thread is recorded as the one to be woken by the exit of `t`. -/
def setJoiner (a : Sched) (t : Tid) : Sched :=
  { a with joiner := Function.update a.joiner t (some a.current) }

/-- The test of `qthread_join`: block until the thread has exited, then return its value. The
joiner waits in no queue. -/
def joinLoop (a : Sched) (t : Tid) : Flow × Sched :=
  match a.result t with
  | none => (.schedules (.join t) 2, a)
  | some val => (.returns, a.log (.joined a.current t val))

/-- The deadline of a sleep that starts now. -/
def setDeadline (a : Sched) (d : ℤ) : Sched :=
  { a with deadline := Function.update a.deadline a.current d }

/-- The flag of a mutex changes. -/
def setLocked (a : Sched) (m : MutexId) (v : UInt16) : Sched :=
  { a with locked := Function.update a.locked m v }

/-- Lock a mutex: take it, or wait in its queue. A thread that waits does not come back to the
test. -/
def lock (a : Sched) (after : Point) (m : MutexId) : Flow × Sched :=
  let b := a.log (.locks a.current m)
  if a.locked m = 0 then
    (.returns, (b.setLocked m 1).log (.took a.current m))
  else
    (.schedules after 2, b.push (.mutex m) a.current)

/-- Unlock a mutex: hand it to the first waiter, or free it. -/
def unlock (a : Sched) (m : MutexId) : Sched :=
  let b := a.log (.unlocks a.current m)
  match a.queue (.mutex m) with
  | [] => b.setLocked m 0
  | _ :: _ => b.wakeFront (.mutex m)

/-- Lock again on the way out of a wait on a condition variable. The wait is over once the mutex
has been taken, or has been handed over. -/
def relock (a : Sched) (c : CondId) (m : MutexId) : Flow × Sched :=
  match a.lock (.relock c m) m with
  | (.returns, b) => (.returns, b.log (.waited a.current c m))
  | r => r

/-- Make all threads of a queue runnable, one after the other, in the order of the queue. -/
def wakeAll (a : Sched) (q : QueueId) : Sched :=
  (fun b => b.wakeFront q)^[(a.queue q).length] a

end Sched

/-- `Effect a act flow b`: the code of the step `act` of the current thread, up to its call
of `schedule`, leads from `a` to `b` and ends as `flow` says. -/
inductive Effect (a : Sched) : Action → Flow → Sched → Prop
  | create {mem : Qthread} :
      a.point a.current = .user →
      Effect a (.call (.create true (some mem))) .returns
        (((a.log (.called a.current (.create true (some mem)))).spawn
          mem.timingInformation).log (.created a.current a.nthreads))
  | yield :
      a.point a.current = .user →
      Effect a (.call .yield) (.schedules .yield 0) (a.log (.called a.current .yield))
  | exit {val : Value} :
      a.point a.current = .user →
      Effect a (.call (.exit val)) (.schedules .exit 1)
        ((a.log (.called a.current (.exit val))).finish val)
  | finish {val : Value} :
      a.point a.current = .user → a.current ≠ mainThread →
      Effect a (.call (.finish val)) (.schedules .exit 1)
        ((a.log (.called a.current (.finish val))).finish val)
  | join {t : Tid} :
      a.point a.current = .user → t < a.nthreads →
      Effect a (.call (.join t))
        (((a.log (.called a.current (.join t))).setJoiner t).joinLoop t).1
        (((a.log (.called a.current (.join t))).setJoiner t).joinLoop t).2
  | usleep {u now : ℤ} {rest : List ℤ} :
      a.point a.current = .user → a.clock = now :: rest →
      Effect a (.call (.usleep u)) (.schedules .usleep 3)
        (((a.log (.called a.current (.usleep u))).read now rest).setDeadline
          (toLong (now + u)))
  | mutexCreate {mem : Threadq} :
      a.point a.current = .user → a.queue (.mutex a.nmutexes) = [] →
      Effect a (.call (.mutexCreate mem)) .returns
        { (a.log (.called a.current (.mutexCreate mem))).setLocked a.nmutexes 0 with
          nmutexes := a.nmutexes + 1 }
  | lock {m : MutexId} :
      a.point a.current = .user → m < a.nmutexes →
      Effect a (.call (.lock m))
        ((a.log (.called a.current (.lock m))).lock (.lock m) m).1
        ((a.log (.called a.current (.lock m))).lock (.lock m) m).2
  | unlock {m : MutexId} :
      a.point a.current = .user → m < a.nmutexes →
      Effect a (.call (.unlock m)) .returns
        ((a.log (.called a.current (.unlock m))).unlock m)
  | condCreate {mem : Threadq} :
      a.point a.current = .user →
      Effect a (.call (.condCreate mem)) .returns
        { a.log (.called a.current (.condCreate mem)) with nconds := a.nconds + 1 }
  | condWait {c : CondId} {m : MutexId} :
      a.point a.current = .user → m < a.nmutexes → c < a.nconds →
      Effect a (.call (.condWait c m)) (.schedules (.condWait c m) 2)
        (((a.log (.called a.current (.condWait c m))).unlock m).push (.cond c) a.current)
  | signal {c : CondId} :
      a.point a.current = .user → c < a.nconds →
      Effect a (.call (.signal c)) .returns
        ((a.log (.called a.current (.signal c))).wakeFront (.cond c))
  | broadcast {c : CondId} :
      a.point a.current = .user → c < a.nconds →
      Effect a (.call (.broadcast c)) .returns
        ((a.log (.called a.current (.broadcast c))).wakeAll (.cond c))
  | goOn :
      a.point a.current = .entry ∨ a.point a.current = .yield ∨
        (∃ m, a.point a.current = .lock m) →
      Effect a .resume .returns a
  | awake :
      a.point a.current = .usleep →
      Effect a .resume .returns (a.log (.slept a.current))
  | rejoin {t : Tid} :
      a.point a.current = .join t → t < a.nthreads →
      Effect a .resume (a.joinLoop t).1 (a.joinLoop t).2
  | signaled {c : CondId} {m : MutexId} :
      a.point a.current = .condWait c m → m < a.nmutexes →
      Effect a .resume (a.relock c m).1 (a.relock c m).2
  | handed {c : CondId} {m : MutexId} :
      a.point a.current = .relock c m →
      Effect a .resume .returns (a.log (.waited a.current c m))

/-- The rounds of the wake loop, from the removed head `h` of which `linked` tells whether
its own link was set, to the sleeper `w` whose time is up. -/
inductive Waking : Sched → Tid → Bool → Sched → Tid → Prop
  | due {a : Sched} {h : Tid} {linked : Bool} {now : ℤ} {rest : List ℤ} :
      a.clock = now :: rest → a.deadline h ≤ now →
      Waking a h linked (a.read now rest) h
  | spin {a b : Sched} {h w : Tid} {now : ℤ} {rest : List ℤ} :
      a.clock = now :: rest → now < a.deadline h →
      Waking (a.read now rest) h false b w → Waking a h false b w
  | rotate {a b : Sched} {h h' w : Tid} {l : List Tid} {now : ℤ} {rest : List ℤ} :
      a.clock = now :: rest → now < a.deadline h → a.queue .sleeping = h' :: l →
      Waking (((a.read now rest).pop .sleeping).push .sleeping h) h' (!l.isEmpty) b w →
      Waking a h true b w

/-- The rounds of the wake loop when the clock ends before a sleeper's time is up. -/
inductive Late : Sched → Tid → Bool → Prop
  | out {a : Sched} {h : Tid} {linked : Bool} : a.clock = [] → Late a h linked
  | spin {a : Sched} {h : Tid} {now : ℤ} {rest : List ℤ} :
      a.clock = now :: rest → now < a.deadline h →
      Late (a.read now rest) h false → Late a h false
  | rotate {a : Sched} {h h' : Tid} {l : List Tid} {now : ℤ} {rest : List ℤ} :
      a.clock = now :: rest → now < a.deadline h → a.queue .sleeping = h' :: l →
      Late (((a.read now rest).pop .sleeping).push .sleeping h) h' (!l.isEmpty) →
      Late a h true

/-- The test of `schedule`: when nobody is runnable and somebody sleeps, a sleeper whose
time is up is made runnable. -/
inductive Idle (a : Sched) : Sched → Prop
  | busy : a.queue .runnable ≠ [] ∨ a.queue .sleeping = [] → Idle a a
  | wakes {b : Sched} {h w : Tid} {l : List Tid} :
      a.queue .runnable = [] → a.queue .sleeping = h :: l →
      Waking (a.pop .sleeping) h (!l.isEmpty) b w → Idle a (b.push .runnable w)

namespace Sched

/-- The current thread is put where the exit code of `schedule` says. Behind an exit or a wait
it is in neither list. -/
def file (a : Sched) (exit : ℤ) : Sched :=
  if exit = 1 ∨ exit = 2 then a
  else if exit = 3 then a.push .sleeping a.current
  else a.push .runnable a.current

/-- The head of the active list becomes current. -/
def take (a : Sched) (t : Tid) : Sched := { a.pop .runnable with current := t }

end Sched

/-- The choice of the next thread: a sleeper is woken where nobody is runnable, and then the
head of the active list is taken. -/
inductive Dispatch (a : Sched) : Sched → Prop
  | mk {b : Sched} {t : Tid} {l : List Tid} :
      Idle a b → b.queue .runnable = t :: l → Dispatch a (b.take t)

/-- How a step ends, given how its code ended: control is back in user code, or another thread
has become current. -/
inductive Settles : Flow → Sched → Sched → Prop
  | returns {a : Sched} : Settles .returns a (a.goto .user)
  | schedules {a b : Sched} {after : Point} {exit : ℤ} :
      Dispatch ((a.goto after).file exit) b → Settles (.schedules after exit) a b

/-- The abstract discipline on a step: the same as on the program's state. -/
def Sched.Allowed (D : Discipline) (a : Sched) : Action → Prop
  | .call op => D a.current a.trace op
  | .resume => True

/-- A step of the abstract scheduler: what the discipline allows, the effect of the code, and
the end of the step. -/
inductive Sched.Step (D : Discipline) (a : Sched) : Action → Sched → Prop
  | mk {act : Action} {flow : Flow} {b c : Sched} :
      a.Allowed D act → Effect a act flow b → Settles flow b c → Sched.Step D a act c

/-- The abstract scheduler, initially: the main thread runs, and there is nothing else. -/
def Sched.initial (mem : Qthread) (clock : List ℤ) : Sched where
  current := mainThread
  point := fun t => if t = mainThread then .user else mem.savedStackPointer.point
  result := fun _ => if mem.dead = 1 then some mem.returnVal else none
  joiner := fun _ => mem.waiter
  deadline := fun _ => mem.timingInformation
  queue := fun _ => []
  locked := fun _ => 0
  nthreads := 1
  nmutexes := 0
  nconds := 0
  clock := clock
  trace := []

end SystemsProjects.Qthreads
