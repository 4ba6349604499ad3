import SystemsProjects.Qthreads.Locations
import SystemsProjects.Qthreads.Turns

/-!
# The Order of Dispatch

Programs in which no thread is joined by two threads or by itself put threads only where
they are in no queue: a thread that is put somewhere is the current one, a new one, one
that has just been taken from a queue, or one that waits for an exit. So what is said of
the queues and of the active list in `Queues` and `Turns` holds of their runs.

## Main definitions

* `Sched.Orderly`: threads are put only where they are in no queue.

## Main results

* `Reachable.admissible`: the calls of `push_back` in a run.
* `queues_fifo`: the queues are lists, and dispatch follows them.
-/

namespace SystemsProjects.Qthreads

open History
open Fifo hiding Op

/-- From `a` to `b` threads were put only where they were in no queue, and the trace tells
what became of the queues. -/
def Sched.Orderly (a b : Sched) : Prop :=
  ∃ new, b.trace = a.trace ++ new ∧ Admissible a.queue (queueOps new) ∧
    replay a.queue (queueOps new) = b.queue

namespace Sched.Orderly

variable {a b c : Sched} {E : Set Tid} {q : QueueId} {t : Tid}

/-- Where nothing happens, nothing is out of order. -/
theorem refl (a : Sched) : a.Orderly a := ⟨[], (List.append_nil _).symm, trivial, rfl⟩

/-- Two orderly stretches are one, the second starting from the queues that the first leaves. -/
theorem trans (h : a.Orderly b) (h' : b.Orderly c) : a.Orderly c := by
  obtain ⟨new, htr, hadm, hq⟩ := h
  obtain ⟨new', htr', hadm', hq'⟩ := h'
  refine ⟨new ++ new', by rw [htr', htr, List.append_assoc], ?_, ?_⟩
  · rw [queueOps, subjects_append, admissible_append, hq]
    exact ⟨hadm, hadm'⟩
  · rw [queueOps, subjects_append, replay_append, hq]
    exact hq'

/-- What is observed beside the queues. -/
theorem observe {e : Event} (he : e.queueOp = none) (htr : b.trace = a.trace ++ [e])
    (hq : b.queue = a.queue) : a.Orderly b := by
  have hops : queueOps [e] = [] := by rw [queueOps, subjects_cons, he]; rfl
  refine ⟨[e], htr, ?_, ?_⟩
  · rw [hops]
    trivial
  · rw [hops]
    exact hq.symm

/-- What changes beside the queues. -/
theorem same (htr : b.trace = a.trace) (hq : b.queue = a.queue) : a.Orderly b :=
  ⟨[], htr.trans (List.append_nil _).symm, trivial, hq.symm⟩

/-- An observation that is not about a queue is orderly. -/
theorem log {e : Event} (he : e.queueOp = none) : a.Orderly (a.log e) := observe he rfl rfl

/-- Reading the clock is orderly. -/
theorem read (now : ℤ) (rest : List ℤ) : a.Orderly (a.read now rest) :=
  observe (e := .reading now) rfl rfl rfl

/-- An append is orderly where the thread is in no queue yet. -/
theorem push (ht : ∀ q, t ∉ a.queue q) : a.Orderly (a.push q t) :=
  ⟨[.pushed q (some t)], rfl, ⟨ht, trivial⟩, rfl⟩

/-- A thread that is in one place behind an append was in no queue before it. -/
theorem push_of_placed (h : Placed E (a.push q t)) : a.Orderly (a.push q t) := by
  refine push fun q' ht => ?_
  have hmem : t ∈ (a.push q t).queue q := Sched.mem_push.mpr (.inr ⟨rfl, rfl⟩)
  obtain rfl := h.disjoint q' q t (Sched.mem_push.mpr (.inl ht)) hmem
  have hnd := h.nodup q'
  rw [Sched.queue_push_self] at hnd
  exact (List.nodup_append.mp hnd).2.2 t ht t (List.mem_singleton_self t) rfl

/-- Taking a thread from the front of a queue is always orderly. -/
theorem pop : a.Orderly (a.pop q) := by
  cases hq : a.queue q with
  | nil =>
      rw [Sched.pop, hq]
      exact refl a
  | cons t l =>
      rw [Sched.pop_of_cons hq]
      refine ⟨[.popped q (some t)], rfl, ⟨trivial, trivial⟩, ?_⟩
      simp [queueOps, Event.queueOp, Fifo.Op.apply, hq]

/-- Waking a waiter is orderly, as a thread that waits in one queue is in no other. -/
theorem wakeFront (h : Placed E a) : a.Orderly (a.wakeFront q) := by
  have hplaced := h.wakeFront q
  cases hq : a.queue q with
  | nil =>
      rw [Sched.wakeFront_of_nil hq]
      exact refl a
  | cons t l =>
      rw [Sched.wakeFront, hq] at hplaced ⊢
      exact pop.trans (push_of_placed hplaced)

/-- Waking all waiters is orderly, one after the other. -/
theorem wakeAll (h : Placed E a) : a.Orderly (a.wakeAll q) := by
  have hall (n : ℕ) : Placed E ((fun b => b.wakeFront q)^[n] a) ∧
      a.Orderly ((fun b => b.wakeFront q)^[n] a) := by
    induction n with
    | zero => exact ⟨h, refl a⟩
    | succ n ih =>
        rw [Function.iterate_succ_apply']
        exact ⟨ih.1.wakeFront q, ih.2.trans (wakeFront ih.1)⟩
  exact (hall _).2

/-- Unlocking is orderly, with a waiter or without. -/
theorem unlock (h : Placed E a) (m : MutexId) : a.Orderly (a.unlock m) := by
  have hlog : a.Orderly (a.log (.unlocks a.current m)) := log rfl
  rw [Sched.unlock]
  split
  · exact hlog.trans (same rfl rfl)
  · exact hlog.trans (wakeFront (h.log _))

/-- The loop of a join touches no queue. -/
theorem joinLoop (t : Tid) : a.Orderly (a.joinLoop t).2 := by
  rw [Sched.joinLoop]
  split
  · exact refl a
  · exact log rfl

/-- A thread that waits for a mutex was current. -/
theorem lock (h : Placed {a.current} a) (after : Point) (m : MutexId) :
    a.Orderly (a.lock after m).2 := by
  have hlog : a.Orderly (a.log (.locks a.current m)) := log rfl
  rw [Sched.lock]
  split
  · exact hlog.trans (observe (e := .took a.current m) rfl rfl rfl)
  · exact hlog.trans (push fun q ht => (h.queued q _ ht).2 rfl)

/-- Locking again behind a wait is orderly: the thread that does so has left the condition's
queue. -/
theorem relock (h : Placed {a.current} a) (c : CondId) (m : MutexId) :
    a.Orderly (a.relock c m).2 := by
  have hlock := lock h (.relock c m) m
  rw [Sched.relock]
  split
  · next b heq =>
      rw [heq] at hlock
      exact hlock.trans (log rfl)
  · exact hlock

/-- Who is woken by an exit waited for it. -/
theorem finish (h : Placed {a.current} a) (v : Value) : a.Orderly (a.finish v) := by
  rw [Sched.finish]
  split
  · exact same rfl rfl
  · next j hj =>
      have hb : a.Orderly { a with result := Function.update a.result a.current (some v) } :=
        same rfl rfl
      exact hb.trans (push (h.joins _ j (h.exempt _ rfl) hj).2.2.2)

/-- Creating a thread is orderly, as the new thread is in no queue. -/
theorem spawn (h : Placed E a) (d : ℤ) : a.Orderly (a.spawn d) := by
  have hb : a.Orderly { a with
      nthreads := a.nthreads + 1
      point := Function.update a.point a.nthreads .entry
      result := Function.update a.result a.nthreads none
      joiner := Function.update a.joiner a.nthreads none
      deadline := Function.update a.deadline a.nthreads d } :=
    same rfl rfl
  exact hb.trans (push fun q ht => Nat.lt_irrefl _ (h.queued q _ ht).1.1)

end Sched.Orderly

open Sched (Orderly)

/-- The code of a step puts threads only where they are in no queue. -/
theorem Effect.orderly {a b : Sched} {act : Action} {flow : Flow} (h : Effect a act flow b)
    (hp : Placed {a.current} a) : a.Orderly b := by
  have hlog (op : Op) : a.Orderly (a.log (.called a.current op)) := Orderly.log rfl
  cases h with
  | create _ => exact ((hlog _).trans (Orderly.spawn (hp.log _) _)).trans (.log rfl)
  | yield _ => exact hlog _
  | exit _ | finish _ _ => exact (hlog _).trans (Orderly.finish (hp.log _) _)
  | @join t _ _ =>
      have hset : a.Orderly ((a.log (.called a.current (.join t))).setJoiner t) :=
        (hlog _).trans (.same rfl rfl)
      exact hset.trans (.joinLoop t)
  | @usleep u now rest _ _ =>
      exact ((hlog _).trans (.read now rest)).trans (.same rfl rfl)
  | mutexCreate _ _ | condCreate _ =>
      exact (hlog _).trans (.same rfl rfl)
  | lock _ _ => exact (hlog _).trans (Orderly.lock (a := a.log _) (hp.log _) _ _)
  | unlock _ _ => exact (hlog _).trans (Orderly.unlock (hp.log _) _)
  | @condWait c m _ _ _ =>
      have hcur : ((a.log (.called a.current (.condWait c m))).unlock m).current = a.current :=
        (SameThreads.unlock _ m).current
      have hunlock := (hp.log (.called a.current (.condWait c m))).unlock m
      exact ((hlog _).trans (Orderly.unlock (hp.log _) _)).trans
        (.push fun q ht => (hunlock.queued q _ ht).2 rfl)
  | signal _ _ => exact (hlog _).trans (Orderly.wakeFront (hp.log _))
  | broadcast _ _ => exact (hlog _).trans (Orderly.wakeAll (hp.log _))
  | goOn _ => exact .refl a
  | awake _ | handed _ => exact .log rfl
  | rejoin _ _ => exact .joinLoop _
  | signaled _ _ => exact .relock hp _ _

/-- The wake loop puts back what it has taken out. -/
theorem Waking.orderly {a b : Sched} {h w : Tid} {linked : Bool} (hw : Waking a h linked b w)
    (hp : Placed {h} a) (hh : (a.point h).home = some .sleeping) : a.Orderly b := by
  induction hw with
  | due _ _ => exact .read _ _
  | spin _ _ _ ih => exact (Orderly.read _ _).trans (ih (hp.congr rfl rfl rfl rfl rfl) hh)
  | @rotate a b h h' w l now rest _ _ hq _ ih =>
      obtain ⟨hp', hh'⟩ := hp.rotate hq hh
      exact (((Orderly.read now rest).trans .pop).trans (.push_of_placed hp')).trans (ih hp' hh')

/-- Waking a sleeper when nobody is runnable is orderly, for all the turns of its loop. -/
theorem Idle.orderly {a b : Sched} (h : Idle a b) (hp : Placed ∅ a) : a.Orderly b := by
  have hplaced := h.placed hp
  cases h with
  | busy _ => exact .refl a
  | @wakes b h w l _ hs hw =>
      obtain ⟨hpop, hhome⟩ := hp.popSleeping hs
      exact (Orderly.pop.trans (hw.orderly hpop hhome)).trans (.push_of_placed hplaced)

/-- Taking the next thread from the active list is orderly. -/
theorem Dispatch.orderly {a b : Sched} (h : Dispatch a b) (hp : Placed ∅ a) : a.Orderly b := by
  cases h with
  | @mk b t l hi hq =>
      have htake : (b.pop .runnable).Orderly (b.take t) :=
        .same rfl rfl
      exact ((hi.orderly hp).trans .pop).trans htake

/-- What `schedule` does at the end of a step is orderly, whoever gives the processor away. -/
theorem Settles.orderly {flow : Flow} {b c : Sched} (h : Settles flow b c)
    (hl : flow.Leaves b) : b.Orderly c := by
  cases h with
  | returns => exact .same rfl rfl
  | @schedules _ _ after exit hd =>
      have hgoto : b.Orderly (b.goto after) := .same rfl rfl
      have hfile : (b.goto after).Orderly ((b.goto after).file exit) := by
        have hplaced : Placed ∅ ((b.goto after).file exit) := hl
        rw [Sched.file] at hplaced ⊢
        split_ifs at hplaced ⊢
        · exact .refl _
        · exact .push_of_placed hplaced
        · exact .push_of_placed hplaced
      exact (hgoto.trans hfile).trans (hd.orderly hl)

/-- A program in which no thread is joined by two threads or by itself puts threads only
where they are in no queue. -/
theorem Reachable.admissible {mem : Qthread} {clock : List ℤ} {s : St} (hm : Zeroed mem)
    (hs : Reachable JoinOnce mem clock s) : Admissible (fun _ => []) (queueOps s.trace) := by
  obtain ⟨-, -, hsched⟩ := hs.sim (fun _ _ _ h => h) hm.dead_ne_one hm.waiter
  have horderly : (Sched.initial mem clock).Orderly (view s) := by
    refine hsched.invariant (fun _ _ _ h => h) hm.dead_ne_one hm.waiter (.refl _) ?_
    rintro a act c hi - ha ⟨hA, he, hset⟩
    exact (ha.trans (he.orderly hi.placed)).trans (hset.orderly (he.leaves hi hA))
  obtain ⟨new, htr, hadm, -⟩ := horderly
  have htr' : s.trace = new := htr
  rw [htr']
  exact hadm

/-- **The queues are lists, first in, first out, and dispatch follows them.** Calls of
`push_back` and `pop_front` that put a thread only where it is in no queue return what they do
on lists. Along a run with such calls the threads that become current are those of the active
list, in its order. Programs in which no thread is joined by two threads or by itself make no
others. -/
theorem queues_fifo :
    (∀ (s : St) (ops : List QueueOp), (∀ q, (s.queue q).size = 0) →
      (∀ q t, Fifo.Op.push q t ∈ ops → t < s.nthreads) → Admissible (fun _ => []) ops →
      ∃ s', calls ops s = .ok (answers (fun _ => []) ops) s' ∧
        Refines s' (replay (fun _ => []) ops)) ∧
    (∀ (D : Discipline) (mem : Qthread) (clock : List ℤ) (s s' : St) (ts l₁ l₂ : List Tid)
      (t : Tid), Reachable D mem clock s → Turns s ts s' →
      Admissible (fun _ => []) (queueOps s'.trace) → contents s .runnable = l₁ ++ t :: l₂ →
      (l₁ ++ t :: l₂).Nodup ∧ ((∃ l, ts = l₁ ++ t :: l) ∨
        ∃ l l', l₁ = ts ++ l ∧ contents s' .runnable = l ++ t :: l')) ∧
    ∀ (mem : Qthread) (clock : List ℤ) (s : St), Zeroed mem → Reachable JoinOnce mem clock s →
      Admissible (fun _ => []) (queueOps s.trace) := by
  refine ⟨fun s ops hsize hexist hadm => ?_, fun D mem clock s s' ts l₁ l₂ t hs hrun hadm ht =>
    dispatched_in_turn hs hrun hadm ht, fun mem clock s hm hs => hs.admissible hm⟩
  obtain ⟨s', hrun, hqueued⟩ := calls_run (queued_of_size hsize) ops hexist hadm
  exact ⟨s', hrun, hqueued.refines⟩

/-- Three threads, with garbage in the queues: two are put into the active list, the front
goes to a mutex, and a third one is put behind the other. In a run with two threads made by
main, the second one is current behind the first. -/
theorem queues_fifo_three :
    (∃ s', calls [.push .runnable 0, .push .runnable 1, .pop .runnable, .push (.mutex 0) 0,
        .push .runnable 2] { qthreadInit zeroMem [] with
          nthreads := 3, queue := fun _ => ⟨some 2, some 1, 0⟩ } = .ok [some 0] s' ∧
      contents s' .runnable = [1, 2] ∧ contents s' (.mutex 0) = [0]) ∧
    ∃ s s' ts, Reachable JoinOnce zeroMem [] s ∧ contents s .runnable = [1, 2] ∧
      Turns s ts s' ∧ s'.currentThread = some 2 ∧ ((∃ l, ts = [1] ++ 2 :: l) ∨
        ∃ l l', [1] = ts ++ l ∧ contents s' .runnable = l ++ 2 :: l') := by
  constructor
  · have hadm : Admissible (fun _ => []) ([.push .runnable 0, .push .runnable 1, .pop .runnable,
        .push (.mutex 0) 0, .push .runnable 2] : List QueueOp) := by
      refine ⟨fun k => ?_, fun k => ?_, trivial, fun k => ?_, fun k => ?_, trivial⟩ <;>
        cases k <;> simp [Fifo.Op.apply, Function.update_apply]
    have hexist : ∀ q t, Fifo.Op.push q t ∈ ([.push .runnable 0, .push .runnable 1,
        .pop .runnable, .push (.mutex 0) 0, .push .runnable 2] : List QueueOp) → t < 3 := by
      intro q t ht
      simp only [List.mem_cons, Fifo.Op.push.injEq, reduceCtorEq, List.not_mem_nil, false_or,
        or_false] at ht
      rcases ht with ⟨-, rfl⟩ | ⟨-, rfl⟩ | ⟨-, rfl⟩ | ⟨-, rfl⟩ <;> decide
    obtain ⟨s', hrun, href⟩ := queues_fifo.1 { qthreadInit zeroMem [] with
      nthreads := 3, queue := fun _ => ⟨some 2, some 1, 0⟩ } _ (fun _ => rfl) hexist hadm
    exact ⟨s', hrun, href.chain .runnable, href.chain (.mutex 0)⟩
  · obtain ⟨s, hs, hqueue, hyields, hcurrent⟩ : ∃ s, Reachable JoinOnce zeroMem [] s ∧
        contents s .runnable = [1] ++ 2 :: [] ∧
        Permits JoinOnce s [.call .yield, .resume, .call .yield] ∧
        ([.call .yield, .resume, .call .yield].foldl St.after s).currentThread = some 2 := by
      let creates : List Action :=
        [.call (.create true (some zeroMem)), .call (.create true (some zeroMem))]
      refine ⟨creates.foldl St.after (qthreadInit zeroMem []), ?_, by decide +kernel, ?_,
        by decide +kernel⟩
      · exact .actions .refl ⟨trivial, by decide +kernel, trivial, by decide +kernel, trivial⟩
      · exact ⟨trivial, by decide +kernel, trivial, by decide +kernel, trivial, by decide +kernel,
          trivial⟩
    obtain ⟨ts, hruns⟩ := (Turns.refl s).actions hyields
    have hadm := queues_fifo.2.2 zeroMem [] _ zeroed_zeroMem (hs.actions hyields)
    exact ⟨s, _, ts, hs, hqueue, hruns, hcurrent,
      (queues_fifo.2.1 JoinOnce zeroMem [] s _ ts [1] [] 2 hs hruns hadm hqueue).2⟩

end SystemsProjects.Qthreads
