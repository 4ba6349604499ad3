import SystemsProjects.Library.History
import SystemsProjects.Qthreads.Queues

/-!
# Taking Turns

The active list is one of the queues, so the threads in it are dispatched in their order.
Whatever the library does goes through `push_back` and `pop_front`, which are in the trace,
and the code of a step takes nothing from the active list but in `switch_runnable`.

## Main definitions

* `Event.queueOp`: the calls of `push_back` and `pop_front` in a trace.
* `Made`: the queues stand for lists, and those that have not been created for empty ones.
* `Follows`, `Tracks`: the trace tells what becomes of the queues.
* `dispatches`, `Turns`: the threads that a run makes current.

## Main results

* `step_follows`: what the trace of a step tells.
* `dispatched_in_turn`: a thread is dispatched behind those ahead of it.
-/

namespace SystemsProjects.Qthreads

open IntrusiveQueue Stateful History
open Fifo hiding Op

/-- The call of `push_back` or `pop_front` that an observation is. -/
def Event.queueOp : Event → Option QueueOp
  | .pushed q (some t) => some (.push q t)
  | .popped q _ => some (.pop q)
  | _ => none

/-- The calls of `push_back` and `pop_front` in a trace. -/
abbrev queueOps (trace : List Event) : List QueueOp := subjects Event.queueOp trace

/-- The queues stand for lists; one that has not been created stands for an empty one. -/
structure Made (s : St) (L : QueueId → List Tid) : Prop extends Queued s L where
  fresh : ∀ q, ¬ s.Has q → L q = []

/-- From `s` to `s'`, the trace tells what became of the queues. Nothing was taken from the
active list, and the same thread is current. -/
structure Follows (s s' : St) : Prop where
  has : ∀ q, s.Has q → s'.Has q
  current : s'.currentThread = s.currentThread
  trace : ∃ new, s'.trace = s.trace ++ new ∧ Fifo.Op.pop .runnable ∉ queueOps new ∧
    ∀ L, Made s L → Admissible L (queueOps new) → Made s' (replay L (queueOps new))

variable {s s' u : St} {L : QueueId → List Tid} {q : QueueId} {α β : Type}

/-- What does not touch the queues. -/
theorem Made.congr (h : Made s L) (hq : s'.queue = s.queue)
    (hnext : ∀ t, t < s.nthreads → (s'.thread t).next = (s.thread t).next)
    (hn : s.nthreads ≤ s'.nthreads) (hhas : ∀ q, s.Has q → s'.Has q) : Made s' L where
  family := by
    rw [hq]
    exact h.family.congr fun q t ht => hnext t (h.bound q t ht)
  bound q t ht := Nat.lt_of_lt_of_le (h.bound q t ht) hn
  fresh q hq := h.fresh q fun hs => hq (hhas q hs)

namespace Follows

/-- Where nothing happens, the trace stays as it is. -/
theorem refl (s : St) : Follows s s :=
  ⟨fun _ h => h, rfl, [], (List.append_nil _).symm, List.not_mem_nil, fun _ h _ => h⟩

/-- What the trace tells about two stretches, it tells about both together. -/
theorem trans (h : Follows s s') (h' : Follows s' u) : Follows s u := by
  obtain ⟨new, htr, hpop, hmade⟩ := h.trace
  obtain ⟨new', htr', hpop', hmade'⟩ := h'.trace
  refine ⟨fun q hq => h'.has q (h.has q hq), h'.current.trans h.current, new ++ new', ?_, ?_,
    fun L hL hadm => ?_⟩
  · rw [htr', htr, List.append_assoc]
  · rw [queueOps, subjects_append, List.mem_append]
    exact not_or.mpr ⟨hpop, hpop'⟩
  · rw [queueOps, subjects_append] at hadm ⊢
    obtain ⟨hadm, hadm'⟩ := admissible_append.mp hadm
    rw [replay_append]
    exact hmade' _ (hmade L hL hadm) hadm'

/-- What does not touch the queues, and adds to the trace nothing about them. -/
theorem of_untouched {new : List Event} (htr : s'.trace = s.trace ++ new)
    (hnew : ∀ e ∈ new, e.queueOp = none) (hq : s'.queue = s.queue)
    (hnext : ∀ t, t < s.nthreads → (s'.thread t).next = (s.thread t).next)
    (hn : s.nthreads ≤ s'.nthreads) (hhas : ∀ q, s.Has q → s'.Has q)
    (hcur : s'.currentThread = s.currentThread) : Follows s s' := by
  have hops : queueOps new = [] := List.filterMap_eq_nil_iff.mpr hnew
  refine ⟨hhas, hcur, new, htr, ?_, fun L hL _ => ?_⟩
  · rw [hops]
    exact List.not_mem_nil
  · rw [hops]
    exact hL.congr hq hnext hn hhas

end Follows

/-- Where the queue `q` has been created, the computation follows its trace. -/
def Tracks (q : QueueId) (x : Lib α) : Prop :=
  ∀ s a s', s.Has q → x s = .ok a s' → Follows s s'

namespace Tracks

variable {x : Lib α} {f : α → Lib β}

/-- A sequence follows the trace where both its parts do; the queue is there for the second one
too, as no queue is ever taken away. -/
theorem bind (hx : Tracks q x) (hf : ∀ a, Tracks q (f a)) : Tracks q (x >>= f) := by
  intro s b s' hq h
  obtain ⟨a, t, hxs, hfs⟩ := bind_eq_ok.mp h
  have ht := hx s a t hq hxs
  exact ht.trans (hf a t b s' (ht.has q hq) hfs)

/-- A value touches no queue. -/
theorem pure (a : α) : Tracks q (Pure.pure a : Lib α) := by
  intro s b s' _ h
  cases h
  exact .refl s

/-- Nothing is claimed behind a fault or an exit. -/
theorem stop (why : Stop) : Tracks q (Qthreads.stop why : Lib α) := by
  intro s a s' _ h
  cases h

/-- The active list is there from the start. -/
theorem of_runnable (h : Tracks .runnable x) : Tracks q x :=
  fun s a s' _ hx => h s a s' trivial hx

/-- A computation that touches no queue. -/
theorem of_untouched (h : ∀ s a s', x s = .ok a s' → ∃ new, s'.trace = s.trace ++ new ∧
    (∀ e ∈ new, e.queueOp = none) ∧ s'.queue = s.queue ∧
    (∀ t, (s'.thread t).next = (s.thread t).next) ∧ s'.nthreads = s.nthreads ∧
    s'.nmutexes = s.nmutexes ∧ s'.nconds = s.nconds ∧ s'.currentThread = s.currentThread) :
    Tracks q x := by
  intro s a s' _ hx
  obtain ⟨new, htr, hnew, hq, hnext, hn, hm, hc, hcur⟩ := h s a s' hx
  refine .of_untouched htr hnew hq (fun t _ => hnext t) (Nat.le_of_eq hn.symm) (fun q hq => ?_) hcur
  cases q with
  | mutex m => rwa [St.Has, hm]
  | cond c => rwa [St.Has, hc]
  | runnable | sleeping => trivial

/-- A computation that only looks. -/
theorem of_same (h : ∀ s a s', x s = .ok a s' → s' = s) : Tracks q x := by
  intro s a s' _ hx
  rw [h s a s' hx]
  exact .refl s

end Tracks

/-! ### Memory accesses -/

/-- Reading a structure succeeds at a pointer that is not null, and changes nothing. -/
theorem load_eq_ok {p : Ptr} {th : Qthread} (h : load p s = .ok th s') :
    ∃ t, p = some t ∧ th = s.thread t ∧ s' = s := by
  unfold load at h
  split at h
  · cases h
  · split at h <;> cases h
    exact ⟨_, rfl, rfl, rfl⟩

/-- Writing to a structure succeeds at the pointer of a thread that has been made. -/
theorem store_eq_ok {p : Ptr} {f : Qthread → Qthread} (h : store p f s = .ok () s') :
    ∃ t, p = some t ∧ t < s.nthreads ∧
      s' = { s with thread := Function.update s.thread t (f (s.thread t)) } := by
  unfold store at h
  split at h
  · cases h
  · split at h
    · next ht =>
        cases h
        exact ⟨_, rfl, ht, rfl⟩
    · cases h

/-- Reading a structure touches no queue. -/
theorem load_tracks (p : Ptr) : Tracks q (load p) :=
  .of_same fun s a s' h => by
    obtain ⟨t, -, -, rfl⟩ := load_eq_ok h
    rfl

/-- A write that leaves the link of the structure alone touches no queue. -/
theorem store_tracks (p : Ptr) {f : Qthread → Qthread} (hf : ∀ th, (f th).next = th.next) :
    Tracks q (store p f) :=
  .of_untouched fun s a s' h => by
    obtain ⟨t, -, -, rfl⟩ := store_eq_ok h
    exact ⟨[], (List.append_nil _).symm, List.forall_mem_nil _, rfl, congrFun (next_update (hf _)),
      rfl, rfl, rfl, rfl⟩

/-- Reading the header of a queue touches none. -/
theorem header_tracks (q' : QueueId) : Tracks q (header q') :=
  .of_same fun _ _ _ h => by
    cases h
    rfl

/-- Reading `current_thread` touches no queue. -/
theorem currentThread_tracks : Tracks q currentThread :=
  .of_same fun _ _ _ h => by
    cases h
    rfl

/-- Asking who runs touches no queue. -/
theorem self_tracks : Tracks q self :=
  .of_same fun _ _ _ h => by
    cases h
    rfl

/-- Looking at the clock touches no queue. -/
theorem clockReadings_tracks : Tracks q clockReadings :=
  .of_same fun _ _ _ h => by
    cases h
    rfl

/-- Coming to another point of the code touches no queue. -/
theorem goto_tracks (p : Point) : Tracks q (goto p) :=
  .of_untouched fun s a s' h => by
    cases h
    exact ⟨[], (List.append_nil _).symm, List.forall_mem_nil _, rfl, fun _ => rfl, rfl, rfl, rfl,
      rfl⟩

/-- The flag of a mutex is not in its queue. -/
theorem setLocked_tracks (m : MutexId) (v : UInt16) : Tracks q (setLocked m v) :=
  .of_untouched fun s a s' h => by
    cases h
    exact ⟨[], (List.append_nil _).symm, List.forall_mem_nil _, rfl, fun _ => rfl, rfl, rfl, rfl,
      rfl⟩

/-- An observation that is not about a queue adds nothing to what the trace tells about them. -/
theorem log_tracks {e : Event} (he : e.queueOp = none) : Tracks q (log e) :=
  .of_untouched fun s a s' h => by
    cases h
    exact ⟨[e], rfl, by simpa using he, rfl, fun _ => rfl, rfl, rfl, rfl, rfl⟩

/-- Reading the clock touches no queue. -/
theorem getUsecs_tracks : Tracks q getUsecs :=
  .of_untouched fun s a s' h => by
    unfold getUsecs at h
    split at h
    · cases h
    · cases h
      exact ⟨[.reading _], rfl, by simp [Event.queueOp], rfl, fun _ => rfl, rfl, rfl, rfl, rfl⟩

/-! ### Queue operations -/

/-- What `push_back` does where it returns. -/
theorem pushBack_eq_ok {p : Ptr} (h : pushBack q p s = .ok () s') :
    ∃ t thread header, p = some t ∧ t < s.nthreads ∧
      s' = { s with
        thread := thread
        queue := Function.update s.queue q header
        trace := s.trace ++ [.pushed q (some t)] } := by
  obtain ⟨_, s₁, hstore, h₁⟩ := bind_eq_ok.mp h
  obtain ⟨t, rfl, ht, rfl⟩ := store_eq_ok hstore
  obtain ⟨qh, _, hheader, h₂⟩ := bind_eq_ok.mp h₁
  cases hheader
  split at h₂
  · cases h₂
    exact ⟨t, _, _, rfl, ht, rfl⟩
  · obtain ⟨_, s₂, hstore', h₃⟩ := bind_eq_ok.mp h₂
    obtain ⟨r, -, -, rfl⟩ := store_eq_ok hstore'
    cases h₃
    exact ⟨t, _, _, rfl, ht, rfl⟩

/-- `push_back` puts a thread at the end of a list. -/
theorem pushBack_tracks (p : Ptr) : Tracks q (pushBack q p) := by
  intro s _ s' hq h
  obtain ⟨t, thread, header, rfl, ht, hs'⟩ := pushBack_eq_ok h
  have hhas : ∀ q', s'.Has q' ↔ s.Has q' := fun q' => by
    rw [hs']
    cases q' <;> exact Iff.rfl
  refine ⟨fun q' => (hhas q').mpr, by rw [hs'], [.pushed q (some t)], by rw [hs'],
    by simp [queueOps, Event.queueOp], fun L hL hadm => ?_⟩
  obtain ⟨s₁, hrun, -, -, hqueued, -⟩ := pushBack_queued (q := q) hL.toQueued ht hadm.1
  obtain rfl : s' = s₁ := by
    rw [h] at hrun
    cases hrun
    rfl
  refine ⟨hqueued, fun q' hq' => ?_⟩
  have hne : q' ≠ q := by
    rintro rfl
    exact hq' ((hhas _).mpr hq)
  exact (Function.update_of_ne hne ..).trans (hL.fresh q' (mt (hhas q').mpr hq'))

/-- What `pop_front` does where it returns. -/
theorem popFront_eq_ok {p : Ptr} (h : popFront q s = .ok p s') :
    (p = none ∧ s' = s ∧ (s.queue q).size = 0) ∨ ∃ t header, p = some t ∧ s' = { s with
      queue := Function.update s.queue q header
      trace := s.trace ++ [.popped q (some t)] } := by
  obtain ⟨qh, _, hheader, h₁⟩ := bind_eq_ok.mp h
  cases hheader
  split at h₁
  · next hsize =>
      cases h₁
      exact .inl ⟨rfl, rfl, hsize⟩
  · obtain ⟨th, s₁, hload, h₂⟩ := bind_eq_ok.mp h₁
    obtain ⟨t, hfront, -, rfl⟩ := load_eq_ok hload
    cases h₂
    exact .inr ⟨t, _, hfront, by rw [hfront]⟩

/-- What `pop_front` takes away is the front of a list. -/
theorem popFront_made {t : Tid} (h : popFront q s = .ok (some t) s') (hL : Made s L) :
    (L q).head? = some t ∧ Made s' ((Fifo.Op.pop q).apply L) := by
  cases hl : L q with
  | nil =>
      rw [popFront_nil hL.toQueued hl] at h
      cases h
  | cons u l =>
      obtain ⟨s₁, hrun, hb, -, -, hqueued⟩ := popFront_queued hL.toQueued hl
      rw [hrun] at h
      cases h
      refine ⟨rfl, ?_, fun q' hq' => ?_⟩
      · rwa [Fifo.Op.apply, hl]
      · have hs : ¬ s.Has q' := fun hs => hq' (by
          cases q' with
          | mutex m => rwa [St.Has, hb.nmutexes]
          | cond c => rwa [St.Has, hb.nconds]
          | runnable | sleeping => trivial)
        have hne : q' ≠ q := by
          rintro rfl
          rw [hL.fresh q' hs] at hl
          cases hl
        exact (Function.update_of_ne hne ..).trans (hL.fresh q' hs)

/-- `pop_front` takes a thread away from the front of a list. -/
theorem popFront_tracks {q' : QueueId} (hq : q ≠ .runnable) : Tracks q' (popFront q) := by
  intro s p s' _ h
  rcases popFront_eq_ok h with ⟨-, rfl, -⟩ | ⟨t, header, rfl, hs'⟩
  · exact .refl s'
  · refine ⟨fun q' hq' => by rw [hs']; cases q' <;> exact hq', by rw [hs'], [.popped q (some t)],
      by rw [hs'], by simpa [queueOps, Event.queueOp] using hq.symm, fun L hL _ => ?_⟩
    exact (popFront_made h hL).2

/-- Making a thread runnable appends it to the active list. -/
theorem pushRunnable_tracks (p : Ptr) : Tracks q (pushBack .runnable p) :=
  .of_runnable (pushBack_tracks p)

/-- Going to sleep appends the thread to the sleeping set. -/
theorem pushSleeping_tracks (p : Ptr) : Tracks q (pushBack .sleeping p) :=
  fun s a s' _ h => pushBack_tracks (q := .sleeping) p s a s' trivial h

/-! ### The scheduler -/

/-- The loop over the sleepers takes each from the front of the sleeping set and appends it again.
-/
theorem wakeLoop_tracks (readings : List ℤ) (head : Ptr) : Tracks q (wakeLoop readings head) := by
  induction readings generalizing head with
  | nil => exact .stop _
  | cons _ readings ih =>
      refine getUsecs_tracks.bind fun now => (load_tracks head).bind fun h => ?_
      split
      · split
        · refine (popFront_tracks (by decide)).bind fun newHead => ?_
          exact (pushSleeping_tracks head).bind fun _ => ih newHead
        · exact ih head
      · exact .pure head

/-- Waking a sleeper moves it from the sleeping set to the active list. -/
theorem wakeSleepingThreads_tracks : Tracks q wakeSleepingThreads := by
  refine (header_tracks _).bind fun h => ?_
  split
  · exact .pure 0
  · refine (popFront_tracks (by decide)).bind fun head => clockReadings_tracks.bind fun l => ?_
    refine (wakeLoop_tracks l head).bind fun woken => ?_
    exact (pushRunnable_tracks woken).bind fun _ => .pure 1

/-- The test of `schedule` wakes a sleeper or does nothing. -/
theorem wakeIfIdle_tracks : Tracks q wakeIfIdle := by
  refine (header_tracks _).bind fun h => ?_
  split
  · refine (header_tracks _).bind fun h => ?_
    split
    · exact wakeSleepingThreads_tracks.bind fun _ => .pure ()
    · exact .pure ()
  · exact .pure ()

/-- The caller of `schedule` goes into the list its argument says, if any. -/
theorem scheduleFile_tracks (exit : ℤ) (old : Ptr) : Tracks q (scheduleFile exit old) := by
  unfold scheduleFile
  split
  · exact wakeIfIdle_tracks.bind fun _ => .pure ()
  · dsimp only
    split_ifs
    · exact .pure ()
    · exact pushSleeping_tracks old
    · exact pushRunnable_tracks old

/-- The switch to another thread is no access to a queue. -/
theorem switchThread_tracks (old : Ptr) (context : Context) :
    Tracks q (switchThread old context) := by
  have hsaved (running : Context) :
      Tracks q (store old fun th => { th with savedStackPointer := running }) :=
    store_tracks old fun _ => rfl
  refine Tracks.bind (.of_same fun s a s' h => ?_) fun running => (hsaved running).bind fun _ => ?_
  · cases h
    rfl
  · refine .of_untouched fun s a s' h => ?_
    cases h
    exact ⟨[], (List.append_nil _).symm, List.forall_mem_nil _, rfl, fun _ => rfl, rfl, rfl, rfl,
      rfl⟩

/-- What `switch_runnable` does with the thread that it takes from the active list. -/
theorem switchRunnable_follows {old : Ptr} (h : switchRunnable old s = .ok () s')
    (hold : old ≠ none) : ∃ t s₁, popFront .runnable s = .ok (some t) s₁ ∧
      Follows { s₁ with currentThread := some t } s' := by
  obtain ⟨p, s₁, hpop, h₁⟩ := bind_eq_ok.mp h
  obtain ⟨_, _, hset, h₂⟩ := bind_eq_ok.mp h₁
  cases hset
  obtain ⟨_, _, hcur, h₃⟩ := bind_eq_ok.mp h₂
  cases hcur
  cases p with
  | none =>
      -- `current_thread` is `NULL`, and is dereferenced
      have hne : ¬ none = old := fun he => hold he.symm
      rw [if_neg hne] at h₃
      obtain ⟨_, _, hload, -⟩ := bind_eq_ok.mp h₃
      obtain ⟨_, hnone, -⟩ := load_eq_ok hload
      cases hnone
  | some t =>
      refine ⟨t, s₁, hpop, ?_⟩
      have hrest : Tracks .runnable (do
          if some t = old then
            return ()
          let th ← load (some t)
          if th.dead ≠ 1 then
            switchThread old th.savedStackPointer) := by
        split
        · exact .pure ()
        · refine (load_tracks _).bind fun th => ?_
          split
          · exact switchThread_tracks old _
          · exact .pure ()
      exact hrest _ _ _ trivial h₃

/-! ### Calls -/

/-- A new thread is in no queue, whatever its link is. -/
theorem malloc_tracks (content : Qthread) (f : Tid → Qthread → Qthread) {k : Tid → Lib α}
    (hk : ∀ t, Tracks q (k t)) : Tracks q (do
      let thread ← mallocThread content
      store (some thread) (f thread)
      k thread) := by
  intro s a s' hq h
  obtain ⟨_, _, hmalloc, h₁⟩ := bind_eq_ok.mp h
  cases hmalloc
  obtain ⟨_, s₂, hstore, h₂⟩ := bind_eq_ok.mp h₁
  obtain ⟨_, ht, -, hs₂⟩ := store_eq_ok hstore
  cases ht
  have hnew : Follows s s₂ := by
    subst hs₂
    refine .of_untouched (List.append_nil _).symm (List.forall_mem_nil _) rfl (fun t ht => ?_)
      (Nat.le_succ _) (fun q hq => by cases q <;> exact hq) rfl
    have hne : t ≠ s.nthreads := Nat.ne_of_lt ht
    simp only [Function.update_of_ne hne]
  exact hnew.trans (hk _ s₂ a s' (hnew.has q hq) h₂)

/-- A thread that is created is appended to the active list. -/
theorem qthreadCreate_tracks (stack : Bool) (mem : Option Qthread) :
    Tracks q (qthreadCreate stack mem) := by
  unfold qthreadCreate
  split
  · exact .stop _
  · split
    · exact .stop _
    · exact malloc_tracks _ _ fun t => (pushRunnable_tracks _).bind fun _ => .pure t

/-- A thread that exits appends its joiner to the active list. -/
theorem qthreadExit_tracks (val : Value) : Tracks q (qthreadExit val) := by
  have hval (current : Ptr) : Tracks q (store current fun th => { th with returnVal := val }) :=
    store_tracks current fun _ => rfl
  have hdead (current : Ptr) : Tracks q (store current fun th => { th with dead := 1 }) :=
    store_tracks current fun _ => rfl
  refine currentThread_tracks.bind fun current => (hval current).bind fun _ => ?_
  refine (hdead current).bind fun _ => (load_tracks current).bind fun th => ?_
  split
  · exact (pushRunnable_tracks _).bind fun _ => .pure _
  · exact .pure _

/-- The loop of a join only looks at the thread, or gives the processor away. -/
theorem joinLoop_tracks (thread : Tid) : Tracks q (joinLoop thread) := by
  refine (load_tracks _).bind fun th => ?_
  split
  · exact .pure _
  · exact self_tracks.bind fun t => (log_tracks rfl).bind fun _ => .pure _

/-- A join notes its caller as the waiter. -/
theorem qthreadJoin_tracks (thread : Tid) : Tracks q (qthreadJoin thread) := by
  have hwaiter (current : Ptr) :
      Tracks q (store (some thread) fun th => { th with waiter := current }) :=
    store_tracks _ fun _ => rfl
  exact currentThread_tracks.bind fun current =>
    (hwaiter current).bind fun _ => joinLoop_tracks thread

/-- A thread that goes to sleep notes its deadline; the sleeping set gets it in `schedule`. -/
theorem qthreadUsleep_tracks (usecs : ℤ) : Tracks q (qthreadUsleep usecs) := by
  have htime (now : ℤ) (current : Ptr) : Tracks q (store current fun th =>
      { th with timingInformation := toLong (now + usecs) }) :=
    store_tracks current fun _ => rfl
  exact getUsecs_tracks.bind fun now => currentThread_tracks.bind fun current =>
    (htime now current).bind fun _ => .pure _

/-- A queue that is created is empty, and was empty before. -/
theorem create_follows {header : Threadq} (hsize : header.size = 0)
    (hq : s'.queue = Function.update s.queue q header) (hold : ¬ s.Has q)
    (hhas : ∀ q, s.Has q → s'.Has q) (hthread : s'.thread = s.thread)
    (hn : s'.nthreads = s.nthreads) (hcur : s'.currentThread = s.currentThread)
    (htr : s'.trace = s.trace) : Follows s s' := by
  refine ⟨hhas, hcur, [], htr.trans (List.append_nil _).symm, List.not_mem_nil, fun L hL _ => ?_⟩
  refine ⟨⟨?_, fun q t ht => hn ▸ hL.bound q t ht⟩, fun q hq => hL.fresh q (mt (hhas q) hq)⟩
  rw [hq, hthread]
  exact hL.family.reset (hL.fresh q hold) hsize

/-- The queue of a new mutex is empty. -/
theorem qthreadMutexCreate_tracks (mem : Threadq) : Tracks q (qthreadMutexCreate mem) := by
  intro s a s' _ h
  cases h
  refine create_follows (q := .mutex s.nmutexes) rfl rfl (Nat.lt_irrefl _) (fun q hq => ?_) rfl rfl
    rfl rfl
  cases q with
  | mutex m => exact Nat.lt_succ_of_lt hq
  | cond c => exact hq
  | runnable | sleeping => trivial

/-- The queue of a new condition variable is empty. -/
theorem qthreadCondCreate_tracks (mem : Threadq) : Tracks q (qthreadCondCreate mem) := by
  intro s a s' _ h
  cases h
  refine create_follows (q := .cond s.nconds) rfl rfl (Nat.lt_irrefl _) (fun q hq => ?_) rfl rfl
    rfl rfl
  cases q with
  | mutex m => exact hq
  | cond c => exact Nat.lt_succ_of_lt hq
  | runnable | sleeping => trivial

/-- Behind an access to its flag, a mutex has been created. -/
theorem lockedFlag_bind_tracks {m : MutexId} {f : UInt16 → Lib α}
    (hf : ∀ v, Tracks (.mutex m) (f v)) : Tracks q (lockedFlag m >>= f) := by
  intro s a s' _ h
  obtain ⟨v, s₁, hflag, h₁⟩ := bind_eq_ok.mp h
  unfold lockedFlag at hflag
  split at hflag
  · next hm =>
      cases hflag
      exact hf _ s a s' hm h₁
  · cases hflag

/-- Behind an access to it, a condition variable has been created. -/
theorem condQueue_bind_tracks {c : CondId} {f : QueueId → Lib α}
    (hf : Tracks (.cond c) (f (.cond c))) : Tracks q (condQueue c >>= f) := by
  intro s a s' _ h
  obtain ⟨_, s₁, hqueue, h₁⟩ := bind_eq_ok.mp h
  unfold condQueue at hqueue
  split at hqueue
  · next hc =>
      cases hqueue
      exact hf s a s' hc h₁
  · cases hqueue

/-- A mutex that is taken puts its caller at the end of its queue. -/
theorem qthreadMutexLock_tracks (after : Point) (m : MutexId) :
    Tracks q (qthreadMutexLock after m) := by
  refine self_tracks.bind fun t => (log_tracks rfl).bind fun _ => lockedFlag_bind_tracks fun v => ?_
  split
  · refine (setLocked_tracks m 1).bind fun _ => self_tracks.bind fun t => ?_
    exact (log_tracks rfl).bind fun _ => .pure _
  · exact currentThread_tracks.bind fun current => (pushBack_tracks current).bind fun _ => .pure _

/-- Handing a mutex over moves the first waiter to the active list. -/
theorem qthreadMutexUnlock_tracks (m : MutexId) : Tracks q (qthreadMutexUnlock m) := by
  have hne : QueueId.mutex m ≠ .runnable := nofun
  refine self_tracks.bind fun t => (log_tracks rfl).bind fun _ => lockedFlag_bind_tracks fun _ => ?_
  refine (header_tracks _).bind fun h => ?_
  split
  · refine (popFront_tracks hne).bind fun tmp => ?_
    split
    · exact pushRunnable_tracks tmp
    · exact .pure ()
  · exact setLocked_tracks m 0

/-- Waiting on a condition unlocks the mutex and appends the caller to the condition's queue. -/
theorem qthreadCondWait_tracks (c : CondId) (m : MutexId) : Tracks q (qthreadCondWait c m) := by
  refine (qthreadMutexUnlock_tracks m).bind fun _ => condQueue_bind_tracks ?_
  exact currentThread_tracks.bind fun current => (pushBack_tracks current).bind fun _ => .pure _

/-- Behind the wait the mutex is locked again, with what that does to its queue. -/
theorem condWaitRelock_tracks (c : CondId) (m : MutexId) : Tracks q (condWaitRelock c m) := by
  refine (qthreadMutexLock_tracks _ m).bind fun flow => ?_
  split
  · exact self_tracks.bind fun t => (log_tracks rfl).bind fun _ => .pure flow
  · exact .pure flow

/-- A waiter that is woken moves from its queue to the active list. -/
theorem wakeWaiter_tracks {q' : QueueId} (hq : q ≠ .runnable) : Tracks q' (wakeWaiter q) :=
  (popFront_tracks hq).bind fun tmp => pushRunnable_tracks tmp

/-- A signal wakes one waiter, if there is one. -/
theorem qthreadCondSignal_tracks (c : CondId) : Tracks q (qthreadCondSignal c) := by
  have hne : QueueId.cond c ≠ .runnable := nofun
  refine condQueue_bind_tracks ((header_tracks _).bind fun h => ?_)
  split
  · exact (wakeWaiter_tracks hne).bind fun _ => .pure _
  · exact .pure _

/-- A broadcast is a signal as often as there are waiters. -/
theorem broadcastLoop_tracks {q' : QueueId} (hq : q ≠ .runnable) (n : ℕ) :
    Tracks q' (broadcastLoop q n) := by
  induction n with
  | zero => exact .pure ()
  | succ n ih =>
      refine (header_tracks _).bind fun h => ?_
      split
      · exact (wakeWaiter_tracks hq).bind fun _ => ih
      · exact .pure ()

/-- It does nothing but this loop. -/
theorem qthreadCondBroadcast_tracks (c : CondId) : Tracks q (qthreadCondBroadcast c) := by
  have hne : QueueId.cond c ≠ .runnable := nofun
  exact condQueue_bind_tracks ((header_tracks _).bind fun h =>
    (broadcastLoop_tracks hne h.size).bind fun _ => .pure _)

/-- The wrapper ends with `qthread_exit`, whatever the start function has returned. -/
theorem createThreadWrapper_tracks (val : Value) : Tracks q (createThreadWrapper val) := by
  refine self_tracks.bind fun t => ?_
  split
  · exact .stop _
  · exact qthreadExit_tracks val

/-- Every call of the library follows its trace up to where it gives the processor away. -/
theorem call_tracks (op : Op) : Tracks q (call op) := by
  cases op with
  | create stack mem =>
      exact (qthreadCreate_tracks stack mem).bind fun t => self_tracks.bind fun u =>
        (log_tracks rfl).bind fun _ => .pure _
  | yield => exact .pure _
  | exit val => exact qthreadExit_tracks val
  | finish val => exact createThreadWrapper_tracks val
  | join thread => exact qthreadJoin_tracks thread
  | usleep usecs => exact qthreadUsleep_tracks usecs
  | mutexCreate mem => exact qthreadMutexCreate_tracks mem
  | lock m => exact qthreadMutexLock_tracks _ m
  | unlock m => exact (qthreadMutexUnlock_tracks m).bind fun _ => .pure _
  | condCreate mem => exact qthreadCondCreate_tracks mem
  | condWait c m => exact qthreadCondWait_tracks c m
  | signal c => exact qthreadCondSignal_tracks c
  | broadcast c => exact qthreadCondBroadcast_tracks c

/-- So does what a thread does when it is dispatched again. -/
theorem resume_tracks (p : Point) : Tracks q (resume p) := by
  cases p with
  | user => exact .stop _
  | usleep => exact self_tracks.bind fun t => (log_tracks rfl).bind fun _ => .pure _
  | join thread => exact joinLoop_tracks thread
  | condWait c m => exact condWaitRelock_tracks c m
  | relock c m => exact self_tracks.bind fun t => (log_tracks rfl).bind fun _ => .pure _
  | entry | yield | exit | lock m => exact .pure _

/-- So does a step of either kind, in front of its `schedule`. -/
theorem perform_tracks (act : Action) : Tracks q (perform act) := by
  refine Tracks.bind (.of_same fun s a s' h => ?_) fun point => ?_
  · cases h
    rfl
  · cases act with
    | call op =>
        dsimp only
        split
        · exact self_tracks.bind fun t => (log_tracks rfl).bind fun _ => call_tracks op
        · exact .stop _
    | resume => exact resume_tracks point

/-! ### Steps and runs -/

/-- The thread that a step makes current in `switch_runnable`, if it comes there. -/
def dispatches (act : Action) (s s' : St) : List Tid :=
  match perform act s with
  | .ok (.schedules _ _) _ => s'.currentThread.toList
  | _ => []

/-- From `s` to `s'`, the trace tells what became of the queues, and the threads `ts` were
taken from the active list, one after the other. -/
structure Takes (s : St) (ts : List Tid) (s' : St) : Prop where
  has : ∀ q, s.Has q → s'.Has q
  current : s.currentThread ≠ none → s'.currentThread ≠ none
  trace : ∃ new, s'.trace = s.trace ++ new ∧ ∀ L, Made s L → Admissible L (queueOps new) →
    Made s' (replay L (queueOps new)) ∧ removed .runnable L (queueOps new) = ts

namespace Takes

variable {ts ts' : List Tid}

/-- Without a step nobody takes a turn. -/
theorem refl (s : St) : Takes s [] s :=
  ⟨fun _ h => h, id, [], (List.append_nil _).symm, fun _ h _ => ⟨h, rfl⟩⟩

/-- Between two turns the trace may grow, and nobody has taken one. -/
theorem of_follows (h : Follows s s') : Takes s [] s' := by
  obtain ⟨new, htr, hpop, hmade⟩ := h.trace
  exact ⟨h.has, fun hs => h.current ▸ hs, new, htr,
    fun L hL hadm => ⟨hmade L hL hadm, removed_eq_nil hpop⟩⟩

/-- Turns taken in two stretches are turns taken in both together. -/
theorem trans (h : Takes s ts s') (h' : Takes s' ts' u) : Takes s (ts ++ ts') u := by
  obtain ⟨new, htr, hmade⟩ := h.trace
  obtain ⟨new', htr', hmade'⟩ := h'.trace
  refine ⟨fun q hq => h'.has q (h.has q hq), fun hs => h'.current (h.current hs), new ++ new', ?_,
    fun L hL hadm => ?_⟩
  · rw [htr', htr, List.append_assoc]
  · rw [queueOps, subjects_append] at hadm ⊢
    obtain ⟨hadm, hadm'⟩ := admissible_append.mp hadm
    obtain ⟨hL', hts⟩ := hmade L hL hadm
    obtain ⟨hL'', hts'⟩ := hmade' _ hL' hadm'
    rw [replay_append, removed_append]
    exact ⟨hL'', by rw [hts, hts']⟩

/-- The front of the active list becomes current. -/
theorem of_popFront {t : Tid} (h : popFront .runnable s = .ok (some t) s') :
    Takes s [t] { s' with currentThread := some t } := by
  obtain ⟨hnone, -⟩ | ⟨_, header, ht, hs'⟩ := popFront_eq_ok h
  · cases hnone
  · cases ht
    refine ⟨fun q hq => by rw [hs']; cases q <;> exact hq, fun _ => Option.some_ne_none t,
      [.popped .runnable (some t)], by rw [hs'], fun L hL _ => ?_⟩
    obtain ⟨hhead, hmade⟩ := popFront_made h hL
    refine ⟨hmade.congr rfl (fun _ _ => rfl) (Nat.le_refl _) fun _ hq => hq, ?_⟩
    simp [queueOps, Event.queueOp, removed, Fifo.Op.removed, hhead]

end Takes

/-- A step takes what it makes current from the active list. -/
theorem step_takes {act : Action} (h : step act s = .ok () s') (hcur : s.currentThread ≠ none) :
    Takes s (dispatches act s s') s' := by
  obtain ⟨flow, s₁, hperform, h₁⟩ := bind_eq_ok.mp h
  have hfirst : Follows s s₁ := perform_tracks (q := .runnable) act s flow s₁ trivial hperform
  cases flow with
  | returns =>
      have hrest : Follows s₁ s' := goto_tracks (q := .runnable) .user s₁ () s' trivial h₁
      rw [dispatches, hperform]
      exact .of_follows (hfirst.trans hrest)
  | schedules after exit =>
      obtain ⟨_, s₂, hgoto, h₂⟩ := bind_eq_ok.mp h₁
      have hsecond : Follows s₁ s₂ := goto_tracks (q := .runnable) after s₁ () s₂ trivial hgoto
      obtain ⟨old, _, hold, h₃⟩ := bind_eq_ok.mp h₂
      cases hold
      obtain ⟨_, s₃, hfile, h₄⟩ := bind_eq_ok.mp h₃
      obtain ⟨_, s₄, hidle, h₅⟩ := bind_eq_ok.mp h₄
      have hthird : Follows s₂ s₃ :=
        scheduleFile_tracks (q := .runnable) exit _ s₂ () s₃ trivial hfile
      have hfourth : Follows s₃ s₄ := wakeIfIdle_tracks (q := .runnable) s₃ () s₄ trivial hidle
      have hbefore := (hfirst.trans hsecond).current
      obtain ⟨t, s₅, hpop, hrest⟩ := switchRunnable_follows h₅ (hbefore ▸ hcur)
      have hts : dispatches act s s' = [t] := by
        rw [dispatches, hperform]
        exact congrArg Option.toList hrest.current
      rw [hts]
      exact (Takes.of_follows (((hfirst.trans hsecond).trans hthird).trans hfourth)).trans
        ((Takes.of_popFront hpop).trans (.of_follows hrest))

/-- A run, with the threads that its steps make current, one after the other. -/
inductive Turns : St → List Tid → St → Prop
  | refl (s : St) : Turns s [] s
  | step {s s' s'' : St} {ts : List Tid} {act : Action} :
      Turns s ts s' → step act s' = .ok () s'' → Turns s (ts ++ dispatches act s' s'') s''

/-- A run that has a current thread to begin with takes the turns that its trace tells. -/
theorem Turns.takes {ts : List Tid} (h : Turns s ts s') (hcur : s.currentThread ≠ none) :
    Takes s ts s' := by
  induction h with
  | refl => exact .refl s
  | step _ hstep ih => exact ih.trans (step_takes hstep (ih.current hcur))

/-- Every reachable state is at the end of some turns. -/
theorem Reachable.turns {D : Discipline} {mem : Qthread} {clock : List ℤ}
    (h : Reachable D mem clock s) : ∃ ts, Turns (qthreadInit mem clock) ts s := by
  induction h with
  | refl => exact ⟨[], .refl _⟩
  | tail _ hstep ih =>
      obtain ⟨ts, hts⟩ := ih
      obtain ⟨act, -, hact⟩ := hstep
      exact ⟨_, hts.step hact⟩

/-- Actions that are permitted are a run. -/
theorem Turns.actions {D : Discipline} {acts : List Action} {ts : List Tid} (h : Turns s ts s')
    (hp : Permits D s' acts) : ∃ ts', Turns s ts' (acts.foldl St.after s') := by
  induction acts generalizing s' ts with
  | nil => exact ⟨ts, h⟩
  | cons act acts ih => exact ih (h.step (St.step_after hp.2.1)) hp.2.2

/-- At the start there is the active list and the sleeping set, both empty. -/
theorem made_init (mem : Qthread) (clock : List ℤ) : Made (qthreadInit mem clock) fun _ => [] :=
  ⟨queued_of_size fun _ => rfl, fun _ _ => rfl⟩

/-- In a run in which threads are put only where they are in no queue, a thread in the
active list is made current behind those ahead of it, or it is still there, behind what is
left of them. -/
theorem dispatched_in_turn {D : Discipline} {mem : Qthread} {clock : List ℤ} {ts : List Tid}
    (hs : Reachable D mem clock s) (hrun : Turns s ts s')
    (hadm : Admissible (fun _ => []) (queueOps s'.trace)) {l₁ l₂ : List Tid} {t : Tid}
    (ht : contents s .runnable = l₁ ++ t :: l₂) :
    (l₁ ++ t :: l₂).Nodup ∧ ((∃ l, ts = l₁ ++ t :: l) ∨
      ∃ l l', l₁ = ts ++ l ∧ contents s' .runnable = l ++ t :: l') := by
  obtain ⟨ts₀, hturns₀⟩ := hs.turns
  have htakes₀ := hturns₀.takes (Option.some_ne_none mainThread)
  have hcur : s.currentThread ≠ none := htakes₀.current (Option.some_ne_none mainThread)
  obtain ⟨new₀, htr₀, hmade₀⟩ := htakes₀.trace
  obtain ⟨new, htr, hmade⟩ := (hrun.takes hcur).trace
  have htr₀' : s.trace = new₀ := htr₀
  rw [htr, htr₀', queueOps, subjects_append] at hadm
  obtain ⟨hadm₀, hadm⟩ := admissible_append.mp hadm
  obtain ⟨hL, -⟩ := hmade₀ _ (made_init mem clock) hadm₀
  obtain ⟨hL', hts⟩ := hmade _ hL hadm
  rw [hL.contents_eq] at ht
  refine ⟨ht ▸ (hL.family.rep .runnable).nodup, ?_⟩
  rw [hL'.contents_eq, ← hts]
  exact removed_of_mem ht

end SystemsProjects.Qthreads
