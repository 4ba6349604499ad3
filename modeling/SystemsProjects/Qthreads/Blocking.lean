import SystemsProjects.Qthreads.Locations

/-!
# What a Step Does to One Mutex or Condition Variable

Most steps leave a given mutex or condition variable aside: its queue and flag stay, and
nothing is observed of it. What the others do is said here once, for each of the two kinds,
so that what holds of a mutex along a run is proved from three cases, and what holds of a
condition variable from five.

## Main definitions

* `Aside`: nothing happens to a mutex or condition variable.
* `OnMutex`, `OnCond`: all that the code of a step can do to one.

## Main results

* `Effect.onMutex`, `Effect.onCond`: every step does one of these.
-/

namespace SystemsProjects.Qthreads

/-- The observation is about the mutex or condition variable with the queue. -/
def Event.Concerns (q : QueueId) : Event → Prop
  | .called _ (.condWait c _) => q = .cond c
  | .pushed q' _ => q = q'
  | .popped q' _ => q = q'
  | .locks _ m => q = .mutex m
  | .took _ m => q = .mutex m
  | .unlocks _ m => q = .mutex m
  | .waited _ c _ => q = .cond c
  | _ => False

/-- What the scheduler proper does is not about a mutex or condition variable. -/
theorem Event.Internal.not_concerns {e : Event} (h : e.Internal) {q : QueueId}
    (hr : q ≠ .runnable) (hs : q ≠ .sleeping) : ¬e.Concerns q := by
  cases e with
  | pushed q' p | popped q' p =>
      rintro rfl
      exact h.elim hr hs
  | reading now => exact id
  | _ => exact h.elim

/-- The mutex or condition variable with the queue is left aside. -/
structure Aside (q : QueueId) (a b : Sched) : Prop where
  current : b.current = a.current
  queue : b.queue q = a.queue q
  locked : ∀ m, q = .mutex m → b.locked m = a.locked m
  trace : ∃ new, b.trace = a.trace ++ new ∧ ∀ e ∈ new, ¬e.Concerns q

namespace Aside

variable {q : QueueId} {a b c : Sched}

/-- A state has left everything aside that happens to nobody. -/
theorem refl (a : Sched) : Aside q a a :=
  ⟨rfl, rfl, fun _ _ => rfl, [], (List.append_nil _).symm, fun _ h => absurd h List.not_mem_nil⟩

/-- What is left aside in two stretches is left aside in both together. -/
theorem trans (h : Aside q a b) (h' : Aside q b c) : Aside q a c := by
  obtain ⟨n₁, ht₁, hn₁⟩ := h.trace
  obtain ⟨n₂, ht₂, hn₂⟩ := h'.trace
  refine ⟨h'.current.trans h.current, h'.queue.trans h.queue,
    fun m hm => (h'.locked m hm).trans (h.locked m hm), n₁ ++ n₂, ?_, fun e he => ?_⟩
  · rw [ht₂, ht₁, List.append_assoc]
  · rcases List.mem_append.mp he with he | he
    · exact hn₁ e he
    · exact hn₂ e he

/-- A change of fields that are not looked at. -/
theorem same (h : Aside q a b) (hc : c.current = b.current) (hq : c.queue q = b.queue q)
    (hl : ∀ m, q = .mutex m → c.locked m = b.locked m) (ht : c.trace = b.trace) :
    Aside q a c :=
  h.trans ⟨hc, hq, hl, [], by rw [ht, List.append_nil], fun _ h => absurd h List.not_mem_nil⟩

/-- An observation about something else leaves the object aside. -/
theorem log {e : Event} (h : Aside q a b) (he : ¬e.Concerns q) : Aside q a (b.log e) :=
  h.trans ⟨rfl, rfl, fun _ _ => rfl, [e], rfl, fun e' h => by rwa [List.mem_singleton.mp h]⟩

/-- So does an append to the queue of something else, or to the active list. -/
theorem push {q' : QueueId} (h : Aside q a b) (hq : q ≠ q') (t : Tid) :
    Aside q a (b.push q' t) :=
  h.trans ⟨rfl, Sched.queue_push_of_ne hq, fun _ _ => rfl, [.pushed q' (some t)], rfl,
    fun e h => by rwa [List.mem_singleton.mp h]⟩

/-- Waking the first waiter of another object leaves this one aside. -/
theorem wakeFront {q' : QueueId} (h : Aside q a b) (hq : q ≠ q') (hr : q ≠ .runnable) :
    Aside q a (b.wakeFront q') := by
  cases hl : b.queue q' with
  | nil => rwa [Sched.wakeFront_of_nil hl]
  | cons t l =>
      rw [Sched.wakeFront, hl, Sched.pop_of_cons hl]
      refine Aside.push ?_ hr t
      exact h.trans ⟨rfl, Function.update_of_ne hq .., fun _ _ => rfl, [.popped q' (some t)], rfl,
        fun e h => by rwa [List.mem_singleton.mp h]⟩

/-- And so does waking all of them. -/
theorem wakeAll {q' : QueueId} (h : Aside q a b) (hq : q ≠ q') (hr : q ≠ .runnable) :
    Aside q a (b.wakeAll q') := by
  rw [Sched.wakeAll]
  generalize (b.queue q').length = n
  induction n with
  | zero => exact h
  | succ n ih =>
      rw [Function.iterate_succ_apply']
      exact ih.wakeFront hq hr

/-- The flag of another mutex may change, and that of this one may be written with what it holds.
-/
theorem setLocked {m : MutexId} {v : UInt16} (h : Aside q a b)
    (hq : q = .mutex m → b.locked m = v) : Aside q a (b.setLocked m v) := by
  refine h.same rfl rfl (fun m' hm => ?_) rfl
  rcases eq_or_ne m' m with rfl | hne
  · exact (Function.update_self ..).trans (hq hm).symm
  · exact Function.update_of_ne hne ..

/-- Unlocking another mutex leaves this one aside. -/
theorem unlock {m : MutexId} (h : Aside q a b) (hq : q ≠ .mutex m) (hr : q ≠ .runnable) :
    Aside q a (b.unlock m) := by
  have hlog := h.log (e := .unlocks b.current m) hq
  cases hl : b.queue (.mutex m) with
  | nil =>
      rw [Sched.unlock_of_nil hl]
      exact hlog.setLocked fun h => absurd h hq
  | cons t l =>
      rw [Sched.unlock_of_cons hl]
      exact hlog.wakeFront hq hr

/-- So does locking another, whether it is free or not. -/
theorem lock {after : Point} {m : MutexId} (h : Aside q a b) (hq : q ≠ .mutex m) :
    Aside q a (b.lock after m).2 := by
  have hlog := h.log (e := .locks b.current m) hq
  rcases eq_or_ne (b.locked m) 0 with h0 | h0
  · rw [Sched.lock_of_free h0]
    exact Aside.log (hlog.setLocked fun h => absurd h hq) hq
  · rw [Sched.lock_of_held h0]
    exact hlog.push hq _

/-- A join is about a thread, and no object. -/
theorem joinLoop {t : Tid} (h : Aside q a b) : Aside q a (b.joinLoop t).2 := by
  rw [Sched.joinLoop]
  split
  · exact h
  · exact h.log id

/-- The exit of a thread appends its joiner to the active list at most. -/
theorem finish {v : Value} (h : Aside q a b) (hr : q ≠ .runnable) :
    Aside q a (b.finish v) := by
  rw [Sched.finish]
  split
  · exact h.same rfl rfl (fun _ _ => rfl) rfl
  · refine Aside.push ?_ hr _
    exact h.same rfl rfl (fun _ _ => rfl) rfl

/-- A new thread is appended to the active list. -/
theorem spawn {d : ℤ} (h : Aside q a b) (hr : q ≠ .runnable) : Aside q a (b.spawn d) := by
  refine Aside.push ?_ hr _
  exact h.same rfl rfl (fun _ _ => rfl) rfl

end Aside

/-! ### Mutexes -/

/-- What the code of a step can do to a mutex: leave it aside, try to lock it, which is a
call of `qthread_mutex_lock` or the way out of a wait, or unlock it, which is a call of
`qthread_mutex_unlock` or the way into a wait. -/
inductive OnMutex (m : MutexId) (a : Sched) : Action → Flow → Sched → Prop
  | aside {act : Action} {flow : Flow} {b : Sched} :
      Aside (.mutex m) a b → OnMutex m a act flow b
  | lock {act : Action} {after : Point} {a' b : Sched} :
      m < a.nmutexes →
      (act = .call (.lock m) ∧ after = .lock m) ∨
        (act = .resume ∧ ∃ c, a.point a.current = .condWait c m ∧ after = .relock c m) →
      Aside (.mutex m) a a' → Aside (.mutex m) (a'.lock after m).2 b →
      OnMutex m a act (a'.lock after m).1 b
  | unlock {act : Action} {flow : Flow} {a' b : Sched} :
      m < a.nmutexes → act = .call (.unlock m) ∨ (∃ c, act = .call (.condWait c m)) →
      Aside (.mutex m) a a' → Aside (.mutex m) (a'.unlock m) b → OnMutex m a act flow b

/-- **What a step does to a mutex.** -/
theorem Effect.onMutex {a b : Sched} {act : Action} {flow : Flow} (h : Effect a act flow b)
    (hfree : ∀ m, a.nmutexes ≤ m → a.locked m = 0) (m : MutexId) :
    OnMutex m a act flow b := by
  have hr : QueueId.mutex m ≠ .runnable := QueueId.noConfusion
  have hcond : ∀ c, QueueId.mutex m ≠ .cond c := fun _ => QueueId.noConfusion
  have hne : ∀ {m'}, m ≠ m' → QueueId.mutex m ≠ .mutex m' := fun hm h =>
    hm (QueueId.mutex.inj h)
  have hcall : ∀ op, Aside (.mutex m) a (a.log (.called a.current op)) := by
    intro op
    refine (Aside.refl a).log ?_
    cases op with
    | condWait c m' => exact hcond c
    | _ => exact id
  cases h with
  | create _ =>
      refine .aside (Aside.log (Aside.spawn ?_ hr) id)
      exact hcall _
  | yield _ => exact .aside (hcall _)
  | exit _ | finish _ _ => exact .aside ((hcall _).finish hr)
  | join _ _ =>
      refine .aside (Aside.joinLoop ?_)
      exact (hcall _).same rfl rfl (fun _ _ => rfl) rfl
  | @usleep u now _ _ _ =>
      exact .aside (((hcall _).log (e := .reading now) id).same rfl rfl (fun _ _ => rfl) rfl)
  | mutexCreate _ _ =>
      refine .aside (Aside.same ((hcall _).setLocked fun _ => ?_) rfl rfl (fun _ _ => rfl) rfl)
      exact hfree _ le_rfl
  | @lock m' _ hlt =>
      rcases eq_or_ne m m' with rfl | hm
      · exact .lock hlt (.inl ⟨rfl, rfl⟩) (hcall _) (.refl _)
      · exact .aside ((hcall _).lock (hne hm))
  | @unlock m' _ hlt =>
      rcases eq_or_ne m m' with rfl | hm
      · exact .unlock hlt (.inl rfl) (hcall _) (.refl _)
      · exact .aside ((hcall _).unlock (hne hm) hr)
  | condCreate _ => exact .aside ((hcall _).same rfl rfl (fun _ _ => rfl) rfl)
  | @condWait c m' _ hlt _ =>
      rcases eq_or_ne m m' with rfl | hm
      · exact .unlock hlt (.inr ⟨c, rfl⟩) (hcall _) ((Aside.refl _).push (hcond c) _)
      · exact .aside (((hcall _).unlock (hne hm) hr).push (hcond c) _)
  | signal _ _ => exact .aside ((hcall _).wakeFront (hcond _) hr)
  | broadcast _ _ => exact .aside ((hcall _).wakeAll (hcond _) hr)
  | goOn _ => exact .aside (.refl a)
  | awake _ => exact .aside ((Aside.refl a).log id)
  | rejoin _ _ => exact .aside (Aside.refl a).joinLoop
  | handed _ => exact .aside ((Aside.refl a).log (hcond _))
  | @signaled c m' hp hlt =>
      have hflow : (a.relock c m').1 = (a.lock (.relock c m') m').1 := by
        rcases eq_or_ne (a.locked m') 0 with h0 | h0
        · rw [Sched.relock_of_free h0, Sched.lock_of_free h0]
        · rw [Sched.relock_of_held h0, Sched.lock_of_held h0]
      have hlast : Aside (.mutex m) (a.lock (.relock c m') m').2 (a.relock c m').2 := by
        rcases eq_or_ne (a.locked m') 0 with h0 | h0
        · rw [Sched.relock_of_free h0, Sched.lock_of_free h0]
          exact (Aside.refl _).log (hcond c)
        · rw [Sched.relock_of_held h0, Sched.lock_of_held h0]
          exact .refl _
      rw [hflow]
      rcases eq_or_ne m m' with rfl | hm
      · exact .lock hlt (.inr ⟨rfl, c, hp, rfl⟩) (.refl a) hlast
      · exact .aside (((Aside.refl a).lock (hne hm)).trans hlast)

/-! ### Condition variables -/

/-- The condition variable a thread is inside a wait on. -/
def Point.waitsOn : Point → Option CondId
  | .condWait c _ => some c
  | .relock c _ => some c
  | _ => none

/-- What the code of a step can do to a condition variable: leave it aside, with its thread
inside a wait on it as before, queue its thread behind the waiters, wake the first of them
or all of them, or return from a wait. -/
inductive OnCond (c : CondId) (a : Sched) : Action → Flow → Sched → Prop
  | aside {act : Action} {flow : Flow} {b : Sched} :
      ((a.point a.current).waitsOn = some c ↔ flow.point.waitsOn = some c) →
      Aside (.cond c) a b → OnCond c a act flow b
  | wait {m : MutexId} {a' : Sched} :
      a.point a.current = .user →
      Aside (.cond c) (a.log (.called a.current (.condWait c m))) a' →
      OnCond c a (.call (.condWait c m)) (.schedules (.condWait c m) 2)
        (a'.push (.cond c) a.current)
  | signal {a' : Sched} :
      a.point a.current = .user → Aside (.cond c) a a' →
      OnCond c a (.call (.signal c)) .returns (a'.wakeFront (.cond c))
  | broadcast {a' : Sched} :
      a.point a.current = .user → Aside (.cond c) a a' →
      OnCond c a (.call (.broadcast c)) .returns (a'.wakeAll (.cond c))
  | back {m : MutexId} {a' : Sched} :
      a.point a.current = .relock c m ∨ (a.point a.current = .condWait c m ∧ a.locked m = 0) →
      Aside (.cond c) a a' → OnCond c a .resume .returns (a'.log (.waited a.current c m))

/-- A join is not a wait on a condition variable. -/
theorem Sched.waitsOn_joinLoop {a : Sched} {t : Tid} : (a.joinLoop t).1.point.waitsOn = none := by
  rw [joinLoop]
  split <;> rfl

/-- A lock attempt of user code is not a wait on a condition variable. -/
theorem Sched.waitsOn_lock {a : Sched} {m : MutexId} :
    (a.lock (.lock m) m).1.point.waitsOn = none := by
  rw [lock]
  split <;> rfl

/-- **What a step does to a condition variable.** -/
theorem Effect.onCond {a b : Sched} {act : Action} {flow : Flow} (h : Effect a act flow b)
    (c : CondId) : OnCond c a act flow b := by
  have hr : QueueId.cond c ≠ .runnable := QueueId.noConfusion
  have hmutex : ∀ m, QueueId.cond c ≠ .mutex m := fun _ => QueueId.noConfusion
  have hne : ∀ {c'}, c ≠ c' → QueueId.cond c ≠ .cond c' := fun hc h => hc (QueueId.cond.inj h)
  have hcall : ∀ op, (∀ m, op ≠ .condWait c m) →
      Aside (.cond c) a (a.log (.called a.current op)) := by
    intro op hop
    refine (Aside.refl a).log ?_
    cases op with
    | condWait c' m' =>
        refine hne ?_
        rintro rfl
        exact hop m' rfl
    | _ => exact id
  -- Neither before nor after the code is its thread inside a wait.
  have hout : ∀ {p : Point} {flow : Flow} {b : Sched}, a.point a.current = p →
      p.waitsOn = none → flow.point.waitsOn = none → Aside (.cond c) a b →
      OnCond c a act flow b := fun hp h₁ h₂ hab =>
    .aside (by rw [hp, h₁, h₂]) hab
  cases h with
  | create hp =>
      refine hout hp rfl rfl (Aside.log (Aside.spawn ?_ hr) id)
      exact hcall _ fun _ => Op.noConfusion
  | yield hp => exact hout hp rfl rfl (hcall _ fun _ => Op.noConfusion)
  | exit hp | finish hp _ =>
      exact hout hp rfl rfl ((hcall _ fun _ => Op.noConfusion).finish hr)
  | join hp _ =>
      refine hout hp rfl Sched.waitsOn_joinLoop (Aside.joinLoop ?_)
      exact (hcall _ fun _ => Op.noConfusion).same rfl rfl (fun _ _ => rfl) rfl
  | @usleep u now _ hp _ =>
      exact hout hp rfl rfl (((hcall _ fun _ => Op.noConfusion).log (e := .reading now) id).same
        rfl rfl (fun _ _ => rfl) rfl)
  | mutexCreate hp _ =>
      exact hout hp rfl rfl (Aside.same ((hcall _ fun _ => Op.noConfusion).setLocked fun h =>
        absurd h (hmutex _)) rfl rfl (fun _ _ => rfl) rfl)
  | lock hp _ =>
      exact hout hp rfl Sched.waitsOn_lock ((hcall _ fun _ => Op.noConfusion).lock (hmutex _))
  | unlock hp _ =>
      exact hout hp rfl rfl ((hcall _ fun _ => Op.noConfusion).unlock (hmutex _) hr)
  | condCreate hp =>
      exact hout hp rfl rfl ((hcall _ fun _ => Op.noConfusion).same rfl rfl (fun _ _ => rfl) rfl)
  | @condWait c' m hp _ _ =>
      rcases eq_or_ne c c' with rfl | hc
      · exact .wait hp ((Aside.refl _).unlock (hmutex m) hr)
      · refine .aside ?_ (((hcall _ fun m' h => ?_).unlock (hmutex m) hr).push (hne hc) _)
        · simp [hp, Point.waitsOn, Flow.point, hc.symm]
        · exact hc (Op.condWait.inj h).1.symm
  | @signal c' hp _ =>
      rcases eq_or_ne c c' with rfl | hc
      · exact .signal hp (hcall _ fun _ => Op.noConfusion)
      · exact hout hp rfl rfl ((hcall _ fun _ => Op.noConfusion).wakeFront (hne hc) hr)
  | @broadcast c' hp _ =>
      rcases eq_or_ne c c' with rfl | hc
      · exact .broadcast hp (hcall _ fun _ => Op.noConfusion)
      · exact hout hp rfl rfl ((hcall _ fun _ => Op.noConfusion).wakeAll (hne hc) hr)
  | goOn hp =>
      rcases hp with hp | hp | ⟨m, hp⟩
      all_goals exact hout hp rfl rfl (.refl a)
  | awake hp => exact hout hp rfl rfl ((Aside.refl a).log id)
  | rejoin hp _ => exact hout hp rfl Sched.waitsOn_joinLoop (Aside.refl a).joinLoop
  | @handed c' m hp =>
      rcases eq_or_ne c c' with rfl | hc
      · exact .back (.inl hp) (.refl a)
      · refine .aside ?_ ((Aside.refl a).log (hne hc))
        simp [hp, Point.waitsOn, Flow.point, hc.symm]
  | @signaled c' m hp _ =>
      rcases eq_or_ne (a.locked m) 0 with h0 | h0
      · rw [Sched.relock_of_free h0]
        have hlock : Aside (.cond c) a (a.lock (.relock c' m) m).2 :=
          (Aside.refl a).lock (hmutex m)
        rw [Sched.lock_of_free h0] at hlock
        rcases eq_or_ne c c' with rfl | hc
        · exact .back (.inr ⟨hp, h0⟩) hlock
        · refine .aside ?_ (hlock.log (hne hc))
          simp [hp, Point.waitsOn, Flow.point, hc.symm]
      · rw [Sched.relock_of_held h0]
        refine .aside ?_ (((Aside.refl a).log (e := .locks a.current m) (hmutex m)).push
          (hmutex m) _)
        simp [hp, Point.waitsOn, Flow.point]

end SystemsProjects.Qthreads
