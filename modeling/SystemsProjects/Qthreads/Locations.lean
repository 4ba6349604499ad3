import SystemsProjects.Qthreads.Trace

/-!
# Where the Threads Are

The location invariant of the C program: a thread that was created and has not exited is
`current_thread`, or it occurs once in one queue, or it is blocked in `qthread_join` and
recorded as the waiter of one thread that has not exited. All of it depends on what memory
`qthread_init` gets for the main thread's structure, which it does not initialise.

## Main definitions

* `Zeroed`: zero-initialised memory.
* `St.Exited`, `Place`, `St.At`: who has exited, and where a thread is.

## Main results

* `thread_locations`: every thread is in exactly one place.
-/

namespace SystemsProjects.Qthreads

/-- The memory of a thread structure is zero-initialised. Zero is no context, so nothing is
said of the stack pointer, which is written before it is first read. -/
structure Zeroed (mem : Qthread) : Prop where
  next : mem.next = none
  returnVal : mem.returnVal = 0
  dead : mem.dead = 0
  timingInformation : mem.timingInformation = 0
  waiter : mem.waiter = none

/-- Memory that is all zero. -/
def zeroMem : Qthread := ⟨none, ⟨mainThread, .user⟩, 0, 0, 0, none⟩

/-- Memory that is all zero is zeroed in every field that counts. -/
theorem zeroed_zeroMem : Zeroed zeroMem := ⟨rfl, rfl, rfl, rfl, rfl⟩

/-- Zero-initialised memory does not say that the thread has exited. -/
theorem Zeroed.dead_ne_one {mem : Qthread} (h : Zeroed mem) : mem.dead ≠ 1 := by
  rw [h.dead]
  decide

/-- The thread has exited, with some value, as the trace tells. -/
def St.Exited (s : St) (t : Tid) : Prop := ∃ v, ExitsWith s.trace t v

/-- The places a thread can be in: it is current, runnable, asleep, in the queue of a mutex or
of a condition variable, or it waits in a join. -/
inductive Place
  | current
  | queue (q : QueueId)
  | joining (thread : Tid)

/-- The thread is in the place. For a join it is blocked in `qthread_join` and recorded as
the waiter of a thread that has not exited. -/
def St.At (s : St) (t : Tid) : Place → Prop
  | .current => s.currentThread = some t
  | .queue q => t ∈ contents s q
  | .joining u => (∃ w, s.point t = .join w) ∧ (s.thread u).waiter = some t ∧
      u < s.nthreads ∧ ¬s.Exited u

/-- The thread is blocked: on a mutex, on a condition variable or in a join. Nobody but another
thread can make it runnable. -/
def St.Blocked (s : St) (t : Tid) : Prop :=
  (∃ m, s.At t (.queue (.mutex m))) ∨ (∃ c, s.At t (.queue (.cond c))) ∨
    ∃ u, s.At t (.joining u)

/-! ### What holds of every reachable state -/

section Facts

variable {D : Discipline} {mem : Qthread} {clock : List ℤ} {s : St}

/-- The invariants of a reachable state of the program. -/
structure St.Good (s : St) : Prop where
  wf : WF s
  inv : (view s).Inv
  recorded : (view s).Recorded

/-- **Every reachable state is good.** -/
theorem Reachable.good (hD : ∀ t tr op, D t tr op → JoinOnce t tr op) (hm : Zeroed mem)
    (h : Reachable D mem clock s) : s.Good := by
  obtain ⟨hw, hi, hr⟩ := h.sim hD hm.dead_ne_one hm.waiter
  exact ⟨hw, hi, (hr.recorded hD hm.dead_ne_one hm.waiter).2⟩

/-- A thread is alive in the scheduler if it was created and has not exited. -/
theorem alive_iff (hr : (view s).Recorded) {t : Tid} :
    (view s).Alive t ↔ t < s.nthreads ∧ ¬s.Exited t := by
  refine and_congr_right fun _ => ?_
  rw [Option.eq_none_iff_forall_ne_some]
  simp only [St.Exited, not_exists]
  exact forall_congr' fun v => not_congr (hr.exits t v)

end Facts

/-! ### Locations -/

section Locations

variable {mem : Qthread} {clock : List ℤ} {s : St}

/-- Only threads that have not exited are in a place, as long as only such threads are on
their way. -/
theorem Placed.alive_of_at {E : Set Tid} (hr : (view s).Recorded) (hp : Placed E (view s))
    (hc : ∀ t, s.currentThread = some t → t ∈ E) {t : Tid} {p : Place} (h : s.At t p) :
    (view s).Alive t := by
  cases p with
  | current => exact hp.exempt t (hc t h)
  | queue q => exact (hp.queued q t h).1
  | joining u => exact (hp.joins u t ((alive_iff hr).mpr h.2.2) h.2.1).1

/-- A thread that is alive and not on its way is blocked, runnable or asleep. -/
theorem Placed.at_of_notMem {E : Set Tid} (hr : (view s).Recorded) (hp : Placed E (view s))
    {t : Tid} (hA : (view s).Alive t) (hE : t ∉ E) :
    (∃ q, s.At t (.queue q)) ∨ ∃ u, s.At t (.joining u) := by
  rcases hp.somewhere t hA hE with hq | ⟨u, hpt, huA, hj⟩
  · exact .inl hq
  · exact .inr ⟨u, ⟨u, hpt⟩, hj, (alive_iff hr).mp huA⟩

/-- A thread is in one place at most. -/
theorem St.Good.at_unique (h : s.Good) {t : Tid} {p p' : Place} (hp : s.At t p)
    (hp' : s.At t p') : p = p' := by
  have hpl := h.inv.placed
  have hcur : ∀ {t}, s.currentThread = some t → t ∈ ({s.running.stack} : Set Tid) := by
    intro t ht
    rw [h.wf.current] at ht
    exact (Option.some.inj ht).symm
  -- In a join the thread is neither on its way nor queued.
  have hjoin : ∀ {u}, s.At t (.joining u) → t ∉ ({s.running.stack} : Set Tid) ∧
      s.point t = .join u ∧ ∀ q, t ∉ contents s q := fun hu =>
    (hpl.joins _ t ((alive_iff h.recorded).mpr hu.2.2) hu.2.1).2
  cases p with
  | current =>
      cases p' with
      | current => rfl
      | queue q' => exact absurd (hcur hp) (hpl.queued q' t hp').2
      | joining u' => exact absurd (hcur hp) (hjoin hp').1
  | queue q =>
      cases p' with
      | current => exact absurd (hcur hp') (hpl.queued q t hp).2
      | queue q' => rw [hpl.disjoint q q' t hp hp']
      | joining u' => exact absurd hp ((hjoin hp').2.2 q)
  | joining u =>
      cases p' with
      | current => exact absurd (hcur hp') (hjoin hp).1
      | queue q' => exact absurd hp' ((hjoin hp).2.2 q')
      | joining u' =>
          obtain rfl := Point.join.inj ((hjoin hp).2.1.symm.trans (hjoin hp').2.1)
          rfl

/-- A thread that was created and has not exited is in some place. -/
theorem St.Good.exists_at (h : s.Good) {t : Tid} (ht : t < s.nthreads) (he : ¬s.Exited t) :
    ∃ p, s.At t p := by
  by_cases hc : t = s.running.stack
  · exact ⟨.current, hc ▸ h.wf.current⟩
  · rcases h.inv.placed.at_of_notMem h.recorded ((alive_iff h.recorded).mpr ⟨ht, he⟩) hc with
      ⟨q, hq⟩ | ⟨u, hu⟩
    · exact ⟨.queue q, hq⟩
    · exact ⟨.joining u, hu⟩

/-- Nobody who has exited is in a place. -/
theorem St.Good.not_at_of_exited (h : s.Good) {t : Tid} (he : s.Exited t) (p : Place) :
    ¬s.At t p := fun hp =>
  ((alive_iff h.recorded).mp (h.inv.placed.alive_of_at h.recorded
    (fun _ ht => Option.some.inj (h.wf.current.symm.trans ht) ▸ rfl) hp)).2 he

/-- Where `switch_runnable` finds nobody runnable, everybody who has not exited is
blocked. -/
theorem St.Good.blocked_of_empty (h : s.Good) {act : Action} {s' : St}
    (hD : Allowed JoinOnce s act) (hsw : ReachesSwitch act s s')
    (hnil : contents s' .runnable = []) {t : Tid} (ht : t < s'.nthreads)
    (he : ¬s'.Exited t) : s'.Blocked t := by
  obtain ⟨hw', hp', after, exit, b, heff, hidle⟩ := reachesSwitch_spec h.wf h.inv hD hsw
  have hran : (view s).Ran act (view s') :=
    ⟨_, b, heff, (Sched.file_frame _ exit).trans hidle.frame.1⟩
  have hr' := hran.recorded h.inv h.recorded
  have hsleep : contents s' .sleeping = [] := (hidle.of_runnable_eq_nil hnil).2
  rcases hp'.at_of_notMem hr' ((alive_iff hr').mpr ⟨ht, he⟩) id with ⟨q, hq⟩ | hu
  · cases q with
    | runnable =>
        rw [St.At, hnil] at hq
        cases hq
    | sleeping =>
        rw [St.At, hsleep] at hq
        cases hq
    | mutex m => exact .inl ⟨m, hq⟩
    | cond c => exact .inr (.inl ⟨c, hq⟩)
  · exact .inr (.inr hu)

/-- **Every thread is in exactly one place.** In every reachable state no queue holds a
thread twice, every thread that was created and has not exited is in exactly one place,
and no exited thread is in any; and `pop_front` in `switch_runnable` returns `NULL` only
when every thread that has not exited is blocked on a mutex, on a condition variable or in
a join. -/
theorem thread_locations (hm : Zeroed mem) (hs : Reachable JoinOnce mem clock s) :
    (∀ q, (contents s q).Nodup) ∧
    (∀ t, t < s.nthreads → ¬s.Exited t → ∃! p, s.At t p) ∧
    (∀ t, s.Exited t → ∀ p, ¬s.At t p) ∧
    ∀ act s₁ s₂, Allowed JoinOnce s act → ReachesSwitch act s s₁ →
      popFront .runnable s₁ = .ok none s₂ →
      ∀ t, t < s₁.nthreads → ¬s₁.Exited t → s₁.Blocked t := by
  have h := hs.good (fun _ _ _ hD => hD) hm
  refine ⟨fun q => h.inv.placed.nodup q, fun t ht he => ?_, fun t he => h.not_at_of_exited he,
    fun act s₁ s₂ hD hsw hpop t => ?_⟩
  · obtain ⟨p, hp⟩ := h.exists_at ht he
    exact ⟨p, hp, fun p' hp' => h.at_unique hp' hp⟩
  · refine h.blocked_of_empty hD hsw ?_
    by_contra hne
    obtain ⟨x, l, hl⟩ := List.exists_cons_of_ne_nil hne
    obtain ⟨s', hrun, -⟩ := popFront_spec (reachesSwitch_spec h.wf h.inv hD hsw).1 hl
    rw [hrun] at hpop
    cases hpop

/-- A thread made by main that is current while main is runnable. -/
theorem thread_locations_two : ∃ s, Reachable JoinOnce zeroMem [] s ∧ s.nthreads = 2 ∧
    s.currentThread = some 1 ∧ ∀ t, t < s.nthreads → ¬s.Exited t → ∃! p, s.At t p := by
  let acts : List Action := [.call (.create true (some zeroMem)), .call .yield]
  have hs : Reachable JoinOnce zeroMem [] (acts.foldl St.after (qthreadInit zeroMem [])) :=
    Reachable.actions .refl
      ⟨True.intro, by decide +kernel, True.intro, by decide +kernel, True.intro⟩
  exact ⟨_, hs, by decide +kernel, by decide +kernel,
    (thread_locations zeroed_zeroMem hs).2.1⟩

end Locations

end SystemsProjects.Qthreads
