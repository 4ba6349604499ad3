import SystemsProjects.Qthreads.Identity

/-!
# Join and Exit Agree

`qthread_exit` leaves its value in `return_val`, sets `dead` and makes the recorded waiter
runnable; `qthread_join` records itself as the waiter and loops until `dead` is set. In
whichever order the two come, the join returns only after the exit and with its value, and
a joiner whose thread has exited is not left behind.

## Main results

* `Sched.Reachable.joins_justified`: a join returned only after the exit.
* `join_agrees_with_exit`: the whole of the agreement.
-/

namespace SystemsProjects.Qthreads

open History

/-- A join may return a value if the thread has exited with it. -/
def JoinJustified (p : List Event) : Event → Prop
  | .joined _ u v => ExitsWith p u v
  | _ => True

/-- Exits are not forgotten. -/
theorem ExitsWith.mono {p p' : List Event} {t : Tid} {v : Value} (h : ExitsWith p t v) :
    ExitsWith (p ++ p') t v :=
  h.imp (List.mem_append_left p') (List.mem_append_left p')

/-- A step lets joins return only on threads that had exited before. -/
theorem Sched.Ran.joins_justified {a c : Sched} {act : Action} (h : a.Ran act c)
    (hr : a.Recorded) (hj : Justified JoinJustified a.trace) :
    Justified JoinJustified c.trace := by
  obtain ⟨new, htr, hnew⟩ := h.trace_eq
  rw [htr, List.append_assoc]
  refine hj.append_of_mono (fun p p' e he => ?_) fun e he => ?_
  · cases e with
    | joined t u v => exact ExitsWith.mono he
    | _ => exact True.intro
  · cases e with
    | joined t u v =>
        rcases List.mem_append.mp he with he | he
        · exact (hr.exits u v).mp (Sched.explains_of_mem he).2
        · exact absurd (hnew _ he) id
    | _ => exact True.intro

/-- **Joins return after exits**: in every run, a join has returned a value only if the
thread had exited with it before. -/
theorem Sched.Reachable.joins_justified {D : Discipline} {mem : Qthread} {clock : List ℤ}
    {a : Sched} (h : Sched.Reachable D mem clock a)
    (hD : ∀ t tr op, D t tr op → JoinOnce t tr op) (hd : mem.dead ≠ 1)
    (hj : mem.waiter = none) : Justified JoinJustified a.trace :=
  h.invariant (I := fun a => Justified JoinJustified a.trace) hD hd hj (.nil _)
    fun _ _ _ _ hr hI hs => hs.ran.joins_justified hr hI

section Join

variable {mem : Qthread} {clock : List ℤ} {s : St}

/-- A thread that waits in a join on an exited thread is current or runnable. -/
theorem St.Good.joiner_awake (h : s.Good) {j t : Tid} (hj : j < s.nthreads)
    (hje : ¬s.Exited j) (hp : s.point j = .join t) (ht : s.Exited t) :
    s.currentThread = some j ∨ j ∈ contents s .runnable := by
  obtain ⟨p, hat⟩ := h.exists_at hj hje
  cases p with
  | current => exact .inl hat
  | queue q =>
      by_cases hq : q = .runnable
      · exact .inr (hq ▸ hat)
      · have hhome := h.inv.placed.home q j hat hq
        rw [show (view s).point j = .join t from hp] at hhome
        cases hhome
  | joining u =>
      obtain ⟨-, hw, hu⟩ := hat
      have hpu := (h.inv.placed.joins u j ((alive_iff h.recorded).mpr hu) hw).2.2.1
      obtain rfl := Point.join.inj (hp.symm.trans hpu)
      exact absurd ht hu.2

/-- A thread that waits in a join on the current thread is recorded, and in no queue. -/
theorem St.Good.waiting_joiner (h : s.Good) {j : Tid} (hj : j < s.nthreads)
    (hje : ¬s.Exited j) (hp : s.point j = .join s.running.stack) :
    (view s).joiner s.running.stack = some j ∧ ∀ q, j ∉ contents s q := by
  have hcur := h.inv.placed.exempt s.running.stack rfl
  have hjA : (view s).Alive j := (alive_iff h.recorded).mpr ⟨hj, hje⟩
  have hjo := (h.inv.placed.joining j s.running.stack hjA hp).2 hcur.2
  exact ⟨hjo, (h.inv.placed.joins _ j hcur hjo).2.2.2⟩

/-- The code of an exit appends the joiner to the active list. -/
theorem Effect.exit_queue {a b : Sched} {act : Action} {flow : Flow} {v : Value} {j : Tid}
    (he : Effect a act flow b) (hv : act.exitValue = some v)
    (hj : a.joiner a.current = some j) :
    flow = .schedules .exit 1 ∧ b.queue .runnable = a.queue .runnable ++ [j] := by
  have hfin : ∀ e, ((a.log e).finish v).queue .runnable = a.queue .runnable ++ [j] := by
    intro e
    have hj' : (a.log e).joiner (a.log e).current = some j := hj
    rw [Sched.finish, hj']
    exact Sched.queue_push_self
  cases he with
  | exit _ | finish _ _ =>
      obtain rfl := Option.some.inj hv
      exact ⟨rfl, hfin _⟩
  | _ => cases hv

/-- `schedule` takes the head of a nonempty active list and leaves the rest. -/
theorem Dispatch.of_runnable {a b : Sched} (h : Dispatch a b) {t : Tid} {l : List Tid}
    (hq : a.queue .runnable = t :: l) : b.current = t ∧ b.queue .runnable = l := by
  cases h with
  | @mk b t' l' hi hq' =>
      cases hi with
      | busy _ =>
          obtain ⟨rfl, rfl⟩ := List.cons.inj (hq.symm.trans hq')
          exact ⟨rfl, Sched.queue_take_runnable hq⟩
      | wakes hr _ _ => simp [hq] at hr

/-- The step of an exit leaves the joiner current, or once in the active list. -/
theorem St.Good.joiner_once (h : s.Good) {act : Action} {v : Value} {s' : St}
    (hv : act.exitValue = some v) (hrun : step act s = .ok () s') {j : Tid}
    (hj : j < s.nthreads) (hje : ¬s.Exited j) (hp : s.point j = .join s.running.stack) :
    (s'.currentThread = some j ∧ j ∉ contents s' .runnable) ∨
      (s'.currentThread ≠ some j ∧ (contents s' .runnable).count j = 1) := by
  have hA : Allowed JoinOnce s act := by
    cases act with
    | call op =>
        cases op with
        | join u => cases hv
        | _ => exact True.intro
    | resume => cases hv
  obtain ⟨hjo, hno⟩ := h.waiting_joiner hj hje hp
  obtain ⟨hw', flow, b, he, hset⟩ := (step_spec h.wf h.inv hA).ok hrun
  obtain ⟨rfl, hq⟩ := he.exit_queue hv hjo
  cases hset with
  | schedules hd =>
      have hq' : ((b.goto .exit).file 1).queue .runnable = contents s .runnable ++ [j] := hq
      have hnd : (contents s .runnable ++ [j]).Nodup := by
        refine List.nodup_append.mpr
          ⟨h.inv.placed.nodup .runnable, List.nodup_singleton j, fun x hx y hy hxy => ?_⟩
        rw [List.mem_singleton.mp hy] at hxy
        exact hno .runnable (hxy ▸ hx)
      have hmem : j ∈ contents s .runnable ++ [j] := by simp
      rcases hl : contents s .runnable ++ [j] with _ | ⟨t, l⟩
      · simp [hl] at hmem
      · rw [hl] at hq' hnd hmem
        obtain ⟨hcur, hrest⟩ := hd.of_runnable hq'
        rw [hw'.current, show s'.running.stack = t from hcur,
          show contents s' .runnable = l from hrest]
        obtain ⟨ht, hl'⟩ := List.nodup_cons.mp hnd
        rcases List.mem_cons.mp hmem with rfl | hjl
        · exact .inl ⟨rfl, ht⟩
        · refine .inr ⟨fun hjt => ht (Option.some.inj hjt ▸ hjl), ?_⟩
          exact List.count_eq_one_of_mem hl' hjl

/-- **Join and exit agree.** A join has returned only after its thread had exited, and with
the value it exited with; a thread that waits in a join on an exited thread is current or
runnable; and the exit of a thread appends its waiting joiner, which was in no queue, to
the active list, and at the end of the step it is current or in that list, once. -/
theorem join_agrees_with_exit (hm : Zeroed mem) (hs : Reachable JoinOnce mem clock s) :
    (∀ p j t v q, s.trace = p ++ .joined j t v :: q →
      ExitsWith p t v ∧ ∀ v', ExitsWith s.trace t v' → v' = v) ∧
    (∀ j t, j < s.nthreads → ¬s.Exited j → s.point j = .join t → s.Exited t →
      s.currentThread = some j ∨ j ∈ contents s .runnable) ∧
    ∀ act v j, act.exitValue = some v →
      j < s.nthreads → ¬s.Exited j → s.point j = .join s.running.stack →
      (∀ q, j ∉ contents s q) ∧
      (∀ flow s', perform act s = .ok flow s' →
        contents s' .runnable = contents s .runnable ++ [j]) ∧
      ∀ s', step act s = .ok () s' →
        (s'.currentThread = some j ∧ j ∉ contents s' .runnable) ∨
          (s'.currentThread ≠ some j ∧ (contents s' .runnable).count j = 1) := by
  have h := hs.good (fun _ _ _ hD => hD) hm
  obtain ⟨-, -, hr⟩ := hs.sim (fun _ _ _ hD => hD) hm.dead_ne_one hm.waiter
  have hjust := hr.joins_justified (fun _ _ _ hD => hD) hm.dead_ne_one hm.waiter
  refine ⟨fun p j t v q htr => ?_, fun j t => h.joiner_awake, fun act v j hv hj hje hp => ?_⟩
  · have hex : ExitsWith p t v := hjust p (.joined j t v) q htr
    refine ⟨hex, fun v' hv' => ?_⟩
    have hres := (h.recorded.exits t v').mpr hv'
    have hex' : ExitsWith s.trace t v := htr ▸ hex.mono
    rw [(h.recorded.exits t v).mpr hex'] at hres
    exact (Option.some.inj hres).symm
  · obtain ⟨hjo, hno⟩ := h.waiting_joiner hj hje hp
    refine ⟨hno, fun flow s' hrun => ?_, fun s' hrun => h.joiner_once hv hrun hj hje hp⟩
    obtain ⟨-, he⟩ := (perform_spec h.wf h.inv.placed act).ok hrun
    exact (he.exit_queue hv hjo).2

/-- A thread joined while it waits to run: its exit makes the joiner current, and the join
returns what it exited with. -/
theorem join_agrees_with_exit_waits : ∃ s s' s'', Reachable JoinOnce zeroMem [] s ∧
    s.point 0 = .join 1 ∧ s.running.stack = 1 ∧ step (.call (.exit 5)) s = .ok () s' ∧
    s'.currentThread = some 0 ∧ 0 ∉ contents s' .runnable ∧ step .resume s' = .ok () s'' ∧
    s''.trace = s'.trace ++ [.joined 0 1 5] ∧ ExitsWith s'.trace 1 5 := by
  let acts : List Action := [.call (.create true (some zeroMem)), .call (.join 1), .resume]
  let s := acts.foldl St.after (qthreadInit zeroMem [])
  have hs : Reachable JoinOnce zeroMem [] s := by
    refine Reachable.actions .refl ⟨True.intro, by decide +kernel, ⟨by decide +kernel, ?_⟩,
      by decide +kernel, True.intro, by decide +kernel, True.intro⟩
    have htr : ((qthreadInit zeroMem []).after (.call (.create true (some zeroMem)))).trace =
        [.called 0 (.create true (some zeroMem)), .pushed .runnable (some 1), .created 0 1] := by
      decide +kernel
    simp [htr]
  have htr : s.trace = [.called 0 (.create true (some zeroMem)), .pushed .runnable (some 1),
      .created 0 1, .called 0 (.join 1), .popped .runnable (some 1)] := by
    decide +kernel
  have hne : ¬s.Exited 0 := by
    simp [St.Exited, ExitsWith, htr]
  have hp : s.point 0 = .join 1 := by decide +kernel
  have hstack : s.running.stack = 1 := by decide +kernel
  have hexit : step (.call (.exit 5)) s = .ok () (s.after (.call (.exit 5))) :=
    St.step_after (by decide +kernel)
  have hresume : step .resume (s.after (.call (.exit 5))) =
      .ok () ((s.after (.call (.exit 5))).after .resume) := St.step_after (by decide +kernel)
  have hcur : (s.after (.call (.exit 5))).currentThread = some 0 := by decide +kernel
  have hjoined : ((s.after (.call (.exit 5))).after .resume).trace =
      (s.after (.call (.exit 5))).trace ++ [.joined 0 1 5] := by decide +kernel
  obtain ⟨-, -, hwakes⟩ := join_agrees_with_exit zeroed_zeroMem hs
  obtain ⟨-, -, hnext⟩ := hwakes (.call (.exit 5)) 5 0 rfl (by decide +kernel) hne
    (by rw [hp, hstack])
  obtain ⟨hreturns, -, -⟩ := join_agrees_with_exit zeroed_zeroMem
    ((hs.step (.call (.exit 5)) True.intro hexit).step .resume True.intro hresume)
  refine ⟨s, _, _, hs, hp, hstack, hexit, hcur, ?_, hresume, hjoined,
    (hreturns _ 0 1 5 [] hjoined).1⟩
  rcases hnext _ hexit with ⟨-, hnot⟩ | ⟨hother, -⟩
  · exact hnot
  · exact absurd hcur hother

end Join

end SystemsProjects.Qthreads
