import SystemsProjects.Library.Runs
import SystemsProjects.Qthreads.Refinement

/-!
# Calls, Steps and Runs

The functions of user code's calls are run forwards on a well-formed state, as the queue
operations and the scheduler were in `Qthreads.Refinement`, and put together to steps and
runs: every run of the C program whose calls join no thread twice is a run of the abstract
scheduler, and stays well-formed and in place.

## Main results

* `perform_spec`: the code of a step up to the call of `schedule` is an `Effect`.
* `step_spec`: a step of the program is a step of the scheduler.
* `Reachable.sim`: runs of the program are runs of the scheduler.
-/

namespace SystemsProjects.Qthreads

open IntrusiveQueue Stateful

/-! ### Fields of a structure -/

section Fields

variable {s : St} {t : Tid}

/-- What the threads have exited with, behind a write to one structure. -/
theorem result_update (s : St) (t : Tid) (th : Qthread) :
    (view { s with thread := Function.update s.thread t th }).result =
      Function.update (view s).result t (if th.dead = 1 then some th.returnVal else none) :=
  Function.comp_update (fun th : Qthread => if th.dead = 1 then some th.returnVal else none) ..

/-- Writing fields of one structure other than its link and its stack pointer. -/
theorem stored (hw : WF s) (ht : t < s.nthreads) {f : Qthread → Qthread}
    (hn : (f (s.thread t)).next = (s.thread t).next)
    (hp : (f (s.thread t)).savedStackPointer = (s.thread t).savedStackPointer) :
    WF { s with thread := Function.update s.thread t (f (s.thread t)) } ∧
      view { s with thread := Function.update s.thread t (f (s.thread t)) } = { view s with
        result := Function.update (view s).result t
          (if (f (s.thread t)).dead = 1 then some (f (s.thread t)).returnVal else none)
        joiner := Function.update (view s).joiner t (f (s.thread t)).waiter
        deadline := Function.update (view s).deadline t
          (f (s.thread t)).timingInformation } := by
  let s' : St := { s with thread := Function.update s.thread t (f (s.thread t)) }
  have hnext : (fun x => (s'.thread x).next) = fun x => (s.thread x).next := next_update hn
  have hcon : contents s' = contents s := by
    funext q
    rw [contents, contents, hnext]
  have hsp : ∀ x, (s'.thread x).savedStackPointer = (s.thread x).savedStackPointer := by
    intro x
    by_cases hx : x = t
    · subst hx
      exact (congrArg _ (Function.update_self ..)).trans hp
    · exact congrArg _ (Function.update_of_ne hx ..)
  have hpoint : s'.point = s.point := by
    funext x
    rw [St.point, St.point, hsp x]
  refine ⟨⟨hw.current, ?_, fun x hx hr => ?_, ?_, hw.running, hw.fresh⟩, ?_⟩
  · change Family (fun x => (s'.thread x).next) s.queue (contents s')
    rw [hnext, hcon]
    exact hw.family
  · change (s'.thread x).savedStackPointer.stack = x
    rw [hsp x]
    exact hw.saved x hx hr
  · change ∀ q x, x ∈ contents s' q → x < s.nthreads
    rw [hcon]
    exact hw.bound
  · change view s' = _
    have hres := result_update s t (f (s.thread t))
    have hjoi : (view s').joiner =
        Function.update (view s).joiner t (f (s.thread t)).waiter :=
      Function.comp_update Qthread.waiter ..
    have hdl : (view s').deadline =
        Function.update (view s).deadline t (f (s.thread t)).timingInformation :=
      Function.comp_update Qthread.timingInformation ..
    rw [← hres, ← hjoi, ← hdl]
    simp only [view, hpoint, hcon]
    rfl

/-- Two writes to one structure. -/
theorem store_store (ht : t < s.nthreads) (f g : Qthread → Qthread) :
    store (some t) g { s with thread := Function.update s.thread t (f (s.thread t)) } =
      .ok () { s with thread := Function.update s.thread t (g (f (s.thread t))) } := by
  rw [store_ok (s := { s with thread := Function.update s.thread t (f (s.thread t)) }) ht]
  simp only [Function.update_self, Function.update_idem]

end Fields

/-! ### Threads -/

section Threads

variable {s : St}

/-- **`qthread_create`** spawns. -/
theorem qthreadCreate_spec (hw : WF s) (mem : Qthread) :
    ∃ s', qthreadCreate true (some mem) s = .ok s.nthreads s' ∧ WF s' ∧
      view s' = (view s).spawn mem.timingInformation := by
  let th : Qthread := { mem with
    savedStackPointer := ⟨s.nthreads, .entry⟩, next := none, dead := 0, waiter := none }
  let s₁ : St := { s with
    thread := Function.update s.thread s.nthreads mem
    nthreads := s.nthreads + 1 }
  let s₂ : St := { s₁ with thread := Function.update s.thread s.nthreads th }
  have hn : s.nthreads < s₁.nthreads := Nat.lt_succ_self _
  have hold : ∀ x, x ≠ s.nthreads → s₂.thread x = s.thread x := fun x hx =>
    Function.update_of_ne hx ..
  have hnew : s₂.thread s.nthreads = th := Function.update_self ..
  have hfree : ∀ q, s.nthreads ∉ contents s q := fun q hm =>
    absurd (hw.bound q _ hm) (lt_irrefl _)
  have hF : Family (fun x => (s₂.thread x).next) s₂.queue (contents s) := by
    have := hw.family.update_of_notMem (v := none) hfree
    convert this using 1
    funext x
    by_cases hx : x = s.nthreads
    · rw [hx, hnew, Function.update_self]
    · rw [hold x hx, Function.update_of_ne hx]
  have hcon : contents s₂ = contents s := hF.lists_eq_walk.symm
  have hrun : s.running.stack ≠ s.nthreads := hw.running.ne
  have hw₂ : WF s₂ := by
    refine ⟨hw.current, hcon ▸ hF, fun x hx hr => ?_, fun q x hx => ?_,
      Nat.lt_succ_of_lt hw.running, hw.fresh⟩
    · by_cases hxn : x = s.nthreads
      · rw [hxn, hnew]
      · rw [hold x hxn]
        exact hw.saved x (lt_of_le_of_ne (Nat.lt_succ_iff.mp hx) hxn) hr
    · exact Nat.lt_succ_of_lt (hw.bound q x (hcon ▸ hx))
  have hv₂ : view s₂ = { view s with
      nthreads := s.nthreads + 1
      point := Function.update s.point s.nthreads .entry
      result := Function.update (view s).result s.nthreads none
      joiner := Function.update (view s).joiner s.nthreads none
      deadline := Function.update (view s).deadline s.nthreads mem.timingInformation } := by
    have hpoint : s₂.point = Function.update s.point s.nthreads .entry := by
      funext x
      by_cases hxn : x = s.nthreads
      · rw [hxn, Function.update_self, St.point, hnew, if_neg hrun.symm]
      · rw [Function.update_of_ne hxn, St.point, St.point, hold x hxn]
    have hres : (view s₂).result = Function.update (view s).result s.nthreads none :=
      result_update s s.nthreads th
    have hjoi : (view s₂).joiner = Function.update (view s).joiner s.nthreads none :=
      Function.comp_update Qthread.waiter ..
    have hdl : (view s₂).deadline =
        Function.update (view s).deadline s.nthreads mem.timingInformation :=
      Function.comp_update Qthread.timingInformation ..
    rw [← hpoint, ← hres, ← hjoi, ← hdl]
    simp only [view, hcon]
    rfl
  have hstore : store (some s.nthreads) (fun th => { th with
      savedStackPointer := ⟨s.nthreads, .entry⟩, next := none, dead := 0, waiter := none }) s₁ =
      .ok () s₂ := by
    rw [store_ok hn]
    simp only [s₁, s₂, th, Function.update_self, Function.update_idem]
  obtain ⟨s₃, hrun₃, hw₃, hv₃, -⟩ := pushBack_spec (s := s₂) (q := .runnable) (t := s.nthreads)
    hw₂ True.intro hn fun q => hcon ▸ hfree q
  refine ⟨s₃, ?_, hw₃, ?_⟩
  · rw [qthreadCreate, if_neg Bool.noConfusion]
    have hm : mallocThread mem s = .ok s.nthreads s₁ := rfl
    rw [run_bind_ok hm, run_bind_ok hstore, run_bind_ok hrun₃]
    rfl
  · rw [hv₃, hv₂]
    rfl

/-- **`qthread_exit`** finishes the current thread. -/
theorem qthreadExit_spec (hw : WF s) (val : Value)
    (hjoiner : ∀ j, (view s).joiner s.running.stack = some j →
      j < s.nthreads ∧ ∀ q, j ∉ contents s q) :
    ∃ s', qthreadExit val s = .ok (.schedules .exit 1) s' ∧ WF s' ∧
      view s' = (view s).finish val := by
  let f : Qthread → Qthread := fun th => { th with returnVal := val, dead := 1 }
  let t := s.running.stack
  let s₁ : St := { s with thread := Function.update s.thread t (f (s.thread t)) }
  obtain ⟨hw₁, hv₁⟩ := stored hw hw.running (f := f) rfl rfl
  have hv₁' : view s₁ =
      { view s with result := Function.update (view s).result t (some val) } := by
    refine hv₁.trans ?_
    change { view s with
      result := Function.update (view s).result t (some val)
      joiner := Function.update (view s).joiner t ((view s).joiner t)
      deadline := Function.update (view s).deadline t ((view s).deadline t) } = _
    rw [Function.update_eq_self, Function.update_eq_self]
  have hthread : s₁.thread t = f (s.thread t) := Function.update_self ..
  have hstore₂ := store_store (s := s) hw.running (fun th => { th with returnVal := val })
    fun th => { th with dead := 1 }
  have hcur : currentThread s = .ok (some t) s := by
    rw [currentThread, hw.current]
  have hrun : qthreadExit val s = (do
      if (s₁.thread t).waiter ≠ none then
        pushBack .runnable (s₁.thread t).waiter
      return .schedules .exit 1 : Lib Flow) s₁ := by
    rw [qthreadExit, run_bind_ok hcur, run_bind_ok (store_ok hw.running _), run_bind_ok hstore₂,
      run_bind_ok (load_ok (s := s₁) hw.running)]
  rw [hrun, Sched.finish]
  have hj : (s₁.thread t).waiter = (view s).joiner (view s).current := by
    rw [hthread]
    rfl
  rw [hj]
  cases hwait : (view s).joiner (view s).current with
  | none => exact ⟨s₁, rfl, hw₁, hv₁'⟩
  | some j =>
      obtain ⟨hjn, hjq⟩ := hjoiner j hwait
      have hcon : contents s₁ = contents s := congrArg Sched.queue hv₁'
      obtain ⟨s₂, hrun₂, hw₂, hv₂, -⟩ := pushBack_spec (q := .runnable) hw₁ True.intro hjn
        fun q => hcon ▸ hjq q
      refine ⟨s₂, ?_, hw₂, ?_⟩
      · rw [if_pos (Option.some_ne_none j), run_bind_ok hrun₂]
        rfl
      · rw [hv₂]
        exact congrArg (fun a => Sched.push a .runnable j) hv₁'

/-- **The loop of `qthread_join`**, one turn. -/
theorem joinLoop_spec (hw : WF s) {t : Tid} (ht : t < s.nthreads) :
    ∃ s', joinLoop t s = .ok ((view s).joinLoop t).1 s' ∧ WF s' ∧
      view s' = ((view s).joinLoop t).2 := by
  rw [joinLoop, run_bind_ok (load_ok ht)]
  by_cases hd : (s.thread t).dead = 1
  · have hres : (view s).result t = some (s.thread t).returnVal := if_pos hd
    rw [Sched.joinLoop_of_some hres, if_neg (not_not.mpr hd)]
    exact ⟨_, rfl, hw.congr rfl rfl rfl rfl rfl rfl rfl, rfl⟩
  · have hres : (view s).result t = none := if_neg hd
    rw [Sched.joinLoop_of_none hres, if_pos hd]
    exact ⟨s, rfl, hw, rfl⟩

/-- **`qthread_join`** records the joiner and tests. -/
theorem qthreadJoin_spec (hw : WF s) {t : Tid} (ht : t < s.nthreads) :
    ∃ s', qthreadJoin t s = .ok (((view s).setJoiner t).joinLoop t).1 s' ∧ WF s' ∧
      view s' = (((view s).setJoiner t).joinLoop t).2 := by
  let f : Qthread → Qthread := fun th => { th with waiter := some s.running.stack }
  let s₁ : St := { s with thread := Function.update s.thread t (f (s.thread t)) }
  obtain ⟨hw₁, hv₁⟩ := stored hw ht (f := f) rfl rfl
  have hv₁' : view s₁ = (view s).setJoiner t := by
    refine hv₁.trans ?_
    change { view s with
      result := Function.update (view s).result t ((view s).result t)
      joiner := Function.update (view s).joiner t (some s.running.stack)
      deadline := Function.update (view s).deadline t ((view s).deadline t) } = _
    rw [Function.update_eq_self, Function.update_eq_self]
    rfl
  have hcur : currentThread s = .ok (some s.running.stack) s := by
    rw [currentThread, hw.current]
  obtain ⟨s₂, hrun₂, hw₂, hv₂⟩ := joinLoop_spec hw₁ (t := t) ht
  rw [qthreadJoin, run_bind_ok hcur, run_bind_ok (store_ok ht _)]
  rw [← hv₁']
  exact ⟨s₂, hrun₂, hw₂, hv₂⟩

/-- **`qthread_usleep`** sets the deadline of the current thread. -/
theorem qthreadUsleep_spec (hw : WF s) {u now : ℤ} {rest : List ℤ}
    (hc : s.clock = now :: rest) :
    ∃ s', qthreadUsleep u s = .ok (.schedules .usleep 3) s' ∧ WF s' ∧
      view s' = ((view s).read now rest).setDeadline (toLong (now + u)) := by
  let s₁ : St := { s with clock := rest, trace := s.trace ++ [.reading now] }
  have hw₁ : WF s₁ := hw.congr rfl rfl rfl rfl rfl rfl rfl
  let t := s.running.stack
  let f : Qthread → Qthread := fun th => { th with timingInformation := toLong (now + u) }
  let s₂ : St := { s₁ with thread := Function.update s.thread t (f (s.thread t)) }
  obtain ⟨hw₂, hv₂⟩ := stored hw₁ (t := t) hw.running (f := f) rfl rfl
  have hcur : currentThread s₁ = .ok (some t) s₁ := by
    rw [currentThread, hw₁.current]
  refine ⟨s₂, ?_, hw₂, hv₂.trans ?_⟩
  · rw [qthreadUsleep, run_bind_ok (getUsecs_ok hc), run_bind_ok hcur,
      run_bind_ok (store_ok (s := s₁) hw.running _)]
    rfl
  · change { view s₁ with
      result := Function.update (view s₁).result t ((view s₁).result t)
      joiner := Function.update (view s₁).joiner t ((view s₁).joiner t)
      deadline := Function.update (view s₁).deadline t (toLong (now + u)) } = _
    rw [Function.update_eq_self, Function.update_eq_self]
    rfl

end Threads

/-! ### Mutexes and condition variables -/

section Synchronisation

variable {s : St}

/-- A queue is set up that was not there before. Only its size is written, so that whatever
its two pointers are, it is empty. -/
theorem WF.create (hw : WF s) (s' : St) {k : QueueId} {h : Threadq} (hk : ¬s.Has k)
    (hsize : h.size = 0) (hq : s'.queue = Function.update s.queue k h)
    (hhas : ∀ q, s.Has q ∨ q = k → s'.Has q) (ht : s'.thread = s.thread)
    (hn : s'.nthreads = s.nthreads) (hcur : s'.currentThread = s.currentThread)
    (hr : s'.running = s.running) : WF s' ∧ contents s' = contents s := by
  have hnil : contents s k = [] := (hw.size_eq_zero_iff k).mp (hw.fresh k hk)
  have hF := hw.family.reset hnil hsize
  rw [← hq, ← ht] at hF
  have hcon : contents s' = contents s := hF.lists_eq_walk.symm
  refine ⟨⟨?_, hcon ▸ hF, ?_, ?_, ?_, fun q hhas' => ?_⟩, hcon⟩
  · rw [hcur, hr, hw.current]
  · rw [ht, hn, hr]
    exact hw.saved
  · rw [hcon, hn]
    exact hw.bound
  · rw [hr, hn]
    exact hw.running
  · have hqk : q ≠ k := fun he => hhas' (hhas q (.inr he))
    rw [hq, Function.update_of_ne hqk]
    exact hw.fresh q fun hh => hhas' (hhas q (.inl hh))

/-- **`qthread_mutex_create`** makes a free mutex. -/
theorem qthreadMutexCreate_spec (hw : WF s) (mem : Threadq) :
    ∃ s', qthreadMutexCreate mem s = .ok .returns s' ∧ WF s' ∧
      view s' = { (view s).setLocked s.nmutexes 0 with nmutexes := s.nmutexes + 1 } := by
  let s' : St := { s with
    locked := Function.update s.locked s.nmutexes 0
    queue := Function.update s.queue (.mutex s.nmutexes) ⟨mem.front, mem.end_, 0⟩
    nmutexes := s.nmutexes + 1 }
  have hhas : ∀ q, s.Has q ∨ q = .mutex s.nmutexes → s'.Has q := by
    rintro q (hh | rfl)
    · cases q with
      | mutex m => exact Nat.lt_succ_of_lt hh
      | cond _ | runnable | sleeping => exact hh
    · exact Nat.lt_succ_self _
  obtain ⟨hw', hcon⟩ := hw.create s' (k := .mutex s.nmutexes)
    (lt_irrefl s.nmutexes) rfl rfl hhas rfl rfl rfl rfl
  refine ⟨s', rfl, hw', ?_⟩
  simp only [view, hcon]
  rfl

/-- **`qthread_cond_create`** makes a condition variable nobody waits for. -/
theorem qthreadCondCreate_spec (hw : WF s) (mem : Threadq) :
    ∃ s', qthreadCondCreate mem s = .ok .returns s' ∧ WF s' ∧
      view s' = { view s with nconds := s.nconds + 1 } := by
  let s' : St := { s with
    queue := Function.update s.queue (.cond s.nconds) ⟨mem.front, mem.end_, 0⟩
    nconds := s.nconds + 1 }
  have hhas : ∀ q, s.Has q ∨ q = .cond s.nconds → s'.Has q := by
    rintro q (hh | rfl)
    · cases q with
      | cond c => exact Nat.lt_succ_of_lt hh
      | mutex _ | runnable | sleeping => exact hh
    · exact Nat.lt_succ_self _
  obtain ⟨hw', hcon⟩ := hw.create s' (k := .cond s.nconds)
    (lt_irrefl s.nconds) rfl rfl hhas rfl rfl rfl rfl
  refine ⟨s', rfl, hw', ?_⟩
  simp only [view, hcon]
  rfl

/-- **`qthread_mutex_lock`** takes the mutex or waits in its queue. -/
theorem qthreadMutexLock_spec (hw : WF s) (after : Point) {m : MutexId} (hm : m < s.nmutexes)
    (hfree : ∀ q, s.running.stack ∉ contents s q) :
    ∃ s', qthreadMutexLock after m s = .ok ((view s).lock after m).1 s' ∧ WF s' ∧
      view s' = ((view s).lock after m).2 := by
  let s₁ : St := { s with trace := s.trace ++ [.locks s.running.stack m] }
  have hw₁ : WF s₁ := hw.congr rfl rfl rfl rfl rfl rfl rfl
  have hflag : lockedFlag m s₁ = .ok (s.locked m) s₁ := if_pos hm
  have hrun : qthreadMutexLock after m s = (do
      if s.locked m = 0 then do
        setLocked m 1
        log (.took (← self) m)
        return .returns
      else do
        pushBack (.mutex m) (← currentThread)
        return .schedules after 2 : Lib Flow) s₁ := by
    rw [qthreadMutexLock]
    exact run_bind_ok (u := s₁) hflag
  by_cases h0 : s.locked m = 0
  · rw [Sched.lock_of_free h0, hrun, if_pos h0]
    exact ⟨_, rfl, hw₁.congr rfl rfl rfl rfl rfl rfl rfl, rfl⟩
  · rw [Sched.lock_of_held h0, hrun, if_neg h0]
    have hcur : currentThread s₁ = .ok (some s.running.stack) s₁ := by
      rw [currentThread, hw₁.current]
    obtain ⟨s₂, hrun₂, hw₂, hv₂, -⟩ := pushBack_spec (q := .mutex m) hw₁ hm hw.running hfree
    refine ⟨s₂, ?_, hw₂, hv₂⟩
    rw [run_bind_ok hcur, run_bind_ok hrun₂]
    rfl

/-- Locking a mutex that was never made. -/
theorem qthreadMutexLock_wild (after : Point) {m : MutexId} (hm : ¬m < s.nmutexes) :
    ∃ s', qthreadMutexLock after m s = .error .wild s' := by
  let s₁ : St := { s with trace := s.trace ++ [.locks s.running.stack m] }
  have hflag : lockedFlag m s₁ = .error .wild s₁ := if_neg hm
  refine ⟨s₁, ?_⟩
  have hself : self s = .ok s.running.stack s := rfl
  have hlog : log (.locks s.running.stack m) s = .ok () s₁ := rfl
  rw [qthreadMutexLock, run_bind_ok hself, run_bind_ok hlog, run_bind_error hflag]

/-- **`qthread_mutex_unlock`** hands the mutex over or frees it. -/
theorem qthreadMutexUnlock_spec (hw : WF s) {m : MutexId} (hm : m < s.nmutexes) :
    ∃ s', qthreadMutexUnlock m s = .ok () s' ∧ WF s' ∧ view s' = (view s).unlock m := by
  let s₁ : St := { s with trace := s.trace ++ [.unlocks s.running.stack m] }
  have hw₁ : WF s₁ := hw.congr rfl rfl rfl rfl rfl rfl rfl
  have hflag : lockedFlag m s₁ = .ok (s.locked m) s₁ := if_pos hm
  have hrun : qthreadMutexUnlock m s = (do
      if (s.queue (.mutex m)).size > 0 then do
        let tmp ← popFront (.mutex m)
        if tmp ≠ none then
          pushBack .runnable tmp
      else
        setLocked m 0 : Lib Unit) s₁ := by
    rw [qthreadMutexUnlock]
    exact run_bind_ok (u := s₁) hflag
  rw [hrun]
  cases hq : contents s (.mutex m) with
  | nil =>
      have h0 := (hw.size_eq_zero_iff _).mpr hq
      rw [Sched.unlock_of_nil (a := view s) hq, if_neg (by omega)]
      exact ⟨_, rfl, hw₁.congr rfl rfl rfl rfl rfl rfl rfl, rfl⟩
  | cons t l =>
      have hsize := (hw.family.head hq).2.1
      rw [Sched.unlock_of_cons (a := view s) hq, if_pos (by omega)]
      obtain ⟨s₂, hrun₂, hw₂, hv₂, hfree₂, -⟩ := popFront_spec hw₁ hq
      have ht : t < s₂.nthreads := by
        change t < (view s₂).nthreads
        rw [hv₂, Sched.pop_of_cons (a := view s₁) hq]
        exact hw.bound _ t (hq ▸ List.mem_cons_self)
      obtain ⟨s₃, hrun₃, hw₃, hv₃, -⟩ := pushBack_spec (q := .runnable) hw₂ True.intro ht hfree₂
      refine ⟨s₃, ?_, hw₃, ?_⟩
      · rw [run_bind_ok hrun₂, if_pos nofun, hrun₃]
      · have hq' : ((view s).log (.unlocks s.running.stack m)).queue (.mutex m) = t :: l := hq
        rw [hv₃, hv₂]
        change _ = ((view s).log (.unlocks s.running.stack m)).wakeFront (.mutex m)
        rw [Sched.wakeFront, hq']
        rfl

/-- Unlocking a mutex that was never made. -/
theorem qthreadMutexUnlock_wild {m : MutexId} (hm : ¬m < s.nmutexes) :
    ∃ s', qthreadMutexUnlock m s = .error .wild s' := by
  let s₁ : St := { s with trace := s.trace ++ [.unlocks s.running.stack m] }
  have hflag : lockedFlag m s₁ = .error .wild s₁ := if_neg hm
  refine ⟨s₁, ?_⟩
  have hself : self s = .ok s.running.stack s := rfl
  have hlog : log (.unlocks s.running.stack m) s = .ok () s₁ := rfl
  rw [qthreadMutexUnlock, run_bind_ok hself, run_bind_ok hlog, run_bind_error hflag]

/-- **The end of `qthread_cond_wait`** locks again, and returns if that succeeds. -/
theorem condWaitRelock_spec (hw : WF s) {c : CondId} {m : MutexId} (hm : m < s.nmutexes)
    (hfree : ∀ q, s.running.stack ∉ contents s q) :
    ∃ s', condWaitRelock c m s = .ok ((view s).relock c m).1 s' ∧ WF s' ∧
      view s' = ((view s).relock c m).2 := by
  obtain ⟨s₁, hrun₁, hw₁, hv₁⟩ := qthreadMutexLock_spec hw (.relock c m) hm hfree
  rw [condWaitRelock, run_bind_ok hrun₁]
  by_cases h0 : s.locked m = 0
  · rw [Sched.relock_of_free h0]
    rw [Sched.lock_of_free h0] at hv₁ ⊢
    have hcur : s₁.running.stack = s.running.stack := congrArg Sched.current hv₁
    refine ⟨{ s₁ with trace := s₁.trace ++ [.waited s.running.stack c m] }, ?_,
      hw₁.congr rfl rfl rfl rfl rfl rfl rfl, congrArg (fun a => Sched.log a _) hv₁⟩
    rw [if_pos rfl, ← hcur]
    rfl
  · rw [Sched.relock_of_held h0]
    rw [Sched.lock_of_held h0] at hv₁ ⊢
    refine ⟨s₁, ?_, hw₁, hv₁⟩
    rw [if_neg nofun]
    rfl

/-- **One wake-up** moves the front of a queue to the active list. -/
theorem wakeWaiter_spec (hw : WF s) {q : QueueId} (hq : contents s q ≠ []) :
    ∃ s', wakeWaiter q s = .ok () s' ∧ WF s' ∧ view s' = (view s).wakeFront q := by
  obtain ⟨t, l, hl⟩ := List.exists_cons_of_ne_nil hq
  obtain ⟨s₁, hrun₁, hw₁, hv₁, hfree₁, -⟩ := popFront_spec hw hl
  have ht : t < s₁.nthreads := by
    change t < (view s₁).nthreads
    rw [hv₁, Sched.pop_of_cons (a := view s) hl]
    exact hw.bound _ t (hl ▸ List.mem_cons_self)
  obtain ⟨s₂, hrun₂, hw₂, hv₂, -⟩ := pushBack_spec (q := .runnable) hw₁ True.intro ht hfree₁
  refine ⟨s₂, ?_, hw₂, ?_⟩
  · rw [wakeWaiter, run_bind_ok hrun₁, hrun₂]
  · have hl' : (view s).queue q = t :: l := hl
    rw [hv₂, hv₁, Sched.wakeFront, hl']

/-- **`qthread_cond_signal`** wakes the first waiter, if there is one. -/
theorem qthreadCondSignal_spec (hw : WF s) {c : CondId} (hc : c < s.nconds) :
    ∃ s', qthreadCondSignal c s = .ok .returns s' ∧ WF s' ∧
      view s' = (view s).wakeFront (.cond c) := by
  have hrun : qthreadCondSignal c s = (do
      if (s.queue (.cond c)).size > 0 then
        wakeWaiter (.cond c)
      return .returns : Lib Flow) s := by
    rw [qthreadCondSignal]
    exact run_bind_ok (u := s) (a := QueueId.cond c) (if_pos hc)
  rw [hrun]
  by_cases hq : contents s (.cond c) = []
  · have h0 := (hw.size_eq_zero_iff _).mpr hq
    refine ⟨s, ?_, hw, (Sched.wakeFront_of_nil (a := view s) hq).symm⟩
    rw [if_neg (by omega)]
    rfl
  · have h0 := mt (hw.size_eq_zero_iff _).mp hq
    obtain ⟨s', hrun', hw', hv'⟩ := wakeWaiter_spec hw hq
    refine ⟨s', ?_, hw', hv'⟩
    rw [if_pos (by omega), run_bind_ok hrun']
    rfl

/-- The loop of `qthread_cond_broadcast` wakes as often as it has turns, or until nobody
waits. -/
theorem broadcastLoop_spec {q : QueueId} (n : ℕ) : ∀ {s : St}, WF s →
    ∃ s', broadcastLoop q n s = .ok () s' ∧ WF s' ∧
      view s' = (fun b => b.wakeFront q)^[n] (view s) := by
  induction n with
  | zero => exact fun {s} hw => ⟨s, rfl, hw, rfl⟩
  | succ n ih =>
      intro s hw
      have hrun : broadcastLoop q (n + 1) s = (do
          if (s.queue q).size > 0 then do
            wakeWaiter q
            broadcastLoop q n : Lib Unit) s := rfl
      rw [hrun]
      by_cases hq : contents s q = []
      · have h0 := (hw.size_eq_zero_iff _).mpr hq
        refine ⟨s, ?_, hw, ?_⟩
        · rw [if_neg (by omega)]
          rfl
        · exact (Function.iterate_fixed (f := fun b : Sched => b.wakeFront q)
            (Sched.wakeFront_of_nil hq) (n + 1)).symm
      · have h0 := mt (hw.size_eq_zero_iff _).mp hq
        obtain ⟨s₁, hrun₁, hw₁, hv₁⟩ := wakeWaiter_spec hw hq
        obtain ⟨s₂, hrun₂, hw₂, hv₂⟩ := ih hw₁
        refine ⟨s₂, ?_, hw₂, ?_⟩
        · rw [if_pos (by omega), run_bind_ok hrun₁, hrun₂]
        · rw [hv₂, hv₁, Function.iterate_succ_apply]

/-- **`qthread_cond_broadcast`** wakes all waiters. -/
theorem qthreadCondBroadcast_spec (hw : WF s) {c : CondId} (hc : c < s.nconds) :
    ∃ s', qthreadCondBroadcast c s = .ok .returns s' ∧ WF s' ∧
      view s' = (view s).wakeAll (.cond c) := by
  obtain ⟨s', hrun, hw', hv⟩ := broadcastLoop_spec (q := .cond c) (s.queue (.cond c)).size hw
  refine ⟨s', ?_, hw', ?_⟩
  · rw [qthreadCondBroadcast]
    refine (run_bind_ok (u := s) (a := QueueId.cond c) (if_pos hc)).trans ?_
    exact (run_bind_ok hrun).trans rfl
  · rw [hv, hw.size_eq]
    rfl

/-- A condition variable that was never made. -/
theorem condQueue_wild {c : CondId} (hc : ¬c < s.nconds) :
    condQueue c s = .error .wild s :=
  if_neg hc

/-- **`qthread_cond_wait`** unlocks the mutex and queues the calling thread. -/
theorem qthreadCondWait_spec (hw : WF s) (hp : Placed {s.running.stack} (view s)) {c : CondId}
    {m : MutexId} (hm : m < s.nmutexes) (hc : c < s.nconds) :
    ∃ s', qthreadCondWait c m s = .ok (.schedules (.condWait c m) 2) s' ∧ WF s' ∧
      view s' = ((view s).unlock m).push (.cond c) s.running.stack := by
  obtain ⟨s₁, hrun₁, hw₁, hv₁⟩ := qthreadMutexUnlock_spec hw hm
  have hsame := SameThreads.unlock (view s) m
  rw [← hv₁] at hsame
  have hstack : s₁.running.stack = s.running.stack := hsame.current
  have hconds : s₁.nconds = s.nconds := hsame.nconds
  have hc₁ : c < s₁.nconds := hconds ▸ hc
  have hcq : condQueue c s₁ = .ok (.cond c) s₁ := if_pos hc₁
  have hcur : currentThread s₁ = .ok (some s₁.running.stack) s₁ := by
    rw [currentThread, hw₁.current]
  have hp₁ := hp.unlock m
  rw [← hv₁] at hp₁
  obtain ⟨s₂, hrun₂, hw₂, hv₂, -⟩ := pushBack_spec (q := .cond c) hw₁ hc₁ hw₁.running
    fun q hm => (hp₁.queued q _ hm).2 hstack
  refine ⟨s₂, ?_, hw₂, ?_⟩
  · rw [qthreadCondWait, run_bind_ok hrun₁, run_bind_ok hcq, run_bind_ok hcur,
      run_bind_ok hrun₂]
    rfl
  · rw [hv₂, hv₁, hstack]

/-- A wait on a condition variable that was never made. -/
theorem qthreadCondWait_wild (hw : WF s) {c : CondId} {m : MutexId} (hm : m < s.nmutexes)
    (hc : ¬c < s.nconds) : ∃ s', qthreadCondWait c m s = .error .wild s' := by
  obtain ⟨s₁, hrun₁, -, hv₁⟩ := qthreadMutexUnlock_spec hw hm
  have hconds : s₁.nconds = s.nconds := by
    have hsame := SameThreads.unlock (view s) m
    rw [← hv₁] at hsame
    exact hsame.nconds
  have hc₁ : ¬c < s₁.nconds := hconds ▸ hc
  refine ⟨s₁, ?_⟩
  rw [qthreadCondWait, run_bind_ok hrun₁, run_bind_error (condQueue_wild hc₁)]

end Synchronisation

/-! ### Steps -/

section Steps

variable {s : St}

/-- An observation in the view. -/
private theorem logged (hw : WF s) (e : Event) :
    log e s = .ok () { s with trace := s.trace ++ [e] } ∧
      WF { s with trace := s.trace ++ [e] } ∧
      view { s with trace := s.trace ++ [e] } = (view s).log e :=
  ⟨rfl, hw.congr rfl rfl rfl rfl rfl rfl rfl, rfl⟩

/-- **The code of a call** has the effect the scheduler says, from the state in which the
call itself has been observed. -/
theorem call_spec (hw : WF s) (hp : Placed {s.running.stack} (view s))
    (hu : s.running.point = .user) (op : Op) :
    Ends (call op) { s with trace := s.trace ++ [.called s.running.stack op] }
      (fun flow s' => WF s' ∧ Effect (view s) (.call op) flow (view s'))
      (fun e _ => e ≠ .null) := by
  let s₁ : St := { s with trace := s.trace ++ [.called s.running.stack op] }
  have hw₁ : WF s₁ := (logged hw _).2.1
  have hp₁ : Placed {s₁.running.stack} (view s₁) := hp.log _
  have hpt : (view s).point (view s).current = .user := (if_pos rfl).trans hu
  have hfree : ∀ q, s₁.running.stack ∉ contents s₁ q := fun q hm => (hp₁.queued q _ hm).2 rfl
  have hjoiner : ∀ j, (view s₁).joiner s₁.running.stack = some j →
      j < s₁.nthreads ∧ ∀ q, j ∉ contents s₁ q := fun j hj =>
    have hjoins := hp₁.joins _ j (hp₁.exempt _ rfl) hj
    ⟨hjoins.1.1, hjoins.2.2.2⟩
  cases op with
  | create stack mem =>
      cases stack with
      | false => exact Ends.of_error rfl Stop.noConfusion
      | true =>
          cases mem with
          | none => exact Ends.of_error rfl Stop.noConfusion
          | some mem =>
              obtain ⟨s₂, hrun, hw₂, hv⟩ := qthreadCreate_spec hw₁ mem
              have hcur : s₂.running.stack = s.running.stack := congrArg Sched.current hv
              refine Ends.step hrun (Ends.of_ok rfl ⟨hw₂.congr rfl rfl rfl rfl rfl rfl rfl, ?_⟩)
              have he := @Effect.create _ mem hpt
              convert he using 1
              change (view s₂).log (.created s₂.running.stack s.nthreads) = _
              rw [hv, hcur]
              rfl
  | yield => exact Ends.of_ok rfl ⟨hw₁, .yield hpt⟩
  | exit val =>
      obtain ⟨s₂, hrun, hw₂, hv⟩ := qthreadExit_spec hw₁ val hjoiner
      exact Ends.of_ok hrun ⟨hw₂, hv ▸ .exit hpt⟩
  | finish val =>
      by_cases hmain : s.running.stack = mainThread
      · refine Ends.of_error (e := .exited) (u := s₁) ?_ Stop.noConfusion
        have hself : self s₁ = .ok s.running.stack s₁ := rfl
        rw [call, createThreadWrapper, run_bind_ok hself, if_pos hmain]
        rfl
      · obtain ⟨s₂, hrun, hw₂, hv⟩ := qthreadExit_spec hw₁ val hjoiner
        refine Ends.of_ok (a := .schedules .exit 1) ?_ ⟨hw₂, hv ▸ .finish hpt hmain⟩
        have hself : self s₁ = .ok s.running.stack s₁ := rfl
        rw [call, createThreadWrapper, run_bind_ok hself, if_neg hmain, hrun]
  | join t =>
      by_cases ht : t < s.nthreads
      · obtain ⟨s₂, hrun, hw₂, hv⟩ := qthreadJoin_spec hw₁ (t := t) ht
        exact Ends.of_ok hrun ⟨hw₂, hv ▸ .join hpt ht⟩
      · refine Ends.of_error (e := .wild) (u := s₁) ?_ Stop.noConfusion
        have hcur : currentThread s₁ = .ok s₁.currentThread s₁ := rfl
        have hst : ∀ f, store (some t) f s₁ = .error .wild s₁ := fun f => if_neg ht
        rw [call, qthreadJoin, run_bind_ok hcur, run_bind_error (hst _)]
  | usleep u =>
      by_cases hc : s.clock = []
      · refine Ends.of_error (e := .clock) (u := s₁) ?_ Stop.noConfusion
        have hg : getUsecs s₁ = .error .clock s₁ := by
          rw [getUsecs, show s₁.clock = [] from hc]
        rw [call, qthreadUsleep, run_bind_error hg]
      · obtain ⟨now, rest, hc⟩ := List.exists_cons_of_ne_nil hc
        obtain ⟨s₂, hrun, hw₂, hv⟩ := qthreadUsleep_spec hw₁ (u := u) hc
        exact Ends.of_ok hrun ⟨hw₂, hv ▸ .usleep hpt hc⟩
  | mutexCreate mem =>
      obtain ⟨s₂, hrun, hw₂, hv⟩ := qthreadMutexCreate_spec hw₁ mem
      refine Ends.of_ok hrun ⟨hw₂, hv ▸ .mutexCreate hpt ?_⟩
      exact (hw.size_eq_zero_iff _).mp (hw.fresh _ (lt_irrefl s.nmutexes))
  | lock m =>
      by_cases hm : m < s.nmutexes
      · obtain ⟨s₂, hrun, hw₂, hv⟩ := qthreadMutexLock_spec hw₁ (.lock m) hm hfree
        exact Ends.of_ok hrun ⟨hw₂, hv ▸ .lock hpt hm⟩
      · obtain ⟨s₂, hrun⟩ := qthreadMutexLock_wild (s := s₁) (.lock m) hm
        exact Ends.of_error hrun Stop.noConfusion
  | unlock m =>
      by_cases hm : m < s.nmutexes
      · obtain ⟨s₂, hrun, hw₂, hv⟩ := qthreadMutexUnlock_spec hw₁ (m := m) hm
        exact Ends.step hrun (Ends.pure ⟨hw₂, hv ▸ .unlock hpt hm⟩)
      · obtain ⟨s₂, hrun⟩ := qthreadMutexUnlock_wild (s := s₁) (m := m) hm
        exact Ends.of_error (run_bind_error hrun) Stop.noConfusion
  | condCreate mem =>
      obtain ⟨s₂, hrun, hw₂, hv⟩ := qthreadCondCreate_spec hw₁ mem
      exact Ends.of_ok hrun ⟨hw₂, hv ▸ .condCreate hpt⟩
  | condWait c m =>
      by_cases hm : m < s.nmutexes
      · by_cases hc : c < s.nconds
        · obtain ⟨s₂, hrun, hw₂, hv⟩ := qthreadCondWait_spec hw₁ hp₁ (c := c) (m := m) hm hc
          exact Ends.of_ok hrun ⟨hw₂, hv ▸ .condWait hpt hm hc⟩
        · obtain ⟨s₂, hrun⟩ := qthreadCondWait_wild hw₁ (c := c) (m := m) hm hc
          exact Ends.of_error hrun Stop.noConfusion
      · obtain ⟨s₂, hrun⟩ := qthreadMutexUnlock_wild (s := s₁) (m := m) hm
        exact Ends.of_error (run_bind_error hrun) Stop.noConfusion
  | signal c =>
      by_cases hc : c < s.nconds
      · obtain ⟨s₂, hrun, hw₂, hv⟩ := qthreadCondSignal_spec hw₁ (c := c) hc
        exact Ends.of_ok hrun ⟨hw₂, hv ▸ .signal hpt hc⟩
      · exact Ends.of_error (run_bind_error (condQueue_wild (s := s₁) hc)) Stop.noConfusion
  | broadcast c =>
      by_cases hc : c < s.nconds
      · obtain ⟨s₂, hrun, hw₂, hv⟩ := qthreadCondBroadcast_spec hw₁ (c := c) hc
        exact Ends.of_ok hrun ⟨hw₂, hv ▸ .broadcast hpt hc⟩
      · exact Ends.of_error (run_bind_error (condQueue_wild (s := s₁) hc)) Stop.noConfusion

/-- **The code behind a call of `schedule`** has the effect the scheduler says. -/
theorem resume_spec (hw : WF s) (hp : Placed {s.running.stack} (view s)) :
    Ends (resume s.running.point) s
      (fun flow s' => WF s' ∧ Effect (view s) .resume flow (view s'))
      (fun e _ => e ≠ .null) := by
  have hpt : (view s).point (view s).current = s.running.point := if_pos rfl
  have hfree : ∀ q, s.running.stack ∉ contents s q := fun q hm => (hp.queued q _ hm).2 rfl
  have hcA := hp.exempt s.running.stack rfl
  cases hpoint : s.running.point with
  | user => exact Ends.of_error rfl Stop.noConfusion
  | entry => exact Ends.pure ⟨hw, .goOn (.inl (hpt.trans hpoint))⟩
  | yield => exact Ends.pure ⟨hw, .goOn (.inr (.inl (hpt.trans hpoint)))⟩
  | exit => exact absurd (hpt.trans hpoint) (hp.inside _ hcA)
  | usleep => exact Ends.of_ok rfl ⟨(logged hw _).2.1, .awake (hpt.trans hpoint)⟩
  | join t =>
      have ht : t < s.nthreads := (hp.joining _ t hcA (hpt.trans hpoint)).1
      obtain ⟨s', hrun, hw', hv⟩ := joinLoop_spec hw ht
      exact Ends.of_ok hrun ⟨hw', hv ▸ .rejoin (hpt.trans hpoint) ht⟩
  | lock m => exact Ends.pure ⟨hw, .goOn (.inr (.inr ⟨m, hpt.trans hpoint⟩))⟩
  | condWait c m =>
      by_cases hm : m < s.nmutexes
      · obtain ⟨s', hrun, hw', hv⟩ := condWaitRelock_spec (c := c) hw hm hfree
        exact Ends.of_ok hrun ⟨hw', hv ▸ .signaled (hpt.trans hpoint) hm⟩
      · obtain ⟨s', hrun⟩ := qthreadMutexLock_wild (.relock c m) hm
        exact Ends.of_error (run_bind_error hrun) Stop.noConfusion
  | relock c m => exact Ends.of_ok rfl ⟨(logged hw _).2.1, .handed (hpt.trans hpoint)⟩

/-- A call of user code runs the code of the call. -/
theorem perform_call {op : Op} (hu : s.running.point = .user) :
    perform (.call op) s =
      call op { s with trace := s.trace ++ [.called s.running.stack op] } := by
  change (if s.running.point = .user then _ else _ : Lib Flow) s = _
  rw [if_pos hu]
  rfl

/-- **A step up to its call of `schedule`** has the effect the scheduler says. -/
theorem perform_spec (hw : WF s) (hp : Placed {s.running.stack} (view s)) (act : Action) :
    Ends (perform act) s
      (fun flow s' => WF s' ∧ Effect (view s) act flow (view s'))
      (fun e _ => e ≠ .null) := by
  cases act with
  | call op =>
      by_cases hu : s.running.point = .user
      · rw [Ends, perform_call hu]
        exact call_spec hw hp hu op
      · refine Ends.of_error (e := .disabled) (u := s) ?_ Stop.noConfusion
        change (if s.running.point = .user then _ else _ : Lib Flow) s = _
        rw [if_neg hu]
        rfl
  | resume => exact resume_spec hw hp

/-- The code on the running stack moves to a point. -/
theorem goto_spec (hw : WF s) (p : Point) :
    ∃ s', goto p s = .ok () s' ∧ WF s' ∧ view s' = (view s).goto p := by
  refine ⟨_, rfl, hw.congr rfl rfl rfl rfl rfl rfl rfl, ?_⟩
  have hpoint : St.point { s with running := ⟨s.running.stack, p⟩ } =
      Function.update s.point s.running.stack p := by
    funext x
    by_cases hx : x = s.running.stack
    · rw [hx, Function.update_self]
      exact if_pos rfl
    · rw [Function.update_of_ne hx, St.point, St.point, if_neg hx]
      exact (if_neg hx).symm
  simp only [view, hpoint]
  rfl

/-- The state in which `schedule` has to choose finds nobody runnable and nobody asleep. -/
def Stuck (a : Sched) (act : Action) (s' : St) : Prop :=
  ∃ after exit b, Effect a act (.schedules after exit) b ∧
    view s' = (b.goto after).file exit ∧ Placed ∅ (view s') ∧
    contents s' .runnable = [] ∧ contents s' .sleeping = []

/-- **A step of the program** is a step of the scheduler. It dereferences `NULL` only when
`schedule` finds nobody runnable and nobody asleep. -/
theorem step_spec (hw : WF s) (hi : (view s).Inv) {act : Action} (hD : Allowed JoinOnce s act) :
    Ends (step act) s
      (fun _ s' => WF s' ∧ ∃ flow b, Effect (view s) act flow b ∧ Settles flow b (view s'))
      (fun e s' => e = .null → Stuck (view s) act s') := by
  have hA : (view s).Allowed JoinOnce act := by
    cases act with
    | call op => exact hD
    | resume => exact True.intro
  rw [step]
  refine ((perform_spec hw hi.placed act).mono (fun _ _ h => h)
    fun _ _ he h => absurd h he).bind ?_
  rintro flow s₁ ⟨hw₁, he⟩
  have hl := he.leaves hi hA
  cases flow with
  | returns =>
      obtain ⟨s₂, hrun₂, hw₂, hv₂⟩ := goto_spec hw₁ .user
      exact Ends.of_ok hrun₂ ⟨hw₂, _, _, he, hv₂ ▸ .returns⟩
  | schedules after exit =>
      obtain ⟨s₂, hrun₂, hw₂, hv₂⟩ := goto_spec hw₁ after
      have hp : Placed ∅ ((view s₂).file exit) := hv₂ ▸ hl
      refine Ends.step hrun₂ ((schedule_spec hw₂ hp).mono ?_ ?_)
      · rintro _ s₃ ⟨hw₃, hd⟩
        exact ⟨hw₃, _, _, he, .schedules (hv₂ ▸ hd)⟩
      · rintro e s₃ (rfl | ⟨rfl, hv₃, hr, hs⟩)
        · exact fun h => Stop.noConfusion h
        · exact fun _ => ⟨after, exit, _, he, hv₂ ▸ hv₃, hv₃ ▸ hp, hr, hs⟩

/-- The step's call of `schedule` reaches `switch_runnable` in the state `s'`. -/
def ReachesSwitch (act : Action) (s s' : St) : Prop :=
  ∃ after exit s₁ s₂ s₃, perform act s = .ok (.schedules after exit) s₁ ∧
    goto after s₁ = .ok () s₂ ∧ scheduleFile exit s₂.currentThread s₂ = .ok () s₃ ∧
    wakeIfIdle s₃ = .ok () s'

/-- **Where `switch_runnable` is reached**, the current thread has been filed and the test
has been made. -/
theorem reachesSwitch_spec {s' : St} (hw : WF s) (hi : (view s).Inv) {act : Action}
    (hD : Allowed JoinOnce s act) (h : ReachesSwitch act s s') :
    WF s' ∧ Placed ∅ (view s') ∧ ∃ after exit b, Effect (view s) act (.schedules after exit) b ∧
      Idle ((b.goto after).file exit) (view s') := by
  obtain ⟨after, exit, s₁, s₂, s₃, hrun₁, hrun₂, hrun₃, hrun₄⟩ := h
  have hA : (view s).Allowed JoinOnce act := by
    cases act with
    | call op => exact hD
    | resume => exact True.intro
  obtain ⟨hw₁, he⟩ := (perform_spec hw hi.placed act).ok hrun₁
  obtain ⟨s₂', hrun₂', hw₂, hv₂⟩ := goto_spec hw₁ after
  rw [hrun₂] at hrun₂'
  obtain rfl := (EStateM.Result.ok.inj hrun₂').2
  have hl : Placed ∅ (((view s₁).goto after).file exit) := he.leaves hi hA
  rw [← hv₂] at hl
  obtain ⟨hw₃, hfiled⟩ := (scheduleFile_spec hw₂ hl).ok hrun₃
  obtain ⟨hw₄, hi₄⟩ := (wakeIfIdle_spec hw₃).ok hrun₄
  have hidle : Idle ((view s₂).file exit) (view s') := by
    rcases hfiled with hv | hi'
    · exact hv ▸ hi₄
    · exact hi'.again hi₄
  exact ⟨hw₄, hidle.placed hl, after, exit, view s₁, he, hv₂ ▸ hidle⟩

end Steps

/-! ### Runs -/

/-- The states the abstract scheduler reaches. -/
def Sched.Reachable (D : Discipline) (mem : Qthread) (clock : List ℤ) : Sched → Prop :=
  Relation.ReflTransGen (fun a b => ∃ act, Sched.Step D a act b) (Sched.initial mem clock)

section Runs

variable {D : Discipline} {mem : Qthread} {clock : List ℤ} {s : St}

/-- `qthread_init` sets up the scheduler's initial state. -/
theorem view_qthreadInit : view (qthreadInit mem clock) = Sched.initial mem clock := by
  have hpoint : (qthreadInit mem clock).point =
      fun t => if t = mainThread then .user else mem.savedStackPointer.point := rfl
  have hcon : contents (qthreadInit mem clock) = fun _ => [] := rfl
  simp only [view, hpoint, hcon]
  rfl

/-- `qthread_init` sets up a well-formed state. -/
theorem wf_qthreadInit : WF (qthreadInit mem clock) := by
  have hcon : contents (qthreadInit mem clock) = fun _ => [] := rfl
  refine ⟨rfl, ?_, fun t ht hr => absurd (Nat.lt_one_iff.mp ht) hr, ?_, Nat.one_pos,
    fun _ _ => rfl⟩
  · rw [hcon]
    exact ⟨fun q => .empty _ rfl, fun _ _ _ h => absurd h List.not_mem_nil⟩
  · rw [hcon]
    exact fun _ _ h => absurd h List.not_mem_nil

/-- **Runs of the program are runs of the scheduler**, if the discipline lets no thread be
joined by two threads or by itself and the main thread's structure does not say that it
has exited or is waited for. -/
theorem Reachable.sim (hD : ∀ t tr op, D t tr op → JoinOnce t tr op) (hd : mem.dead ≠ 1)
    (hj : mem.waiter = none) (h : Reachable D mem clock s) :
    WF s ∧ (view s).Inv ∧ Sched.Reachable D mem clock (view s) := by
  have hinit : WF (qthreadInit mem clock) ∧ (view (qthreadInit mem clock)).Inv :=
    ⟨wf_qthreadInit, view_qthreadInit ▸ Sched.inv_initial hd hj⟩
  obtain ⟨⟨hw, hi⟩, hr⟩ := Runs.simulation_of_run (f := view)
    (S := fun a b => ∃ act, Sched.Step D a act b) (I := fun s => WF s ∧ (view s).Inv) h hinit
    (by
      rintro s s' ⟨hw, hi⟩ ⟨act, hA, hrun⟩
      have hA' : Allowed JoinOnce s act := by
        cases act with
        | call op => exact hD _ _ _ hA
        | resume => exact True.intro
      obtain ⟨hw', flow, b, he, hs⟩ := (step_spec hw hi hA').ok hrun
      have hstep : Sched.Step D (view s) act (view s') := by
        refine .mk ?_ he hs
        cases act with
        | call op => exact hA
        | resume => exact True.intro
      exact ⟨⟨hw', hstep.inv hD hi⟩, act, hstep⟩)
  rw [view_qthreadInit] at hr
  exact ⟨hw, hi, hr⟩

end Runs

end SystemsProjects.Qthreads
