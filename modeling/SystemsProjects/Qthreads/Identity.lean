import SystemsProjects.Qthreads.Locations

/-!
# Whose Stack Is Running

`switch_runnable` sets `current_thread` before it decides whether to switch stacks, and it
does not switch to a thread whose `dead` field is set. So the running context is the one
of `current_thread` only if no exited thread ever gets to the front of the active list.
`qthread_init` does not initialise the main thread's structure, and with other memory than
it hopes for two things go wrong: a `dead` field that is set makes another thread act as
main, and a `waiter` field that is set makes some thread's `qthread_exit` return.

## Main results

* `identified_of_reachable`: with `dead` clear and no `waiter`, all is well.
* `exists_impostor`, `exists_exit_returns`: the runs that go wrong otherwise.
* `identified_iff`: the exact condition on the memory.
-/

namespace SystemsProjects.Qthreads

open Stateful

/-- Where control is in user code, `current_thread` is the thread whose stack is running;
and `qthread_exit` is not about to return to its caller. -/
def St.Identified (s : St) : Prop :=
  (s.running.point = .user → s.currentThread = some s.running.stack) ∧
    s.running.point ≠ .exit

/-- With a `dead` field that is clear and no `waiter`, the running context is the one of
`current_thread` in every reachable state. -/
theorem identified_of_reachable {mem : Qthread} {clock : List ℤ} {s : St} (hd : mem.dead ≠ 1)
    (hj : mem.waiter = none) (hs : Reachable JoinOnce mem clock s) : s.Identified := by
  obtain ⟨hw, hi, -⟩ := hs.sim (fun _ _ _ hD => hD) hd hj
  refine ⟨fun _ => hw.current, fun hp => ?_⟩
  have hcur := hi.placed.exempt s.running.stack rfl
  exact hi.placed.inside _ hcur ((if_pos rfl).trans hp)

/-! ### Runs on a main structure that is not initialised -/

section Uninitialised

variable {s : St}

/-- `switch_runnable` makes an exited thread current and stays on the stack it is on. -/
theorem switchRunnable_dead (hw : WF s) {t : Tid} {l : List Tid}
    (hr : contents s .runnable = t :: l) (hdead : (view s).result t ≠ none) :
    ∃ s', switchRunnable s.currentThread s = .ok () s' ∧ s'.running = s.running ∧
      s'.currentThread = some t := by
  obtain ⟨s₁, hrun₁, -, -, hrunning, ht, hresult⟩ := popFront_runnable hw hr
  have hd : (s₁.thread t).dead = 1 := by
    by_contra hne
    have hres : (view s₁).result t = none := if_neg hne
    exact hdead (hresult.symm.trans hres)
  refine ⟨{ s₁ with currentThread := some t }, ?_, hrunning, rfl⟩
  rw [switchRunnable_eq hrun₁]
  split
  · rfl
  · rw [run_bind_ok (load_ok (s := { s₁ with currentThread := some t }) ht),
      if_neg (not_not.mpr hd)]
    rfl

/-- The main thread is alone, in user code, and `k` threads have been made before. -/
structure Alone (a : Sched) (k : ℕ) : Prop where
  current : a.current = mainThread
  point : a.point mainThread = .user
  nthreads : a.nthreads = k + 1
  queue : ∀ q, a.queue q = []

/-- A new thread has taken over from the main thread, which is the only one runnable. -/
structure TakenOver (a b : Sched) (k : ℕ) : Prop where
  current : b.current = k + 1
  point : b.point (k + 1) = .user
  main : b.point mainThread = .yield
  nthreads : b.nthreads = k + 2
  runnable : b.queue .runnable = [mainThread]
  queue : ∀ q, q ≠ .runnable → b.queue q = []
  result : b.result (k + 1) = none
  joiner : b.joiner (k + 1) = none
  old : ∀ x, x ≤ k → b.result x = a.result x ∧ b.joiner x = a.joiner x

/-- `schedule(0)` appends the current thread and goes on with a nonempty active list. -/
private theorem schedule_yield (hw : WF s) (hfree : ∀ q, s.running.stack ∉ contents s q) :
    ∃ s', schedule 0 s = switchRunnable s'.currentThread s' ∧ WF s' ∧
      view s' = (view s).push .runnable s.running.stack := by
  obtain ⟨s₁, hrun₁, hw₁, hv₁, -⟩ := pushBack_spec (q := .runnable) hw True.intro hw.running hfree
  have hcur : currentThread s = .ok (some s.running.stack) s := by
    rw [currentThread, hw.current]
  have hfile : scheduleFile 0 (some s.running.stack) s = .ok () s₁ := hrun₁
  have hne : contents s₁ .runnable ≠ [] := by
    change (view s₁).queue .runnable ≠ []
    rw [hv₁, Sched.queue_push_self]
    exact List.append_ne_nil_of_right_ne_nil _ (List.cons_ne_nil _ _)
  have hstack : s₁.running.stack = s.running.stack := congrArg Sched.current hv₁
  refine ⟨s₁, ?_, hw₁, hv₁⟩
  rw [schedule, run_bind_ok hcur, run_bind_ok hfile, run_bind_ok (wakeIfIdle_busy hw₁ hne),
    hw₁.current, hstack]

/-- `schedule(1)` goes on with the active list, if that is not empty. -/
private theorem schedule_exit (hw : WF s) (hr : contents s .runnable ≠ []) :
    schedule 1 s = switchRunnable s.currentThread s := by
  have hcur : currentThread s = .ok s.currentThread s := rfl
  have hfile : scheduleFile 1 s.currentThread s = .ok () s := by
    rw [scheduleFile, if_pos rfl, run_bind_ok (wakeIfIdle_busy hw hr)]
    rfl
  rw [schedule, run_bind_ok hcur, run_bind_ok hfile, run_bind_ok (wakeIfIdle_busy hw hr)]

/-- A step whose code returns. -/
private theorem step_returns {act : Action} {s₁ : St}
    (hrun : perform act s = .ok .returns s₁) (hw₁ : WF s₁) :
    ∃ s', step act s = .ok () s' ∧ WF s' ∧ view s' = (view s₁).goto .user := by
  obtain ⟨s₂, hrun₂, hw₂, hv₂⟩ := goto_spec hw₁ .user
  refine ⟨s₂, ?_, hw₂, hv₂⟩
  rw [step, run_bind_ok hrun]
  exact hrun₂

/-- A step whose code calls `schedule`. -/
private theorem step_schedules {act : Action} {s₁ : St} {after : Point} {exit : ℤ}
    (hrun : perform act s = .ok (.schedules after exit) s₁) (hw₁ : WF s₁) :
    ∃ s₂, step act s = schedule exit s₂ ∧ WF s₂ ∧ view s₂ = (view s₁).goto after := by
  obtain ⟨s₂, hrun₂, hw₂, hv₂⟩ := goto_spec hw₁ after
  refine ⟨s₂, ?_, hw₂, hv₂⟩
  rw [step, run_bind_ok hrun, ← run_bind_ok (f := fun _ => schedule exit) hrun₂]

/-- The point of the running context, read off the view. -/
private theorem running_point {t : Tid} {p : Point} (hc : (view s).current = t)
    (hp : (view s).point t = p) : s.running.point = p := by
  subst hc
  rw [← hp]
  exact (if_pos rfl).symm

/-- A yield of the current thread. -/
private theorem step_yield (hw : WF s) (hu : s.running.point = .user)
    (hfree : ∀ q, s.running.stack ∉ contents s q) :
    ∃ s', step (.call .yield) s = switchRunnable s'.currentThread s' ∧ WF s' ∧
      ∃ e, view s' = (((view s).log e).goto .yield).push .runnable s.running.stack := by
  have hrun : perform (.call .yield) s = .ok (.schedules .yield 0)
      { s with trace := s.trace ++ [.called s.running.stack .yield] } := perform_call hu
  obtain ⟨s₂, hrun₂, hw₂, hv₂⟩ := step_schedules hrun (hw.congr rfl rfl rfl rfl rfl rfl rfl)
  have hstack : s₂.running.stack = s.running.stack := congrArg Sched.current hv₂
  have hcon : contents s₂ = contents s := congrArg Sched.queue hv₂
  obtain ⟨s₃, hrun₃, hw₃, hv₃⟩ := schedule_yield hw₂ fun q => by
    rw [hstack, hcon]
    exact hfree q
  refine ⟨s₃, hrun₂.trans hrun₃, hw₃, .called s.running.stack .yield, ?_⟩
  rw [hv₃, hv₂, hstack]
  rfl

/-- An exit of the current thread. -/
private theorem step_exit (hw : WF s) (hu : s.running.point = .user) (val : Value)
    (hjoiner : ∀ j, (view s).joiner s.running.stack = some j →
      j < s.nthreads ∧ ∀ q, j ∉ contents s q) :
    ∃ s' e, step (.call (.exit val)) s = schedule 1 s' ∧ WF s' ∧
      view s' = (((view s).log e).finish val).goto .exit := by
  let e : Event := .called s.running.stack (.exit val)
  have hwe : WF { s with trace := s.trace ++ [e] } := hw.congr rfl rfl rfl rfl rfl rfl rfl
  obtain ⟨s₁, hrun₁, hw₁, hv₁⟩ := qthreadExit_spec hwe val hjoiner
  have hperf : perform (.call (.exit val)) s = .ok (.schedules .exit 1) s₁ := by
    rw [perform_call hu]
    exact hrun₁
  obtain ⟨s₂, hrun₂, hw₂, hv₂⟩ := step_schedules hperf hw₁
  refine ⟨s₂, e, hrun₂, hw₂, ?_⟩
  rw [hv₂, hv₁]
  rfl

variable {mem : Qthread} {clock : List ℤ}

/-- The main thread, alone, makes a thread. -/
private theorem step_create (hw : WF s) {k : ℕ} (ha : Alone (view s) k) :
    ∃ s' e e', step (.call (.create true (some zeroMem))) s = .ok () s' ∧ WF s' ∧
      view s' = ((((view s).log e).spawn 0).log e').goto .user := by
  let s₁ : St := { s with
    trace := s.trace ++ [.called s.running.stack (.create true (some zeroMem))] }
  obtain ⟨s₂, hrun₂, hw₂, hv₂⟩ :=
    qthreadCreate_spec (s := s₁) (hw.congr rfl rfl rfl rfl rfl rfl rfl) zeroMem
  let e' : Event := .created s₂.running.stack s.nthreads
  let s₃ : St := { s₂ with trace := s₂.trace ++ [e'] }
  have hperf : perform (.call (.create true (some zeroMem))) s = .ok .returns s₃ := by
    have hself : self s₂ = .ok s₂.running.stack s₂ := rfl
    have hlog : log e' s₂ = .ok () s₃ := rfl
    rw [perform_call (running_point ha.current ha.point), call, run_bind_ok hrun₂,
      run_bind_ok hself, run_bind_ok hlog]
    rfl
  obtain ⟨s₄, hs₄, hw₄, hv₄⟩ := step_returns hperf (hw₂.congr rfl rfl rfl rfl rfl rfl rfl)
  refine ⟨s₄, .called s.running.stack (.create true (some zeroMem)), e', hs₄, hw₄, hv₄.trans ?_⟩
  change ((view s₂).log e').goto .user = _
  rw [hv₂]
  rfl

/-- A thread goes on at the start of its start function, or behind a yield. -/
private theorem step_goOn_eq (hp : s.running.point = .entry ∨ s.running.point = .yield) :
    step .resume s = .ok () { s with running := ⟨s.running.stack, .user⟩ } := by
  have hrun : perform .resume s = .ok .returns s := by
    change resume s.running.point s = _
    rcases hp with hp | hp
    · rw [hp]
      rfl
    · rw [hp]
      rfl
  rw [step, run_bind_ok hrun]
  rfl

/-- Going on, in the view. -/
private theorem step_goOn (hw : WF s) (hp : s.running.point = .entry ∨ s.running.point = .yield) :
    ∃ s', step .resume s = .ok () s' ∧ WF s' ∧ view s' = (view s).goto .user := by
  obtain ⟨s', hrun, hw', hv⟩ := goto_spec hw .user
  exact ⟨s', (step_goOn_eq hp).trans hrun, hw', hv⟩

/-- The main thread, alone, makes a thread and yields to it. -/
theorem takes_over (hs : Reachable JoinOnce mem clock s) (hw : WF s) {k : ℕ}
    (ha : Alone (view s) k) :
    ∃ s', Reachable JoinOnce mem clock s' ∧ WF s' ∧ TakenOver (view s) (view s') k := by
  have hcur : s.running.stack = mainThread := ha.current
  obtain ⟨s₁, e, e', hrun₁, hw₁, hv₁⟩ := step_create hw ha
  have hn : (view s).nthreads = k + 1 := ha.nthreads
  have hstack₁ : s₁.running.stack = mainThread := (congrArg Sched.current hv₁).trans hcur
  have hq₁ : contents s₁ = Function.update (contents s) .runnable [k + 1] := by
    refine (congrArg Sched.queue hv₁).trans ?_
    change Function.update (contents s) .runnable (contents s .runnable ++ [s.nthreads]) = _
    rw [show contents s .runnable = [] from ha.queue _, show s.nthreads = k + 1 from hn]
    rfl
  have hfree : ∀ q, s₁.running.stack ∉ contents s₁ q := fun q => by
    rw [hq₁, hstack₁]
    by_cases hq : q = .runnable
    · rw [hq, Function.update_self]
      simp
    · rw [Function.update_of_ne hq, show contents s q = [] from ha.queue q]
      exact List.not_mem_nil
  have hu₁ : s₁.running.point = .user := by
    refine running_point (t := mainThread) hstack₁ ?_
    rw [hv₁, ← hcur]
    exact Function.update_self ..
  obtain ⟨s₂, hrun₂, hw₂, e₂, hv₂⟩ := step_yield hw₁ hu₁ hfree
  rw [hstack₁, hv₁] at hv₂
  have hq₂ : (view s₂).queue .runnable = [k + 1, mainThread] := by
    rw [hv₂, Sched.queue_push_self, ← hv₁]
    change contents s₁ .runnable ++ _ = _
    rw [hq₁, Function.update_self]
    rfl
  have hres₂ : (view s₂).result (k + 1) = none := by
    rw [hv₂, ← hn]
    exact Function.update_self ..
  obtain ⟨s₃, hrun₃, hw₃, hv₃⟩ := switchRunnable_take hw₂ hq₂ hres₂
  have hk : k + 1 ≠ mainThread := Nat.succ_ne_zero k
  have hpoint₂ : (view s₂).point = Function.update (Function.update (Function.update
      (view s).point (k + 1) .entry) mainThread .user) mainThread .yield := by
    rw [hv₂, ← hn, ← ha.current]
    rfl
  have hcur₃ : (view s₃).current = k + 1 := by
    rw [hv₃, Sched.take_current]
  have hpoint₃ : (view s₃).point (k + 1) = .entry := by
    rw [hv₃, Sched.take_point, hpoint₂, Function.update_of_ne hk, Function.update_of_ne hk,
      Function.update_self]
  obtain ⟨s₄, hrun₄, hw₄, hv₄⟩ := step_goOn hw₃ (.inl (running_point hcur₃ hpoint₃))
  have hs₁ := hs.step (.call (.create true (some zeroMem))) True.intro hrun₁
  have hs₃ := hs₁.step (.call .yield) True.intro (hrun₂.trans hrun₃)
  have hs₄ := hs₃.step .resume True.intro hrun₄
  have hpoint₄ : (view s₄).point = Function.update (view s₂).point (k + 1) .user := by
    rw [hv₄]
    change Function.update (view s₃).point (view s₃).current .user = _
    rw [hcur₃, hv₃, Sched.take_point]
  have hqueue₄ : (view s₄).queue = (view s₃).queue := by
    rw [hv₄]
    rfl
  have hresult₄ : (view s₄).result = (view s₂).result := by
    rw [hv₄, ← Sched.take_result (view s₂) (k + 1), ← hv₃]
    rfl
  have hjoiner₄ : (view s₄).joiner = (view s₂).joiner := by
    rw [hv₄, ← Sched.take_joiner (view s₂) (k + 1), ← hv₃]
    rfl
  have hresult₂ : (view s₂).result = Function.update (view s).result (k + 1) none := by
    rw [hv₂, ← hn]
    rfl
  have hjoiner₂ : (view s₂).joiner = Function.update (view s).joiner (k + 1) none := by
    rw [hv₂, ← hn]
    rfl
  have hold : ∀ x, x ≤ k → x ≠ k + 1 := fun x hx => by omega
  refine ⟨s₄, hs₄, hw₄, ⟨?_, ?_, ?_, ?_, ?_, fun q hq => ?_, ?_, ?_, fun x hx => ⟨?_, ?_⟩⟩⟩
  · exact (congrArg Sched.current hv₄).trans hcur₃
  · rw [hpoint₄, Function.update_self]
  · rw [hpoint₄, Function.update_of_ne hk.symm, hpoint₂, Function.update_self]
  · refine (congrArg Sched.nthreads hv₄).trans ?_
    change (view s₃).nthreads = _
    rw [hv₃, Sched.take_nthreads, hv₂]
    exact congrArg (· + 1) hn
  · rw [hqueue₄, hv₃, Sched.queue_take_runnable hq₂]
  · rw [hqueue₄, hv₃, Sched.queue_take_of_ne hq, hv₂, Sched.queue_push_of_ne hq, ← hv₁]
    change contents s₁ q = []
    rw [hq₁, Function.update_of_ne hq]
    exact ha.queue q
  · rw [hresult₄, hresult₂, Function.update_self]
  · rw [hjoiner₄, hjoiner₂, Function.update_self]
  · rw [hresult₄, hresult₂, Function.update_of_ne (hold x hx)]
  · rw [hjoiner₄, hjoiner₂, Function.update_of_ne (hold x hx)]

/-- The thread that has taken over exits, and the main thread is alone again. -/
theorem comes_and_goes (hs : Reachable JoinOnce mem clock s) (hw : WF s) {k : ℕ}
    (ha : Alone (view s) k) (hlive : (view s).result mainThread = none) :
    ∃ s', Reachable JoinOnce mem clock s' ∧ WF s' ∧ Alone (view s') (k + 1) ∧
      (view s').result (k + 1) ≠ none ∧ ∀ x, x ≤ k →
        (view s').result x = (view s).result x ∧ (view s').joiner x = (view s).joiner x := by
  obtain ⟨s₁, hs₁, hw₁, ht⟩ := takes_over hs hw ha
  have hk : k + 1 ≠ mainThread := Nat.succ_ne_zero k
  have hstack₁ : s₁.running.stack = k + 1 := ht.current
  obtain ⟨s₃, e, hrun₃, hw₃, hv₃⟩ := step_exit hw₁ (running_point ht.current ht.point) 0
    fun j hj => by
      rw [hstack₁, ht.joiner] at hj
      cases hj
  have hfin : ((view s₁).log e).finish 0 = { (view s₁).log e with
      result := Function.update (view s₁).result (k + 1) (some 0) } := by
    have hno : ((view s₁).log e).joiner ((view s₁).log e).current = none := by
      change (view s₁).joiner (view s₁).current = none
      rw [ht.current, ht.joiner]
    rw [Sched.finish, hno, ← ht.current]
    rfl
  have hq₃ : (view s₃).queue = (view s₁).queue := by
    rw [hv₃, hfin]
    rfl
  have hr₃ : contents s₃ .runnable = [mainThread] := by
    change (view s₃).queue .runnable = _
    rw [hq₃, ht.runnable]
  have hres₃ : (view s₃).result = Function.update (view s₁).result (k + 1) (some 0) := by
    rw [hv₃, hfin]
    rfl
  have hlive₃ : (view s₃).result mainThread = none := by
    rw [hres₃, Function.update_of_ne hk.symm, (ht.old _ (Nat.zero_le k)).1, hlive]
  obtain ⟨s₄, hrun₄, hw₄, hv₄⟩ := switchRunnable_take hw₃ hr₃ hlive₃
  rw [← schedule_exit hw₃ (hr₃ ▸ List.cons_ne_nil _ _), ← hrun₃] at hrun₄
  have hpoint₃ : (view s₃).point = Function.update (view s₁).point (k + 1) .exit := by
    rw [hv₃, hfin, ← ht.current]
    rfl
  have hpoint₄ : (view s₄).point mainThread = .yield := by
    rw [hv₄, Sched.take_point, hpoint₃, Function.update_of_ne hk.symm, ht.main]
  have hcur₄ : (view s₄).current = mainThread := by
    rw [hv₄, Sched.take_current]
  obtain ⟨s₅, hrun₅, hw₅, hv₅⟩ := step_goOn hw₄ (.inr (running_point hcur₄ hpoint₄))
  have hs₄ := hs₁.step (.call (.exit 0)) True.intro hrun₄
  have hs₅ := hs₄.step .resume True.intro hrun₅
  have hres₅ : (view s₅).result = (view s₃).result := by
    rw [hv₅, ← Sched.take_result (view s₃) mainThread, ← hv₄]
    rfl
  have hjoi₅ : (view s₅).joiner = (view s₁).joiner := by
    rw [hv₅]
    change (view s₄).joiner = _
    rw [hv₄, Sched.take_joiner, hv₃, hfin]
    rfl
  refine ⟨s₅, hs₅, hw₅, ⟨?_, ?_, ?_, fun q => ?_⟩, ?_, fun x hx => ⟨?_, ?_⟩⟩
  · exact (congrArg Sched.current hv₅).trans hcur₄
  · rw [hv₅, ← hcur₄]
    exact Function.update_self ..
  · refine (congrArg Sched.nthreads hv₅).trans ?_
    change (view s₄).nthreads = _
    rw [hv₄, Sched.take_nthreads, hv₃, hfin]
    exact ht.nthreads
  · rw [show (view s₅).queue q = (view s₄).queue q from congrFun (congrArg Sched.queue hv₅) q, hv₄]
    by_cases hq : q = .runnable
    · rw [hq, Sched.queue_take_runnable hr₃]
    · rw [Sched.queue_take_of_ne hq, hq₃, ht.queue q hq]
  · rw [hres₅, hres₃, Function.update_self]
    exact Option.some_ne_none _
  · rw [hres₅, hres₃, Function.update_of_ne (show x ≠ k + 1 by omega), (ht.old x hx).1]
  · rw [hjoi₅, (ht.old x hx).2]

/-- The main thread starts alone. -/
theorem alone_qthreadInit : Alone (view (qthreadInit mem clock)) 0 := by
  rw [view_qthreadInit]
  exact ⟨rfl, rfl, rfl, fun _ => rfl⟩

/-- **Someone acts as main.** If the main thread's `dead` field happens to be set, a thread
that yields back to main goes on itself, as main. -/
theorem exists_impostor (clock : List ℤ) (hd : mem.dead = 1) :
    ∃ s, Reachable JoinOnce mem clock s ∧ s.running.point = .user ∧
      s.currentThread = some mainThread ∧ s.running.stack ≠ mainThread := by
  have hinit : Reachable JoinOnce mem clock (qthreadInit mem clock) := .refl
  obtain ⟨s₁, hs₁, hw₁, ht⟩ := takes_over hinit wf_qthreadInit alone_qthreadInit
  have hstack₁ : s₁.running.stack = 1 := ht.current
  have hfree : ∀ q, s₁.running.stack ∉ contents s₁ q := fun q hq => by
    rw [hstack₁] at hq
    by_cases hr : q = .runnable
    · rw [hr, show contents s₁ .runnable = [mainThread] from ht.runnable] at hq
      exact absurd (List.mem_singleton.mp hq) Nat.one_ne_zero
    · rw [show contents s₁ q = [] from ht.queue q hr] at hq
      cases hq
  obtain ⟨s₂, hrun₂, hw₂, e, hv₂⟩ := step_yield hw₁ (running_point ht.current ht.point) hfree
  have hq₂ : contents s₂ .runnable = [mainThread, 1] := by
    change (view s₂).queue .runnable = _
    rw [hv₂, Sched.queue_push_self, hstack₁]
    change (view s₁).queue .runnable ++ _ = _
    rw [ht.runnable]
    rfl
  have hdead : (view s₂).result mainThread ≠ none := by
    rw [hv₂]
    change (view s₁).result mainThread ≠ none
    rw [(ht.old _ le_rfl).1, view_qthreadInit]
    change (if mem.dead = 1 then some mem.returnVal else none) ≠ none
    rw [if_pos hd]
    exact Option.some_ne_none _
  obtain ⟨s₃, hrun₃, hrunning, hcur₃⟩ := switchRunnable_dead hw₂ hq₂ hdead
  have hstack₃ : s₃.running.stack = 1 := by
    rw [hrunning]
    exact (congrArg Sched.current hv₂).trans hstack₁
  have hpoint₃ : s₃.running.point = .yield := by
    rw [hrunning]
    refine running_point (t := s₁.running.stack) (congrArg Sched.current hv₂) ?_
    rw [hv₂]
    exact Function.update_self ..
  have hs₃ := hs₁.step (.call .yield) True.intro (hrun₂.trans hrun₃)
  have hs₄ := hs₃.step .resume True.intro (step_goOn_eq (.inr hpoint₃))
  refine ⟨_, hs₄, rfl, hcur₃, ?_⟩
  rw [show _ = s₃.running.stack from rfl, hstack₃]
  exact Nat.one_ne_zero

/-- **`qthread_exit` returns.** If the main thread's `waiter` field happens to name a
thread that has exited, or main itself, the exit of main wakes it, and goes on on the stack
it is on. -/
theorem exists_exit_returns (clock : List ℤ) (hd : mem.dead ≠ 1) {j : Tid}
    (hj : mem.waiter = some j) :
    ∃ s, Reachable JoinOnce mem clock s ∧ s.running.point = .exit := by
  -- Let as many threads come and go as it takes for `j` to have been made.
  have hmade : ∀ k, ∃ s, Reachable JoinOnce mem clock s ∧ WF s ∧ Alone (view s) k ∧
      (view s).result mainThread = none ∧ (view s).joiner mainThread = some j ∧
      ∀ i, 1 ≤ i → i ≤ k → (view s).result i ≠ none := by
    intro k
    induction k with
    | zero =>
        refine ⟨_, .refl, wf_qthreadInit, alone_qthreadInit, ?_, ?_, fun i h1 h0 => by omega⟩
        · rw [view_qthreadInit]
          exact if_neg hd
        · rw [view_qthreadInit]
          exact hj
    | succ k ih =>
        obtain ⟨s, hs, hw, ha, hlive, hjo, hgone⟩ := ih
        obtain ⟨s', hs', hw', ha', hnew, hold⟩ := comes_and_goes hs hw ha hlive
        refine ⟨s', hs', hw', ha', ?_, ?_, fun i h1 hi => ?_⟩
        · rw [(hold _ (Nat.zero_le k)).1, hlive]
        · rw [(hold _ (Nat.zero_le k)).2, hjo]
        · by_cases hik : i = k + 1
          · rw [hik]
            exact hnew
          · rw [(hold i (by omega)).1]
            exact hgone i h1 (by omega)
  obtain ⟨s, hs, hw, ha, -, hjo, hgone⟩ := hmade j
  have hstack : s.running.stack = mainThread := ha.current
  obtain ⟨s₂, e, hrun₂, hw₂, hv₂⟩ := step_exit hw (running_point ha.current ha.point) 0
    fun i hi => by
      rw [hstack, hjo] at hi
      obtain rfl := Option.some.inj hi
      refine ⟨?_, fun q => ?_⟩
      · change j < (view s).nthreads
        rw [ha.nthreads]
        exact Nat.lt_succ_self j
      · change j ∉ (view s).queue q
        rw [ha.queue q]
        exact List.not_mem_nil
  have hfin : ((view s).log e).finish 0 = Sched.push { (view s).log e with
      result := Function.update (view s).result mainThread (some 0) } .runnable j := by
    have hjo' : ((view s).log e).joiner ((view s).log e).current = some j := by
      change (view s).joiner (view s).current = some j
      rw [ha.current, hjo]
    rw [Sched.finish, hjo', ← ha.current]
    rfl
  have hr₂ : contents s₂ .runnable = [j] := by
    change (view s₂).queue .runnable = _
    rw [hv₂, hfin]
    change (Sched.push _ .runnable j).queue .runnable = _
    rw [Sched.queue_push_self]
    change (view s).queue .runnable ++ [j] = _
    rw [ha.queue]
    rfl
  have hdead : (view s₂).result j ≠ none := by
    rw [hv₂, hfin]
    change Function.update (view s).result mainThread (some 0) j ≠ none
    by_cases hj0 : j = mainThread
    · rw [hj0, Function.update_self]
      exact Option.some_ne_none _
    · rw [Function.update_of_ne hj0]
      exact hgone j (Nat.pos_of_ne_zero hj0) le_rfl
  obtain ⟨s₃, hrun₃, hrunning, -⟩ := switchRunnable_dead hw₂ hr₂ hdead
  rw [← schedule_exit hw₂ (hr₂ ▸ List.cons_ne_nil _ _), ← hrun₂] at hrun₃
  refine ⟨s₃, hs.step (.call (.exit 0)) True.intro hrun₃, ?_⟩
  rw [hrunning]
  have hcur₂ : (view s₂).current = (view s).current := by
    rw [hv₂, hfin]
    rfl
  refine running_point hcur₂ ?_
  rw [hv₂, hfin]
  exact Function.update_self ..

end Uninitialised

/-- **Exactly which memory keeps identities.** The running context is the one of
`current_thread` and `qthread_exit` does not return, in every reachable state and whatever
the clock shows, if and only if the memory `qthread_init` gets for the main thread does not
say that the thread has exited or that somebody waits for it. -/
theorem identified_iff (mem : Qthread) :
    (∀ clock s, Reachable JoinOnce mem clock s → s.Identified) ↔
      mem.dead ≠ 1 ∧ mem.waiter = none := by
  refine ⟨fun h => ?_, fun h clock s hs => identified_of_reachable h.1 h.2 hs⟩
  have hd : mem.dead ≠ 1 := fun hd => by
    obtain ⟨s, hs, hu, hcur, hne⟩ := exists_impostor [] hd
    exact hne (Option.some.inj (hcur.symm.trans ((h [] s hs).1 hu))).symm
  refine ⟨hd, ?_⟩
  cases hj : mem.waiter with
  | none => rfl
  | some j =>
      obtain ⟨s, hs, hp⟩ := exists_exit_returns [] hd hj
      exact absurd hp (h [] s hs).2

/-- With memory whose `dead` field is set, as `malloc` may return it, a thread acts as
main. -/
theorem not_identified_dead :
    ∃ s, Reachable JoinOnce { zeroMem with dead := 1 } [] s ∧ ¬s.Identified := by
  obtain ⟨s, hs, hu, hcur, hne⟩ := @exists_impostor { zeroMem with dead := 1 } [] rfl
  exact ⟨s, hs, fun h => hne (Option.some.inj (hcur.symm.trans (h.1 hu))).symm⟩

end SystemsProjects.Qthreads
