import Mathlib.Algebra.Order.Group.Nat
import SystemsProjects.Qthreads.Deadlock
import SystemsProjects.Qthreads.Programs

/-!
# Disciplined Programs Are Completed

Freedom from deadlock says that `schedule` always finds a thread, and that every program
stops says that it cannot go on finding threads forever. Together they leave little a
disciplined program can stop at: the return of `main`, an allocation that fails, or the wait
for a clock reading that a call of `qthread_usleep` has asked for.

## Main definitions

* `Refuses`: why a call stops.
* `MadeDiscipline`: the discipline.
* `Running.Outcome`: how a program stops.

## Main results

* `call_stops`, `schedule_clock`: where calls stop, and where `schedule` waits for the clock.
* `disciplined_completes`: disciplined programs run until `main` returns.
-/

namespace SystemsProjects.Qthreads

open Stateful

/-! ### Where calls stop -/

/-- The call stops in the state, for the reason. Where the invariants hold, a call stops for no
other one. -/
def Refuses (s : St) : Op → Stop → Prop
  | .create stack mem, e => (stack = false ∨ mem = none) ∧ e = .exited
  | .finish _, e => s.running.stack = mainThread ∧ e = .exited
  | .join t, e => ¬t < s.nthreads ∧ e = .wild
  | .usleep _, e => s.clock = [] ∧ e = .clock
  | .lock m, e => ¬m < s.nmutexes ∧ e = .wild
  | .unlock m, e => ¬m < s.nmutexes ∧ e = .wild
  | .condWait c m, e => ¬(m < s.nmutexes ∧ c < s.nconds) ∧ e = .wild
  | .signal c, e => ¬c < s.nconds ∧ e = .wild
  | .broadcast c, e => ¬c < s.nconds ∧ e = .wild
  | _, _ => False

section Stops

variable {s : St}

/-- **A call stops for one of these reasons**, or returns or calls `schedule`. -/
theorem call_stops (hw : WF s) (hp : Placed {s.running.stack} (view s)) (op : Op) :
    Ends (call op) { s with trace := s.trace ++ [.called s.running.stack op] }
      (fun _ _ => True) (fun e _ => Refuses s op e) := by
  let s₁ : St := { s with trace := s.trace ++ [.called s.running.stack op] }
  have hw₁ : WF s₁ := hw.congr rfl rfl rfl rfl rfl rfl rfl
  have hp₁ : Placed {s₁.running.stack} (view s₁) := hp.log _
  have hfree : ∀ q, s₁.running.stack ∉ contents s₁ q := fun q hm => (hp₁.queued q _ hm).2 rfl
  have hjoiner : ∀ j, (view s₁).joiner s₁.running.stack = some j →
      j < s₁.nthreads ∧ ∀ q, j ∉ contents s₁ q := fun j hj =>
    have hjoins := hp₁.joins _ j (hp₁.exempt _ rfl) hj
    ⟨hjoins.1.1, hjoins.2.2.2⟩
  cases op with
  | create stack mem =>
      cases stack with
      | false => exact Ends.of_error rfl ⟨.inl rfl, rfl⟩
      | true =>
          cases mem with
          | none => exact Ends.of_error rfl ⟨.inr rfl, rfl⟩
          | some mem =>
              obtain ⟨s₂, hrun, -⟩ := qthreadCreate_spec hw₁ mem
              exact Ends.step hrun (Ends.of_ok rfl True.intro)
  | yield => exact Ends.of_ok rfl True.intro
  | exit val =>
      obtain ⟨s₂, hrun, -⟩ := qthreadExit_spec hw₁ val hjoiner
      exact Ends.of_ok hrun True.intro
  | finish val =>
      have hself : self s₁ = .ok s.running.stack s₁ := rfl
      rw [call, createThreadWrapper, Ends, run_bind_ok hself]
      by_cases hmain : s.running.stack = mainThread
      · rw [if_pos hmain]
        exact ⟨hmain, rfl⟩
      · obtain ⟨s₂, hrun, -⟩ := qthreadExit_spec hw₁ val hjoiner
        rw [if_neg hmain, hrun]
        exact True.intro
  | join t =>
      by_cases ht : t < s.nthreads
      · obtain ⟨s₂, hrun, -⟩ := qthreadJoin_spec hw₁ (t := t) ht
        exact Ends.of_ok hrun True.intro
      · refine Ends.of_error (u := s₁) ?_ ⟨ht, rfl⟩
        have hcur : currentThread s₁ = .ok s₁.currentThread s₁ := rfl
        have hst : ∀ f, store (some t) f s₁ = .error .wild s₁ := fun f => if_neg ht
        rw [call, qthreadJoin, run_bind_ok hcur, run_bind_error (hst _)]
  | usleep u =>
      by_cases hc : s.clock = []
      · refine Ends.of_error (u := s₁) ?_ ⟨hc, rfl⟩
        have hg : getUsecs s₁ = .error .clock s₁ := by
          rw [getUsecs, show s₁.clock = [] from hc]
        rw [call, qthreadUsleep, run_bind_error hg]
      · obtain ⟨now, rest, hc⟩ := List.exists_cons_of_ne_nil hc
        obtain ⟨s₂, hrun, -⟩ := qthreadUsleep_spec hw₁ (u := u) hc
        exact Ends.of_ok hrun True.intro
  | mutexCreate mem => exact Ends.of_ok rfl True.intro
  | lock m =>
      by_cases hm : m < s.nmutexes
      · obtain ⟨s₂, hrun, -⟩ := qthreadMutexLock_spec hw₁ (.lock m) hm hfree
        exact Ends.of_ok hrun True.intro
      · obtain ⟨s₂, hrun⟩ := qthreadMutexLock_wild (s := s₁) (.lock m) hm
        exact Ends.of_error hrun ⟨hm, rfl⟩
  | unlock m =>
      by_cases hm : m < s.nmutexes
      · obtain ⟨s₂, hrun, -⟩ := qthreadMutexUnlock_spec hw₁ (m := m) hm
        exact Ends.step hrun (Ends.pure True.intro)
      · obtain ⟨s₂, hrun⟩ := qthreadMutexUnlock_wild (s := s₁) (m := m) hm
        exact Ends.of_error (run_bind_error hrun) ⟨hm, rfl⟩
  | condCreate mem => exact Ends.of_ok rfl True.intro
  | condWait c m =>
      by_cases hm : m < s.nmutexes
      · by_cases hc : c < s.nconds
        · obtain ⟨s₂, hrun, -⟩ := qthreadCondWait_spec hw₁ hp₁ (c := c) (m := m) hm hc
          exact Ends.of_ok hrun True.intro
        · obtain ⟨s₂, hrun⟩ := qthreadCondWait_wild hw₁ (c := c) (m := m) hm hc
          exact Ends.of_error hrun ⟨fun h => hc h.2, rfl⟩
      · obtain ⟨s₂, hrun⟩ := qthreadMutexUnlock_wild (s := s₁) (m := m) hm
        exact Ends.of_error (run_bind_error hrun) ⟨fun h => hm h.1, rfl⟩
  | signal c =>
      by_cases hc : c < s.nconds
      · obtain ⟨s₂, hrun, -⟩ := qthreadCondSignal_spec hw₁ (c := c) hc
        exact Ends.of_ok hrun True.intro
      · exact Ends.of_error (run_bind_error (condQueue_wild (s := s₁) hc)) ⟨hc, rfl⟩
  | broadcast c =>
      by_cases hc : c < s.nconds
      · obtain ⟨s₂, hrun, -⟩ := qthreadCondBroadcast_spec hw₁ (c := c) hc
        exact Ends.of_ok hrun True.intro
      · exact Ends.of_error (run_bind_error (condQueue_wild (s := s₁) hc)) ⟨hc, rfl⟩

/-- Nobody is woken where nobody sleeps. -/
theorem wakeIfIdle_asleep (hw : WF s) (hs : contents s .sleeping = []) :
    wakeIfIdle s = .ok () s := by
  have hhead : ∀ q, header q s = .ok (s.queue q) s := fun _ => rfl
  rw [wakeIfIdle, run_bind_ok (hhead _)]
  split
  · rw [run_bind_ok (hhead _), (hw.size_eq_zero_iff _).mpr hs]
    rfl
  · rfl

/-- Where nobody sleeps, the test of `schedule` wakes nobody. -/
theorem Idle.eq_of_sleeping {a b : Sched} (h : Idle a b) (hs : a.queue .sleeping = []) : b = a := by
  cases h with
  | busy _ => rfl
  | wakes _ hq _ => simp [hs] at hq

/-- **`schedule` waits for the clock** only for those who sleep. -/
theorem schedule_clock (hw : WF s) {exit : ℤ} (hp : Placed ∅ ((view s).file exit)) {s' : St}
    (h : schedule exit s = .error .clock s') :
    ((view s).file exit).queue .sleeping ≠ [] := by
  intro hnil
  have hfile : ∃ s₁, scheduleFile exit s.currentThread s = .ok () s₁ := by
    by_cases h1 : exit = 1
    · subst h1
      have hs : contents s .sleeping = [] := by
        rw [Sched.file, if_pos (.inl rfl)] at hnil
        exact hnil
      refine ⟨s, ?_⟩
      rw [scheduleFile, if_pos rfl, if_pos rfl, run_bind_ok (wakeIfIdle_asleep hw hs)]
      rfl
    · rw [scheduleFile, if_neg h1, if_neg h1]
      split
      · exact ⟨s, rfl⟩
      case isFalse h2 =>
        rw [Sched.file, if_neg (not_or.mpr ⟨h1, h2⟩)] at hp
        split
        case isTrue h3 =>
          rw [if_pos h3] at hp
          obtain ⟨s₁, hrun, -⟩ := pushBack_spec (q := .sleeping) hw True.intro hw.running
            hp.notMem_of_push
          exact ⟨s₁, hw.current ▸ hrun⟩
        case isFalse h3 =>
          rw [if_neg h3] at hp
          obtain ⟨s₁, hrun, -⟩ := pushBack_spec (q := .runnable) hw True.intro hw.running
            hp.notMem_of_push
          exact ⟨s₁, hw.current ▸ hrun⟩
  obtain ⟨s₁, hrun₁⟩ := hfile
  obtain ⟨hw₁, hfiled⟩ := (scheduleFile_spec hw hp).ok hrun₁
  have hv₁ : view s₁ = (view s).file exit := by
    rcases hfiled with hv | hi
    · exact hv
    · exact hi.eq_of_sleeping hnil
  have hs₁ : contents s₁ .sleeping = [] := by
    change (view s₁).queue .sleeping = []
    rw [hv₁, hnil]
  -- Only `switch_runnable` is left, which reads no clock.
  have hcur : currentThread s = .ok s.currentThread s := rfl
  rw [schedule, run_bind_ok hcur, run_bind_ok hrun₁, run_bind_ok (wakeIfIdle_asleep hw₁ hs₁)] at h
  have hstack : s.currentThread = s₁.currentThread := by
    have hc : (view s₁).current = s.running.stack := by
      rw [hv₁, Sched.file]
      split
      · rfl
      · split <;> rfl
    rw [hw.current, hw₁.current]
    exact hc ▸ rfl
  rw [hstack] at h
  cases hr : contents s₁ .runnable with
  | nil =>
      rw [switchRunnable_null hw₁ hr] at h
      cases h
  | cons t l =>
      have hr' : (view s₁).queue .runnable = t :: l := hr
      have hlive := ((hv₁ ▸ hp).queued .runnable t (hr' ▸ List.mem_cons_self)).1.2
      obtain ⟨s₂, hrun, -⟩ := switchRunnable_take hw₁ hr hlive
      rw [hrun] at h
      cases h

end Stops

/-! ### What is behind the stops -/

/-- The calls of `qthread_mutex_create`. -/
def Event.makesMutex : Event → Bool
  | .called _ (.mutexCreate _) => true
  | _ => false

section Records

variable {a b c : Sched} {act : Action} {flow : Flow} {t : Tid} {m : MutexId}

/-- As many mutexes are there as have been made, and whoever sleeps has called
`qthread_usleep`. -/
structure Sched.Accounts (a : Sched) : Prop where
  made : a.nmutexes = a.trace.countP Event.makesMutex
  asleep : ∀ t, a.Alive t → a.point t = .usleep → ∃ u, Event.called t (.usleep u) ∈ a.trace

/-- The code of a step makes a mutex, or none is made. -/
theorem Effect.nmutexes_eq (h : Effect a act flow b) :
    (∃ mem, act = .call (.mutexCreate mem)) ∧ b.nmutexes = a.nmutexes + 1 ∨
      (∀ mem, act ≠ .call (.mutexCreate mem)) ∧ b.nmutexes = a.nmutexes := by
  have hsame := h.sameThreads
  cases h with
  | @mutexCreate mem _ _ => exact .inl ⟨⟨mem, rfl⟩, rfl⟩
  | exit _ | finish _ _ =>
      refine .inr ⟨fun _ hact => (by cases hact), ?_⟩
      rw [Sched.finish]
      split <;> rfl
  | join _ _ =>
      refine .inr ⟨fun _ hact => (by cases hact), ?_⟩
      rw [Sched.joinLoop]
      split <;> rfl
  | create _ | usleep _ _ | condCreate _ => exact .inr ⟨fun _ hact => (by cases hact), rfl⟩
  | _ => exact .inr ⟨fun _ hact => (by cases hact), (hsame id).nmutexes⟩

/-- The code of a step makes as many mutexes as it lets an observer see. -/
theorem Effect.made (h : Effect a act flow b) :
    b.nmutexes = a.nmutexes + (a.observes act).countP Event.makesMutex := by
  rcases h.nmutexes_eq with ⟨⟨mem, rfl⟩, hb⟩ | ⟨hact, hb⟩
  · rw [hb]
    rfl
  · rw [hb, List.countP_eq_zero.mpr fun e he => ?_, Nat.add_zero]
    rw [Event.makesMutex.eq_def]
    split
    · exact absurd (Sched.called_mem_observes.mp he).1 (hact _)
    · exact Bool.false_ne_true

/-- Internal observations make no mutex. -/
theorem Event.Internal.not_makesMutex {e : Event} (h : e.Internal) : ¬e.makesMutex = true := by
  cases e with
  | called t op => exact h.elim
  | _ => exact Bool.false_ne_true

/-- The code that puts its thread to sleep is a call of `qthread_usleep`. -/
theorem Effect.sleeps (h : Effect a act flow b) (hp : flow.point = .usleep) :
    ∃ u, act = .call (.usleep u) := by
  have hjoin : ∀ {a : Sched} {t}, (a.joinLoop t).1.point ≠ .usleep := by
    intro a t hp
    rw [Sched.joinLoop] at hp
    split at hp <;> cases hp
  have hlock : ∀ {a : Sched} {m}, (a.lock (.lock m) m).1.point ≠ .usleep := by
    intro a m hp
    rw [Sched.lock] at hp
    split at hp <;> cases hp
  cases h with
  | @usleep u _ _ _ _ => exact ⟨u, rfl⟩
  | join _ _ | rejoin _ _ => exact absurd hp hjoin
  | lock _ _ => exact absurd hp hlock
  | @signaled c m _ _ =>
      rcases eq_or_ne (a.locked m) 0 with h0 | h0
      · rw [Sched.relock_of_free h0] at hp
        cases hp
      · rw [Sched.relock_of_held h0] at hp
        cases hp
  | _ => cases hp

/-- **The code of a step keeps the accounts.** -/
theorem Effect.accounts (h : Effect a act flow b) (hac : a.Accounts) :
    (b.goto flow.point).Accounts where
  made := by
    change b.nmutexes = b.trace.countP Event.makesMutex
    rw [h.made, h.trace_eq, List.countP_append, hac.made]
  asleep t hA hp := by
    change ∃ u, Event.called t (.usleep u) ∈ b.trace
    rw [h.trace_eq]
    rcases eq_or_ne t a.current with rfl | hne
    · obtain ⟨u, rfl⟩ := h.sleeps (h.point_current.symm.trans hp)
      exact ⟨u, List.mem_append_right _ List.mem_cons_self⟩
    · obtain ⟨hA', hpa⟩ := h.point_other hA hne (hp ▸ Point.noConfusion)
      obtain ⟨u, hu⟩ := hac.asleep t hA' (hpa.trans hp)
      exact ⟨u, List.mem_append_left _ hu⟩

/-- The scheduler proper keeps the accounts. -/
theorem SchedFrame.accounts (hf : SchedFrame a b) (hac : a.Accounts) : b.Accounts := by
  obtain ⟨new, htr, hint⟩ := hf.trace
  refine ⟨?_, fun t hA hp => ?_⟩
  · rw [hf.nmutexes, htr, List.countP_append, hac.made,
      List.countP_eq_zero.mpr fun e he => (hint e he).not_makesMutex, Nat.add_zero]
  · rw [Sched.Alive, hf.nthreads, hf.result] at hA
    rw [hf.point] at hp
    obtain ⟨u, hu⟩ := hac.asleep t hA hp
    exact ⟨u, htr ▸ List.mem_append_left _ hu⟩

/-- The accounts are kept in every run. -/
theorem Sched.Reachable.accounts {D : Discipline} {mem : Qthread} {clock : List ℤ}
    (h : Sched.Reachable D mem clock a) (hD : ∀ t tr op, D t tr op → JoinOnce t tr op)
    (hd : mem.dead ≠ 1) (hj : mem.waiter = none) : a.Accounts := by
  refine h.invariant (I := Sched.Accounts) hD hd hj ⟨rfl, fun t ht hp => ?_⟩ ?_
  · obtain rfl : t = mainThread := Nat.lt_one_iff.mp ht.1
    cases hp
  · rintro a act c - - hac hs
    obtain ⟨flow, b, he, hf⟩ := hs.ran
    exact hf.accounts (he.accounts hac)

/-- Somebody who is asleep has called `qthread_usleep`. -/
theorem Sched.Accounts.called_of_sleeping {E : Set Tid} (hac : a.Accounts) (hp : Placed E a)
    (hs : a.queue .sleeping ≠ []) : ∃ t u, Event.called t (.usleep u) ∈ a.trace := by
  obtain ⟨t, l, hq⟩ := List.exists_cons_of_ne_nil hs
  have hmem : t ∈ a.queue .sleeping := hq ▸ List.mem_cons_self
  have hhome := hp.home _ t hmem QueueId.noConfusion
  have hpt : a.point t = .usleep := by
    cases hpt : a.point t with
    | usleep => rfl
    | _ =>
        rw [hpt] at hhome
        cases hhome
  obtain ⟨u, hu⟩ := hac.asleep t (hp.queued _ t hmem).1 hpt
  exact ⟨t, u, hu⟩

/-- A mutex that is held has been made. -/
theorem Sched.Mutexes.lt_of_holder (hm : a.Mutexes) (ht : t ∈ holders m a.trace) :
    m < a.nmutexes := by
  by_contra hlt
  exact ((hm.owned m).of_mem ht).1 (hm.free m (Nat.not_lt.mp hlt))

end Records

/-! ### Where steps stop -/

section Steps

variable {s : St}

/-- The code behind a call of `schedule` stops only on the way out of a wait on a condition
variable, or where there is none. -/
theorem resume_stops (hw : WF s) (hp : Placed {s.running.stack} (view s)) :
    Ends (resume s.running.point) s (fun _ _ => True)
      (fun _ _ => s.running.point = .user ∨ ∃ c m, s.running.point = .condWait c m) := by
  have hpt : (view s).point (view s).current = s.running.point := if_pos rfl
  cases hpoint : s.running.point with
  | user => exact Ends.of_error (u := s) rfl (.inl rfl)
  | condWait c m =>
      cases hrun : resume (.condWait c m) s with
      | ok flow s' => exact Ends.of_ok hrun True.intro
      | error e s' => exact Ends.of_error hrun (.inr ⟨c, m, rfl⟩)
  | join t =>
      have ht := (hp.joining _ t (hp.exempt _ rfl) (hpt.trans hpoint)).1
      obtain ⟨s', hrun, -⟩ := joinLoop_spec hw ht
      exact Ends.of_ok hrun True.intro
  | _ => exact Ends.of_ok rfl True.intro

/-- **A step stops** in its code, or in `schedule` where nobody is runnable: nobody sleeps
either, or it waits for the clock. -/
theorem step_stops (hw : WF s) (hi : (view s).Inv) {act : Action} (hD : Allowed JoinOnce s act)
    {e : Stop} {s' : St} (h : step act s = .error e s') :
    (∃ u, perform act s = .error e u) ∨ e = .null ∨
      (e = .clock ∧ ∃ after exit b, Effect (view s) act (.schedules after exit) b ∧
        Placed ∅ ((b.goto after).file exit) ∧
        ((b.goto after).file exit).queue .sleeping ≠ []) := by
  have hA : (view s).Allowed JoinOnce act := by
    cases act with
    | call op => exact hD
    | resume => exact True.intro
  cases hrun : perform act s with
  | error e' u =>
      rw [step, run_bind_error hrun] at h
      cases h
      exact .inl ⟨_, rfl⟩
  | ok flow s₁ =>
      obtain ⟨hw₁, he⟩ := (perform_spec hw hi.placed act).ok hrun
      rw [step, run_bind_ok hrun] at h
      cases flow with
      | returns => cases h
      | schedules after exit =>
          obtain ⟨s₂, hrun₂, hw₂, hv₂⟩ := goto_spec hw₁ after
          have h₂ : schedule exit s₂ = .error e s' := (run_bind_ok hrun₂).symm.trans h
          have hp : Placed ∅ (((view s₁).goto after).file exit) := he.leaves hi hA
          rcases (schedule_spec hw₂ (hv₂ ▸ hp)).error h₂ with rfl | ⟨rfl, -⟩
          · exact .inr (.inr ⟨rfl, after, exit, _, he, hp,
              hv₂ ▸ schedule_clock hw₂ (hv₂ ▸ hp) h₂⟩)
          · exact .inr (.inl rfl)

end Steps

/-! ### Disciplined programs -/

/-- Only mutexes that have been made are locked. -/
def OnMade : Discipline := fun _ trace op =>
  match op with
  | .lock m => m < trace.countP Event.makesMutex
  | _ => True

/-- The lock discipline, on mutexes that have been made. Condition variables are not used, and
the main thread does not call `qthread_exit`. -/
def MadeDiscipline : Discipline := fun t trace op =>
  LockDiscipline t trace op ∧ OnMade t trace op

namespace Running

/-- How a disciplined program stops: with the return of `main`, at an allocation that fails, or
at a reading of the clock that is not there. -/
inductive Outcome (c : Running) : Stop → Prop
  | returned {val : Value} : c.state.running = ⟨mainThread, .user⟩ → c.thread = .done val →
      Outcome c .exited
  | outOfMemory {creation : Bool × Option Qthread} {child next : Program} :
      c.thread = .spawn creation child next → creation.1 = false ∨ creation.2 = none →
      Outcome c .exited
  | asleep {t : Tid} {usecs : ℤ} : Event.called t (.usleep usecs) ∈ c.state.trace →
      Outcome c .clock
  | goesToSleep {usecs : ℤ} : c.action = .call (.usleep usecs) → Outcome c .clock

section Outcome

variable {main : Program} {mem : Qthread} {clock : List ℤ} {c : Running} {e : Stop}

/-- What holds at every state of a disciplined program. -/
theorem Follows.tidy (hm : Zeroed mem) (h : Follows main mem clock c)
    (hO : Obeys LockDiscipline main mem clock) : c.state.Good ∧ (view c.state).Mutexes ∧
      (view c.state).Family ∧ (view c.state).Tidy ∧ (view c.state).Accounts := by
  have hs := Reachable.joinOnce hm (h.reachable hO)
  obtain ⟨-, -, hr⟩ := Reachable.sim (fun _ _ _ hD => hD.2) hm.dead_ne_one hm.waiter hs
  obtain ⟨hmu, hf, ht⟩ := hr.tidy hm.dead_ne_one hm.waiter
  exact ⟨Reachable.good (fun _ _ _ hD => hD.2) hm hs, hmu, hf, ht,
    hr.accounts (fun _ _ _ hD => hD.2) hm.dead_ne_one hm.waiter⟩

/-- A program that keeps the lock discipline joins nobody twice. -/
theorem Obeys.joinOnce (hm : Zeroed mem) (hO : Obeys LockDiscipline main mem clock) :
    Obeys JoinOnce main mem clock := by
  intro c hc
  obtain ⟨-, -, hf, -⟩ := hc.tidy hm hO
  have hA := hO c hc
  cases hact : c.action with
  | call op =>
      rw [hact] at hA
      exact hf.joinOnce hA
  | resume => exact True.intro

/-- **A disciplined call is refused** only where the program returns, is out of memory or
waits for the clock. -/
theorem outcome_of_refuses (hmu : (view c.state).Mutexes) (hf : (view c.state).Family)
    (hac : (view c.state).Accounts) (hu : c.state.running.point = .user)
    (hA : MadeDiscipline c.state.running.stack c.state.trace (nextCall c.thread))
    (h : Refuses c.state (nextCall c.thread) e) : c.Outcome e := by
  cases hth : c.thread with
  | done val =>
      rw [hth] at h
      obtain ⟨hmain, rfl⟩ := h
      refine .returned ?_ hth
      rw [← hmain, ← hu]
  | spawn creation child next =>
      rw [hth] at h
      obtain ⟨hmem, rfl⟩ := h
      exact .outOfMemory hth hmem
  | ask op next =>
      rw [hth] at h hA
      obtain ⟨op, hplain⟩ := op
      change Refuses c.state op e at h
      change MadeDiscipline c.state.running.stack c.state.trace op at hA
      obtain ⟨hA, hmade⟩ := hA
      cases op with
      | create _ _ | finish _ => exact hplain.elim
      | usleep u =>
          obtain ⟨-, rfl⟩ := h
          have hact : c.action = .call (.usleep u) := by
            rw [action, if_pos hu, hth]
            rfl
          exact .goesToSleep hact
      | join t => exact absurd (hf.created _ t hA.2).2 h.1
      | lock m =>
          have hlt : m < c.state.nmutexes := hmade.trans_eq hac.made.symm
          exact absurd hlt h.1
      | unlock m => exact absurd (hmu.lt_of_holder hA) h.1
      | condWait _ _ | signal _ | broadcast _ => exact hA.elim
      | _ => exact h.elim

/-- **Where a disciplined program stops**, `main` returns, an allocation has failed, or a
sleep waits for the clock. -/
theorem Follows.outcome (hm : Zeroed mem) (hc : Follows main mem clock c)
    (hO : Obeys MadeDiscipline main mem clock) (h : c.step = .error e) : c.Outcome e := by
  have hOl := hO.mono fun _ _ _ hD => hD.1
  obtain ⟨hg, hmu, hf, ht, hac⟩ := hc.tidy hm hOl
  obtain ⟨s', hrun⟩ := step_error h
  rcases step_stops hg.wf hg.inv (Obeys.joinOnce hm hOl c hc) hrun with
    ⟨s₁, hper⟩ | rfl | ⟨rfl, after, exit, b, he, hp, hsl⟩
  · rw [action] at hper
    split at hper
    case isTrue hu =>
      rw [perform_call hu] at hper
      have hA := hO c hc
      rw [action, if_pos hu] at hA
      exact outcome_of_refuses hmu hf hac hu hA
        ((call_stops hg.wf hg.inv.placed _).error hper)
    case isFalse hu =>
      rcases (resume_stops hg.wf hg.inv.placed).error hper with hu' | ⟨cond, m, hpt⟩
      · exact absurd hu' hu
      · have hnone := ht.noWait _ (hg.inv.placed.exempt c.state.running.stack rfl)
        have hat : (view c.state).point c.state.running.stack = .condWait cond m :=
          (if_pos rfl).trans hpt
        rw [hat] at hnone
        cases hnone
  · exact absurd rfl ((no_deadlock hm (hc.reachable hOl) (hOl c hc)).2.2 _ _ hrun)
  · have hacb := (Sched.file_frame (b.goto after) exit).accounts (he.accounts hac)
    obtain ⟨t, u, hu⟩ := hacb.called_of_sleeping hp hsl
    obtain ⟨new, htr, hint⟩ := (Sched.file_frame (b.goto after) exit).trace
    rw [htr] at hu
    have hub := (List.mem_append.mp hu).resolve_right fun hn => hint _ hn
    change Event.called t (.usleep u) ∈ b.trace at hub
    rw [he.trace_eq] at hub
    rcases List.mem_append.mp hub with hold | hnew
    · exact .asleep hold
    · exact .goesToSleep (Sched.called_mem_observes.mp hnew).1

end Outcome

end Running

/-- **Disciplined programs are completed.** The run of a program that keeps the lock discipline,
without condition variables and with a main thread that never calls `qthread_exit`, comes to a
last state, and there `main` returns; unless an allocation has failed, or somebody has called
`qthread_usleep` and the clock is not read any more. -/
theorem disciplined_completes {main : Program} {mem : Qthread} {clock : List ℤ}
    (hm : Zeroed mem) (hO : Running.Obeys MadeDiscipline main mem clock) :
    ∃ c e, Running.Follows main mem clock c ∧ c.step = .error e ∧ c.Outcome e := by
  obtain ⟨c, e, hc, hs⟩ := run_ends hm (Running.Obeys.joinOnce hm (hO.mono fun _ _ _ hD => hD.1))
  exact ⟨c, e, hc, hs, hc.outcome hm hO hs⟩

/-! ### A program that can be run -/

/-- The mutex an observation is about. -/
def Event.mutex : Event → Option MutexId
  | .locks _ m => some m
  | .took _ m => some m
  | .unlocks _ m => some m
  | .pushed (.mutex m) _ => some m
  | .popped (.mutex m) _ => some m
  | _ => none

/-- What concerns the queue of a mutex is about the mutex. -/
theorem Event.Concerns.mutex_eq {e : Event} {m : MutexId} (h : e.Concerns (.mutex m)) :
    e.mutex = some m := by
  cases e with
  | pushed q p | popped q p =>
      obtain rfl : QueueId.mutex m = q := h
      rfl
  | locks t m' | took t m' | unlocks t m' =>
      obtain rfl := QueueId.mutex.inj h
      rfl
  | called t op =>
      cases op with
      | condWait c m' => cases h
      | _ => exact h.elim
  | waited t c m' => cases h
  | _ => exact h.elim

/-- Who holds no mutex can be read off the trace. -/
theorem holdsNone_iff {t : Tid} {trace : List Event} : HoldsNone t trace ↔
    ∀ m ∈ trace.filterMap Event.mutex, t ∉ holders m trace := by
  refine ⟨fun h m _ => h m, fun h m hm => ?_⟩
  by_cases hmem : m ∈ trace.filterMap Event.mutex
  · exact h m hmem hm
  · have haside : ∀ e ∈ trace, ¬e.Concerns (.mutex m) := fun e he hc =>
      hmem (List.mem_filterMap.mpr ⟨e, he, hc.mutex_eq⟩)
    have hnil : holders m ([] ++ trace) = holders m [] := holders_append_aside haside
    rw [List.nil_append] at hnil
    rw [hnil] at hm
    cases hm

/-- Whether a thread holds nothing can be computed from the trace. -/
instance (t : Tid) (trace : List Event) : Decidable (HoldsNone t trace) :=
  decidable_of_iff _ holdsNone_iff.symm

/-- So the lock discipline can be checked call by call. -/
instance (t : Tid) (trace : List Event) (op : Op) : Decidable (LockDiscipline t trace op) :=
  match op with
  | .lock _ => inferInstanceAs (Decidable (HoldsNone t trace))
  | .unlock m => inferInstanceAs (Decidable (t ∈ holders m trace))
  | .join u => inferInstanceAs (Decidable (HoldsNone t trace ∧ Event.created t u ∈ trace))
  | .exit _ => inferInstanceAs (Decidable (HoldsNone t trace ∧ t ≠ mainThread))
  | .finish _ => inferInstanceAs (Decidable (HoldsNone t trace))
  | .condCreate _ | .condWait _ _ | .signal _ | .broadcast _ => isFalse id
  | .create _ _ | .yield | .usleep _ | .mutexCreate _ => isTrue True.intro

/-- Whether the mutex of a call has been made can be computed, too. -/
instance (t : Tid) (trace : List Event) (op : Op) : Decidable (OnMade t trace op) :=
  match op with
  | .lock m => inferInstanceAs (Decidable (m < trace.countP Event.makesMutex))
  | .create _ _ | .yield | .exit _ | .finish _ | .join _ | .usleep _ | .mutexCreate _
  | .unlock _ | .condCreate _ | .condWait _ _ | .signal _ | .broadcast _ => isTrue True.intro

/-- Together they decide whether a program that can be run keeps the discipline. -/
instance (t : Tid) (trace : List Event) (op : Op) : Decidable (MadeDiscipline t trace op) :=
  inferInstanceAs (Decidable (_ ∧ _))

/-- The main thread makes a thread, contends with it for a mutex, and joins it. -/
def contend : Program := fun _ =>
  .ask ⟨.mutexCreate ⟨none, none, 0⟩, True.intro⟩ fun _ =>
  .spawn (true, some zeroMem)
    (fun _ => .ask ⟨.lock 0, True.intro⟩ fun _ => .ask ⟨.unlock 0, True.intro⟩ fun _ => .done 7)
    fun _ => .ask ⟨.lock 0, True.intro⟩ fun _ => .ask ⟨.yield, True.intro⟩ fun _ =>
      .ask ⟨.unlock 0, True.intro⟩ fun _ => .ask ⟨.join 1, True.intro⟩ fun _ => .done 0

/-- The two threads are served, and `main` returns. -/
theorem disciplined_completes_contend : ∃ c e, Running.Follows contend zeroMem [] c ∧
    c.step = .error e ∧ c.Outcome e :=
  disciplined_completes zeroed_zeroMem (Running.obeys_of_obeysFor (n := 30) (by decide +kernel))

end SystemsProjects.Qthreads
