import SystemsProjects.Qthreads.Locations
import SystemsProjects.Qthreads.Simulation
import SystemsProjects.Qthreads.Stacks
import SystemsProjects.Qthreads.Trace

/-!
# The Scheduler on the Machine

`switch_thread` appears in the model of the library as an assignment: the running context is
saved, and another runs. Here the library's runs are followed on the machine with its
stacks, where that assignment is the routine of `switch-x86_64.S`, and a point is wherever
the compiled code stands that is at this point.

A step of the library that comes back to its caller is work of the running code, one that
makes a thread calls `setup_stack`, and one that dispatches another thread calls
`switch_thread`. What the machine's code is at the points is left open.

## Main definitions

* `Follows`: what the machine does in a step of the library.
* `Represents`: the contexts of the library's state are where the machine keeps them.

## Main results

* `machine_follows`: in every run, control on the machine arrives where the library's state
  says that the dispatched thread stands.
-/

namespace SystemsProjects.Qthreads.Switch

open ByteMemory X86 Relation

variable {lay : Layout Tid} {code : Point → Set Addr}

/-- The running code works. -/
def Works (lay : Layout Tid) : Sys Tid → Sys Tid → Prop :=
  ReflTransGen fun s s' => ∃ cpu pc, lay.Respects s.parked s.cpu cpu ∧
    s' = { s with cpu := cpu, pc := pc }

/-- What the machine does in a step of the library from `st` to `st'`. The set `code p` has
the addresses at which code stands that is at the point `p`. -/
inductive Follows (lay : Layout Tid) (code : Point → Set Addr) (st st' : St) (s : Sys Tid) :
    Sys Tid → Prop
  | stays {s' : Sys Tid} :
      st'.running.stack = st.running.stack → st'.nthreads = st.nthreads →
      Works lay s s' → s'.pc ∈ code st'.running.point → Follows lay code st st' s s'
  | creates {s₁ s₂ s' : Sys Tid} :
      st'.nthreads = st.nthreads + 1 →
      Works lay s s₁ → s₁.cpu.reg .rdx ∈ code .entry → Sys.Creates lay st.nthreads s₁ s₂ →
      Works lay s₂ s' → s'.pc ∈ code st'.running.point → Follows lay code st st' s s'
  | switches {s₁ s' : Sys Tid} :
      st'.running.stack ≠ st.running.stack →
      Works lay s s₁ → s₁.pc ∈ code (st'.point st.running.stack) →
      Sys.Step lay s₁ s' → s'.current = st'.running.stack → Follows lay code st st' s s'

/-- The machine keeps the contexts of the library's state. -/
structure Represents (lay : Layout Tid) (code : Point → Set Addr) (s : Sys Tid) (st : St) :
    Prop where
  current : s.current = st.running.stack
  parked : ∀ t, t ∈ s.parked ↔ t < st.nthreads ∧ t ≠ st.running.stack
  pc : s.pc ∈ code st.running.point
  saved : ∀ t ∈ s.parked,
    (lay.resumes s.cpu.mem t).frame.ret ∈ code (st.thread t).savedStackPointer.point

/-! ### The contexts of the library -/

/-- A thread that does not run stands where its saved stack pointer says. -/
theorem point_of_ne {st : St} {t : Tid} (h : t ≠ st.running.stack) :
    st.point t = (st.thread t).savedStackPointer.point := if_neg h

/-- A step that comes back to its caller changes nobody's turn. -/
theorem current_of_returns {b c : Sched} (h : Settles .returns b c) : c.current = b.current := by
  cases h with
  | returns => rfl

/-- What a step of the library does to the contexts: those of other threads stay, and the
one it may add enters its start function. -/
theorem contexts_of_step {D : Discipline} {st st' : St} {act : Action} (hw : WF st)
    (h : Sched.Step D (view st) act (view st')) :
    (∀ t < st.nthreads, t ≠ st.running.stack → st'.point t = st.point t) ∧
      (st'.nthreads = st.nthreads ∨ st'.nthreads = st.nthreads + 1 ∧
        st'.running.stack = st.running.stack ∧ st'.point st.nthreads = .entry) := by
  cases h with
  | @mk flow b _ hA he hs =>
      have hcur : b.current = st.running.stack := he.later.current
      have hframe := hs.frame
      have hpoint : ∀ t, t ≠ st.running.stack → st'.point t = b.point t := by
        intro t ht
        rw [show st'.point = Function.update b.point b.current flow.point from hframe.point,
          Function.update_of_ne (hcur ▸ ht)]
      have hn : st'.nthreads = b.nthreads := hframe.nthreads
      rcases he.threads with ⟨hb, hp⟩ | ⟨hb, hp, mem, rfl⟩
      · refine ⟨fun t _ hne => ?_, .inl (hn.trans hb)⟩
        rw [hpoint t hne, hp]
        rfl
      · refine ⟨fun t ht hne => ?_, .inr ⟨hn.trans hb, ?_, ?_⟩⟩
        · rw [hpoint t hne, hp]
          exact Function.update_of_ne (Nat.ne_of_lt ht) ..
        · have hreturns : flow = .returns := by
            cases he with
            | create _ => rfl
          subst hreturns
          exact (current_of_returns hs).trans hcur
        · rw [hpoint _ (Nat.ne_of_gt hw.running), hp]
          exact Function.update_self ..

/-- A step of the library, seen as one of the abstract scheduler. -/
theorem view_step {D : Discipline} {st st' : St} {act : Action} (hw : WF st)
    (hi : (view st).Inv) (hD : ∀ t tr op, D t tr op → JoinOnce t tr op) (hA : Allowed D st act)
    (h : step act st = .ok () st') : WF st' ∧ Sched.Step D (view st) act (view st') := by
  have hA' : Allowed JoinOnce st act := by
    cases act with
    | call op => exact hD _ _ _ hA
    | resume => exact True.intro
  obtain ⟨hw', flow, b, he, hs⟩ := (step_spec hw hi hA').ok h
  refine ⟨hw', .mk ?_ he hs⟩
  cases act with
  | call op => exact hA
  | resume => exact True.intro

/-! ### The machine -/

/-- Work leaves the suspended threads where they are. -/
theorem Works.kept {s s' : Sys Tid} (h : Works lay s s') (hs : s.Inv lay) :
    s'.Inv lay ∧ s'.current = s.current ∧ s'.parked = s.parked ∧
      ∀ t ∈ s.parked, lay.resumes s'.cpu.mem t = lay.resumes s.cpu.mem t := by
  induction h with
  | refl => exact ⟨hs, rfl, rfl, fun _ _ => rfl⟩
  | @tail s₁ s₂ _ hstep ih =>
      obtain ⟨hs₁, hc, hp, hres⟩ := ih
      obtain ⟨cpu, pc, hwork, rfl⟩ := hstep
      refine ⟨(sim_work hs₁ hwork).1, hc, hp, fun t ht => ?_⟩
      have ht₁ : t ∈ s₁.parked := hp ▸ ht
      exact ((hs₁.waits t ht₁).congr (hwork.kept t ht₁)).2.trans (hres t ht)

/-- A suspended thread goes on with the same after a step in which it does not run. -/
theorem resumes_of_step {s s' : Sys Tid} {t : Tid} (hs : s.Inv lay) (h : Sys.Step lay s s')
    (ht : t ∈ s.parked) (ht' : t ∈ s'.parked) :
    lay.resumes s'.cpu.mem t = lay.resumes s.cpu.mem t := by
  obtain ⟨hs', hstep⟩ := h.sim hs
  have hne : s.current ≠ t := fun hc => hs.current (hc ▸ ht)
  have hne' : s'.current ≠ t := fun hc => hs'.current (hc ▸ ht')
  have hparked := hstep.parked_eq hne hne' (Sys.view_parked lay ht)
  rw [Sys.view_parked lay ht'] at hparked
  exact Option.some.inj hparked

/-- A step to another thread: it was suspended, and its caller is. -/
theorem parked_of_switch {s s' : Sys Tid} (hs : s.Inv lay) (h : Sys.Step lay s s')
    (hne : s'.current ≠ s.current) : s'.current ∈ s.parked ∧
      s'.parked = insert s.current (s.parked.erase s'.current) ∧
      s'.pc = (lay.resumes s.cpu.mem s'.current).frame.ret ∧
      lay.resumes s'.cpu.mem s.current = continuation s.cpu s.pc := by
  obtain ⟨hs', hstep⟩ := h.sim hs
  have hcaller := hstep.parked_current hne
  cases h with
  | work _ => exact absurd rfl hne
  | create hnew =>
      obtain ⟨-, -, cpu₁, cpu₂, pc, -, -, -, rfl⟩ := hnew
      exact absurd rfl hne
  | @switch u cpu pc hu hroom hrdi hrsi hrun =>
      have hlive := hstep.live_eq (t := u) (fun h => hne h.symm) rfl (Sys.view_parked lay hu)
      refine ⟨hu, rfl, congrArg (fun k => k.frame.ret) hlive, ?_⟩
      have hmem : s.current ∈ insert s.current (s.parked.erase u) := Finset.mem_insert_self ..
      exact Option.some.inj ((Sys.view_parked lay hmem).symm.trans hcaller)

/-! ### Runs -/

/-- Those that wait after a creation. -/
theorem lt_succ_and_ne_iff {t n c : ℕ} (h : c < n) :
    (t = n ∨ t < n ∧ t ≠ c) ↔ t < n + 1 ∧ t ≠ c := by
  omega

/-- Those that wait after a switch. -/
theorem lt_and_ne_iff {t n c c' : ℕ} (h : c < n) (hne : c ≠ c') :
    (t = c ∨ t ≠ c' ∧ t < n ∧ t ≠ c) ↔ t < n ∧ t ≠ c' := by
  omega

variable {st st' : St} {s s' : Sys Tid}

/-- **One step.** What the machine does in a step of the library takes it to where it
represents the state after the step. -/
theorem Represents.step {D : Discipline} {act : Action} (hrep : Represents lay code s st)
    (hs : s.Inv lay) (hw : WF st) (hw' : WF st')
    (hstep : Sched.Step D (view st) act (view st')) (h : Follows lay code st st' s s') :
    Represents lay code s' st' ∧ s'.Inv lay := by
  obtain ⟨hothers, hthreads⟩ := contexts_of_step hw hstep
  have hsaved : ∀ t ∈ s.parked, t ≠ st'.running.stack →
      (lay.resumes s.cpu.mem t).frame.ret ∈ code (st'.thread t).savedStackPointer.point := by
    intro t ht hne
    obtain ⟨hlt, hcur⟩ := (hrep.parked t).1 ht
    rw [← point_of_ne hne, hothers t hlt hcur, point_of_ne hcur]
    exact hrep.saved t ht
  cases h with
  | stays hstack hn hwork hpc =>
      obtain ⟨hs', hc, hp, hres⟩ := hwork.kept hs
      refine ⟨⟨?_, fun t => ?_, hpc, fun t ht => ?_⟩, hs'⟩
      · rw [hc, hrep.current, hstack]
      · rw [hp, hrep.parked, hn, hstack]
      · rw [hp] at ht
        rw [hres t ht]
        exact hsaved t ht (hstack ▸ ((hrep.parked t).1 ht).2)
  | @creates s₁ s₂ _ hn hwork hentry hnew hwork' hpc =>
      obtain ⟨hs₁, hc₁, hp₁, hres₁⟩ := hwork.kept hs
      obtain ⟨hs₂, -, hparked⟩ := sim_create hs₁ hnew
      have hres₂ := fun t ht ht' => resumes_of_step (t := t) hs₁ (.create hnew) ht ht'
      obtain ⟨hs', hc', hp', hres'⟩ := hwork'.kept hs₂
      obtain ⟨-, hstack, hpoint⟩ := hthreads.resolve_left (by omega)
      obtain ⟨-, -, cpu₁, cpu₂, pc, -, -, -, hs₂'⟩ := hnew
      have hp₂ : s₂.parked = insert st.nthreads s₁.parked := by rw [hs₂']
      have hc₂ : s₂.current = s₁.current := by rw [hs₂']
      have hlt := hw.running
      refine ⟨⟨?_, fun t => ?_, hpc, fun t ht => ?_⟩, hs'⟩
      · rw [hc', hc₂, hc₁, hrep.current, hstack]
      · rw [hp', hp₂, hp₁, Finset.mem_insert, hrep.parked, hn, hstack]
        exact lt_succ_and_ne_iff hlt
      · rw [hp'] at ht
        rw [hres' t ht]
        by_cases htn : t = st.nthreads
        · subst htn
          rw [Sys.view_parked lay ht] at hparked
          rw [Option.some.inj hparked, ← point_of_ne (hstack ▸ Nat.ne_of_gt hlt), hpoint]
          exact hentry
        · have ht₁ : t ∈ s₁.parked := (Finset.mem_insert.1 (hp₂ ▸ ht)).resolve_left htn
          have ht₀ : t ∈ s.parked := hp₁ ▸ ht₁
          rw [hres₂ t ht₁ ht, hres₁ t ht₀]
          exact hsaved t ht₀ (hstack ▸ ((hrep.parked t).1 ht₀).2)
  | @switches s₁ _ hne hwork hpc hin hto =>
      obtain ⟨hs₁, hc₁, hp₁, hres₁⟩ := hwork.kept hs
      have hcur : s₁.current = st.running.stack := hc₁.trans hrep.current
      have hn : st'.nthreads = st.nthreads :=
        hthreads.resolve_right fun h => hne h.2.1
      obtain ⟨hu, hp', hpc', hcaller⟩ := parked_of_switch hs₁ hin (by rw [hto, hcur]; exact hne)
      rw [hto, hcur] at hp'
      rw [hto] at hu hpc'
      rw [hcur] at hcaller
      have hu₀ : st'.running.stack ∈ s.parked := hp₁ ▸ hu
      have hlt := hw.running
      have hlt' := hw'.running
      refine ⟨⟨hto, fun t => ?_, ?_, fun t ht => ?_⟩, (hin.sim hs₁).1⟩
      · rw [hp', Finset.mem_insert, Finset.mem_erase, hp₁, hrep.parked, hn]
        exact lt_and_ne_iff hlt hne.symm
      · obtain ⟨hlt₀, hne₀⟩ := (hrep.parked _).1 hu₀
        rw [hpc', hres₁ _ hu₀,
          ← show st'.point st'.running.stack = st'.running.point from if_pos rfl,
          hothers _ hlt₀ hne₀, point_of_ne hne₀]
        exact hrep.saved _ hu₀
      · by_cases htc : t = st.running.stack
        · subst htc
          rw [hcaller, ← point_of_ne hne.symm]
          exact hpc
        · have ht' := ht
          rw [hp', Finset.mem_insert, Finset.mem_erase] at ht'
          obtain ⟨htu, ht₁⟩ := ht'.resolve_left htc
          have ht₀ : t ∈ s.parked := hp₁ ▸ ht₁
          rw [resumes_of_step hs₁ hin ht₁ ht, hres₁ t ht₀]
          exact hsaved t ht₀ htu

/-- The library and the machine, step by step. -/
def Joint (D : Discipline) (lay : Layout Tid) (code : Point → Set Addr) (x y : St × Sys Tid) :
    Prop :=
  Step D x.1 y.1 ∧ Follows lay code x.1 y.1 x.2 y.2

/-- At the start of a program the main thread is alone, on the machine too. -/
structure Starts (lay : Layout Tid) (code : Point → Set Addr) (s : Sys Tid) : Prop where
  current : s.current = mainThread
  parked : s.parked = ∅
  usable : lay.Usable s.cpu mainThread
  pc : s.pc ∈ code .user

/-- At the start the main thread runs, and the library's state says so, too. -/
theorem Starts.represents {mem : Qthread} {clock : List ℤ} (h : Starts lay code s) :
    Represents lay code s (qthreadInit mem clock) ∧ s.Inv lay := by
  refine ⟨⟨h.current, fun t => ?_, h.pc, fun t ht => ?_⟩, ⟨?_, ?_, ?_⟩⟩
  · rw [h.parked]
    change t ∈ (∅ : Finset Tid) ↔ t < 1 ∧ t ≠ 0
    simp
  · simp [h.parked] at ht
  · simp [h.parked]
  · rintro t (rfl | ht)
    · exact h.current ▸ h.usable
    · simp [h.parked] at ht
  · simp [h.parked]

/-- The library's state and the machine's stay in step. -/
theorem Joint.run {D : Discipline} {mem : Qthread} {clock : List ℤ} {s₀ : Sys Tid}
    (hD : ∀ t tr op, D t tr op → JoinOnce t tr op) (hd : mem.dead ≠ 1)
    (hj : mem.waiter = none) (h₀ : Starts lay code s₀)
    (h : ReflTransGen (Joint D lay code) (qthreadInit mem clock, s₀) (st, s)) :
    (WF st ∧ (view st).Inv) ∧ Represents lay code s st ∧ s.Inv lay := by
  have hinit : (WF (qthreadInit mem clock) ∧ (view (qthreadInit mem clock)).Inv) ∧
      Represents lay code s₀ (qthreadInit mem clock) ∧ s₀.Inv lay :=
    ⟨⟨wf_qthreadInit, view_qthreadInit ▸ Sched.inv_initial hd hj⟩, h₀.represents⟩
  refine Runs.invariant_of_run (I := fun x => (WF x.1 ∧ (view x.1).Inv) ∧
    Represents lay code x.2 x.1 ∧ x.2.Inv lay) h hinit ?_
  rintro ⟨st₁, s₁⟩ ⟨st₂, s₂⟩ ⟨⟨hw, hi⟩, hrep, hs⟩ ⟨⟨act, hA, hrun⟩, hfollows⟩
  obtain ⟨hw', hstep⟩ := view_step hw hi hD hA hrun
  exact ⟨⟨hw', hstep.inv hD hi⟩, hrep.step hs hw hw' hstep hfollows⟩

/-- **The machine follows.** In every run of the library followed on the machine, control is
at the point at which the library's state says that its running context stands, and every
other thread will go on at the point its saved stack pointer stands for. A step of the
library to another thread finds that thread suspended, so that the machine's call of
`switch_thread` finds the flag and returns on its stack. The calls of the library keep within
`JoinOnce`, and the main thread's structure is neither marked dead nor has it a waiter. -/
theorem machine_follows {D : Discipline} {mem : Qthread} {clock : List ℤ} {s₀ : Sys Tid}
    (hD : ∀ t tr op, D t tr op → JoinOnce t tr op) (hd : mem.dead ≠ 1)
    (hj : mem.waiter = none) (h₀ : Starts lay code s₀)
    (h : ReflTransGen (Joint D lay code) (qthreadInit mem clock, s₀) (st, s)) :
    Represents lay code s st ∧
      ∀ st' s₁, Step D st st' → st'.running.stack ≠ st.running.stack → Works lay s s₁ →
        lay.Room s₁.cpu s₁.current 10 → s₁.cpu.reg .rdi = lay.field s₁.current →
        s₁.cpu.reg .rsi = lay.place s₁.cpu.mem st'.running.stack →
        ∃ s', Sys.Switches lay st'.running.stack s₁ s' := by
  obtain ⟨⟨hw, hi⟩, hrep, hs⟩ := Joint.run hD hd hj h₀ h
  refine ⟨hrep, ?_⟩
  rintro st' s₁ ⟨act, hA, hrun⟩ hne hwork hroom hrdi hrsi
  obtain ⟨hw', hstep⟩ := view_step hw hi hD hA hrun
  obtain ⟨-, hthreads⟩ := contexts_of_step hw hstep
  have hn : st'.nthreads = st.nthreads := hthreads.resolve_right fun h => hne h.2.1
  obtain ⟨hs₁, -, hp₁, -⟩ := hwork.kept hs
  have hu : st'.running.stack ∈ s₁.parked := by
    rw [hp₁, hrep.parked]
    exact ⟨hn ▸ hw'.running, hne⟩
  exact hs₁.switches hu hroom hrdi hrsi

/-- Code that is about to enter a start function stands at `0x5000`. -/
def pairCode (p : Point) : Set Addr := if p = .entry then {0x5000} else Set.univ

/-- The code of any other point may stand anywhere. -/
theorem mem_pairCode {p : Point} (h : p ≠ .entry) (a : Addr) : a ∈ pairCode p := by
  rw [pairCode, if_neg h]
  exact Set.mem_univ a

/-- The library after the main thread has created a thread. -/
def pairCreated : St := (qthreadInit zeroMem []).after (.call (.create true (some zeroMem)))

/-- The main thread creates a thread and yields to it. -/
theorem machine_follows_pair : ∃ st s,
    ReflTransGen (Joint JoinOnce pairLayout pairCode) (qthreadInit zeroMem [], pairStart) (st, s) ∧
      st.running = ⟨1, .entry⟩ ∧ s.pc = 0x5000 := by
  obtain ⟨s₁, hnew, hcur, hu⟩ := pair_made
  obtain ⟨s₂, hin, hto, -⟩ := Sys.prepares_switch (pairStart_reachable.step (.create hnew)) hu
  have hcreate : Step JoinOnce (qthreadInit zeroMem []) pairCreated :=
    ⟨.call (.create true (some zeroMem)), True.intro, St.step_after (by decide +kernel)⟩
  have hyield : Step JoinOnce pairCreated (pairCreated.after (.call .yield)) :=
    ⟨.call .yield, True.intro, St.step_after (by decide +kernel)⟩
  have hrunning : (pairCreated.after (.call .yield)).running = ⟨1, .entry⟩ := by decide +kernel
  have hfirst : Follows pairLayout pairCode (qthreadInit zeroMem []) pairCreated pairStart s₁ :=
    .creates (by decide +kernel) .refl (by simp [pairCode, pairStart]) hnew .refl
      (mem_pairCode (by decide +kernel) _)
  have hsecond : Follows pairLayout pairCode pairCreated (pairCreated.after (.call .yield)) s₁ s₂ :=
    .switches (by decide +kernel)
      (.single ⟨s₁.prepares.cpu, s₁.pc, ⟨fun _ h => h, fun _ _ _ _ => rfl⟩, rfl⟩)
      (mem_pairCode (by decide +kernel) _) hin (by rw [hto, hcur, hrunning])
  have hjoint₁ : Joint JoinOnce pairLayout pairCode (qthreadInit zeroMem [], pairStart)
      (pairCreated, s₁) := ⟨hcreate, hfirst⟩
  have hjoint₂ : Joint JoinOnce pairLayout pairCode (pairCreated, s₁)
      (pairCreated.after (.call .yield), s₂) := ⟨hyield, hsecond⟩
  have hrun := (ReflTransGen.single hjoint₁).tail hjoint₂
  have hstarts : Starts pairLayout pairCode pairStart :=
    ⟨rfl, rfl, ⟨Nat.two_pos, fun _ _ => rfl, fun _ _ => rfl⟩, mem_pairCode (by decide) _⟩
  have hpc := (machine_follows (fun _ _ _ h => h) (by decide) rfl hstarts hrun).1.pc
  rw [hrunning] at hpc
  exact ⟨_, s₂, hrun, hrunning, by simpa [pairCode] using hpc⟩

end SystemsProjects.Qthreads.Switch
