import Mathlib.Data.Finset.Basic
import SystemsProjects.Library.Coroutines
import SystemsProjects.Library.Runs
import SystemsProjects.Qthreads.ContextSwitch

/-!
# Threads on Their Own Stacks

The machine below the scheduler: every thread has a stack and a field its stack pointer is
saved in, one thread runs, and the others are frames on their stacks. Between its calls of
`setup_stack` and `switch_thread` the running code may do what it likes, to registers and
to memory, as long as it leaves the frames of suspended threads and the fields that lead to
them alone; in particular it may write to what else is on their stacks.

The runs of this machine are runs of coroutines: a suspended thread is parked with the
registers, the stack pointer and the address its call of `switch_thread` returns with.

## Main definitions

* `Layout`: stacks and fields, apart from each other.
* `Sys`, `Sys.Step`: the machine with its threads, and what may happen.
* `Sys.view`: the coroutines it stands for.

## Main results

* `Sys.Step.sim`: a step of the machine is a step of the coroutines.
* `switch_thread_resumes`: a thread that switches away and is switched back to finds its
  registers and its stack pointer as they were.
* `switch_thread_enters`: a thread that was set up is entered with its arguments.
* `switch_thread_runs`: the routine finds the flag, and returns on the stack it switches to.
-/

namespace SystemsProjects.Qthreads.Switch

open ByteMemory X86 Relation

/-- Where the stacks of the threads and the fields `saved_stack_pointer` lie, for the threads
there is memory for. -/
structure Layout (τ : Type) where
  threads : Set τ
  base : τ → Addr
  size : τ → ℕ
  field : τ → Addr
  size_le : ∀ t, size t ≤ 2 ^ 64
  field_ne : ∀ t, field t ≠ 0
  stacksApart : ∀ t ∈ threads, ∀ u ∈ threads, t ≠ u → Apart (base t) (size t) (base u) (size u)
  fieldsApart : ∀ t ∈ threads, ∀ u ∈ threads, t ≠ u → Apart (field t) 8 (field u) 8
  fieldStack : ∀ t ∈ threads, ∀ u ∈ threads, Apart (field t) 8 (base u) (size u)

/-! ### Frames in memory -/

/-- The frame at an address: nine words, behind the flag. -/
def frameAt (m : Memory) (a : Addr) : Frame where
  r15 := load m (a + 8)
  r14 := load m (a + 16)
  r13 := load m (a + 24)
  r12 := load m (a + 32)
  rbx := load m (a + 40)
  rdi := load m (a + 48)
  rsi := load m (a + 56)
  rbp := load m (a + 64)
  ret := load m (a + 72)

/-- The words of a frame are in memory where the flag is, and the frame behind it. -/
theorem holds_words {m : Memory} {a : Addr} {f : Frame} :
    Holds m a f.words ↔ load m a = validFlag ∧ frameAt m a = f := by
  cases f
  simp [Frame.words, Holds, frameAt, BitVec.add_assoc]

/-- What a thread needs to go on: the registers kept for it, and the stack pointer. The address
is a word of its frame. -/
structure Continuation where
  frame : Frame
  rsp : Addr

/-- The continuation of the running code, at `pc`. -/
def continuation (s : Cpu) (pc : Addr) : Continuation where
  frame := { savedFrame s with ret := pc }
  rsp := s.reg .rsp

/-- A call instruction: the return address is pushed, and control is at the function called. -/
def call (s : Cpu) (pc : Addr) : Cpu :=
  { s with mem := store s.mem (s.reg .rsp - 8) pc }.set .rsp (s.reg .rsp - 8)

/-- A call writes to memory that can be accessed, and maps none. -/
@[simp] theorem call_accessible {s : Cpu} {pc a : Addr} :
    (call s pc).accessible a = s.accessible a := rfl

/-- A machine whose registers were restored goes on where the frame says. -/
theorem Frame.Restored.continuation_eq {f : Frame} {s : Cpu} (h : f.Restored s) :
    continuation s f.ret = ⟨f, s.reg .rsp⟩ := by
  obtain ⟨h15, h14, h13, h12, hbx, hdi, hsi, hbp⟩ := h
  rw [continuation, savedFrame, h15, h14, h13, h12, hbx, hdi, hsi, hbp]

/-- The call of `switch_thread` saves the continuation of its caller. -/
theorem savedFrame_call (s : Cpu) (pc : Addr) :
    savedFrame (call s pc) = (continuation s pc).frame := by
  simp [savedFrame, call, continuation]

/-! ### The machine and its threads -/

variable {τ : Type} {lay : Layout τ}

/-- The machine, the address its code goes on at, the running thread, and the threads whose
frames wait on their stacks. -/
structure Sys (τ : Type) where
  cpu : Cpu
  pc : Addr
  current : τ
  parked : Finset τ

/-- Where a suspended thread's frame is, by the field that says so. The field is memory, so this
changes as threads are switched. -/
def Layout.place (lay : Layout τ) (m : Memory) (t : τ) : Addr := load m (lay.field t)

/-- The bytes in which a suspended thread is kept: its field and its frame. Nobody else may
write them. -/
def Layout.Kept (lay : Layout τ) (m : Memory) (t : τ) (x : Addr) : Prop :=
  Within x (lay.field t) 8 ∨ Within x (lay.place m t) 80

/-- Code that leaves the suspended threads alone, and unmaps nothing. What it does to its own
stack, to its registers and elsewhere is not restricted. -/
structure Layout.Respects (lay : Layout τ) (parked : Finset τ) (s s' : Cpu) : Prop where
  mapped : ∀ x, s.mapped x = true → s'.mapped x = true
  kept : ∀ t ∈ parked, ∀ x, lay.Kept s.mem t x → s'.mem x = s.mem x

/-- There is memory for the thread: its stack and its field can be accessed. -/
structure Layout.Usable (lay : Layout τ) (s : Cpu) (t : τ) : Prop where
  thread : t ∈ lay.threads
  stack : s.Mapped (lay.base t) (lay.size t)
  field : s.Mapped (lay.field t) 8

/-- Mapping more memory takes nothing away from a thread. -/
theorem Layout.Usable.mono {cpu cpu' : Cpu} {t : τ} (h : lay.Usable cpu t)
    (hm : ∀ x, cpu.mapped x = true → cpu'.mapped x = true) : lay.Usable cpu' t :=
  ⟨h.thread, fun x hx => hm x (h.stack x hx), fun x hx => hm x (h.field x hx)⟩

/-- The stack of `t` has room for `n` words below the stack pointer. A call of `switch_thread`
needs ten, for the return address, the registers it pushes and the flag. -/
def Layout.Room (lay : Layout τ) (s : Cpu) (t : τ) (n : ℕ) : Prop :=
  ∀ x, Within x (below (s.reg .rsp) n) (8 * n) → Within x (lay.base t) (lay.size t)

/-- A thread waits as a frame on its own stack, with the flag in front of it. -/
structure Layout.Waits (lay : Layout τ) (m : Memory) (t : τ) : Prop where
  inside : ∀ x, Within x (lay.place m t) 80 → Within x (lay.base t) (lay.size t)
  flag : load m (lay.place m t) = validFlag

/-- What a thread that waits goes on with. -/
def Layout.resumes (lay : Layout τ) (m : Memory) (t : τ) : Continuation where
  frame := frameAt m (lay.place m t)
  rsp := lay.place m t + 80

/-- The running thread is not suspended, memory is there, and suspended threads wait. Every step
keeps this. -/
structure Sys.Inv (lay : Layout τ) (s : Sys τ) : Prop where
  current : s.current ∉ s.parked
  usable : ∀ t, t = s.current ∨ t ∈ s.parked → lay.Usable s.cpu t
  waits : ∀ t ∈ s.parked, lay.Waits s.cpu.mem t

/-! ### What is kept -/

section Kept

variable {m m' : Memory} {t u : τ} {s : Sys τ}

/-- A suspended thread whose bytes are left alone waits as it did. -/
theorem Layout.Waits.congr (hw : lay.Waits m t) (h : ∀ x, lay.Kept m t x → m' x = m x) :
    lay.Waits m' t ∧ lay.resumes m' t = lay.resumes m t := by
  have hplace : lay.place m' t = lay.place m t := load_congr fun x hx => h x (.inl hx)
  have hholds : Holds m' (lay.place m t) (frameAt m (lay.place m t)).words :=
    (holds_words.2 ⟨hw.flag, rfl⟩).congr (by simp) fun x hx => h x (.inr hx)
  obtain ⟨hflag, hframe⟩ := holds_words.1 hholds
  refine ⟨⟨?_, ?_⟩, ?_⟩
  · rw [hplace]
    exact hw.inside
  · rw [hplace]
    exact hflag
  · rw [resumes, resumes, hplace, hframe]

/-- The bytes a suspended thread is kept in are apart from the stacks of others. -/
theorem Layout.Waits.notMem_stack (hw : lay.Waits m t) (ht : t ∈ lay.threads)
    (hu : u ∈ lay.threads) (hne : t ≠ u) {x : Addr}
    (hx : lay.Kept m t x) : ¬Within x (lay.base u) (lay.size u) := by
  rcases hx with hx | hx
  · exact lay.fieldStack t ht u hu x hx
  · exact lay.stacksApart t ht u hu hne x (hw.inside x hx)

/-- They are apart from the fields of others. -/
theorem Layout.Waits.notMem_field (hw : lay.Waits m t) (ht : t ∈ lay.threads)
    (hu : u ∈ lay.threads) (hne : t ≠ u) {x : Addr}
    (hx : lay.Kept m t x) : ¬Within x (lay.field u) 8 := by
  rcases hx with hx | hx
  · exact lay.fieldsApart t ht u hu hne x hx
  · exact fun hx' => lay.fieldStack u hu t ht x hx' (hw.inside x hx)

/-- A call writes on the stack of the running thread only. -/
theorem mem_call (hroom : lay.Room s.cpu s.current 1) {x : Addr}
    (hx : ¬Within x (lay.base s.current) (lay.size s.current)) :
    (call s.cpu s.pc).mem x = s.cpu.mem x :=
  store_apply _ fun h => hx (hroom x h)

/-- Where there is room for some words there is room for the first of them. -/
theorem Layout.Room.mono {cpu : Cpu} {t : τ} {n k : ℕ} (h : lay.Room cpu t (n + k))
    (hn : 8 * (n + k) ≤ 2 ^ 64) : lay.Room cpu t n := fun x hx => h x (hx.below hn)

/-- The words `switch_thread` pushes in a call lie on the stack of the running thread. -/
theorem within_pushed (hroom : lay.Room s.cpu s.current 10) {x : Addr} {n : ℕ} (hn : n ≤ 80)
    (hx : Within x (below ((call s.cpu s.pc).reg .rsp) 9) n) :
    Within x (lay.base s.current) (lay.size s.current) := by
  have hrsp : (call s.cpu s.pc).reg .rsp = s.cpu.reg .rsp - 8 := Cpu.set_reg_self
  rw [hrsp, ← below_succ] at hx
  exact hroom x (hx.mono hn)

end Kept

/-! ### The switch -/

section Switch

variable {s : Sys τ} {u : τ}

/-- The arguments of a call of `switch_thread` meet what the routine relies on. -/
theorem switch_ready (hs : s.Inv lay) (hu : u ∈ s.parked) (hroom : lay.Room s.cpu s.current 10)
    (hrdi : s.cpu.reg .rdi = lay.field s.current)
    (hrsi : s.cpu.reg .rsi = lay.place s.cpu.mem u) : ∃ cpu,
      run 0 switchThread (call s.cpu s.pc) = some ((lay.resumes s.cpu.mem u).frame.ret, cpu) ∧
      cpu.mem = switchedMem (call s.cpu s.pc) ∧ cpu.mapped = s.cpu.mapped ∧
      continuation cpu (lay.resumes s.cpu.mem u).frame.ret = lay.resumes s.cpu.mem u := by
  have hne : u ≠ s.current := fun h => hs.current (h ▸ hu)
  have hw := hs.waits u hu
  have hut := (hs.usable u (.inr hu)).thread
  have hcur := hs.usable _ (.inl rfl)
  have hmem : ∀ x, lay.Kept s.cpu.mem u x → (call s.cpu s.pc).mem x = s.cpu.mem x :=
    fun x hx => mem_call (hroom.mono (n := 1) (k := 9) (by omega))
      (hw.notMem_stack hut hcur.thread hne hx)
  obtain ⟨hw₀, hres₀⟩ := hw.congr hmem
  have hrsi₀ : (call s.cpu s.pc).reg .rsi = lay.place (call s.cpu s.pc).mem u :=
    (Cpu.set_reg_of_ne (by decide)).trans
      (hrsi.trans (load_congr fun x hx => (hmem x (.inl hx)).symm))
  have hrdi₀ : (call s.cpu s.pc).reg .rdi = lay.field s.current :=
    (Cpu.set_reg_of_ne (by decide)).trans hrdi
  obtain ⟨cpu, hrun, hmem', hmap', hrsp', hregs⟩ := switchThread_run
    (s := call s.cpu s.pc) (f := (lay.resumes s.cpu.mem u).frame)
    (fun x hx => hcur.stack x (within_pushed hroom (by omega) hx))
    (fun x hx => (hs.usable u (.inr hu)).stack x (hw₀.inside x (hrsi₀ ▸ hx)))
    (by
      rw [hrsi₀, ← hres₀]
      exact holds_words.2 ⟨hw₀.flag, rfl⟩)
    (fun x hx hx' => hw₀.notMem_stack hut hcur.thread hne (.inr (hrsi₀ ▸ hx))
      (within_pushed hroom (by omega) hx'))
    (fun _ => by
      rw [hrdi₀, hrsi₀]
      refine ⟨?_, fun x hx => hw₀.notMem_field hut hcur.thread hne (.inr hx)⟩
      simpa using hcur.field.accessible (k := 0) (by omega) (by omega))
  refine ⟨cpu, hrun, hmem', hmap', ?_⟩
  rw [hregs.continuation_eq, hrsp', hrsi₀, Layout.resumes,
    show lay.place (call s.cpu s.pc).mem u = lay.place s.cpu.mem u from
      load_congr fun x hx => hmem x (.inl hx)]

/-- The flag is on top of the stack to be switched to when the routine looks for it: what it has
pushed by then lies on the stack of its caller. -/
theorem switch_flag (hs : s.Inv lay) (hu : u ∈ s.parked) (hroom : lay.Room s.cpu s.current 10)
    (hrsi : s.cpu.reg .rsi = lay.place s.cpu.mem u) :
    load (checkedMem (call s.cpu s.pc)) (s.cpu.reg .rsi) = validFlag := by
  have hne : u ≠ s.current := fun h => hs.current (h ▸ hu)
  have hw := hs.waits u hu
  rw [hrsi, ← hw.flag]
  refine load_congr fun x hx => ?_
  have hstack := hw.notMem_stack (hs.usable u (.inr hu)).thread (hs.usable _ (.inl rfl)).thread
    hne (.inr (hx.mono (by omega)))
  have hpush : checkedMem (call s.cpu s.pc) x = (call s.cpu s.pc).mem x :=
    storeDown_apply (by simp) fun h => hstack (within_pushed hroom (n := 72) (by omega)
      (Within.below (k := 1) (n := 8) h (by omega)))
  rw [hpush, mem_call (hroom.mono (n := 1) (k := 9) (by omega)) hstack]

/-- A call of `switch_thread` leaves the other suspended threads alone. -/
theorem switch_others (hs : s.Inv lay) (hroom : lay.Room s.cpu s.current 10)
    (hrdi : s.cpu.reg .rdi = lay.field s.current) {t : τ} (ht : t ∈ s.parked) {x : Addr}
    (hx : lay.Kept s.cpu.mem t x) : switchedMem (call s.cpu s.pc) x = s.cpu.mem x := by
  have hne : t ≠ s.current := fun h => hs.current (h ▸ ht)
  have hw := hs.waits t ht
  have htt := (hs.usable t (.inr ht)).thread
  have hct := (hs.usable _ (.inl rfl)).thread
  have hstack := hw.notMem_stack htt hct hne hx
  have hrdi₀ : (call s.cpu s.pc).reg .rdi = lay.field s.current :=
    (Cpu.set_reg_of_ne (by decide)).trans hrdi
  have hpush : storeDown (call s.cpu s.pc).mem ((call s.cpu s.pc).reg .rsp)
      (pushedWords (call s.cpu s.pc)) x = (call s.cpu s.pc).mem x :=
    storeDown_apply (by simp) fun h =>
      hstack (within_pushed hroom (n := 72) (by omega) (by simpa using h))
  rw [switchedMem, hrdi₀, if_neg (lay.field_ne _), store_apply _ (hw.notMem_field htt hct hne hx),
    hpush,
    mem_call (hroom.mono (n := 1) (k := 9) (by omega)) hstack]

/-- The caller of `switch_thread` waits, with what it needs to go on behind its call. -/
theorem switch_caller (ht : s.current ∈ lay.threads) (hroom : lay.Room s.cpu s.current 10)
    (hrdi : s.cpu.reg .rdi = lay.field s.current) :
    lay.Waits (switchedMem (call s.cpu s.pc)) s.current ∧
      lay.resumes (switchedMem (call s.cpu s.pc)) s.current = continuation s.cpu s.pc := by
  have hrdi₀ : (call s.cpu s.pc).reg .rdi = lay.field s.current :=
    (Cpu.set_reg_of_ne (by decide)).trans hrdi
  have hrsp₀ : (call s.cpu s.pc).reg .rsp = s.cpu.reg .rsp - 8 := Cpu.set_reg_self
  have hplace : lay.place (switchedMem (call s.cpu s.pc)) s.current =
      below (s.cpu.reg .rsp) 10 := by
    rw [Layout.place, switchedMem, hrdi₀, if_neg (lay.field_ne _), load_store_self, hrsp₀,
      ← below_succ]
  have hholds := switchedMem_holds (s := call s.cpu s.pc) fun _ x hx hx' =>
    lay.fieldStack _ ht _ ht x (hrdi₀ ▸ hx') (within_pushed hroom (by omega) hx)
  rw [savedFrame_call, hrsp₀, ← below_succ, holds_words] at hholds
  refine ⟨⟨?_, ?_⟩, ?_⟩
  · rw [hplace]
    exact hroom
  · rw [hplace]
    exact hholds.1
  · rw [Layout.resumes, hplace, hholds.2,
      show below (s.cpu.reg .rsp) 10 + 80 = s.cpu.reg .rsp from
        (below_add (k := 0) (n := 10)).trans (below_zero _)]
    rfl

end Switch

/-! ### The creation -/

section Create

variable {s : Sys τ} {u : τ} {cpu₁ cpu₂ : Cpu} {pc : Addr}

/-- The top of the stack a call of `setup_stack` is given. -/
def topOf (s : Sys τ) : Addr := stackTop (s.cpu.reg .rdi) (s.cpu.reg .rsi)

/-- The frame a call of `setup_stack` is to leave. -/
def frameOf (s : Sys τ) : Frame :=
  freshFrame (topOf s) (s.cpu.reg .rdx) (s.cpu.reg .rcx) (s.cpu.reg .r8)

/-- What `setup_stack` is told about a stack: where it is, and a length that is enough for the
guard zone and the first frame. -/
structure Layout.Told (lay : Layout τ) (s : Sys τ) (u : τ) : Prop where
  ne : u ≠ s.current
  usable : lay.Usable s.cpu u
  room : lay.Room s.cpu s.current 1
  rdi : s.cpu.reg .rdi = lay.base u
  rsi : ((s.cpu.reg .rsi).setWidth 32).signExtend 64 = BitVec.ofNat 64 (lay.size u)
  enough : 120 ≤ lay.size u

/-- The new frame lies on the new stack. -/
theorem Layout.Told.within (h : lay.Told s u) {x : Addr}
    (hx : Within x (below (topOf s) 13) 104) : Within x (lay.base u) (lay.size u) :=
  h.rdi ▸ within_of_within_stackTop h.rsi h.enough (lay.size_le u) hx

/-- A call of `setup_stack` leaves the frame of the new thread, and does not fault. -/
theorem create_ready (hs : s.Inv lay) (h : lay.Told s u) : ∃ cpu₁,
    run 0 setupStack (call s.cpu s.pc) = some (s.pc, cpu₁) ∧
      cpu₁.mem = storeDown (call s.cpu s.pc).mem (topOf s) (setupWords (topOf s)
        (s.cpu.reg .rdx) (s.cpu.reg .rcx) (s.cpu.reg .r8)) ∧
      cpu₁.mapped = s.cpu.mapped ∧ cpu₁.reg .rax = below (topOf s) 13 := by
  have hstack : ∀ x, Within x ((call s.cpu s.pc).reg .rsp) 8 →
      Within x (lay.base s.current) (lay.size s.current) := fun x hx => h.room x hx
  have hcur := hs.usable _ (.inl rfl)
  have hret : s.cpu.accessible ((call s.cpu s.pc).reg .rsp) = true := by
    have hm : s.cpu.Mapped ((call s.cpu s.pc).reg .rsp) 8 :=
      fun x hx => hcur.stack x (hstack x hx)
    simpa using hm.accessible (k := 0) (by omega) (by omega)
  obtain ⟨cpu₁, hrun, hmem, hmap, hrax, -⟩ := setupStack_run (s := call s.cpu s.pc)
    (show topOf s = _ from rfl) (fun x hx => h.usable.stack x (h.within hx)) hret
    fun x hx hx' => lay.stacksApart u h.usable.thread _ hcur.thread h.ne x (h.within hx')
      (hstack x hx)
  refine ⟨cpu₁, ?_, hmem, hmap, hrax⟩
  rw [hrun]
  exact congrArg (fun a => some (a, cpu₁)) (load_store_self s.cpu.mem _ s.pc)

/-- What creates a thread leaves the suspended threads alone. -/
theorem create_others (hs : s.Inv lay) (h : lay.Told s u) (hu : u ∉ s.parked)
    (hmem : cpu₁.mem = storeDown (call s.cpu s.pc).mem (topOf s) (setupWords (topOf s)
      (s.cpu.reg .rdx) (s.cpu.reg .rcx) (s.cpu.reg .r8)))
    (hwork : lay.Respects s.parked cpu₁ cpu₂) {t : τ} (ht : t ∈ s.parked) {x : Addr}
    (hx : lay.Kept s.cpu.mem t x) :
    store cpu₂.mem (lay.field u) (cpu₁.reg .rax) x = s.cpu.mem x := by
  have hcur : t ≠ s.current := fun hc => hs.current (hc ▸ ht)
  have hne : t ≠ u := fun hc => hu (hc ▸ ht)
  have hw := hs.waits t ht
  have htt := (hs.usable t (.inr ht)).thread
  have hset : ∀ y, lay.Kept s.cpu.mem t y → cpu₁.mem y = s.cpu.mem y := by
    intro y hy
    have hstore : storeDown (call s.cpu s.pc).mem (topOf s) (setupWords (topOf s)
        (s.cpu.reg .rdx) (s.cpu.reg .rcx) (s.cpu.reg .r8)) y = (call s.cpu s.pc).mem y :=
      storeDown_apply (by simp) fun hy' =>
        hw.notMem_stack htt h.usable.thread hne hy (h.within (by simpa using hy'))
    rw [hmem, hstore,
      mem_call h.room (hw.notMem_stack htt (hs.usable _ (.inl rfl)).thread hcur hy)]
  have hkept : lay.Kept cpu₁.mem t x := by
    rwa [Layout.Kept, show lay.place cpu₁.mem t = lay.place s.cpu.mem t from
      load_congr fun y hy => hset y (.inl hy)]
  rw [store_apply _ (hw.notMem_field htt h.usable.thread hne hx), hwork.kept t ht x hkept,
    hset x hx]

/-- The new thread waits to be entered. -/
theorem create_new (h : lay.Told s u)
    (hmem : cpu₁.mem = storeDown (call s.cpu s.pc).mem (topOf s) (setupWords (topOf s)
      (s.cpu.reg .rdx) (s.cpu.reg .rcx) (s.cpu.reg .r8)))
    (hrax : cpu₁.reg .rax = below (topOf s) 13)
    (hframe : ∀ x, Within x (cpu₁.reg .rax) 80 → cpu₂.mem x = cpu₁.mem x) :
    lay.Waits (store cpu₂.mem (lay.field u) (cpu₁.reg .rax)) u ∧
      lay.resumes (store cpu₂.mem (lay.field u) (cpu₁.reg .rax)) u =
        ⟨frameOf s, below (topOf s) 3⟩ := by
  have hplace : lay.place (store cpu₂.mem (lay.field u) (cpu₁.reg .rax)) u =
      below (topOf s) 13 := by rw [Layout.place, load_store_self, hrax]
  have hinside : ∀ x, Within x (below (topOf s) 13) 80 → Within x (lay.base u) (lay.size u) :=
    fun x hx => h.within (hx.mono (by omega))
  have hholds : Holds cpu₁.mem (below (topOf s) 13) (frameOf s).words := by
    have hall := storeDown_holds (m := (call s.cpu s.pc).mem) (a := topOf s)
      (show 8 * (setupWords (topOf s) (s.cpu.reg .rdx) (s.cpu.reg .rcx)
        (s.cpu.reg .r8)).length ≤ 2 ^ 64 by simp)
    rw [← hmem, setupWords, List.reverse_append, List.reverse_reverse, holds_append] at hall
    exact hall.1
  have hholds' : Holds (store cpu₂.mem (lay.field u) (cpu₁.reg .rax)) (below (topOf s) 13)
      (frameOf s).words := by
    refine hholds.congr (by simp) fun x hx => ?_
    rw [store_apply _ fun hx' =>
      lay.fieldStack u h.usable.thread u h.usable.thread x hx' (hinside x hx)]
    exact hframe x (hrax ▸ hx)
  obtain ⟨hflag, hat⟩ := holds_words.1 hholds'
  refine ⟨⟨?_, ?_⟩, ?_⟩
  · rw [hplace]
    exact hinside
  · rw [hplace]
    exact hflag
  · rw [Layout.resumes, hplace, hat,
      show below (topOf s) 13 + 80 = below (topOf s) 3 from below_add (k := 3) (n := 10)]

end Create

/-! ### Runs -/

variable [DecidableEq τ]

/-- The running code creates the thread `u`: it calls `setup_stack`, does some work, and
stores the result in the thread's field. -/
def Sys.Creates (lay : Layout τ) (u : τ) (s s' : Sys τ) : Prop :=
  u ∉ s.parked ∧ lay.Told s u ∧ ∃ cpu₁ cpu₂ pc,
    run 0 setupStack (call s.cpu s.pc) = some (pc, cpu₁) ∧
    lay.Respects s.parked cpu₁ cpu₂ ∧
    (∀ x, Within x (cpu₁.reg .rax) 80 → cpu₂.mem x = cpu₁.mem x) ∧
    s' = ⟨{ cpu₂ with mem := store cpu₂.mem (lay.field u) (cpu₁.reg .rax) }, pc, s.current,
      insert u s.parked⟩

/-- What may happen: the running code works, creates a thread, or calls `switch_thread` with
its own field and the saved stack pointer of another thread. -/
inductive Sys.Step (lay : Layout τ) (s : Sys τ) : Sys τ → Prop
  | work {cpu : Cpu} {pc : Addr} : lay.Respects s.parked s.cpu cpu →
      Step lay s { s with cpu := cpu, pc := pc }
  | create {u : τ} {s' : Sys τ} : Sys.Creates lay u s s' → Step lay s s'
  | switch {u : τ} {cpu : Cpu} {pc : Addr} :
      u ∈ s.parked → lay.Room s.cpu s.current 10 →
      s.cpu.reg .rdi = lay.field s.current →
      s.cpu.reg .rsi = lay.place s.cpu.mem u →
      run 0 switchThread (call s.cpu s.pc) = some (pc, cpu) →
      Step lay s ⟨cpu, pc, u, insert s.current (s.parked.erase u)⟩

/-- The coroutines the machine stands for: the running one as its registers are, the suspended
ones as their frames say. -/
def Sys.view (lay : Layout τ) (s : Sys τ) : Coroutines.State τ Continuation where
  current := s.current
  live := continuation s.cpu s.pc
  parked := fun t => if t ∈ s.parked then some (lay.resumes s.cpu.mem t) else none

variable {s s' s₁ s₂ s₃ : Sys τ} {t u : τ}

/-- A suspended thread is parked with what its frame on the stack says. -/
theorem Sys.view_parked (lay : Layout τ) {s : Sys τ} (ht : t ∈ s.parked) :
    (s.view lay).parked t = some (lay.resumes s.cpu.mem t) := if_pos ht

/-- The running thread, and threads that do not exist yet, are not parked. -/
theorem Sys.view_parked_of_notMem (lay : Layout τ) {s : Sys τ} (ht : t ∉ s.parked) :
    (s.view lay).parked t = none := if_neg ht

/-- Work is a step of the coroutines. -/
theorem sim_work {cpu : Cpu} {pc : Addr} (hs : s.Inv lay)
    (hwork : lay.Respects s.parked s.cpu cpu) :
    Sys.Inv lay { s with cpu := cpu, pc := pc } ∧
      Coroutines.Step (s.view lay) (Sys.view lay { s with cpu := cpu, pc := pc }) := by
  have hkept := fun t ht => (hs.waits t ht).congr (hwork.kept t ht)
  refine ⟨⟨hs.current, fun t ht => (hs.usable t ht).mono hwork.mapped, fun t ht => (hkept t ht).1⟩,
    ?_⟩
  have hview : Sys.view lay { s with cpu := cpu, pc := pc } =
      { s.view lay with live := continuation cpu pc } := by
    refine congrArg (Coroutines.State.mk _ _) (funext fun t => ?_)
    by_cases ht : t ∈ s.parked
    · rw [Sys.view_parked lay ht, if_pos ht, (hkept t ht).2]
    · rw [Sys.view_parked_of_notMem lay ht, if_neg ht]
  rw [hview]
  exact .work _

/-- The creation of a thread is a step of the coroutines: the new thread is parked with the
frame `setup_stack` made. -/
theorem sim_create (hs : s.Inv lay) (h : Sys.Creates lay u s s') :
    s'.Inv lay ∧ Coroutines.Step (s.view lay) (s'.view lay) ∧
      (s'.view lay).parked u = some ⟨frameOf s, below (topOf s) 3⟩ := by
  obtain ⟨hu, htold, cpu₁, cpu₂, pc, hrun, hwork, hframe, hs'⟩ := h
  obtain ⟨cpu₁', hrun', hmem, hmap, hrax⟩ := create_ready hs htold
  rw [hrun] at hrun'
  obtain ⟨rfl, rfl⟩ : pc = s.pc ∧ cpu₁ = cpu₁' := by simpa using hrun'
  have hothers := fun t ht => (hs.waits t ht).congr fun x hx =>
    create_others hs htold hu hmem hwork ht hx
  obtain ⟨hwaits, hnew⟩ := create_new htold hmem hrax hframe
  have hmapped : ∀ x, s.cpu.mapped x = true → cpu₂.mapped x = true := by
    rw [← hmap]
    exact hwork.mapped
  subst hs'
  refine ⟨⟨?_, ?_, ?_⟩, ?_, ?_⟩
  · exact fun h => (Finset.mem_insert.1 h).elim (fun h => htold.ne h.symm) hs.current
  · rintro t (ht | ht)
    · exact (hs.usable t (.inl ht)).mono hmapped
    · rcases Finset.mem_insert.1 ht with rfl | ht
      · exact htold.usable.mono hmapped
      · exact (hs.usable t (.inr ht)).mono hmapped
  · intro t ht
    rcases Finset.mem_insert.1 ht with rfl | ht
    · exact hwaits
    · exact (hothers t ht).1
  · have hview : Sys.view lay ⟨{ cpu₂ with mem := store cpu₂.mem (lay.field u) (cpu₁.reg .rax) },
        s.pc, s.current, insert u s.parked⟩ = { s.view lay with
          live := continuation cpu₂ s.pc
          parked := Function.update (s.view lay).parked u
            (some ⟨frameOf s, below (topOf s) 3⟩) } := by
      refine congrArg₂ (Coroutines.State.mk _) rfl (funext fun t => ?_)
      by_cases htu : t = u
      · subst htu
        rw [Function.update_self, if_pos (Finset.mem_insert_self ..), hnew]
      · rw [Function.update_of_ne htu]
        by_cases ht : t ∈ s.parked
        · rw [Sys.view_parked lay ht, if_pos (Finset.mem_insert_of_mem ht), (hothers t ht).2]
        · rw [Sys.view_parked_of_notMem lay ht, if_neg]
          exact fun h => (Finset.mem_insert.1 h).elim htu ht
    rw [hview]
    exact .start _ _ (Sys.view_parked_of_notMem lay hu) htold.ne
  · rw [Sys.view_parked lay (Finset.mem_insert_self ..), hnew]

/-- The switch is the switch of the coroutines. -/
theorem sim_switch {cpu : Cpu} {pc : Addr} (hs : s.Inv lay) (hu : u ∈ s.parked)
    (hroom : lay.Room s.cpu s.current 10) (hrdi : s.cpu.reg .rdi = lay.field s.current)
    (hrsi : s.cpu.reg .rsi = lay.place s.cpu.mem u)
    (hrun : run 0 switchThread (call s.cpu s.pc) = some (pc, cpu))
    (hs' : s' = ⟨cpu, pc, u, insert s.current (s.parked.erase u)⟩) :
    s'.Inv lay ∧ Coroutines.Step (s.view lay) (s'.view lay) := by
  obtain ⟨cpu', hrun', hmem, hmap, hlive⟩ := switch_ready hs hu hroom hrdi hrsi
  rw [hrun] at hrun'
  obtain ⟨rfl, rfl⟩ : pc = (lay.resumes s.cpu.mem u).frame.ret ∧ cpu = cpu' := by
    simpa using hrun'
  have hne : u ≠ s.current := fun h => hs.current (h ▸ hu)
  have hothers : ∀ t ∈ s.parked, lay.Waits cpu.mem t ∧
      lay.resumes cpu.mem t = lay.resumes s.cpu.mem t := by
    intro t ht
    refine (hs.waits t ht).congr fun x hx => ?_
    rw [hmem]
    exact switch_others hs hroom hrdi ht hx
  obtain ⟨hwaits, hcaller⟩ := switch_caller (s := s) (hs.usable _ (.inl rfl)).thread hroom hrdi
  rw [← hmem] at hwaits hcaller
  subst hs'
  refine ⟨⟨?_, ?_, ?_⟩, ?_⟩
  · exact fun h => (Finset.mem_insert.1 h).elim hne (Finset.notMem_erase u _)
  · rintro t (rfl | ht)
    · exact (hs.usable t (.inr hu)).mono fun x hx => hmap ▸ hx
    · refine Layout.Usable.mono ?_ fun x hx => (hmap ▸ hx : cpu.mapped x = true)
      rcases Finset.mem_insert.1 ht with rfl | ht
      · exact hs.usable _ (.inl rfl)
      · exact hs.usable t (.inr (Finset.mem_of_mem_erase ht))
  · intro t ht
    rcases Finset.mem_insert.1 ht with rfl | ht
    · exact hwaits
    · exact (hothers t (Finset.mem_of_mem_erase ht)).1
  · have hview : Sys.view lay ⟨cpu, (lay.resumes s.cpu.mem u).frame.ret, u,
        insert s.current (s.parked.erase u)⟩ = ⟨u, lay.resumes s.cpu.mem u, Function.update
          (Function.update (s.view lay).parked s.current (some (continuation s.cpu s.pc))) u
          none⟩ := by
      refine congrArg₂ (Coroutines.State.mk u) hlive (funext fun t => ?_)
      by_cases htu : t = u
      · subst htu
        rw [Function.update_self, if_neg]
        exact fun h => (Finset.mem_insert.1 h).elim hne (Finset.notMem_erase t _)
      rw [Function.update_of_ne htu]
      by_cases htc : t = s.current
      · subst htc
        rw [Function.update_self, if_pos (Finset.mem_insert_self ..), hcaller]
      rw [Function.update_of_ne htc]
      by_cases ht : t ∈ s.parked
      · rw [Sys.view_parked lay ht, if_pos, (hothers t ht).2]
        exact Finset.mem_insert_of_mem (Finset.mem_erase_of_ne_of_mem htu ht)
      · rw [Sys.view_parked_of_notMem lay ht, if_neg]
        exact fun h => (Finset.mem_insert.1 h).elim htc fun h => ht (Finset.mem_of_mem_erase h)
    rw [hview]
    exact .switch (Sys.view_parked lay hu) hne

/-- A step of the machine is a step of the coroutines it stands for. -/
theorem Sys.Step.sim (h : Sys.Step lay s s') (hs : s.Inv lay) :
    s'.Inv lay ∧ Coroutines.Step (s.view lay) (s'.view lay) := by
  cases h with
  | work hwork => exact sim_work hs hwork
  | create hnew =>
      obtain ⟨hinv, hstep, -⟩ := sim_create hs hnew
      exact ⟨hinv, hstep⟩
  | switch hu hroom hrdi hrsi hrun => exact sim_switch hs hu hroom hrdi hrsi hrun rfl

/-- What a call of `switch_thread` to `u` comes to: the flag is found where the routine looks
for it, the routine returns to the address in the frame of `u`, and it does so with the stack
pointer just above that frame, which lies on the stack of `u`. -/
structure Sys.Switches (lay : Layout τ) (u : τ) (s s' : Sys τ) : Prop where
  step : Sys.Step lay s s'
  current : s'.current = u
  flag : load (checkedMem (call s.cpu s.pc)) (s.cpu.reg .rsi) = validFlag
  returns : run 0 switchThread (call s.cpu s.pc) = some (s'.pc, s'.cpu)
  pc : s'.pc = (frameAt s.cpu.mem (s.cpu.reg .rsi)).ret
  rsp : s'.cpu.reg .rsp = s.cpu.reg .rsi + 80
  inside : ∀ x, Within x (s.cpu.reg .rsi) 80 → Within x (lay.base u) (lay.size u)

/-- With the arguments the library passes, a call of `switch_thread` comes to that. -/
theorem Sys.Inv.switches (hs : s.Inv lay) (hu : u ∈ s.parked)
    (hroom : lay.Room s.cpu s.current 10) (hrdi : s.cpu.reg .rdi = lay.field s.current)
    (hrsi : s.cpu.reg .rsi = lay.place s.cpu.mem u) : ∃ s', Sys.Switches lay u s s' := by
  obtain ⟨cpu, hrun, -, -, hlive⟩ := switch_ready hs hu hroom hrdi hrsi
  refine ⟨_, .switch hu hroom hrdi hrsi hrun, rfl, switch_flag hs hu hroom hrsi, hrun, ?_, ?_, ?_⟩
  · rw [hrsi, Layout.resumes]
  · rw [hrsi]
    exact congrArg Continuation.rsp hlive
  · rw [hrsi]
    exact (hs.waits u hu).inside

/-- The states of the runs that start with the main thread alone, whatever else is in memory
then. -/
def Reachable (lay : Layout τ) (s : Sys τ) : Prop :=
  ∃ s₀ : Sys τ, s₀.parked = ∅ ∧ lay.Usable s₀.cpu s₀.current ∧
    ReflTransGen (Sys.Step lay) s₀ s

/-- A step after which `t` does not run. A run of such steps is what a thread does not see while
it is suspended. -/
def Sys.Step.Away (lay : Layout τ) (t : τ) (s s' : Sys τ) : Prop :=
  Sys.Step lay s s' ∧ s'.current ≠ t

/-- A run that is continued by a step is a run. -/
theorem Reachable.step (h : Reachable lay s) (hstep : Sys.Step lay s s') : Reachable lay s' := by
  obtain ⟨s₀, hnone, husable, hrun⟩ := h
  exact ⟨s₀, hnone, husable, hrun.tail hstep⟩

/-- The invariant holds in every run, as it holds at the start and every step is one of the
simulation. -/
theorem Reachable.inv (h : Reachable lay s) : s.Inv lay := by
  obtain ⟨s₀, hnone, husable, hrun⟩ := h
  refine Runs.invariant_of_run hrun ⟨?_, ?_, ?_⟩ fun _ _ hs hstep => (hstep.sim hs).1
  · simp [hnone]
  · rintro t (rfl | ht)
    · exact husable
    · simp [hnone] at ht
  · simp [hnone]

/-- Steps of others are steps of other coroutines. -/
theorem sim_away (hs : s.Inv lay) (h : ReflTransGen (Sys.Step.Away lay t) s s') :
    s'.Inv lay ∧ ReflTransGen (Coroutines.Step.Away t) (s.view lay) (s'.view lay) :=
  Runs.simulation_of_run h hs fun _ _ hx hstep =>
    ⟨(hstep.1.sim hx).1, (hstep.1.sim hx).2, hstep.2⟩

/-- The registers a function keeps for its caller, and those for the first two arguments. -/
def keptRegs : List Reg := [.rsp, .rbp, .rbx, .r12, .r13, .r14, .r15, .rdi, .rsi]

/-- Two continuations that are the same have the same address and the same registers to keep. -/
theorem continuation_eq {cpu cpu' : Cpu} {pc pc' : Addr}
    (h : continuation cpu pc = continuation cpu' pc') :
    pc = pc' ∧ ∀ r ∈ keptRegs, cpu.reg r = cpu'.reg r := by
  simp only [continuation, savedFrame, Continuation.mk.injEq, Frame.mk.injEq] at h
  obtain ⟨⟨h15, h14, h13, h12, hbx, hdi, hsi, hbp, hpc⟩, hsp⟩ := h
  simp only [keptRegs, List.forall_mem_cons, List.not_mem_nil, false_imp_iff, implies_true,
    and_true]
  exact ⟨hpc, hsp, hbp, hbx, h12, h13, h14, h15, hdi, hsi⟩

/-! ### Two threads

A main thread that creates another, switches to it, and is switched back to.
-/

/-- The two threads of the example. -/
theorem eq_zero_or_one {t : ℕ} (h : t < 2) : t = 0 ∨ t = 1 := by omega

/-- Two stacks, 64 KB apart. -/
def pairBase (t : ℕ) : Addr := if t = 0 then 0x10000 else 0x20000

/-- Two fields next to each other. -/
def pairField (t : ℕ) : Addr := if t = 0 then 0x40000 else 0x40008

section Pair

variable {t u : ℕ}

/-- Neither thread has its field at the null address. -/
theorem pairField_ne (t : ℕ) : pairField t ≠ 0 := by
  rw [pairField]
  split <;> decide

/-- The two stacks do not overlap. -/
theorem pairBase_apart (ht : t < 2) (hu : u < 2) (h : t ≠ u) :
    Apart (pairBase t) 0x1000 (pairBase u) 0x1000 := by
  intro x hx hx'
  rcases eq_zero_or_one ht with rfl | rfl <;> rcases eq_zero_or_one hu with rfl | rfl <;>
    simp [Within, pairBase] at * <;> bv_omega

/-- Nor do the two fields. -/
theorem pairField_apart (ht : t < 2) (hu : u < 2) (h : t ≠ u) :
    Apart (pairField t) 8 (pairField u) 8 := by
  intro x hx hx'
  rcases eq_zero_or_one ht with rfl | rfl <;> rcases eq_zero_or_one hu with rfl | rfl <;>
    simp [Within, pairField] at * <;> bv_omega

/-- Nor does a field overlap a stack. -/
theorem pairField_apart_pairBase (ht : t < 2) (hu : u < 2) :
    Apart (pairField t) 8 (pairBase u) 0x1000 := by
  intro x hx hx'
  rcases eq_zero_or_one ht with rfl | rfl <;> rcases eq_zero_or_one hu with rfl | rfl <;>
    simp [Within, pairField, pairBase] at * <;> bv_omega

end Pair

/-- A stack of one page does not wrap around the address space. -/
theorem page_le (_ : ℕ) : 0x1000 ≤ 2 ^ 64 := by decide

/-- Two stacks of a page, and two fields. -/
def pairLayout : Layout ℕ where
  threads := {t | t < 2}
  base := pairBase
  size _ := 0x1000
  field := pairField
  size_le := page_le
  field_ne := pairField_ne
  stacksApart _ ht _ hu := pairBase_apart ht hu
  fieldsApart _ ht _ hu := pairField_apart ht hu
  fieldStack _ ht _ hu := pairField_apart_pairBase ht hu

/-- The main thread, about to create the other one for a function at `0x5000`. -/
def pairStart : Sys ℕ where
  cpu :=
    { reg := fun r => match r with
        | .rsp => 0x10800
        | .rdi => 0x20000
        | .rsi => 0x1000
        | .rdx => 0x5000
        | .rcx => 7
        | .r8 => 9
        | _ => 0
      zero := false
      mem := fun _ => 0
      mapped := fun _ => true }
  pc := 0x4000
  current := 0
  parked := ∅

/-- The example starts with the main thread alone. -/
theorem pairStart_reachable : Reachable pairLayout pairStart :=
  ⟨pairStart, rfl, ⟨Nat.two_pos, fun _ _ => rfl, fun _ _ => rfl⟩, .refl⟩

/-- What the main thread tells `setup_stack` about the other stack is true. -/
theorem pairStart_told : pairLayout.Told pairStart 1 where
  ne := by decide
  usable := ⟨Nat.one_lt_two, fun _ _ => rfl, fun _ _ => rfl⟩
  room x hx := by
    simp [Within, pairStart, pairLayout, pairBase, below] at *
    bv_omega
  rdi := rfl
  rsi := by decide
  enough := by simp [pairLayout]

/-- The running code prepares a call of `switch_thread` to the other thread. -/
def Sys.prepares (s : Sys ℕ) : Sys ℕ :=
  { s with cpu := { s.cpu with
      reg := fun r => match r with
        | .rsp => pairLayout.base s.current + 0x800
        | .rdi => pairLayout.field s.current
        | .rsi => pairLayout.place s.cpu.mem (1 - s.current)
        | _ => 1 } }

/-- It does so without touching anything. -/
theorem Sys.prepares_step (s : Sys ℕ) : Sys.Step pairLayout s s.prepares :=
  .work ⟨fun _ h => h, fun _ _ _ _ => rfl⟩

/-- The stack pointer it prepares is in the middle of its stack, far from the end. -/
theorem Sys.prepares_room (s : Sys ℕ) : pairLayout.Room s.prepares.cpu s.current 10 := by
  intro x hx
  change Within x (below (pairLayout.base s.current + 0x800) 10) 80 at hx
  change Within x (pairLayout.base s.current) 0x1000
  rw [Within, below] at *
  bv_omega

/-- The call it prepared switches to the other thread. -/
theorem Sys.prepares_switch {s : Sys ℕ} (hs : Reachable pairLayout s)
    (hu : (1 - s.current) ∈ s.parked) : ∃ s', Sys.Step pairLayout s.prepares s' ∧
      s'.current = 1 - s.current ∧ s.current ∈ s'.parked := by
  obtain ⟨cpu, hrun, -⟩ := switch_ready (hs.step s.prepares_step).inv hu s.prepares_room rfl rfl
  exact ⟨_, .switch hu s.prepares_room rfl rfl hrun, rfl, Finset.mem_insert_self ..⟩

/-- The main thread creates the other one. -/
theorem pair_made : ∃ s, Sys.Creates pairLayout 1 pairStart s ∧ s.current = 0 ∧
    (1 - s.current) ∈ s.parked := by
  obtain ⟨cpu, hrun, -⟩ := create_ready pairStart_reachable.inv pairStart_told
  exact ⟨_, ⟨Finset.notMem_empty _, pairStart_told, cpu, cpu, _, hrun,
    ⟨fun _ h => h, fun _ _ _ _ => rfl⟩, fun _ _ => rfl, rfl⟩, rfl, Finset.mem_insert_self ..⟩

/-! ### What a thread finds -/

/-- **Away and back.** A thread that calls `switch_thread` and is switched back to, after any
number of steps and switches of others, goes on behind its call with its stack pointer and the
registers a function keeps as they were. The others may write anything but the frames and the
fields of suspended threads. -/
theorem switch_thread_resumes (hs : Reachable lay s) (hout : Sys.Step lay s s₁)
    (hne : s₁.current ≠ s.current)
    (haway : ReflTransGen (Sys.Step.Away lay s.current) s₁ s₂) (hin : Sys.Step lay s₂ s₃)
    (hback : s₃.current = s.current) :
    s₃.pc = s.pc ∧ ∀ r ∈ keptRegs, s₃.cpu.reg r = s.cpu.reg r := by
  obtain ⟨hinv₁, hstep₁⟩ := hout.sim hs.inv
  obtain ⟨hinv₂, hrun⟩ := sim_away hinv₁ haway
  exact continuation_eq
    (Coroutines.live_of_resumed hstep₁ hne hrun (hin.sim hinv₂).2 hback)

/-- The main thread, switched away from and switched back to. -/
theorem switch_thread_resumes_pair : ∃ s s₁ s₂ s₃ : Sys ℕ,
    Sys.Step pairLayout s s₁ ∧ s₁.current ≠ s.current ∧ Sys.Step pairLayout s₁ s₂ ∧
      Sys.Step pairLayout s₂ s₃ ∧ s₃.pc = s.pc ∧ ∀ r ∈ keptRegs, s₃.cpu.reg r = s.cpu.reg r := by
  obtain ⟨s, hnew, hmain, hu⟩ := pair_made
  have hs := pairStart_reachable.step (.create hnew)
  obtain ⟨s₁, hout, hcur, hparked⟩ := Sys.prepares_switch hs hu
  have hs' := hs.step s.prepares_step
  obtain ⟨s₃, hin, hback, -⟩ :=
    Sys.prepares_switch (hs'.step hout) (by simpa [hcur, hmain] using hparked)
  have hne : s₁.current ≠ s.prepares.current := by simp [hcur, hmain, Sys.prepares]
  refine ⟨s.prepares, s₁, s₁.prepares, s₃, hout, hne, s₁.prepares_step, hin, ?_⟩
  exact switch_thread_resumes hs' hout hne (.single ⟨s₁.prepares_step, hne⟩) hin
    (by simp [hback, hcur, hmain, Sys.prepares])

/-- **The first entry.** A thread that was set up enters the function it was set up for when
it is first switched to, with the two arguments, on its own stack, the stack pointer as the
calling convention has it at the entry of a function. -/
theorem switch_thread_enters (hs : Reachable lay s) (hnew : Sys.Creates lay u s s₁)
    (haway : ReflTransGen (Sys.Step.Away lay u) s₁ s₂) (hin : Sys.Step lay s₂ s₃)
    (hto : s₃.current = u) :
    s₃.pc = s.cpu.reg .rdx ∧ s₃.cpu.reg .rdi = s.cpu.reg .rcx ∧
      s₃.cpu.reg .rsi = s.cpu.reg .r8 ∧ (s₃.cpu.reg .rsp).toNat % 16 = 8 ∧
      Within (s₃.cpu.reg .rsp) (lay.base u) (lay.size u) := by
  obtain ⟨hinv, -, hparked⟩ := sim_create hs.inv hnew
  obtain ⟨-, htold, cpu₁, cpu₂, pc, -, -, -, hs₁⟩ := hnew
  have hcur : s₁.current ≠ u := by
    rw [hs₁]
    exact htold.ne.symm
  obtain ⟨hinv₂, haway'⟩ := sim_away hinv haway
  have hlive := Coroutines.live_of_started hparked hcur haway' (hin.sim hinv₂).2 hto
  change continuation s₃.cpu s₃.pc = _ at hlive
  simp only [continuation, savedFrame, frameOf, freshFrame, Continuation.mk.injEq,
    Frame.mk.injEq] at hlive
  obtain ⟨⟨-, -, -, -, -, hdi, hsi, -, hpc⟩, hsp⟩ := hlive
  refine ⟨hpc, hdi, hsi, ?_, hsp ▸ htold.within ?_⟩
  · rw [hsp]
    exact below_stackTop_mod _ _
  · rw [Within, below, below]
    bv_omega

/-- The new thread enters the function at `0x5000` with 7 and 9. -/
theorem switch_thread_enters_pair : ∃ s₃ : Sys ℕ,
    s₃.pc = 0x5000 ∧ s₃.cpu.reg .rdi = 7 ∧ s₃.cpu.reg .rsi = 9 ∧
      (s₃.cpu.reg .rsp).toNat % 16 = 8 ∧
      Within (s₃.cpu.reg .rsp) (pairLayout.base 1) (pairLayout.size 1) := by
  obtain ⟨s, hnew, hmain, hu⟩ := pair_made
  obtain ⟨s₃, hin, hto, -⟩ := Sys.prepares_switch (pairStart_reachable.step (.create hnew)) hu
  have henter := switch_thread_enters pairStart_reachable hnew
    (.single ⟨s.prepares_step, show s.current ≠ 1 by simp [hmain]⟩) hin (by simp [hto, hmain])
  exact ⟨s₃, henter⟩

/-- **No fault.** From every reachable state with room for ten words on the running thread's
stack, a call of `switch_thread` with the running thread's field and the saved stack pointer
of a suspended thread passes the check of the flag, touches no unmapped memory and returns on
the stack of that thread. -/
theorem switch_thread_runs (hs : Reachable lay s) (hu : u ∈ s.parked)
    (hroom : lay.Room s.cpu s.current 10) (hrdi : s.cpu.reg .rdi = lay.field s.current)
    (hrsi : s.cpu.reg .rsi = lay.place s.cpu.mem u) : ∃ s', Sys.Switches lay u s s' :=
  hs.inv.switches hu hroom hrdi hrsi

/-- The first switch to the new thread finds its flag and its frame. -/
theorem switch_thread_runs_pair : ∃ s s' : Sys ℕ, s.current = 0 ∧
    Sys.Switches pairLayout 1 s s' := by
  obtain ⟨s, hnew, hcur, hu⟩ := pair_made
  obtain ⟨s', hswitch⟩ := switch_thread_runs
    ((pairStart_reachable.step (.create hnew)).step s.prepares_step) hu s.prepares_room rfl rfl
  rw [hcur] at hswitch
  exact ⟨s.prepares, s', hcur, hswitch⟩

end SystemsProjects.Qthreads.Switch
