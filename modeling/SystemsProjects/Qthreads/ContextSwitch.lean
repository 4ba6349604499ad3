import SystemsProjects.Library.X86

/-!
# The Two Routines of `switch-x86_64.S`

`setup_stack` and `switch_thread` as the instructions they are written in. A suspended
thread is nine words and a return address on its own stack, a flag lowest: `setup_stack`
writes such a frame for a function that has not been entered yet, `switch_thread` pushes
one for its caller, and pops the one its second argument points at.

## Main definitions

* `setupStack`, `switchThread`: the routines.
* `Frame`, `freshFrame`, `savedFrame`: what lies on the stack of a suspended thread.

## Main results

* `setupStack_run`: the routine leaves the frame of a call of the function.
* `switchThread_run`: the routine returns where the frame it pops says, with the registers
  it says, and leaves the frame of its own call.
-/

namespace SystemsProjects.Qthreads.Switch

open ByteMemory X86

/-- The flag value lowest on the stack of a suspended thread. Where `switch_thread` does not
find it, it reads from the null pointer. -/
def validFlag : Word := 0xA5A5A5A5A5A5A5A5

/-- The word that fills the guard zone at the top of a new stack. Nothing tests for it. -/
def guardZone : Word := 0x3A3A3A3A3A3A3A3A

/-- `setup_stack(_stack, len, func, arg1, arg2)`. It runs on the stack of its caller and writes
to the one that it is given. -/
def setupStack : List Instr := [
  .endbr64,
  .movslq .rsi .rsi,
  .add (.reg .rsi) (.reg .rdi),
  .and (.imm (-16)) (.reg .rdi),
  .mov (.imm 4195730024608447034) (.reg .rax),
  .mov (.reg .rax) (.mem (-8) .rdi),
  .mov (.reg .rax) (.mem (-16) .rdi),
  .mov (.reg .rax) (.mem (-24) .rdi),
  .mov (.reg .rdx) (.mem (-32) .rdi),
  .mov (.reg .rdi) (.mem (-40) .rdi),
  .mov (.reg .r8) (.mem (-48) .rdi),
  .mov (.reg .rcx) (.mem (-56) .rdi),
  .mov (.imm 0) (.mem (-64) .rdi),
  .mov (.imm 0) (.mem (-72) .rdi),
  .mov (.imm 0) (.mem (-80) .rdi),
  .mov (.imm 0) (.mem (-88) .rdi),
  .mov (.imm 0) (.mem (-96) .rdi),
  .mov (.imm (-6510615555426900571)) (.reg .rax),
  .mov (.reg .rax) (.mem (-104) .rdi),
  .lea (-104) .rdi .rax,
  .ret]

/-- `switch_thread(location_for_old_sp, new_value)`. The two jumps are `je ok` and
`je skip`. -/
def switchThread : List Instr := [
  .push .rbp,
  .mov (.reg .rsp) (.reg .rbp),
  .mov (.imm 0xA5A5A5A5A5A5A5A5) (.reg .rax),
  .cmp (.reg .rax) (.mem 0 .rsi),
  .je 2,
  .mov (.imm 0) (.reg .rax),
  .mov (.mem 0 .rax) (.reg .rax),
  .push .rsi,
  .push .rdi,
  .push .rbx,
  .push .r12,
  .push .r13,
  .push .r14,
  .push .r15,
  .mov (.imm 0xA5A5A5A5A5A5A5A5) (.reg .rax),
  .push .rax,
  .cmp (.imm 0) (.reg .rdi),
  .je 1,
  .mov (.reg .rsp) (.mem 0 .rdi),
  .mov (.reg .rsi) (.reg .rsp),
  .pop .rax,
  .pop .r15,
  .pop .r14,
  .pop .r13,
  .pop .r12,
  .pop .rbx,
  .pop .rdi,
  .pop .rsi,
  .pop .rbp,
  .ret]

/-- The words on the stack of a suspended thread, from the flag's successor upwards: the
registers in the order in which they are popped, and the return address. -/
structure Frame where
  r15 : Word
  r14 : Word
  r13 : Word
  r12 : Word
  rbx : Word
  rdi : Word
  rsi : Word
  rbp : Word
  ret : Addr
  deriving DecidableEq

/-- The words of a frame, the flag first. -/
def Frame.words (f : Frame) : List Word :=
  [validFlag, f.r15, f.r14, f.r13, f.r12, f.rbx, f.rdi, f.rsi, f.rbp, f.ret]

/-- A frame has the flag, eight registers, and the return address. -/
@[simp] theorem Frame.length_words (f : Frame) : f.words.length = 10 := rfl

/-- The registers the frame is popped into hold its words. -/
structure Frame.Restored (f : Frame) (s : Cpu) : Prop where
  r15 : s.reg .r15 = f.r15
  r14 : s.reg .r14 = f.r14
  r13 : s.reg .r13 = f.r13
  r12 : s.reg .r12 = f.r12
  rbx : s.reg .rbx = f.rbx
  rdi : s.reg .rdi = f.rdi
  rsi : s.reg .rsi = f.rsi
  rbp : s.reg .rbp = f.rbp

/-- The frame of a call of `switch_thread`, as the machine is when it is entered. The return
address is that of the call. -/
def savedFrame (s : Cpu) : Frame where
  r15 := s.reg .r15
  r14 := s.reg .r14
  r13 := s.reg .r13
  r12 := s.reg .r12
  rbx := s.reg .rbx
  rdi := s.reg .rdi
  rsi := s.reg .rsi
  rbp := s.reg .rbp
  ret := load s.mem (s.reg .rsp)

/-- The frame of a function that is still to be entered, on a stack with this top. The two
arguments wait in the places of `rdi` and `rsi`. -/
def freshFrame (top func arg1 arg2 : Word) : Frame where
  r15 := 0
  r14 := 0
  r13 := 0
  r12 := 0
  rbx := 0
  rdi := arg1
  rsi := arg2
  rbp := top
  ret := func

/-- The top of a new stack: its end, rounded down to a multiple of 16. The length is taken
as a C `int`. -/
def stackTop (stack len : Word) : Addr := (stack + (len.setWidth 32).signExtend 64) &&& -16

/-- Clearing the last four bits rounds down to a multiple of 16. -/
theorem toNat_and_neg_sixteen (a : Word) : (a &&& (-16 : Word)).toNat = a.toNat / 16 * 16 := by
  have hlow : ∀ i < 4, (-16 : Word).getLsbD i = false := by decide
  have hhigh : ∀ i < 64, ¬i < 4 → (-16 : Word).getLsbD i = true := by decide
  have h : a &&& (-16 : Word) = (a >>> 4) <<< 4 := by
    ext i hi
    rw [BitVec.getElem_and, BitVec.getElem_shiftLeft, ← BitVec.getLsbD_eq_getElem (x := -16)]
    by_cases h4 : i < 4
    · rw [hlow i h4]
      simp [h4]
    · rw [hhigh i hi h4]
      simp [h4, ← BitVec.getLsbD_eq_getElem, show 4 + (i - 4) = i by omega]
  rw [h, BitVec.toNat_shiftLeft, BitVec.toNat_ushiftRight, Nat.shiftRight_eq_div_pow,
    Nat.shiftLeft_eq]
  have := a.isLt
  omega

/-- Three words below the top, the stack is as it is at the entry of a function: a word off
a multiple of 16. -/
theorem below_stackTop_mod (stack len : Word) : (below (stackTop stack len) 3).toNat % 16 = 8 := by
  have htop := toNat_and_neg_sixteen (stack + (len.setWidth 32).signExtend 64)
  rw [← stackTop] at htop
  rw [below]
  bv_omega

/-- What `setup_stack` writes lies on the stack, if that is large enough. -/
theorem within_of_within_stackTop {stack len x : Word} {n : ℕ}
    (hlen : (len.setWidth 32).signExtend 64 = BitVec.ofNat 64 n) (hn : 120 ≤ n)
    (hlt : n ≤ 2 ^ 64) (hx : Within x (below (stackTop stack len) 13) 104) :
    Within x stack n := by
  have htop : (stackTop stack len).toNat = (stack + BitVec.ofNat 64 n).toNat / 16 * 16 := by
    rw [stackTop, hlen, toNat_and_neg_sixteen]
  rw [Within, below] at *
  generalize stackTop stack len = top at *
  clear hlen
  bv_omega

variable {s : Cpu}

/-- Both ranges are far from each other. -/
def Apart (a : Addr) (n : ℕ) (b : Addr) (k : ℕ) : Prop := ∀ x, Within x a n → ¬Within x b k

/-- The first instructions of `setup_stack` compute the top of the stack. -/
theorem setupStack_top (s : Cpu) : ∃ s₁ : Cpu,
    (∀ code, run 0 (setupStack.take 5 ++ code) s = run 0 code s₁) ∧
      s₁.mem = s.mem ∧ s₁.mapped = s.mapped ∧
      s₁.reg .rdi = stackTop (s.reg .rdi) (s.reg .rsi) ∧ s₁.reg .rax = guardZone ∧
      ∀ r, r ≠ .rax → r ≠ .rdi → r ≠ .rsi → s₁.reg r = s.reg r := by
  refine ⟨_, fun code => rfl, rfl, rfl, ?_, ?_, ?_⟩
  · rfl
  · rfl
  · intro r ha hd hs
    simp only [Cpu.set_reg_of_ne ha, Cpu.set_reg_of_ne hd, Cpu.set_reg_of_ne hs]

/-- The words `setup_stack` writes, from the top of the stack downwards. -/
def setupWords (top func arg1 arg2 : Word) : List Word :=
  [guardZone, guardZone, guardZone] ++ (freshFrame top func arg1 arg2).words.reverse

/-- A new stack gets thirteen words: three of the guard zone, and a frame. -/
@[simp] theorem length_setupWords (top func arg1 arg2 : Word) :
    (setupWords top func arg1 arg2).length = 13 := rfl

/-- The stores of `setup_stack`. -/
theorem setupStack_stores {top : Addr} (htop : top = stackTop (s.reg .rdi) (s.reg .rsi))
    (hm : s.Mapped (below top 13) 104) : ∃ s₂ : Cpu,
      run 0 setupStack s = run 0 [.lea (-104) .rdi .rax, .ret] s₂ ∧
      s₂.mem = storeDown s.mem top (setupWords top (s.reg .rdx) (s.reg .rcx) (s.reg .r8)) ∧
      s₂.mapped = s.mapped ∧ s₂.reg .rdi = top ∧
      ∀ r, r ≠ .rax → r ≠ .rdi → r ≠ .rsi → s₂.reg r = s.reg r := by
  obtain ⟨s₁, hrun₁, hmem₁, hmap₁, hrdi, hrax, hreg₁⟩ := setupStack_top s
  rw [← htop] at hrdi
  have hm₁ : s₁.Mapped (below top 13) 104 := fun x hx => hmap₁ ▸ hm x hx
  have hm₁₂ : s₁.Mapped (below top 12) 96 := hm₁.below (k := 12) (m := 12) (n := 1)
    (by omega) (by omega)
  have hm₁₃ : s₁.Mapped (below top 13) 8 := hm₁.below (k := 13) (m := 1) (n := 0)
    (by omega) (by omega)
  -- twelve words, and then the flag
  have hrow := run_storeRow (s := s₁) .rdi 0
    [.reg .rax, .reg .rax, .reg .rax, .reg .rdx, .reg .rdi, .reg .r8, .reg .rcx,
      .imm 0, .imm 0, .imm 0, .imm 0, .imm 0]
    [guardZone, guardZone, guardZone, s.reg .rdx, top, s.reg .r8, s.reg .rcx, 0, 0, 0, 0, 0]
    [.mov (.imm validFlag) (.reg .rax), .mov (.reg .rax) (.mem (-104) .rdi),
      .lea (-104) .rdi .rax, .ret]
    (by simp [Operand.plain, hrax, hrdi, hreg₁]) (by simp) (by rw [hrdi]; exact hm₁₂)
  obtain ⟨s₂, hs₂⟩ : ∃ s₂ : Cpu, s₂ = ({ s₁ with
      mem := storeDown s₁.mem (below (s₁.reg .rdi) 0) [guardZone, guardZone, guardZone,
        s.reg .rdx, top, s.reg .r8, s.reg .rcx, 0, 0, 0, 0, 0] } : Cpu).set .rax validFlag :=
    ⟨_, rfl⟩
  have hrdi₂ : s₂.reg .rdi = top := by rw [hs₂]; exact hrdi
  have hreg₂ : ∀ r, r ≠ .rax → r ≠ .rdi → r ≠ .rsi → s₂.reg r = s.reg r := by
    intro r ha hd hs
    rw [hs₂, Cpu.set_reg_of_ne ha, ← hreg₁ r ha hd hs]
  have hflag := run_storeRow (s := s₂) .rdi 12 [.reg .rax] [validFlag]
    [.lea (-104) .rdi .rax, .ret] (by simp [Operand.plain, hs₂]) (by simp)
    (by rw [hrdi₂, hs₂]; exact hm₁₃)
  refine ⟨{ s₂ with mem := storeDown s₂.mem (below (s₂.reg .rdi) 12) [validFlag] },
    ?_, ?_, ?_, hrdi₂, hreg₂⟩
  · rw [← hflag]
    refine Eq.trans (hrun₁ _) (hrow.trans ?_)
    rw [hs₂]
    rfl
  · have hwords : setupWords top (s.reg .rdx) (s.reg .rcx) (s.reg .r8) = [guardZone, guardZone,
        guardZone, s.reg .rdx, top, s.reg .r8, s.reg .rcx, 0, 0, 0, 0, 0] ++ [validFlag] := rfl
    rw [hrdi₂, hs₂, Cpu.set_mem, hrdi, below_zero, hmem₁, hwords, storeDown_append]
    rfl
  · rw [hs₂]
    exact hmap₁

/-- **`setup_stack`.** The routine returns the place of the frame it has written below the
top of the stack, and changes nothing else in memory. -/
theorem setupStack_run {top : Addr} (htop : top = stackTop (s.reg .rdi) (s.reg .rsi))
    (hm : s.Mapped (below top 13) 104) (hret : s.accessible (s.reg .rsp) = true)
    (hsep : Apart (s.reg .rsp) 8 (below top 13) 104) :
    ∃ s', run 0 setupStack s = some (load s.mem (s.reg .rsp), s') ∧
      s'.mem = storeDown s.mem top (setupWords top (s.reg .rdx) (s.reg .rcx) (s.reg .r8)) ∧
      s'.mapped = s.mapped ∧ s'.reg .rax = below top 13 ∧ s'.reg .rsp = s.reg .rsp + 8 ∧
      ∀ r, r ≠ .rax → r ≠ .rdi → r ≠ .rsi → r ≠ .rsp → s'.reg r = s.reg r := by
  obtain ⟨s₂, hrun, hmem, hmap, hrdi, hreg⟩ := setupStack_stores htop hm
  have hrsp := hreg .rsp (by decide) (by decide) (by decide)
  have hacc : s₂.accessible (s.reg .rsp) = true := by
    simpa only [Cpu.accessible, hmap] using hret
  have hload : load s₂.mem (s.reg .rsp) = load s.mem (s.reg .rsp) := by
    rw [hmem]
    exact load_congr fun x hx => storeDown_apply (by simp) (hsep x hx)
  refine ⟨(s₂.set .rax (below top 13)).set .rsp (s.reg .rsp + 8), hrun.trans ?_, hmem, hmap,
    ?_, Cpu.set_reg_self, fun r ha hd hs hsp => ?_⟩
  · have hlea : exec (.lea (-104) .rdi .rax) s₂ = some (.fall, s₂.set .rax (below top 13)) := by
      rw [exec, hrdi, show (-104 : Word) = -BitVec.ofNat 64 (8 * 13) from rfl, add_neg_eq_below]
    rw [run_cons hlea, run]
    simp only [exec, Cpu.set_reg_of_ne (show Reg.rsp ≠ .rax by decide), hrsp, Cpu.readMem,
      Cpu.set_accessible, hacc, if_true, Cpu.set_mem, hload, Option.bind_eq_bind,
      Option.bind_some, Option.pure_def]
  · rw [Cpu.set_reg_of_ne (by decide), Cpu.set_reg_self]
  · rw [Cpu.set_reg_of_ne hsp, Cpu.set_reg_of_ne ha, hreg r ha hd hs]

/-! ### The switch -/

/-- The words `switch_thread` pushes for its caller, from the return address downwards. -/
def pushedWords (s : Cpu) : List Word :=
  [s.reg .rbp, s.reg .rsi, s.reg .rdi, s.reg .rbx, s.reg .r12, s.reg .r13, s.reg .r14,
    s.reg .r15, validFlag]

/-- The call pushes nine words, as the return address is on the stack already. -/
@[simp] theorem length_pushedWords (s : Cpu) : (pushedWords s).length = 9 := rfl

/-- The memory in which `switch_thread` checks the flag: the caller's `rbp` has been pushed, and
nothing else has been written yet. -/
def checkedMem (s : Cpu) : Memory := storeDown s.mem (s.reg .rsp) [s.reg .rbp]

/-- The first instructions of `switch_thread` check the flag of the stack to be switched
to. -/
theorem switchThread_checks (hm : s.Mapped (below (s.reg .rsp) 9) 72)
    (hacc : s.accessible (s.reg .rsi) = true) (hflag : load s.mem (s.reg .rsi) = validFlag)
    (hsep : Apart (s.reg .rsi) 8 (below (s.reg .rsp) 9) 72) : ∃ s₁ : Cpu,
      run 0 switchThread s = run 0 (switchThread.drop 7) s₁ ∧
      s₁.mem = checkedMem s ∧ s₁.mapped = s.mapped ∧
      s₁.reg .rsp = below (s.reg .rsp) 1 ∧
      ∀ r, r ≠ .rsp → r ≠ .rbp → r ≠ .rax → s₁.reg r = s.reg r := by
  have hm₁ : s.Mapped (below (s.reg .rsp) 1) 8 :=
    hm.below (k := 1) (m := 1) (n := 8) (by omega) (by omega)
  have hpush := run_pushes (s := s) [.rbp] (switchThread.drop 1) (by decide) (by simp) hm₁
  obtain ⟨s₁, hs₁⟩ : ∃ s₁, s₁ = ((s.pushAll [.rbp]).set .rbp (below (s.reg .rsp) 1)).set .rax
    validFlag := ⟨_, rfl⟩
  have hrsi : s₁.reg .rsi = s.reg .rsi := by
    simp [hs₁, Cpu.pushAll]
  have hrax : s₁.reg .rax = validFlag := by simp [hs₁]
  have hload : s₁.readMem (s.reg .rsi) = some validFlag := by
    rw [Cpu.readMem_of_accessible (by rw [hs₁]; exact hacc), ← hflag, hs₁]
    refine congrArg some (load_congr fun x hx => storeDown_apply (by simp) fun hx' => ?_)
    refine hsep x hx (Within.below (k := 1) (n := 8) hx' (by omega))
  have hmov : exec (.mov (.reg .rsp) (.reg .rbp)) (s.pushAll [.rbp]) =
      some (.fall, (s.pushAll [.rbp]).set .rbp (below (s.reg .rsp) 1)) := rfl
  have hflag' : exec (.mov (.imm validFlag) (.reg .rax))
      ((s.pushAll [.rbp]).set .rbp (below (s.reg .rsp) 1)) = some (.fall, s₁) := by
    rw [hs₁]
    rfl
  have hcmp : exec (.cmp (.reg .rax) (.mem 0 .rsi)) s₁ =
      some (.fall, { s₁ with zero := true }) := by
    simp [exec, Cpu.read, hrsi, hrax, hload]
  refine ⟨{ s₁ with zero := true }, ?_, ?_, ?_, ?_, ?_⟩
  · refine hpush.trans ?_
    rw [show switchThread.drop 1 = .mov (.reg .rsp) (.reg .rbp) :: .mov (.imm validFlag) (.reg .rax)
      :: .cmp (.reg .rax) (.mem 0 .rsi) :: .je 2 :: switchThread.drop 5 from rfl,
      run_cons hmov, run_cons hflag', run_cons hcmp, run_je]
    rfl
  · rw [hs₁]
    rfl
  · rw [hs₁]
    rfl
  · simp [hs₁, Cpu.pushAll]
  · intro r hsp hbp ha
    simp [hs₁, Cpu.pushAll, hsp, hbp, ha]

/-- The next instructions leave the frame of the caller below its stack pointer. -/
theorem switchThread_saves (hm : s.Mapped (below (s.reg .rsp) 9) 72)
    (hacc : s.accessible (s.reg .rsi) = true) (hflag : load s.mem (s.reg .rsi) = validFlag)
    (hsep : Apart (s.reg .rsi) 8 (below (s.reg .rsp) 9) 72) : ∃ s₂ : Cpu,
      run 0 switchThread s = run 0 (switchThread.drop 16) s₂ ∧
      s₂.mem = storeDown s.mem (s.reg .rsp) (pushedWords s) ∧ s₂.mapped = s.mapped ∧
      s₂.reg .rsp = below (s.reg .rsp) 9 ∧
      ∀ r, r ≠ .rsp → r ≠ .rbp → r ≠ .rax → s₂.reg r = s.reg r := by
  obtain ⟨s₁, hrun₁, hmem₁, hmap₁, hrsp₁, hreg₁⟩ := switchThread_checks hm hacc hflag hsep
  have hm₁ : s₁.Mapped (below (s.reg .rsp) 9) 72 := fun x hx => hmap₁ ▸ hm x hx
  have hm₈ : s₁.Mapped (below (s.reg .rsp) 8) 56 :=
    hm₁.below (k := 8) (m := 7) (n := 1) (by omega) (by omega)
  have hm₉ : s₁.Mapped (below (s.reg .rsp) 9) 8 :=
    hm₁.below (k := 9) (m := 1) (n := 0) (by omega) (by omega)
  -- seven registers, and then the flag
  have hrow := run_pushes (s := s₁) [.rsi, .rdi, .rbx, .r12, .r13, .r14, .r15]
    (switchThread.drop 14) (by decide) (by simp) (by rw [hrsp₁, below_below]; exact hm₈)
  obtain ⟨s₂, hs₂⟩ : ∃ s₂ : Cpu, s₂ =
      (s₁.pushAll [.rsi, .rdi, .rbx, .r12, .r13, .r14, .r15]).set .rax validFlag := ⟨_, rfl⟩
  have hrsp₂ : s₂.reg .rsp = below (s.reg .rsp) 8 := by
    simp [hs₂, Cpu.pushAll, hrsp₁, below_below]
  have hlast := run_pushes (s := s₂) [.rax] (switchThread.drop 16) (by decide) (by simp)
    (by rw [hrsp₂, below_below, hs₂]; exact hm₉)
  refine ⟨s₂.pushAll [.rax], hrun₁.trans (hrow.trans ?_), ?_, ?_, ?_, fun r hsp hbp ha => ?_⟩
  · rw [← hlast, show switchThread.drop 14 =
      .mov (.imm validFlag) (.reg .rax) :: switchThread.drop 15 from rfl,
      run_cons (by rw [exec, Cpu.read]; rfl), hs₂]
    rfl
  · have hwords : s₂.mem = storeDown s₁.mem (below (s.reg .rsp) 1) [s.reg .rsi, s.reg .rdi,
        s.reg .rbx, s.reg .r12, s.reg .r13, s.reg .r14, s.reg .r15] := by
      simp [hs₂, Cpu.pushAll, hrsp₁, hreg₁]
    have hsplit : pushedWords s = [s.reg .rbp] ++ ([s.reg .rsi, s.reg .rdi, s.reg .rbx,
        s.reg .r12, s.reg .r13, s.reg .r14, s.reg .r15] ++ [validFlag]) := rfl
    rw [hsplit, storeDown_append, storeDown_append, List.length_singleton, below_below]
    simp only [Cpu.pushAll, hwords, hmem₁, hrsp₂, List.map_cons, List.map_nil]
    rw [show s₂.reg .rax = validFlag by rw [hs₂, Cpu.set_reg_self]]
    rfl
  · rw [hs₂]
    exact hmap₁
  · simp [Cpu.pushAll, hrsp₂, below_below]
  · simp [hs₂, Cpu.pushAll, hsp, hbp, ha, hreg₁]

/-- The memory `switch_thread` leaves: the frame of its caller, and its place recorded, if
there is a place to record it in. -/
def switchedMem (s : Cpu) : Memory :=
  let m := storeDown s.mem (s.reg .rsp) (pushedWords s)
  if s.reg .rdi = 0 then m else store m (s.reg .rdi) (below (s.reg .rsp) 9)

/-- The last instructions record the place of the caller's frame and go to the other stack. -/
theorem switchThread_records (hm : s.Mapped (below (s.reg .rsp) 9) 72)
    (hacc : s.accessible (s.reg .rsi) = true) (hflag : load s.mem (s.reg .rsi) = validFlag)
    (hsep : Apart (s.reg .rsi) 8 (below (s.reg .rsp) 9) 72)
    (hold : s.reg .rdi ≠ 0 → s.accessible (s.reg .rdi) = true) : ∃ s₃ : Cpu,
      run 0 switchThread s = run 0 (switchThread.drop 20) s₃ ∧
      s₃.mem = switchedMem s ∧ s₃.mapped = s.mapped ∧ s₃.reg .rsp = s.reg .rsi := by
  obtain ⟨s₂, hrun₂, hmem₂, hmap₂, hrsp₂, hreg₂⟩ := switchThread_saves hm hacc hflag hsep
  have hrdi : s₂.reg .rdi = s.reg .rdi := hreg₂ .rdi (by decide) (by decide) (by decide)
  have hrsi : s₂.reg .rsi = s.reg .rsi := hreg₂ .rsi (by decide) (by decide) (by decide)
  have hcmp : exec (.cmp (.imm 0) (.reg .rdi)) s₂ =
      some (.fall, { s₂ with zero := s.reg .rdi == 0 }) := by
    simp [exec, Cpu.read, hrdi]
  have hmov : ∀ u : Cpu, u.reg .rsi = s.reg .rsi →
      exec (.mov (.reg .rsi) (.reg .rsp)) u = some (.fall, u.set .rsp (s.reg .rsi)) := by
    intro u hu
    simp [exec, Cpu.read, Cpu.write, hu]
  refine ⟨({ s₂ with zero := s.reg .rdi == 0, mem := switchedMem s } : Cpu).set .rsp
    (s.reg .rsi), hrun₂.trans ?_, rfl, hmap₂, Cpu.set_reg_self⟩
  rw [show switchThread.drop 16 = .cmp (.imm 0) (.reg .rdi) :: .je 1 ::
    .mov (.reg .rsp) (.mem 0 .rdi) :: .mov (.reg .rsi) (.reg .rsp) :: switchThread.drop 20
    from rfl, run_cons hcmp, run_je]
  by_cases hz : s.reg .rdi = 0
  · have hmem : switchedMem s = s₂.mem := by rw [switchedMem, if_pos hz, hmem₂]
    rw [hmem, beq_iff_eq.2 hz]
    change run 0 (.mov (.reg .rsi) (.reg .rsp) :: switchThread.drop 20)
      { s₂ with zero := true } = _
    rw [run_cons (hmov { s₂ with zero := true } hrsi)]
  · have hmem : switchedMem s = store s₂.mem (s.reg .rdi) (below (s.reg .rsp) 9) := by
      rw [switchedMem, if_neg hz, hmem₂]
    have hstore : exec (.mov (.reg .rsp) (.mem 0 .rdi)) { s₂ with zero := false } =
        some (.fall, { s₂ with zero := false, mem := switchedMem s }) := by
      have hacc₂ : s₂.accessible (s.reg .rdi) = true := by
        simpa only [Cpu.accessible, hmap₂] using hold hz
      simp [exec, Cpu.read, Cpu.write, hrdi, hrsp₂, Cpu.writeMem_of_accessible, hacc₂, hmem]
    rw [beq_eq_false_iff_ne.2 hz]
    exact (run_cons hstore).trans (run_cons (hmov _ hrsi))

/-- What a frame restores, from the words found where the stack pointer is. -/
theorem Frame.restored_of_map {f : Frame} {s' : Cpu}
    (h : [Reg.rax, .r15, .r14, .r13, .r12, .rbx, .rdi, .rsi, .rbp].map s'.reg =
      f.words.dropLast) : f.Restored s' := by
  simp only [Frame.words, List.dropLast, List.map_cons, List.map_nil, List.cons.injEq] at h
  obtain ⟨-, h15, h14, h13, h12, hbx, hdi, hsi, hbp, -⟩ := h
  exact ⟨h15, h14, h13, h12, hbx, hdi, hsi, hbp⟩

/-- **`switch_thread`.** With a suspended thread's frame behind the second argument, the
routine returns where that frame says, with the registers it says, just above it. -/
theorem switchThread_run {f : Frame} (hm : s.Mapped (below (s.reg .rsp) 9) 72)
    (hnew : s.Mapped (s.reg .rsi) 80) (hf : Holds s.mem (s.reg .rsi) f.words)
    (hsep : Apart (s.reg .rsi) 80 (below (s.reg .rsp) 9) 72)
    (hold : s.reg .rdi ≠ 0 →
      s.accessible (s.reg .rdi) = true ∧ Apart (s.reg .rsi) 80 (s.reg .rdi) 8) :
    ∃ s', run 0 switchThread s = some (f.ret, s') ∧ s'.mem = switchedMem s ∧
      s'.mapped = s.mapped ∧ s'.reg .rsp = s.reg .rsi + 80 ∧ f.Restored s' := by
  have hacc : s.accessible (s.reg .rsi) = true := by
    simpa using hnew.accessible (k := 0) (by omega) (by omega)
  obtain ⟨s₃, hrun₃, hmem₃, hmap₃, hrsp₃⟩ := switchThread_records hm hacc hf.1
    (fun x hx => hsep x (hx.mono (by omega))) fun h => (hold h).1
  have hf₃ : Holds s₃.mem (s₃.reg .rsp) f.words := by
    rw [hmem₃, hrsp₃]
    refine hf.congr (by simp) fun x hx => ?_
    have hpush : storeDown s.mem (s.reg .rsp) (pushedWords s) x = s.mem x :=
      storeDown_apply (by simp) (hsep x hx)
    by_cases hz : s.reg .rdi = 0
    · rw [switchedMem, if_pos hz, hpush]
    · rw [switchedMem, if_neg hz, store_apply _ ((hold hz).2 x hx), hpush]
  have hm₃ : s₃.Mapped (s₃.reg .rsp) 80 := by
    rw [hrsp₃]
    exact fun x hx => hmap₃ ▸ hnew x hx
  obtain ⟨hwords, hret, -⟩ := (holds_append f.words.dropLast [f.ret]).1 hf₃
  have hpops := run_pops (s := s₃) [.rax, .r15, .r14, .r13, .r12, .rbx, .rdi, .rsi, .rbp]
    [.ret] (by decide) (by simp) fun x hx => hm₃ x (hx.mono (by simp))
  have hregs := Cpu.popAll_reg_of_holds (s := s₃)
    (show Reg.rsp ∉ [Reg.rax, .r15, .r14, .r13, .r12, .rbx, .rdi, .rsi, .rbp] by decide)
    (by decide) hwords rfl
  obtain ⟨s₄, hs₄⟩ : ∃ s₄, s₄ = s₃.popAll [.rax, .r15, .r14, .r13, .r12, .rbx, .rdi, .rsi, .rbp] :=
    ⟨_, rfl⟩
  have hmem₄ : s₄.mem = s₃.mem := by rw [hs₄, Cpu.popAll_mem]
  have hmap₄ : s₄.mapped = s₃.mapped := by rw [hs₄, Cpu.popAll_mapped]
  have hrsp₄ : s₄.reg .rsp = s₃.reg .rsp + 72 := by
    rw [hs₄]
    exact Cpu.popAll_rsp (by decide)
  rw [← hs₄] at hpops hregs
  have hacc₄ : s₄.accessible (s₄.reg .rsp) = true := by
    rw [hrsp₄, Cpu.accessible, hmap₄]
    exact hm₃.accessible (k := 72) (by omega) (by omega)
  have hret₄ : load s₄.mem (s₄.reg .rsp) = f.ret := by
    rw [hmem₄, hrsp₄]
    exact hret
  have hrsp₅ : s₄.reg .rsp + 8 = s.reg .rsi + 80 := by
    rw [hrsp₄, hrsp₃, BitVec.add_assoc]
    rfl
  refine ⟨s₄.set .rsp (s.reg .rsi + 80), hrun₃.trans (hpops.trans ?_), ?_, ?_,
    Cpu.set_reg_self, Frame.restored_of_map ?_⟩
  · rw [run, exec, Cpu.readMem_of_accessible hacc₄, hret₄, hrsp₅]
    rfl
  · rw [Cpu.set_mem, hmem₄, hmem₃]
  · rw [Cpu.set_mapped, hmap₄, hmap₃]
  · rw [← hregs]
    exact List.map_congr_left fun r hr => Cpu.set_reg_of_ne fun h => by subst h; revert hr; decide

/-- The frame of the caller is there when it is gone. -/
theorem switchedMem_holds
    (hold : s.reg .rdi ≠ 0 → Apart (below (s.reg .rsp) 9) 80 (s.reg .rdi) 8) :
    Holds (switchedMem s) (below (s.reg .rsp) 9) (savedFrame s).words := by
  have hwords : (savedFrame s).words = (pushedWords s).reverse ++ [load s.mem (s.reg .rsp)] := rfl
  have hpushed : Holds (storeDown s.mem (s.reg .rsp) (pushedWords s)) (below (s.reg .rsp) 9)
      (savedFrame s).words := by
    rw [hwords, holds_append, List.length_reverse, length_pushedWords]
    refine ⟨storeDown_holds (by simp), ?_, trivial⟩
    rw [show below (s.reg .rsp) 9 + BitVec.ofNat 64 (8 * 9) = s.reg .rsp from
      (below_add (k := 0) (n := 9)).trans (below_zero _)]
    exact load_storeDown (by simp)
  rw [switchedMem]
  split
  case isTrue => exact hpushed
  case isFalse h => exact hpushed.congr (by simp) fun x hx => store_apply _ (hold h x hx)

end SystemsProjects.Qthreads.Switch
