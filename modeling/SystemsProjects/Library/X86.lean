import Mathlib.Logic.Function.Basic
import SystemsProjects.Library.ByteMemory

/-!
# A Fragment of the x86-64 Machine

Straight-line code with forward jumps, as a routine written by hand for the switch of
stacks or the set-up of a stack uses it: moves between registers and memory, pushes and
pops, a little arithmetic, comparisons and returns. Instructions are written in the order
source, destination. Memory has bytes that are mapped and bytes that are not, and an access
to a word that is not all mapped is a fault.

A routine runs to its `ret`, which takes the address control goes on at from the stack.

## Main definitions

* `Reg`, `Cpu`, `Operand`, `Instr`: the machine and its code.
* `exec`, `run`: one instruction, and a routine up to its return.
* `Cpu.pushAll`, `Cpu.popAll`: the registers of a list pushed, and popped.

## Main results

* `run_pushes`, `run_pops`, `run_storeRow`: a row of pushes, of pops, and of stores, run.
* `Cpu.popAll_reg_of_holds`: the registers popped are the words found on the stack.
-/

namespace X86

open ByteMemory

/-- The general-purpose registers. -/
inductive Reg
  | rax | rbx | rcx | rdx | rsi | rdi | rbp | rsp
  | r8 | r9 | r10 | r11 | r12 | r13 | r14 | r15
  deriving DecidableEq, Repr

/-- The machine: registers, the zero flag, memory, and which bytes of it are mapped. -/
structure Cpu where
  reg : Reg → Word
  zero : Bool
  mem : Memory
  mapped : Addr → Bool

/-- An immediate value, a register, or the word at a displacement from a base register. -/
inductive Operand
  | imm (v : Word)
  | reg (r : Reg)
  | mem (disp : Word) (base : Reg)

/-- The instructions. `je` says how many instructions it jumps over. -/
inductive Instr
  | endbr64
  | mov (src dst : Operand)
  | movslq (src dst : Reg)
  | lea (disp : Word) (base dst : Reg)
  | add (src dst : Operand)
  | and (src dst : Operand)
  | cmp (src dst : Operand)
  | push (src : Reg)
  | pop (dst : Reg)
  | je (skip : ℕ)
  | ret

/-- Where control goes: to the next instruction, over some, or out of the routine. -/
inductive Next
  | fall
  | skip (n : ℕ)
  | ret (target : Addr)

namespace Cpu

/-- A register written. -/
def set (s : Cpu) (r : Reg) (v : Word) : Cpu := { s with reg := Function.update s.reg r v }

/-- The word at an address is all mapped. -/
def accessible (s : Cpu) (a : Addr) : Bool :=
  (List.range 8).all fun k => s.mapped (a + BitVec.ofNat 64 k)

/-- A word read from memory, if it may be. -/
def readMem (s : Cpu) (a : Addr) : Option Word :=
  if s.accessible a then some (load s.mem a) else none

/-- A word written to memory, if it may be. -/
def writeMem (s : Cpu) (a : Addr) (v : Word) : Option Cpu :=
  if s.accessible a then some { s with mem := store s.mem a v } else none

/-- The value of an operand. -/
def read (s : Cpu) : Operand → Option Word
  | .imm v => some v
  | .reg r => some (s.reg r)
  | .mem disp base => s.readMem (s.reg base + disp)

/-- An operand written. An immediate value is no destination. -/
def write (s : Cpu) (v : Word) : Operand → Option Cpu
  | .imm _ => none
  | .reg r => some (s.set r v)
  | .mem disp base => s.writeMem (s.reg base + disp) v

/-- An operation on two operands: its result goes to the second and sets the flag. -/
def alu (s : Cpu) (f : Word → Word → Word) (src dst : Operand) : Option Cpu := do
  let v := f (← s.read dst) (← s.read src)
  ({ s with zero := v == 0 } : Cpu).write v dst

end Cpu

/-- One instruction; `none` is a fault. -/
def exec : Instr → Cpu → Option (Next × Cpu)
  | .endbr64, s => some (.fall, s)
  | .mov src dst, s => do
      let v ← s.read src
      return (.fall, ← s.write v dst)
  | .movslq src dst, s => some (.fall, s.set dst ((s.reg src).setWidth 32 |>.signExtend 64))
  | .lea disp base dst, s => some (.fall, s.set dst (s.reg base + disp))
  | .add src dst, s => do return (.fall, ← s.alu (· + ·) src dst)
  | .and src dst, s => do return (.fall, ← s.alu (· &&& ·) src dst)
  | .cmp src dst, s => do
      let v := (← s.read dst) - (← s.read src)
      return (.fall, { s with zero := v == 0 })
  | .push src, s => do
      return (.fall, (← s.writeMem (s.reg .rsp - 8) (s.reg src)).set .rsp (s.reg .rsp - 8))
  | .pop dst, s => do
      let v ← s.readMem (s.reg .rsp)
      return (.fall, (s.set .rsp (s.reg .rsp + 8)).set dst v)
  | .je n, s => some (if s.zero then .skip n else .fall, s)
  | .ret, s => do
      let v ← s.readMem (s.reg .rsp)
      return (.ret v, s.set .rsp (s.reg .rsp + 8))

/-- A routine run from its instruction `n` to its return: the address it returns to and the
machine then. Code that faults or runs over its end gives nothing. -/
def run : ℕ → List Instr → Cpu → Option (Addr × Cpu)
  | _, [], _ => none
  | n + 1, _ :: code, s => run n code s
  | 0, i :: code, s =>
      match exec i s with
      | none => none
      | some (.fall, s') => run 0 code s'
      | some (.skip n, s') => run n code s'
      | some (.ret a, s') => some (a, s')

/-- An instruction after which control falls through, run. -/
theorem run_cons {i : Instr} {code : List Instr} {s s' : Cpu} (h : exec i s = some (.fall, s')) :
    run 0 (i :: code) s = run 0 code s' := by
  rw [run, h]

/-- A jump, run. -/
theorem run_je {n : ℕ} {code : List Instr} {s : Cpu} :
    run 0 (.je n :: code) s = run (if s.zero then n else 0) code s := by
  rw [run, exec]
  cases s.zero <;> rfl

/-! ### Accesses -/

namespace Cpu

variable {s : Cpu} {a : Addr} {r : Reg} {v : Word}

/-- A register that was written has what was written to it. -/
@[simp] theorem set_reg_self : (s.set r v).reg r = v := Function.update_self ..

/-- The other registers are as they were. -/
@[simp] theorem set_reg_of_ne {r' : Reg} (h : r' ≠ r) : (s.set r v).reg r' = s.reg r' :=
  Function.update_of_ne h ..

/-- Writing a register is not an access to memory. -/
@[simp] theorem set_mem : (s.set r v).mem = s.mem := rfl

/-- Nor does it map or unmap a page. -/
@[simp] theorem set_mapped : (s.set r v).mapped = s.mapped := rfl

/-- So the same addresses can be accessed behind it. -/
@[simp] theorem set_accessible : (s.set r v).accessible a = s.accessible a := rfl

/-- What is in memory does not matter to whether it can be accessed. -/
@[simp] theorem mem_accessible {m : Memory} :
    ({ s with mem := m } : Cpu).accessible a = s.accessible a := rfl

/-- Nor does the zero flag. -/
@[simp] theorem zero_accessible {z : Bool} :
    ({ s with zero := z } : Cpu).accessible a = s.accessible a := rfl

/-- The bytes of a range are all mapped. -/
def Mapped (s : Cpu) (a : Addr) (n : ℕ) : Prop := ∀ x, Within x a n → s.mapped x = true

/-- A word in a mapped range may be accessed. -/
theorem Mapped.accessible {n k : ℕ} (h : s.Mapped a n) (hk : k + 8 ≤ n) (hn : n ≤ 2 ^ 64) :
    s.accessible (a + BitVec.ofNat 64 k) = true := by
  rw [Cpu.accessible, List.all_eq_true]
  intro i hi
  rw [List.mem_range] at hi
  exact h _ (Within.sub (within_add hi (by omega)) hk hn)

/-- Words below an address are mapped where more of them are. -/
theorem Mapped.below {k m n : ℕ} (h : s.Mapped (below a (k + n)) (8 * (k + n)))
    (hm : m ≤ k) (hlt : 8 * (k + n) ≤ 2 ^ 64) : s.Mapped (ByteMemory.below a k) (8 * m) := by
  intro x hx
  rw [← below_add (n := n)] at hx
  exact h x (hx.sub (by omega) hlt)

/-- Reading where memory is mapped gives the word there. -/
theorem readMem_of_accessible (h : s.accessible a = true) :
    s.readMem a = some (load s.mem a) := if_pos h

/-- Writing where memory is mapped changes the word there, and nothing else. -/
theorem writeMem_of_accessible (h : s.accessible a = true) :
    s.writeMem a v = some { s with mem := store s.mem a v } := if_pos h

/-! ### Rows of pushes and pops -/

/-- The registers of a list pushed, one after the other. -/
def pushAll (s : Cpu) (rs : List Reg) : Cpu :=
  { s with
    reg := Function.update s.reg .rsp (below (s.reg .rsp) rs.length)
    mem := storeDown s.mem (s.reg .rsp) (rs.map s.reg) }

/-- The registers of a list popped, one after the other. -/
def popAll (s : Cpu) : List Reg → Cpu
  | [] => s
  | r :: rs => ((s.set .rsp (s.reg .rsp + 8)).set r (load s.mem (s.reg .rsp))).popAll rs

/-- Popping registers reads the stack and does not change it. -/
theorem popAll_mem (rs : List Reg) : (s.popAll rs).mem = s.mem := by
  induction rs generalizing s with
  | nil => rfl
  | cons r rs ih => rw [popAll, ih, set_mem, set_mem]

/-- Popping registers leaves the mapping alone. -/
theorem popAll_mapped (rs : List Reg) : (s.popAll rs).mapped = s.mapped := by
  induction rs generalizing s with
  | nil => rfl
  | cons r rs ih => rw [popAll, ih, set_mapped, set_mapped]

/-- Pops move the stack pointer up by a word each. -/
theorem popAll_rsp {rs : List Reg} (h : Reg.rsp ∉ rs) :
    (s.popAll rs).reg .rsp = s.reg .rsp + BitVec.ofNat 64 (8 * rs.length) := by
  induction rs generalizing s with
  | nil => simp [popAll]
  | cons r rs ih =>
      rw [List.mem_cons, not_or] at h
      rw [popAll, ih h.2, set_reg_of_ne h.1, set_reg_self, List.length_cons]
      bv_omega

/-- Pops leave the other registers alone. -/
theorem popAll_reg_of_notMem {rs : List Reg} (hsp : r ≠ .rsp) (h : r ∉ rs) :
    (s.popAll rs).reg r = s.reg r := by
  induction rs generalizing s with
  | nil => rfl
  | cons r' rs ih =>
      rw [List.mem_cons, not_or] at h
      rw [popAll, ih h.2, set_reg_of_ne h.1, set_reg_of_ne hsp]

/-- The registers popped are the words found on the stack. -/
theorem popAll_reg_of_holds {rs : List Reg} (hsp : Reg.rsp ∉ rs) (hnd : rs.Nodup)
    {ws : List Word} (h : Holds s.mem (s.reg .rsp) ws) (hlen : ws.length = rs.length) :
    rs.map (s.popAll rs).reg = ws := by
  induction rs generalizing s ws with
  | nil => rw [List.map_nil, List.length_eq_zero_iff.1 hlen]
  | cons r rs ih =>
      obtain _ | ⟨w, ws⟩ := ws
      · cases hlen
      obtain ⟨hw, hws⟩ := h
      rw [List.mem_cons, not_or] at hsp
      rw [List.nodup_cons] at hnd
      have htail := ih (s := (s.set .rsp (s.reg .rsp + 8)).set r (load s.mem (s.reg .rsp)))
        hsp.2 hnd.2 (by rwa [set_reg_of_ne hsp.1, set_reg_self]) (by simpa using hlen)
      rw [popAll, List.map_cons, htail, popAll_reg_of_notMem (Ne.symm hsp.1) hnd.1,
        set_reg_self, hw]

end Cpu

variable {s : Cpu}

/-- A row of pushes, run. -/
theorem run_pushes (rs : List Reg) (code : List Instr) (hsp : Reg.rsp ∉ rs)
    (hlen : 8 * rs.length ≤ 2 ^ 64) (hm : s.Mapped (below (s.reg .rsp) rs.length) (8 * rs.length)) :
    run 0 (rs.map .push ++ code) s = run 0 code (s.pushAll rs) := by
  induction rs generalizing s with
  | nil => simp [Cpu.pushAll, below, storeDown]
  | cons r rs ih =>
      rw [List.mem_cons, not_or] at hsp
      rw [List.length_cons] at hlen
      have hacc : s.accessible (s.reg .rsp - 8) = true := by
        rw [← below_zero (s.reg .rsp), ← below_succ', ← below_add (n := rs.length)]
        rw [List.length_cons, Nat.add_comm] at hm
        exact hm.accessible (by omega) (by omega)
      rw [List.map_cons, List.cons_append, run]
      simp only [exec, Cpu.writeMem_of_accessible hacc, Option.bind_eq_bind, Option.bind_some,
        Option.pure_def]
      rw [ih hsp.2 (by omega)]
      · have hreg : rs.map (Function.update s.reg .rsp (s.reg .rsp - 8)) = rs.map s.reg :=
          List.map_congr_left fun r' hr' =>
            Function.update_of_ne (ne_of_mem_of_not_mem hr' hsp.2) ..
        simp only [Cpu.pushAll, hreg, List.map_cons, storeDown, List.length_cons, below_succ,
          Cpu.set, Function.update_self, Function.update_idem]
      · intro x hx
        rw [Cpu.set_reg_self] at hx
        refine hm x ?_
        rw [List.length_cons, below_succ]
        rw [Within] at hx ⊢
        omega

/-- A row of pops, run. -/
theorem run_pops (rs : List Reg) (code : List Instr) (hsp : Reg.rsp ∉ rs)
    (hlen : 8 * rs.length ≤ 2 ^ 64) (hm : s.Mapped (s.reg .rsp) (8 * rs.length)) :
    run 0 (rs.map .pop ++ code) s = run 0 code (s.popAll rs) := by
  induction rs generalizing s with
  | nil => rfl
  | cons r rs ih =>
      rw [List.mem_cons, not_or] at hsp
      rw [List.length_cons] at hlen
      have hacc : s.accessible (s.reg .rsp) = true := by
        have := hm.accessible (k := 0) (by simp only [List.length_cons]; omega) hlen
        simpa using this
      rw [List.map_cons, List.cons_append, run]
      simp only [exec, Cpu.readMem_of_accessible hacc, Option.bind_eq_bind, Option.bind_some,
        Option.pure_def]
      rw [ih hsp.2 (by omega), Cpu.popAll]
      intro x hx
      rw [Cpu.set_reg_of_ne hsp.1, Cpu.set_reg_self] at hx
      exact hm x (Within.sub (k := 8) hx (by simp only [List.length_cons]; omega) hlen)

/-! ### Rows of stores -/

/-- The operands stored at falling displacements from a base register, the first `k + 1`
words below it. -/
def storeRow (base : Reg) : ℕ → List Operand → List Instr
  | _, [] => []
  | k, src :: srcs =>
      .mov src (.mem (-BitVec.ofNat 64 (8 * (k + 1))) base) :: storeRow base (k + 1) srcs

/-- The value of an operand in which memory has no part. -/
def Operand.plain (reg : Reg → Word) : Operand → Option Word
  | .imm v => some v
  | .reg r => some (reg r)
  | .mem .. => none

/-- An operand that is no access to memory can always be read. -/
theorem read_of_plain {o : Operand} {v : Word} (h : o.plain s.reg = some v) :
    s.read o = some v := by
  cases o with
  | imm w => exact h
  | reg r => exact h
  | mem disp base => cases h

/-- A row of stores of such values, run. -/
theorem run_storeRow (base : Reg) (k : ℕ) (srcs : List Operand) (vs : List Word)
    (code : List Instr) (hv : srcs.map (Operand.plain s.reg) = vs.map some)
    (hlen : 8 * vs.length ≤ 2 ^ 64)
    (hm : s.Mapped (below (s.reg base) (k + vs.length)) (8 * vs.length)) :
    run 0 (storeRow base k srcs ++ code) s =
      run 0 code { s with mem := storeDown s.mem (below (s.reg base) k) vs } := by
  induction srcs generalizing k s vs with
  | nil =>
      rw [List.map_nil, eq_comm, List.map_eq_nil_iff] at hv
      rw [hv]
      rfl
  | cons o srcs ih =>
      obtain _ | ⟨v, vs⟩ := vs
      · cases hv
      rw [List.map_cons, List.map_cons, List.cons.injEq] at hv
      simp only [List.length_cons] at hlen hm
      rw [show k + (vs.length + 1) = k + 1 + vs.length by omega] at hm
      have hacc : s.accessible (below (s.reg base) (k + 1)) = true := by
        rw [← below_add (n := vs.length)]
        exact hm.accessible (by omega) hlen
      rw [storeRow, List.cons_append, run]
      simp only [exec, read_of_plain hv.1, Cpu.write, add_neg_eq_below,
        Cpu.writeMem_of_accessible hacc, Option.bind_eq_bind, Option.bind_some, Option.pure_def]
      rw [ih (s := { s with mem := store s.mem (below (s.reg base) (k + 1)) v }) _ _ hv.2
        (by omega), below_succ', storeDown]
      intro x hx
      refine hm x ?_
      rw [Within] at hx ⊢
      dsimp only at hx
      omega

end X86
