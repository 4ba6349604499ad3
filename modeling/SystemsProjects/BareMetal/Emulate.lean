import Mathlib.Data.Int.Notation
import Mathlib.Data.Nat.Notation
import Mathlib.Logic.Function.Basic
import SystemsProjects.Library.Stateful

/-!
# The Emulator

`emulate.c`: the CPU of `lab1.h`, the memory it works on, and `emulate`, which runs one
instruction. The memory has the 64 KB that `runsim.c` gives it. An index outside it, an
index outside `R` and a shift by at least the width of `int` are undefined in C; here the
run stops there with a `Fault`.

`uint8_t` and `uint16_t` are bit vectors; an instruction word taken apart is the `int` it
is promoted to, which is never negative. The bytes of standard input still to be read and
the bytes handed to `fputc` stand next to the CPU; the lines that `emulate` prints about
each instruction are left out.

## Main definitions

* `Machine`: the CPU, its memory and its two streams.
* `emulate`: one instruction, returning 0 to continue and 1 to halt.
-/

namespace SystemsProjects.BareMetal

/-- `uint8_t`. -/
abbrev Byte := BitVec 8

/-- `uint16_t`. -/
abbrev Word := BitVec 16

/-- `struct cpu`, with the memory it points to and the streams of the process. The bytes that
`OUT` passes to `fputc` are the output here; what `emulate.c` prints itself is added in
`Tracing`. -/
structure Machine where
  memory : Word → Byte
  R : Fin 8 → Word
  PC : Word
  SP : Word
  Z : ℤ
  N : ℤ
  stdin : List Byte
  stdout : List Byte

/-- What C leaves undefined: an index outside the memory, an index outside `R`, a shift by
32 or more. -/
inductive Fault
  | memory
  | register
  | shift
  deriving DecidableEq, Repr

/-- C code over the machine, which stops where C leaves it undefined what happens. -/
abbrev Exec := EStateM Fault Machine

/-! ### Memory and registers -/

/-- `cpu->memory[i]`, read. The index is that of the C code, before it is cut to 16 bits. -/
def memoryAt (i : ℕ) : Exec Byte := fun m =>
  if i < 65536 then .ok (m.memory (.ofNat 16 i)) m else .error .memory m

/-- `cpu->memory[i] = v`. -/
def setMemoryAt (i : ℕ) (v : Byte) : Exec Unit := fun m =>
  if i < 65536 then
    .ok () { m with memory := Function.update m.memory (.ofNat 16 i) v }
  else .error .memory m

/-- `cpu->R[i]`, read. The array has eight entries, and `MOVE` can ask for the next one. -/
def reg (i : ℕ) : Exec Word := fun m =>
  if h : i < 8 then .ok (m.R ⟨i, h⟩) m else .error .register m

/-- `cpu->R[i] = v`. -/
def setReg (i : ℕ) (v : Word) : Exec Unit := fun m =>
  if h : i < 8 then .ok () { m with R := Function.update m.R ⟨i, h⟩ v }
  else .error .register m

/-- `cpu->PC`, read. -/
def pc : Exec Word := fun m => .ok m.PC m

/-- `cpu->PC = v`. -/
def setPC (v : Word) : Exec Unit := fun m => .ok () { m with PC := v }

/-- `cpu->SP`, read. -/
def sp : Exec Word := fun m => .ok m.SP m

/-- `cpu->SP = v`. -/
def setSP (v : Word) : Exec Unit := fun m => .ok () { m with SP := v }

/-- `store2`. The index `addr+1` is an `int`: it does not wrap. -/
def store2 (data addr : Word) : Exec Unit := do
  setMemoryAt addr.toNat (data.setWidth 8)
  setMemoryAt (addr.toNat + 1) ((data >>> 8).setWidth 8)

/-- `load2`, the lower byte first. Its upper byte may lie outside the memory, as that of
`store2`. -/
def load2 (addr : Word) : Exec Word := do
  let low ← memoryAt addr.toNat
  let high ← memoryAt (addr.toNat + 1)
  return low.setWidth 16 ||| (high.setWidth 16 <<< 8)

/-! ### Input and output -/

/-- `fgetc(stdin)`: the next byte, or `EOF`, which is -1 and has all bits set in a register. -/
def fgetc : Exec ℤ := fun m =>
  match m.stdin with
  | [] => .ok (-1) m
  | b :: rest => .ok b.toNat { m with stdin := rest }

/-- `fputc(v, stdout)`: the byte `v` is truncated to, behind what has been written. -/
def fputc (v : Word) : Exec Unit := fun m =>
  .ok () { m with stdout := m.stdout ++ [v.setWidth 8] }

/-! ### The branches of `emulate` -/

/-- The branch `SET`: the word behind the instruction goes to a register. -/
def emulateSet (a : ℕ) : Exec ℕ := do
  setReg a (← load2 ((← pc) + 2))
  setPC ((← pc) + 4)
  return 0

/-- The branch `LOAD`, in four cases: a word or a byte, from an address behind the instruction
or in a register. A byte fills the register with zeros. -/
def emulateLoad (insn a b : ℕ) : Exec ℕ := do
  let isIndirect := insn &&& 0x0800 ≠ 0
  let isByte := insn &&& 0x0400 ≠ 0
  if ¬ isIndirect ∧ ¬ isByte then
    let valFromAddr ← load2 ((← pc) + 2)
    setReg a (← load2 valFromAddr)
    setPC ((← pc) + 4)
  else if isByte ∧ ¬ isIndirect then
    let valFromAddr ← load2 ((← pc) + 2)
    setReg a ((← memoryAt valFromAddr.toNat).setWidth 16)
    setPC ((← pc) + 4)
  else if ¬ isByte ∧ isIndirect then
    setReg a (← load2 (← reg b))
    setPC ((← pc) + 2)
  else
    setReg a ((← memoryAt (← reg b).toNat).setWidth 16)
    setPC ((← pc) + 2)
  return 0

/-- The branch `STORE`. It looks at the whole upper byte of the instruction, and stores a
byte for a constant address one place behind it. -/
def emulateStore (insn a b : ℕ) : Exec ℕ := do
  if (insn &&& 0xFF00) >>> 8 = 0x30 then
    let addrVal ← load2 ((← pc) + 2)
    store2 (← reg a) addrVal
    setPC ((← pc) + 4)
  else if (insn &&& 0xFF00) >>> 8 = 0x34 then
    let addrVal ← load2 ((← pc) + 2)
    let rVal := (← reg a) &&& 0xFF
    setMemoryAt (addrVal.toNat + 1) (rVal.setWidth 8)
    setPC ((← pc) + 4)
  else if (insn &&& 0xFF00) >>> 8 = 0x3C then
    let rVal := (← reg a) &&& 0xFF
    setMemoryAt (← reg b).toNat (rVal.setWidth 8)
    setPC ((← pc) + 2)
  else
    let rVal ← reg a
    store2 rVal (← reg b)
    setPC ((← pc) + 2)
  return 0

/-- The branch `MOVE`. The fields have four bits each, and a destination of 8 is looked at
before a source of 8. -/
def emulateMove (insn : ℕ) : Exec ℕ := do
  let s := insn &&& 0x0F
  let d := (insn >>> 4) &&& 0x0F
  if d = 8 then
    setSP (← reg s)
  else if s = 8 then
    setReg d (← sp)
  else
    setReg d (← reg s)
  setPC ((← pc) + 2)
  return 0

/-- The tests of `res` that end every case of the switch on the ALU operation: `Z` for zero, `N`
for the highest bit. -/
def setFlags (res : Word) : Exec Unit := fun m =>
  .ok () { m with
    Z := if res = 0 then 1 else 0
    N := if res &&& 0x8000 ≠ 0 then 1 else 0 }

/-- `shiftA >> shiftB`, both promoted to `int`. A shift by 32 or more is undefined; below that,
zeros come in. -/
def shiftRight (shiftA shiftB : Word) : Exec Word := fun m =>
  if shiftB.toNat < 32 then .ok (shiftA >>> shiftB.toNat) m else .error .shift m

/-- The branch of the ALU operations, told by the bits 9 to 11. `CMP` and `TEST` set the flags
only. -/
def emulateAlu (insn a b c : ℕ) : Exec ℕ := do
  match insn &&& 0x0E00 with
  | 0x0200 =>
      let res := (← reg a) - (← reg b)
      setReg c res
      setFlags res
  | 0x0400 =>
      let res := (← reg a) &&& (← reg b)
      setReg c res
      setFlags res
  | 0x0600 =>
      let res := (← reg a) ||| (← reg b)
      setReg c res
      setFlags res
  | 0x0800 =>
      let res := (← reg a) ^^^ (← reg b)
      setReg c res
      setFlags res
  | 0x0A00 =>
      let res ← shiftRight (← reg a) (← reg b)
      setReg c res
      setFlags res
  | 0x0C00 =>
      let res := (← reg a) - (← reg b)
      setFlags res
  | 0x0E00 =>
      setFlags (← reg a)
  | _ =>
      let res := (← reg a) + (← reg b)
      setReg c res
      setFlags res
  setPC ((← pc) + 2)
  return 0

/-- The condition of the jump with number `op`, from the flags as the last operation left them. -/
def jumps (op : ℕ) : Exec Bool := fun m =>
  .ok (match op with
    | 0 => true
    | 1 => m.Z = 1
    | 2 => m.Z = 0
    | 3 => m.N = 1
    | 4 => m.N = 0 ∧ m.Z = 0
    | 5 => m.N = 1 ∨ m.Z = 1
    | 6 => m.N = 0
    | _ => false) m

/-- The two branches `JMP`: to the address that `target` finds, or over the `size` bytes of
the instruction. -/
def emulateJmp (op : ℕ) (target : Exec Word) (size : Word) : Exec ℕ := do
  if op ≥ 7 then
    return 1
  if ← jumps op then
    setPC (← target)
  else
    setPC ((← pc) + size)
  return 0

/-- The two branches `CALL`. The target is looked up behind the store of the return
address. -/
def emulateCall (target : Exec Word) (size : Word) : Exec ℕ := do
  setSP ((← sp) - 2)
  let valToStore := (← pc) + size
  store2 valToStore (← sp)
  setPC (← target)
  return 0

/-- The branch `RET`: the return address is popped. -/
def emulateRet : Exec ℕ := do
  setPC (← load2 (← sp))
  setSP ((← sp) + 2)
  return 0

/-- The branch `PUSH`. The stack grows downwards, and the register is read behind the change of
`SP`. -/
def emulatePush (a : ℕ) : Exec ℕ := do
  setSP ((← sp) - 2)
  store2 (← reg a) (← sp)
  setPC ((← pc) + 2)
  return 0

/-- The branch `POP`. The register is written before `SP` changes. -/
def emulatePop (a : ℕ) : Exec ℕ := do
  setReg a (← load2 (← sp))
  setSP ((← sp) + 2)
  setPC ((← pc) + 2)
  return 0

/-- The branch `IN`. At the end of the input all 16 bits of the register are set. -/
def emulateIn (a : ℕ) : Exec ℕ := do
  setReg a (.ofInt 16 (← fgetc))
  setPC ((← pc) + 2)
  return 0

/-- The branch `OUT`: the lower byte of the register is written. -/
def emulateOut (a : ℕ) : Exec ℕ := do
  fputc (← reg a)
  setPC ((← pc) + 2)
  return 0

/-- `emulate`, behind the load of the instruction. The upper four bits tell the branch, and 0
halts as 15 does. -/
def emulateInsn (insn : ℕ) : Exec ℕ :=
  let op := (insn >>> 9) &&& 7
  let c := (insn >>> 6) &&& 7
  let b := (insn >>> 3) &&& 7
  let a := insn &&& 7
  match insn &&& 0xF000 with
  | 0x1000 => emulateSet a
  | 0x2000 => emulateLoad insn a b
  | 0x3000 => emulateStore insn a b
  | 0x4000 => emulateMove insn
  | 0x5000 => emulateAlu insn a b c
  | 0x6000 => emulateJmp op (do load2 ((← pc) + 2)) 4
  | 0x7000 => emulateJmp op (reg a) 2
  | 0x8000 => emulateCall (do load2 ((← pc) + 2)) 4
  | 0x9000 => emulateCall (reg a) 2
  | 0xA000 => emulateRet
  | 0xB000 => emulatePush a
  | 0xC000 => emulatePop a
  | 0xD000 => emulateIn a
  | 0xE000 => emulateOut a
  | 0xF000 => return 1
  | _ => return 1

/-- `emulate`: one instruction. It returns 1 where the machine halts, and 0 otherwise. -/
def emulate : Exec ℕ := do
  let insn ← load2 (← pc)
  emulateInsn insn.toNat

end SystemsProjects.BareMetal
