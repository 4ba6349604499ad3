import Mathlib.Algebra.Ring.Nat
import SystemsProjects.BareMetal.Emulate

/-!
# The Instruction Set

What the instructions of the assembler are written to mean, independently of how they are
encoded: an instruction names its registers and its constant, and `exec` says what it does
to the machine. Arithmetic is modulo `2 ^ 16`, and a word in memory is little-endian.

The constant of an instruction is of a type `κ`: as written it is a token, when it is
carried out it is a `Word`.

## Main definitions

* `Insn`: the instructions.
* `Insn.exec`: what an instruction does.
* `Insn.opcode`: its first word, put together from its fields.
-/

namespace SystemsProjects.BareMetal

/-! ### Instructions -/

/-- What a memory instruction moves, a word or a byte. -/
inductive Width
  | word
  | byte
  deriving DecidableEq, Repr

/-- The addresses of the words that are touched at an address. -/
def Width.words (w : Width) (x : Word) : List Word :=
  match w with
  | word => [x]
  | byte => []

/-- The operations that have a result. -/
inductive AluOp
  | add
  | sub
  | and
  | or
  | xor
  | rshift
  deriving DecidableEq, Repr

/-- The conditions of the jumps. -/
inductive Cond
  | always
  | z
  | nz
  | lt
  | gt
  | le
  | ge
  deriving DecidableEq, Repr

/-- The operands of `MOVE`. -/
inductive RegSp
  | r (i : Fin 8)
  | sp
  deriving DecidableEq, Repr

/-- An instruction. `Rel` stands for an address that is in a register. The constant may be a
word, a number or a label, as the layer needs it. -/
inductive Insn (κ : Type)
  | set (a : Fin 8) (x : κ)
  | load (w : Width) (a : Fin 8) (x : κ)
  | loadRel (w : Width) (a b : Fin 8)
  | store (w : Width) (a : Fin 8) (x : κ)
  | storeRel (w : Width) (a b : Fin 8)
  | move (s d : RegSp)
  | alu (op : AluOp) (a b c : Fin 8)
  | cmp (a b : Fin 8)
  | test (a : Fin 8)
  | jmp (cond : Cond) (x : κ)
  | jmpRel (cond : Cond) (a : Fin 8)
  | call (x : κ)
  | callRel (a : Fin 8)
  | ret
  | halt
  | push (a : Fin 8)
  | pop (a : Fin 8)
  | input (a : Fin 8)
  | output (a : Fin 8)
  deriving DecidableEq, Repr

namespace Insn

variable {κ μ : Type}

/-- The constant, where there is one. -/
def const : Insn κ → Option κ
  | set _ x | load _ _ x | store _ _ x | jmp _ x | call x => some x
  | _ => none

/-- The same instruction with its constant replaced. -/
def map (f : κ → μ) : Insn κ → Insn μ
  | set a x => set a (f x)
  | load w a x => load w a (f x)
  | loadRel w a b => loadRel w a b
  | store w a x => store w a (f x)
  | storeRel w a b => storeRel w a b
  | move s d => move s d
  | alu op a b c => alu op a b c
  | cmp a b => cmp a b
  | test a => test a
  | jmp cond x => jmp cond (f x)
  | jmpRel cond a => jmpRel cond a
  | call x => call (f x)
  | callRel a => callRel a
  | ret => ret
  | halt => halt
  | push a => push a
  | pop a => pop a
  | input a => input a
  | output a => output a

/-- How many bytes the instruction takes. -/
def size : Insn κ → ℕ
  | set .. | load .. | store .. | jmp .. | call .. => 4
  | _ => 2

/-- An instruction with a constant takes four bytes. -/
theorem size_of_const {i : Insn κ} {x : κ} (h : i.const = some x) : i.size = 4 := by
  cases i <;> simp_all [const, size]

/-- Every instruction takes two bytes at least. -/
theorem two_le_size (i : Insn κ) : 2 ≤ i.size := by
  cases i <;> simp [size]

/-- An instruction without a constant takes two bytes. -/
theorem size_of_const_none {i : Insn κ} (h : i.const = none) : i.size = 2 := by
  cases i <;> simp_all [const, size]

end Insn

/-! ### What they do -/

namespace Machine

variable (m : Machine)

/-- The word at an address. -/
def word (x : Word) : Word := m.memory (x + 1#16) ++ m.memory x

/-- A byte in memory. -/
def putByte (x : Word) (v : Byte) : Machine :=
  { m with memory := Function.update m.memory x v }

/-- A word in memory, its lower byte first. -/
def putWord (x v : Word) : Machine :=
  (m.putByte x (v.setWidth 8)).putByte (x + 1#16) (v.extractLsb' 8 8)

/-- A register. -/
def putReg (a : Fin 8) (v : Word) : Machine :=
  { m with R := Function.update m.R a v }

/-- Both flags, from a result. -/
def flags (res : Word) : Machine :=
  { m with Z := if res = 0 then 1 else 0, N := if res.msb then 1 else 0 }

/-- The place to go on at. -/
def goto (x : Word) : Machine := { m with PC := x }

/-- On to the instruction behind this one of `n` bytes. -/
def next (n : ℕ) : Machine := m.goto (m.PC + .ofNat 16 n)

/-- A word pushed on the stack. -/
def pushWord (v : Word) : Machine :=
  { m with SP := m.SP - 2#16 }.putWord (m.SP - 2#16) v

/-- The stack without its topmost word. -/
def dropWord : Machine := { m with SP := m.SP + 2#16 }

/-- What a memory instruction reads. -/
def fetch (w : Width) (x : Word) : Word :=
  match w with
  | .word => m.word x
  | .byte => (m.memory x).setWidth 16

/-- What a memory instruction writes. -/
def put (w : Width) (x v : Word) : Machine :=
  match w with
  | .word => m.putWord x v
  | .byte => m.putByte x (v.setWidth 8)

/-- An operand of `MOVE`. -/
def regSp : RegSp → Word
  | .r i => m.R i
  | .sp => m.SP

/-- The destination of `MOVE`. -/
def putRegSp (d : RegSp) (v : Word) : Machine :=
  match d with
  | .r i => m.putReg i v
  | .sp => { m with SP := v }

/-- The next byte of the input in a register, all ones at its end. -/
def readInto (a : Fin 8) : Machine :=
  match m.stdin with
  | [] => m.putReg a (.allOnes 16)
  | b :: rest => { m with stdin := rest }.putReg a (b.setWidth 16)

/-- A byte of output. -/
def write (v : Byte) : Machine := { m with stdout := m.stdout ++ [v] }

end Machine

/-- The operation, modulo `2 ^ 16`. -/
def AluOp.apply : AluOp → Word → Word → Word
  | .add, x, y => x + y
  | .sub, x, y => x - y
  | .and, x, y => x &&& y
  | .or, x, y => x ||| y
  | .xor, x, y => x ^^^ y
  | .rshift, x, y => x >>> y.toNat

/-- The condition holds for the flags. -/
def Cond.Holds (m : Machine) : Cond → Prop
  | .always => True
  | .z => m.Z = 1
  | .nz => m.Z = 0
  | .lt => m.N = 1
  | .gt => m.N = 0 ∧ m.Z = 0
  | .le => m.N = 1 ∨ m.Z = 1
  | .ge => m.N = 0

/-- Whether a condition holds can be computed from the flags. -/
instance (m : Machine) (cond : Cond) : Decidable (cond.Holds m) := by
  cases cond <;> unfold Cond.Holds <;> infer_instance

namespace Insn

/-- What the instruction does. This is the description of the machine, apart from the code; that
`emulate` does the same is shown in `Decode`. -/
def exec (i : Insn Word) (m : Machine) : Machine :=
  match i with
  | set a x => (m.putReg a x).next i.size
  | load w a x => (m.putReg a (m.fetch w x)).next i.size
  | loadRel w a b => (m.putReg a (m.fetch w (m.R b))).next i.size
  | store w a x => (m.put w x (m.R a)).next i.size
  | storeRel w a b => (m.put w (m.R b) (m.R a)).next i.size
  | move s d => (m.putRegSp d (m.regSp s)).next i.size
  | alu op a b c =>
      ((m.putReg c (op.apply (m.R a) (m.R b))).flags (op.apply (m.R a) (m.R b))).next i.size
  | cmp a b => (m.flags (m.R a - m.R b)).next i.size
  | test a => (m.flags (m.R a)).next i.size
  | jmp cond x => if cond.Holds m then m.goto x else m.next i.size
  | jmpRel cond a => if cond.Holds m then m.goto (m.R a) else m.next i.size
  | call x => (m.pushWord (m.PC + .ofNat 16 i.size)).goto x
  | callRel a => (m.pushWord (m.PC + .ofNat 16 i.size)).goto (m.R a)
  | ret => m.dropWord.goto (m.word m.SP)
  | halt => m
  | push a => (m.pushWord (m.R a)).next i.size
  | pop a => (m.dropWord.putReg a (m.word m.SP)).next i.size
  | input a => (m.readInto a).next i.size
  | output a => (m.write ((m.R a).setWidth 8)).next i.size

/-- What `emulate` returns for it. -/
def result {κ : Type} : Insn κ → ℕ
  | halt => 1
  | _ => 0

/-- The addresses of the data and stack words it touches. -/
def words (m : Machine) : Insn Word → List Word
  | load w _ x | store w _ x => w.words x
  | loadRel w _ b | storeRel w _ b => w.words (m.R b)
  | call _ | callRel _ | push _ => [m.SP - 2#16]
  | ret | pop _ => [m.SP]
  | set .. | move .. | alu .. | cmp .. | test .. | jmp .. | jmpRel .. | halt | input ..
  | output .. => []

/-- The addresses of the bytes it pushes. -/
def pushes {κ : Type} (m : Machine) : Insn κ → List Word
  | call _ | callRel _ | push _ => [m.SP - 2#16, m.SP - 1#16]
  | _ => []

/-- The addresses of its own bytes, when it is at `PC`. -/
def bytes {κ : Type} (m : Machine) (i : Insn κ) : List Word :=
  (List.range i.size).map fun k => m.PC + .ofNat 16 k

end Insn

/-! ### Encoding -/

/-- Three bits, and the registers, start at zero. -/
instance neZero_eight : NeZero 8 := ⟨Nat.succ_ne_zero 7⟩

/-- A word of five fields, the highest first. -/
def fields (t : Fin 16) (o c b a : Fin 8) : ℕ := t * 4096 + o * 512 + c * 64 + b * 8 + a

/-- The number of an operation. -/
def AluOp.code : AluOp → Fin 8
  | .add => 0
  | .sub => 1
  | .and => 2
  | .or => 3
  | .xor => 4
  | .rshift => 5

/-- The number of a condition. -/
def Cond.code : Cond → Fin 8
  | .always => 0
  | .z => 1
  | .nz => 2
  | .lt => 3
  | .gt => 4
  | .le => 5
  | .ge => 6

/-- The bit that tells bytes from words, in its field. -/
def Width.code : Width → Fin 8
  | .word => 0
  | .byte => 2

/-- The number of an operand of `MOVE`. -/
def RegSp.code : RegSp → Fin 16
  | .r i => i.castLE (by decide)
  | .sp => 8

/-- The first word of an instruction. The two operands of `MOVE` have four bits each, and the
fields that an instruction does not use are 0. -/
def Insn.opcode {κ : Type} : Insn κ → ℕ
  | .set a _ => fields 1 0 0 0 a
  | .load w a _ => fields 2 w.code 0 0 a
  | .loadRel w a b => fields 2 (w.code + 4) 0 b a
  | .store w a _ => fields 3 w.code 0 0 a
  | .storeRel w a b => fields 3 (w.code + 4) 0 b a
  | .move s d => 4 * 4096 + d.code * 16 + s.code
  | .alu op a b c => fields 5 op.code c b a
  | .cmp a b => fields 5 6 0 b a
  | .test a => fields 5 7 0 0 a
  | .jmp cond _ => fields 6 cond.code 0 0 0
  | .jmpRel cond a => fields 7 cond.code 0 0 a
  | .call _ => fields 8 0 0 0 0
  | .callRel a => fields 9 0 0 0 a
  | .ret => fields 10 0 0 0 0
  | .push a => fields 11 0 0 0 a
  | .pop a => fields 12 0 0 0 a
  | .input a => fields 13 0 0 0 a
  | .output a => fields 14 0 0 0 a
  | .halt => fields 15 0 0 0 0

/-- An opcode is a word. -/
theorem Insn.opcode_lt {κ : Type} (i : Insn κ) : i.opcode < 65536 := by
  cases i <;> simp only [opcode, fields] <;> omega

/-! ### Instructions with their constant replaced -/

/-- The opcode does not depend on the constant. -/
theorem Insn.opcode_map {κ μ : Type} (f : κ → μ) (i : Insn κ) : (i.map f).opcode = i.opcode := by
  cases i <;> rfl

/-- Nor does the size. -/
theorem Insn.size_map {κ μ : Type} (f : κ → μ) (i : Insn κ) : (i.map f).size = i.size := by
  cases i <;> rfl

/-- Nor does what `emulate` returns. -/
theorem Insn.result_map {κ μ : Type} (f : κ → μ) (i : Insn κ) : (i.map f).result = i.result := by
  cases i <;> rfl

/-- Nor does where it pushes. -/
theorem Insn.pushes_map {κ μ : Type} (f : κ → μ) (i : Insn κ) (m : Machine) :
    (i.map f).pushes m = i.pushes m := by
  cases i <;> rfl

/-- Nor do the addresses of its bytes. -/
theorem Insn.bytes_map {κ μ : Type} (f : κ → μ) (i : Insn κ) (m : Machine) :
    (i.map f).bytes m = i.bytes m := by
  cases i <;> rfl

/-- The constant is replaced, where there is one. -/
theorem Insn.const_map {κ μ : Type} (f : κ → μ) (i : Insn κ) :
    (i.map f).const = i.const.map f := by
  cases i <;> rfl

end SystemsProjects.BareMetal
