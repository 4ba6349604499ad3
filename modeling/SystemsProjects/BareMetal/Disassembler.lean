import Mathlib.Data.Nat.Notation
import SystemsProjects.BareMetal.Emulate

/-!
# The Disassembler

`disasm.c`: the text of one instruction and the number of bytes it takes, and the loop of
the standalone program over an image in its 64 KB. An instruction whose upper four bits are
zero leaves the buffer as it is, and the program prints whatever is in it. The columns in
front of the text, and the bytes behind a `HALT`, which are printed as data, are left out.

## Main definitions

* `disasm`: one instruction.
* `disassemble`: the texts that the loop prints.
-/

namespace SystemsProjects.BareMetal

/-! ### What `sprintf` writes -/

/-- `%d`, of a number that is not negative. -/
def dec (n : ℕ) : String := toString n

/-- A hexadecimal digit, in lower case. -/
def hexDigit (n : ℕ) : Char := if n < 10 then Char.ofNat (48 + n) else Char.ofNat (87 + n)

/-- `%04x`, of a word. -/
def hex4 (n : ℕ) : String :=
  String.ofList [hexDigit (n / 4096 % 16), hexDigit (n / 256 % 16), hexDigit (n / 16 % 16),
    hexDigit (n % 16)]

/-! ### One instruction -/

/-- `rnames`, the names of the registers, with the one of the stack pointer behind them. -/
def rnames : List String := ["R0", "R1", "R2", "R3", "R4", "R5", "R6", "R7", "SP"]

/-- `reg_str`. -/
def regStr (r : ℕ) : String := (rnames)[r]?.getD "*BAD*"

/-- `jmp_suff[ccc]`. -/
def jmpSuff (ccc : ℕ) : String :=
  ["", "_Z", "_NZ", "_LT", "_GT", "_LE", "_GE", "_*ILLEGAL*"][ccc]?.getD ""

/-- `disasm`: what it writes to the buffer, if it does, and what it returns. The lengths that it
returns are 2 and 4. -/
def disasm (insn next : ℕ) : Option String × ℕ :=
  let ra := insn &&& 7
  let rb := (insn &&& 56) >>> 3
  let rc := (insn &&& 448) >>> 6
  let indir := insn &&& 0x0800
  let byte := insn &&& 0x0400
  let tmp := if byte ≠ 0 then ".B" else ""
  let op := insn &&& 0x0E00
  let ccc := (insn &&& 0x0E00) >>> 9
  match insn &&& 0xF000 with
  | 0x1000 => (some ("SET R" ++ dec ra ++ " = 0x" ++ hex4 next), 4)
  | 0x2000 =>
      if indir ≠ 0 then (some ("LOAD" ++ tmp ++ " R" ++ dec ra ++ " <- *R" ++ dec rb), 2)
      else (some ("LOAD" ++ tmp ++ " R" ++ dec ra ++ " <- *0x" ++ hex4 next), 4)
  | 0x3000 =>
      if indir ≠ 0 then (some ("STORE" ++ tmp ++ " R" ++ dec ra ++ " -> *R" ++ dec rb), 2)
      else (some ("STORE" ++ tmp ++ " R" ++ dec ra ++ " -> *0x" ++ hex4 next), 4)
  | 0x4000 =>
      let ra := insn &&& 0xF
      let rb := (insn &&& 0xF0) >>> 4
      (some ("MOV " ++ regStr ra ++ " -> " ++ regStr rb), 2)
  | 0x5000 =>
      match op with
      | 0x0000 => (some ("ADD R" ++ dec ra ++ " + R" ++ dec rb ++ " -> R" ++ dec rc), 2)
      | 0x0200 => (some ("SUB R" ++ dec ra ++ " - R" ++ dec rb ++ " -> R" ++ dec rc), 2)
      | 0x0400 => (some ("AND R" ++ dec ra ++ " & R" ++ dec rb ++ " -> R" ++ dec rc), 2)
      | 0x0600 => (some ("OR R" ++ dec ra ++ " | R" ++ dec rb ++ " -> R" ++ dec rc), 2)
      | 0x0800 => (some ("XOR R" ++ dec ra ++ " ^ R" ++ dec rb ++ " -> R" ++ dec rc), 2)
      | 0x0A00 => (some ("RSHIFT R" ++ dec ra ++ " >> R" ++ dec rb ++ " -> R" ++ dec rc), 2)
      | 0x0C00 => (some ("CMP R" ++ dec ra ++ " - R" ++ dec rb), 2)
      | 0x0E00 => (some ("TEST R" ++ dec ra), 2)
      | _ => (none, 2)
  | 0x6000 => (some ("JMP" ++ jmpSuff ccc ++ " 0x" ++ hex4 next), 4)
  | 0x7000 => (some ("JMP" ++ jmpSuff ccc ++ " *R" ++ dec rc), 2)
  | 0x8000 => (some ("CALL 0x" ++ hex4 next), 4)
  | 0x9000 => (some ("CALL *R" ++ dec rc), 2)
  | 0xA000 => (some "RET", 2)
  | 0xB000 => (some ("PUSH R" ++ dec rc), 2)
  | 0xC000 => (some ("POP R" ++ dec rc), 2)
  | 0xD000 => (some ("IN R" ++ dec rc), 2)
  | 0xE000 => (some ("OUT R" ++ dec rc), 2)
  | 0xF000 => (some "HALT", 2)
  | _ => (none, 2)

/-! ### The standalone program -/

/-- `_mem[addr]`. An index outside it is undefined. -/
def memByte (image : List Byte) (addr : ℕ) : Option ℕ :=
  if addr < 65536 then some ((image)[addr]?.getD 0).toNat else none

/-- `load2`. The address is cut to 16 bits, and the index of the upper byte is an `int`, which
may lie outside the array. -/
def loadWord (image : List Byte) (addr : ℕ) : Option ℕ := do
  let low ← memByte image (addr % 65536)
  let high ← memByte image (addr % 65536 + 1)
  return low ||| high <<< 8

/-- The loop over the instructions, which is done after at most as many turns as there are
bytes. -/
def disasmLoop (image : List Byte) (len : ℕ) : ℕ → ℕ → Option (List (Option String))
  | 0, _ => some []
  | turns + 1, offset =>
      if offset < len then do
        let insn ← loadWord image offset
        let next ← loadWord image (offset + 2)
        let (buf, size) := disasm insn next
        if insn = 0xF000 then return [buf]
        return buf :: (← disasmLoop image len turns (offset + size))
      else some []

/-- The texts that are printed for an image: what `fread` reads of it is at most 64 KB, and the
rest of the array is zero. -/
def disassemble (image : List Byte) : Option (List (Option String)) :=
  disasmLoop (image.take 65536) (min image.length 65536) (min image.length 65536) 0

end SystemsProjects.BareMetal
