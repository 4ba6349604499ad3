import Mathlib.Data.List.DropRight
import Mathlib.Data.Nat.Notation
import SystemsProjects.Library.Stateful

/-!
# The Assembler

`asm.py` behind its tokenizer: the functions that take a line of tokens, recognise it in
the table of patterns, and store what it stands for. The globals of the script are the
state; an exception ends the script, and the run stops there with its kind. The arrays of
the source have 65536 entries. Source files are taken to be ASCII, so that the character
classes of Python's strings are the ASCII ones. The limit that newer interpreters set by
default on the digits of a decimal numeral (4300) is left out: `int` reads numerals of any
length.

## Main definitions

* `Asm`: the globals.
* `patterns`: the table.
* `doLine`: one line.
* `applyFixups`: the loop over the forward references, once every line is read.
-/

namespace SystemsProjects.BareMetal

/-- The globals of `asm.py`: the labels with their addresses, the current address, the memory,
and the places where a label is still to be filled in. -/
structure Asm where
  symtab : String → Option ℕ
  currentAddr : ℕ
  memory : ℕ → ℕ
  fixups : List (String × ℕ)

/-- The exceptions of Python that can end the script. `main` catches none. -/
inductive PyError
  | index
  | key
  | value
  | zeroDivision
  deriving DecidableEq, Repr

/-- Python code over the globals. An exception leaves them as they are, and ends the script. -/
abbrev Py := EStateM PyError Asm

/-- An exception. -/
def raise {α : Type} (e : PyError) : Py α := fun a => .error e a

/-! ### Strings and numbers -/

/-- `c.isspace()`, for ASCII characters. These are more than the blanks of C, by the four
separators from `0x1C` on. -/
def isSpace (c : Char) : Bool :=
  (0x09 ≤ c.toNat && c.toNat ≤ 0x0D) || (0x1C ≤ c.toNat && c.toNat ≤ 0x20)

/-- `c.upper() in '0123456789ABCDEF'`. -/
def isHex (c : Char) : Bool :=
  c.isDigit || ('A' ≤ c && c ≤ 'F') || ('a' ≤ c && c ≤ 'f')

/-- `is_num`, which goes by the first two characters. `s.isnumeric()` is taken for ASCII
characters, of which the digits are numeric. -/
def isNum (s : String) : Bool :=
  match s.toList with
  | '0' :: 'x' :: rest => rest.all isHex
  | l => !l.isEmpty && l.all Char.isDigit

/-- `s.isidentifier()`, for ASCII characters. Python takes the letters of other alphabets, too;
a theorem about arbitrary tokens asks them to be ASCII. -/
def isIdentifier (s : String) : Bool :=
  match s.toList with
  | [] => false
  | c :: rest => (c.isAlpha || c = '_') && rest.all fun d => d.isAlphanum || d = '_'

/-- The value of a hexadecimal digit. -/
def digit (c : Char) : ℕ :=
  if c.isDigit then c.toNat - 48 else c.toUpper.toNat - 55

/-- The value of a numeral, the highest digit first. -/
def digits (base : ℕ) (l : List Char) : ℕ :=
  l.foldl (fun n c => n * base + digit c) 0

/-- The blanks that `int` passes over in a string of ASCII characters: those of C, which are
fewer than those of `isspace`. -/
def isIntSpace (c : Char) : Bool :=
  (0x09 ≤ c.toNat && c.toNat ≤ 0x0D) || c.toNat = 0x20

/-- `int(s, base=0)`, on what the table lets through: no sign, no underscore, and no base but
ten and sixteen. A decimal numeral has no leading zero unless it is all zeros. The limit of
newer interpreters on the length of decimal numerals, which can be configured, is left out. -/
def pyInt (s : String) : Py ℕ :=
  match (s.toList.dropWhile isIntSpace).rdropWhile isIntSpace with
  | '0' :: 'x' :: rest =>
      if rest ≠ [] ∧ rest.all isHex then pure (digits 16 rest) else raise .value
  | l =>
      if l ≠ [] ∧ l.all Char.isDigit ∧ (l.head? ≠ some '0' ∨ l.all (· = '0')) then
        pure (digits 10 l)
      else raise .value

/-- A blank of `int` is one of `isspace`. -/
theorem isIntSpace_eq_false {c : Char} (h : isSpace c = false) : isIntSpace c = false := by
  simp only [isSpace, isIntSpace, Bool.or_eq_false_iff, Bool.and_eq_false_iff,
    decide_eq_false_iff_not] at h ⊢
  omega

/-- `line[i]`, for an index that is not negative. -/
def item (line : List String) (i : ℕ) : Py String :=
  match (line)[i]? with
  | some s => pure s
  | none => raise .index

/-- `d[s]` for a dictionary of constants. The rows of the table let its keys through only. -/
def entry (d : List (String × ℕ)) (s : String) : Py ℕ :=
  match d.lookup s with
  | some n => pure n
  | none => raise .key

/-! ### Storing -/

/-- `memory[addr] = val`. The list has 65536 entries, and a value is not cut to a byte. -/
def setMemory (addr val : ℕ) : Py Unit := fun a =>
  if addr < 65536 then
    .ok () { a with memory := fun k => if k = addr then val else a.memory k }
  else .error .index a

/-- `current_addr`, read. -/
def currentAddr : Py ℕ := fun a => .ok a.currentAddr a

/-- `current_addr`, written. -/
def setCurrentAddr (addr : ℕ) : Py Unit := fun a => .ok () { a with currentAddr := addr }

/-- `regnum`. It looks at the second character only, and takes the digits 8 and 9 as well. -/
def regnum (r : String) : Py ℕ :=
  if r = "SP" then pure 8
  else
    match r.toList[1]? with
    | none => raise .index
    | some c => if c.isDigit then pure (digit c) else raise .value

/-- `value`. A label that is not known yet is left to the fixups, with 0 in its place. -/
def value (n : String) : Py ℕ :=
  if isIdentifier n then fun a =>
    match a.symtab n with
    | some v => .ok v a
    | none => .ok 0 { a with fixups := a.fixups ++ [(n, a.currentAddr)] }
  else pyInt n

/-- `store2`, the lower byte first. -/
def storeWord (addr val : ℕ) : Py Unit := do
  setMemory addr (val &&& 0xFF)
  setMemory (addr + 1) (val >>> 8)

/-- `store_insn`. The current address moves on by two bytes. -/
def storeInsn (insn : ℕ) : Py Unit := do
  setMemory (← currentAddr) (insn &&& 0xFF)
  setMemory ((← currentAddr) + 1) (insn >>> 8)
  setCurrentAddr ((← currentAddr) + 2)

/-! ### Instructions -/

/-- `alu_ops`, the bits of the operations. `CMP` and `TEST` have lines of their own. -/
def aluOps : List (String × ℕ) :=
  [("ADD", 0x0000), ("SUB", 0x0200), ("AND", 0x0400), ("OR", 0x0600), ("XOR", 0x0800),
    ("RSHIFT", 0x0A00)]

/-- `jmp_code`. -/
def jmpCode : List (String × ℕ) :=
  [("JMP", 0x0000), ("JMP_Z", 0x0200), ("JMP_NZ", 0x0400), ("JMP_LT", 0x0600),
    ("JMP_GT", 0x0800), ("JMP_LE", 0x0A00), ("JMP_GE", 0x0C00)]

/-- `misc_opcode`. -/
def miscOpcode : List (String × ℕ) :=
  [("PUSH", 0xB000), ("POP", 0xC000), ("IN", 0xD000), ("OUT", 0xE000), ("RET", 0xA000),
    ("HALT", 0xF000)]

/-- `0x0400 if (op[-2:] == '.B') else 0`, by the last two characters of the keyword. -/
def byteFlag (op : String) : ℕ :=
  if op.toList.drop (op.toList.length - 2) = ['.', 'B'] then 0x0400 else 0

/-- `do_set`. -/
def doSet (line : List String) : Py Unit := do
  storeInsn (0x1000 ||| (← regnum (← item line 1)))
  storeInsn (← value (← item line 3))

/-- `do_load` and `do_store`, which differ in the instruction code. The star is taken out
of the line. -/
def doMem (code : ℕ) (line : List String) : Py Unit := do
  let byte := byteFlag (← item line 0)
  let line := line.erase "*"
  storeInsn (code ||| byte ||| (← regnum (← item line 1)))
  storeInsn (← value (← item line 3))

/-- `do_load_rel` and `do_store_rel`, which differ in the instruction code. The star stays in
the line. -/
def doMemRel (code : ℕ) (line : List String) : Py Unit := do
  let byte := byteFlag (← item line 0)
  storeInsn (code ||| byte ||| (← regnum (← item line 4)) <<< 3 |||
    (← regnum (← item line 1)))

/-- `do_load`. -/
def doLoad : List String → Py Unit := doMem 0x2000

/-- `do_load_rel`. -/
def doLoadRel : List String → Py Unit := doMemRel 0x2800

/-- `do_store`. -/
def doStore : List String → Py Unit := doMem 0x3000

/-- `do_store_rel`. -/
def doStoreRel : List String → Py Unit := doMemRel 0x3800

/-- `do_move`, with four bits for each operand. -/
def doMove (line : List String) : Py Unit := do
  storeInsn (0x4000 ||| (← regnum (← item line 3)) <<< 4 ||| (← regnum (← item line 1)))

/-- `do_alu`. -/
def doAlu (line : List String) : Py Unit := do
  storeInsn (0x5000 ||| (← entry aluOps (← item line 0)) |||
    (← regnum (← item line 5)) <<< 6 ||| (← regnum (← item line 3)) <<< 3 |||
    (← regnum (← item line 1)))

/-- `do_cmp`. -/
def doCmp (line : List String) : Py Unit := do
  storeInsn (0x5C00 ||| (← regnum (← item line 3)) <<< 3 ||| (← regnum (← item line 1)))

/-- `do_test`. -/
def doTest (line : List String) : Py Unit := do
  storeInsn (0x5E00 ||| (← regnum (← item line 1)))

/-- `do_jmp`. -/
def doJmp (line : List String) : Py Unit := do
  storeInsn (0x6000 ||| (← entry jmpCode (← item line 0)))
  storeInsn (← value (← item line 1))

/-- `do_jmp_rel`. -/
def doJmpRel (line : List String) : Py Unit := do
  storeInsn (0x7000 ||| (← entry jmpCode (← item line 0)) |||
    (← regnum (← item line 2)))

/-- `do_call`. -/
def doCall (line : List String) : Py Unit := do
  storeInsn 0x8000
  storeInsn (← value (← item line 1))

/-- `do_call_rel`. -/
def doCallRel (line : List String) : Py Unit := do
  storeInsn (0x9000 ||| (← regnum (← item line 2)))

/-- `do_misc`: the instructions with one register or with none. -/
def doMisc (line : List String) : Py Unit := do
  if (← item line 0) ∈ ["RET", "HALT"] then
    storeInsn (← entry miscOpcode (← item line 0))
  else
    storeInsn ((← entry miscOpcode (← item line 0)) ||| (← regnum (← item line 1)))

/-! ### Directives -/

/-- `do_sym`. A label that is defined again gets the new address. -/
def doSym (line : List String) : Py Unit := do
  let name ← item line 1
  fun a => .ok () { a with
    symtab := fun n => if n = name then some a.currentAddr else a.symtab n }

/-- The loop of `do_bytes`. -/
def bytesLoop : List String → Py Unit
  | [] => pure ()
  | s :: rest => do
      let n := (← pyInt s) &&& 0xFF
      setMemory (← currentAddr) n
      setCurrentAddr ((← currentAddr) + 1)
      bytesLoop rest

/-- `do_bytes`, for all tokens behind the keyword. The table lets one through. -/
def doBytes (line : List String) : Py Unit := bytesLoop line.tail

/-- The loop of `do_words`. -/
def wordsLoop : List String → Py Unit
  | [] => pure ()
  | s :: rest => do
      let n := (← pyInt s) &&& 0xFFFF
      setMemory (← currentAddr) (n &&& 0xFF)
      setMemory ((← currentAddr) + 1) ((n >>> 8) &&& 0xFF)
      setCurrentAddr ((← currentAddr) + 2)
      wordsLoop rest

/-- `do_words`, for all tokens behind the keyword. The table lets one through. -/
def doWords (line : List String) : Py Unit := wordsLoop line.tail

/-- `s.replace('\\n', '\n')`: a backslash before an `n` and that `n` are a newline. -/
def replaceNewlines : List Char → List Char
  | '\\' :: 'n' :: rest => '\n' :: replaceNewlines rest
  | c :: rest => c :: replaceNewlines rest
  | [] => []

/-- The loop of `do_string`. -/
def stringLoop : List Char → Py Unit
  | [] => pure ()
  | c :: rest => do
      setMemory (← currentAddr) c.toNat
      setCurrentAddr ((← currentAddr) + 1)
      stringLoop rest

/-- `do_string`: the codes of the characters, and a zero behind them. -/
def doString (line : List String) : Py Unit := do
  stringLoop (replaceNewlines (← item line 1).toList)
  setMemory (← currentAddr) 0
  setCurrentAddr ((← currentAddr) + 1)

/-- The loop of `do_align`, which is done after at most `n` turns. -/
def alignLoop (n : ℕ) : ℕ → ℕ → ℕ
  | 0, addr => addr
  | turns + 1, addr => if addr % n ≠ 0 then alignLoop n turns (addr + 1) else addr

/-- `do_align`. A multiple of 0 raises an exception. -/
def doAlign (line : List String) : Py Unit := do
  let n ← pyInt (← item line 1)
  if n = 0 then raise .zeroDivision
  setCurrentAddr (alignLoop n n (← currentAddr))

/-- `do_addr`. The current address may go backwards, or out of the memory. -/
def doAddr (line : List String) : Py Unit := do
  setCurrentAddr (← pyInt (← item line 1))

/-! ### The table -/

/-- What a token may be: one of some words, a number, numbers, anything, a label, a register, or
a fixed word. -/
inductive Pattern
  | oneOf (names : List String)
  | num
  | nums
  | any
  | label
  | reg
  | lit (s : String)
  deriving DecidableEq, Repr

/-- `jmp`. -/
def jmp : List String := ["JMP", "JMP_Z", "JMP_NZ", "JMP_LT", "JMP_GT", "JMP_LE", "JMP_GE"]

/-- `reg_sp`. -/
def regSp : List String := ["R0", "R1", "R2", "R3", "R4", "R5", "R6", "R7", "SP"]

/-- `load`. -/
def load : List String := ["LOAD", "LOAD.B"]

/-- `store`. -/
def store : List String := ["STORE", "STORE.B"]

open Pattern in
/-- `patterns`, in the order of the source. The first row that matches is the one that counts. -/
def patterns : List (List Pattern × (List String → Py Unit)) := [
  ([lit "SET", reg, lit "=", num], doSet),
  ([lit "SET", reg, lit "=", label], doSet),
  ([oneOf load, reg, lit "<-", num], doLoad),
  ([oneOf load, reg, lit "<-", lit "*", num], doLoad),
  ([oneOf load, reg, lit "<-", label], doLoad),
  ([oneOf load, reg, lit "<-", lit "*", reg], doLoadRel),
  ([oneOf load, reg, lit "<-", lit "*", label], doLoad),
  ([oneOf store, reg, lit "->", num], doStore),
  ([oneOf store, reg, lit "->", lit "*", num], doStore),
  ([oneOf store, reg, lit "->", label], doStore),
  ([oneOf store, reg, lit "->", lit "*", reg], doStoreRel),
  ([oneOf store, reg, lit "->", lit "*", label], doStore),
  ([lit "MOVE", oneOf regSp, lit "->", oneOf regSp], doMove),
  ([lit "ADD", reg, lit "+", reg, lit "->", reg], doAlu),
  ([lit "SUB", reg, lit "-", reg, lit "->", reg], doAlu),
  ([lit "AND", reg, lit "&", reg, lit "->", reg], doAlu),
  ([lit "OR", reg, lit "|", reg, lit "->", reg], doAlu),
  ([lit "XOR", reg, lit "^", reg, lit "->", reg], doAlu),
  ([lit "RSHIFT", reg, lit ">>", reg, lit "->", reg], doAlu),
  ([lit "CMP", reg, lit "-", reg], doCmp),
  ([lit "TEST", reg], doTest),
  ([oneOf jmp, num], doJmp),
  ([oneOf jmp, label], doJmp),
  ([oneOf jmp, lit "*", reg], doJmpRel),
  ([lit "CALL", num], doCall),
  ([lit "CALL", label], doCall),
  ([lit "CALL", lit "*", reg], doCallRel),
  ([lit "RET"], doMisc),
  ([lit "HALT"], doMisc),
  ([lit "PUSH", reg], doMisc),
  ([lit "POP", reg], doMisc),
  ([lit "IN", reg], doMisc),
  ([lit "OUT", reg], doMisc),
  ([lit "SYMBOL", label], doSym),
  ([lit "BYTES", nums], doBytes),
  ([lit "WORDS", nums], doWords),
  ([lit "STRING", any], doString),
  ([lit "ALIGN", num], doAlign),
  ([lit "ADDR", num], doAddr)]

/-- The test of a token for `'<r>'`, which looks at its first two characters. Without them it
raises an exception. -/
def matchReg (token : String) : Py Bool :=
  match token.toList with
  | [] => raise .index
  | 'R' :: rest =>
      match rest with
      | [] => raise .index
      | c :: _ => pure (c ∈ ['0', '1', '2', '3', '4', '5', '6', '7'])
  | _ => pure false

/-- `match`, for one token and one column. -/
def matchToken (token : String) : Pattern → Py Bool
  | .oneOf names => pure (token ∈ names)
  | .num => pure (isNum token)
  | .nums =>
      pure (((token.toList.filter (· ≠ ',')).splitOnP isSpace).all fun t =>
        t.isEmpty || isNum (String.ofList t))
  | .any => pure true
  | .label => pure (isIdentifier token)
  | .reg => matchReg token
  | .lit s => pure (token = s)

/-- The loop of `match_line`, from the left. It stops at the first column that does not match. -/
def matchTokens : List String → List Pattern → Py Bool
  | l :: line, p :: pattern => do
      if ← matchToken l p then matchTokens line pattern else return false
  | _, _ => return true

/-- `match_line`, which compares the lengths first. -/
def matchLine (line : List String) (pattern : List Pattern) : Py Bool :=
  if line.length ≠ pattern.length then return false else matchTokens line pattern

/-- The loop of `do_line`. A line that matches no row is passed over. -/
def doPatterns (line : List String) : List (List Pattern × (List String → Py Unit)) → Py Unit
  | [] => return ()
  | (pattern, act) :: rest => do
      if ← matchLine line pattern then act line else doPatterns line rest

/-- `do_line`, for a line with tokens or without. -/
def doLine (line : List String) : Py Unit :=
  if line.length = 0 then return () else doPatterns line patterns

/-! ### Forward references -/

/-- `symtab[sym]`. -/
def symbol (sym : String) : Py ℕ := fun a =>
  match a.symtab sym with
  | some v => .ok v a
  | none => .error .key a

/-- The loop over `fixups` behind the last line. A label that is nowhere defined raises an
exception. -/
def applyFixups : List (String × ℕ) → Py Unit
  | [] => return ()
  | (sym, loc) :: rest => do
      storeWord loc (← symbol sym)
      applyFixups rest

end SystemsProjects.BareMetal
