import Mathlib.Data.Fin.Basic
import SystemsProjects.BareMetal.Assembler
import SystemsProjects.BareMetal.Isa
import SystemsProjects.Library.Fields

/-!
# What the Assembler Encodes

The instruction lines of the table, each with the instruction it is written for, and the
words that `do_line` stores for them: the first word of the instruction, and the value of
its constant where it has one. The head of a line selects the rows of the table that can
match it, so that a line is looked up among at most five of them.

## Main definitions

* `Written`: a line of tokens spells an instruction.
* `emitInsn`: the words of an instruction are stored.

## Main results

* `Written.doLine_eq`: `do_line` stores the words of the instruction that is spelled.
-/

namespace SystemsProjects.BareMetal

/-! ### Names -/

/-- The name of a register. -/
def regName (a : Fin 8) : String := String.ofList ['R', Char.ofNat (48 + a)]

/-- The name of an operand of `MOVE`. -/
def RegSp.name : RegSp → String
  | .r i => regName i
  | .sp => "SP"

/-- The mnemonic of a load. -/
def Width.load : Width → String
  | .word => "LOAD"
  | .byte => "LOAD.B"

/-- The mnemonic of a store. -/
def Width.store : Width → String
  | .word => "STORE"
  | .byte => "STORE.B"

/-- The mnemonic of an operation. -/
def AluOp.name : AluOp → String
  | .add => "ADD"
  | .sub => "SUB"
  | .and => "AND"
  | .or => "OR"
  | .xor => "XOR"
  | .rshift => "RSHIFT"

/-- The operator between the operands of an operation. -/
def AluOp.symbol : AluOp → String
  | .add => "+"
  | .sub => "-"
  | .and => "&"
  | .or => "|"
  | .xor => "^"
  | .rshift => ">>"

/-- The mnemonic of a jump. -/
def Cond.name : Cond → String
  | .always => "JMP"
  | .z => "JMP_Z"
  | .nz => "JMP_NZ"
  | .lt => "JMP_LT"
  | .gt => "JMP_GT"
  | .le => "JMP_LE"
  | .ge => "JMP_GE"

/-! ### Stored words -/

/-- A word stored in the image, its lower byte first. -/
def Asm.putWord (a : Asm) (addr val : ℕ) : Asm :=
  { a with memory := fun k =>
      if k = addr + 1 then val >>> 8 else if k = addr then val &&& 0xFF else a.memory k }

/-- The state behind the word that `store_insn` stores. -/
def Asm.next (a : Asm) (val : ℕ) : Asm :=
  { a.putWord a.currentAddr val with currentAddr := a.currentAddr + 2 }

/-- Storing a word, where it succeeds, needs room for two bytes. -/
theorem storeInsn_ok {a b : Asm} {val : ℕ} (h : storeInsn val a = .ok () b) :
    a.currentAddr + 1 < 65536 ∧ b = a.next val := by
  by_cases hlt : a.currentAddr + 1 < 65536
  · have hlt' : a.currentAddr < 65536 := by omega
    simp [storeInsn, Stateful.bind_run, currentAddr, setMemory, setCurrentAddr, hlt, hlt'] at h
    exact ⟨hlt, h.symm⟩
  · by_cases hlt' : a.currentAddr < 65536
    · simp [storeInsn, Stateful.bind_run, currentAddr, setMemory, hlt, hlt'] at h
    · simp [storeInsn, Stateful.bind_run, currentAddr, setMemory, hlt'] at h

/-- Storing a word at an address, where it succeeds, changes that word. -/
theorem storeWord_ok {a b : Asm} {addr val : ℕ} (h : storeWord addr val a = .ok () b) :
    b = a.putWord addr val := by
  by_cases hlt : addr + 1 < 65536
  · have hlt' : addr < 65536 := by omega
    simp [storeWord, Stateful.bind_run, setMemory, hlt, hlt'] at h
    exact h.symm
  · by_cases hlt' : addr < 65536
    · simp [storeWord, Stateful.bind_run, setMemory, hlt, hlt'] at h
    · simp [storeWord, Stateful.bind_run, setMemory, hlt'] at h

/-! ### Written instructions -/

/-- A constant is written as a number or as a label. -/
def IsConst (n : String) : Prop := isNum n ∨ isIdentifier n

/-- A token that the table takes for a register, or trips over as one. -/
def LooksLikeReg (n : String) : Prop :=
  n = "R" ∨ ∃ c rest, n.toList = 'R' :: c :: rest ∧
    c ∈ ['0', '1', '2', '3', '4', '5', '6', '7']

/-- The instruction lines. A label behind a star must not look like a register, as the rows of
the registers come first. -/
inductive Written : List String → Insn String → Prop
  | set (a : Fin 8) {n : String} (hn : IsConst n) :
      Written ["SET", regName a, "=", n] (.set a n)
  | load (w : Width) (a : Fin 8) {n : String} (hn : IsConst n) :
      Written [w.load, regName a, "<-", n] (.load w a n)
  | loadStar (w : Width) (a : Fin 8) {n : String} (hn : IsConst n) (hr : ¬ LooksLikeReg n) :
      Written [w.load, regName a, "<-", "*", n] (.load w a n)
  | loadRel (w : Width) (a b : Fin 8) :
      Written [w.load, regName a, "<-", "*", regName b] (.loadRel w a b)
  | store (w : Width) (a : Fin 8) {n : String} (hn : IsConst n) :
      Written [w.store, regName a, "->", n] (.store w a n)
  | storeStar (w : Width) (a : Fin 8) {n : String} (hn : IsConst n) (hr : ¬ LooksLikeReg n) :
      Written [w.store, regName a, "->", "*", n] (.store w a n)
  | storeRel (w : Width) (a b : Fin 8) :
      Written [w.store, regName a, "->", "*", regName b] (.storeRel w a b)
  | move (s d : RegSp) : Written ["MOVE", s.name, "->", d.name] (.move s d)
  | alu (op : AluOp) (a b c : Fin 8) :
      Written [op.name, regName a, op.symbol, regName b, "->", regName c] (.alu op a b c)
  | cmp (a b : Fin 8) : Written ["CMP", regName a, "-", regName b] (.cmp a b)
  | test (a : Fin 8) : Written ["TEST", regName a] (.test a)
  | jmp (cond : Cond) {n : String} (hn : IsConst n) : Written [cond.name, n] (.jmp cond n)
  | jmpRel (cond : Cond) (a : Fin 8) : Written [cond.name, "*", regName a] (.jmpRel cond a)
  | call {n : String} (hn : IsConst n) : Written ["CALL", n] (.call n)
  | callRel (a : Fin 8) : Written ["CALL", "*", regName a] (.callRel a)
  | ret : Written ["RET"] .ret
  | halt : Written ["HALT"] .halt
  | push (a : Fin 8) : Written ["PUSH", regName a] (.push a)
  | pop (a : Fin 8) : Written ["POP", regName a] (.pop a)
  | input (a : Fin 8) : Written ["IN", regName a] (.input a)
  | output (a : Fin 8) : Written ["OUT", regName a] (.output a)

/-- A token that the table takes for register `a`. It goes by the first two characters, whatever
is behind them. -/
def NamesReg (r : String) (a : Fin 8) : Prop :=
  ∃ rest, r.toList = 'R' :: Char.ofNat (48 + a) :: rest

/-- The instruction rows of the table, with the instructions they are written for: every token
that passes for a register is one, and the tokens that pass for a constant are read by `C`. -/
inductive Spelled {κ : Type} (C : String → κ → Prop) : List String → Insn κ → Prop
  | set {r n : String} {a : Fin 8} {x : κ} (hr : NamesReg r a) (hn : C n x) :
      Spelled C ["SET", r, "=", n] (.set a x)
  | load {r n : String} {a : Fin 8} {x : κ} (w : Width) (hr : NamesReg r a) (hn : C n x) :
      Spelled C [w.load, r, "<-", n] (.load w a x)
  | loadStar {r n : String} {a : Fin 8} {x : κ} (w : Width) (hr : NamesReg r a) (hn : C n x)
      (hl : ¬ LooksLikeReg n) : Spelled C [w.load, r, "<-", "*", n] (.load w a x)
  | loadRel {r q : String} {a b : Fin 8} (w : Width) (hr : NamesReg r a) (hq : NamesReg q b) :
      Spelled C [w.load, r, "<-", "*", q] (.loadRel w a b)
  | store {r n : String} {a : Fin 8} {x : κ} (w : Width) (hr : NamesReg r a) (hn : C n x) :
      Spelled C [w.store, r, "->", n] (.store w a x)
  | storeStar {r n : String} {a : Fin 8} {x : κ} (w : Width) (hr : NamesReg r a) (hn : C n x)
      (hl : ¬ LooksLikeReg n) : Spelled C [w.store, r, "->", "*", n] (.store w a x)
  | storeRel {r q : String} {a b : Fin 8} (w : Width) (hr : NamesReg r a) (hq : NamesReg q b) :
      Spelled C [w.store, r, "->", "*", q] (.storeRel w a b)
  | move (s d : RegSp) : Spelled C ["MOVE", s.name, "->", d.name] (.move s d)
  | alu {r q t : String} {a b c : Fin 8} (op : AluOp) (hr : NamesReg r a) (hq : NamesReg q b)
      (ht : NamesReg t c) : Spelled C [op.name, r, op.symbol, q, "->", t] (.alu op a b c)
  | cmp {r q : String} {a b : Fin 8} (hr : NamesReg r a) (hq : NamesReg q b) :
      Spelled C ["CMP", r, "-", q] (.cmp a b)
  | test {r : String} {a : Fin 8} (hr : NamesReg r a) : Spelled C ["TEST", r] (.test a)
  | jmp {n : String} {x : κ} (cond : Cond) (hn : C n x) : Spelled C [cond.name, n] (.jmp cond x)
  | jmpRel {r : String} {a : Fin 8} (cond : Cond) (hr : NamesReg r a) :
      Spelled C [cond.name, "*", r] (.jmpRel cond a)
  | call {n : String} {x : κ} (hn : C n x) : Spelled C ["CALL", n] (.call x)
  | callRel {r : String} {a : Fin 8} (hr : NamesReg r a) : Spelled C ["CALL", "*", r] (.callRel a)
  | ret : Spelled C ["RET"] .ret
  | halt : Spelled C ["HALT"] .halt
  | push {r : String} {a : Fin 8} (hr : NamesReg r a) : Spelled C ["PUSH", r] (.push a)
  | pop {r : String} {a : Fin 8} (hr : NamesReg r a) : Spelled C ["POP", r] (.pop a)
  | input {r : String} {a : Fin 8} (hr : NamesReg r a) : Spelled C ["IN", r] (.input a)
  | output {r : String} {a : Fin 8} (hr : NamesReg r a) : Spelled C ["OUT", r] (.output a)

/-- The words of an instruction, stored one after the other, with the value that `val` finds
for its constant. -/
def emit {κ : Type} (val : κ → Py ℕ) (i : Insn κ) : Py Unit := do
  storeInsn i.opcode
  match i.const with
  | some x => storeInsn (← val x)
  | none => return ()

/-- The words of an instruction, stored one after the other. -/
def emitInsn (i : Insn String) : Py Unit := do
  storeInsn i.opcode
  match i.const with
  | some n => storeInsn (← value n)
  | none => return ()

/-! ### The fields put together -/

section Fields

variable (t : Fin 16) (o c b a : Fin 8)

/-- Three registers below the operation, as the source puts them together. -/
theorem fields_eq_or :
    fields t o c b a =
      (t : ℕ) * 4096 ||| (o : ℕ) * 512 ||| (c : ℕ) <<< 6 ||| (b : ℕ) <<< 3 ||| (a : ℕ) := by
  have ho : (t : ℕ) * 4096 ||| (o : ℕ) * 512 = t * 4096 + o * 512 :=
    Fields.or_field (k := 12) (by omega) (by omega)
  have hc : (t * 4096 + o * 512 : ℕ) ||| (c : ℕ) <<< 6 = t * 4096 + o * 512 + c * 64 := by
    rw [Nat.shiftLeft_eq]
    exact Fields.or_field (k := 9) (by omega) (by omega)
  have hb : (t * 4096 + o * 512 + c * 64 : ℕ) ||| (b : ℕ) <<< 3 =
      t * 4096 + o * 512 + c * 64 + b * 8 := by
    rw [Nat.shiftLeft_eq]
    exact Fields.or_field (k := 6) (by omega) (by omega)
  have ha : (t * 4096 + o * 512 + c * 64 + b * 8 : ℕ) ||| (a : ℕ) = fields t o c b a :=
    Fields.or_field (k := 3) (by omega) a.isLt
  rw [ho, hc, hb, ha]

/-- Two registers below the operation. -/
theorem fields_eq_or_b :
    fields t o 0 b a = (t : ℕ) * 4096 ||| (o : ℕ) * 512 ||| (b : ℕ) <<< 3 ||| (a : ℕ) := by
  simpa using fields_eq_or t o 0 b a

/-- One register below the operation. -/
theorem fields_eq_or_a : fields t o 0 0 a = (t : ℕ) * 4096 ||| (o : ℕ) * 512 ||| (a : ℕ) := by
  simpa using fields_eq_or t o 0 0 a

/-- No register. -/
theorem fields_eq_or_none : fields t o 0 0 0 = (t : ℕ) * 4096 ||| (o : ℕ) * 512 := by
  simpa using fields_eq_or t o 0 0 0

end Fields

/-! ### Looking up a line -/

/-- The first pattern of a row lets the head of a line through. -/
def Pattern.heads (w : String) : List Pattern → Bool
  | .lit s :: _ => w = s
  | .oneOf names :: _ => w ∈ names
  | _ => true

/-- Rows that begin with another name do not match. -/
theorem matchLine_of_heads {w : String} {p : List Pattern} (rest : List String)
    (h : Pattern.heads w p = false) : matchLine (w :: rest) p = pure false := by
  match p with
  | .lit s :: p =>
      simp only [Pattern.heads, decide_eq_false_iff_not] at h
      simp [matchLine, matchTokens, matchToken, h]
  | .oneOf names :: p =>
      simp only [Pattern.heads, decide_eq_false_iff_not] at h
      simp [matchLine, matchTokens, matchToken, h]

/-- The rows that the head of the line selects, `doLine` looks at alone. -/
theorem doLine_cons (w : String) (rest : List String) :
    doLine (w :: rest) =
      doPatterns (w :: rest) (patterns.filter fun p => Pattern.heads w p.1) := by
  have hrows : ∀ rows, doPatterns (w :: rest) rows =
      doPatterns (w :: rest) (rows.filter fun p => Pattern.heads w p.1) := by
    intro rows
    induction rows with
    | nil => rfl
    | cons row rows ih =>
        obtain ⟨p, act⟩ := row
        cases h : Pattern.heads w p with
        | false => simp [doPatterns, matchLine_of_heads rest h, h, ih]
        | true => simp [doPatterns, h, ih]
  rw [doLine, if_neg (by simp), hrows]

/-- The name of a register names it. -/
theorem namesReg_regName (a : Fin 8) : NamesReg (regName a) a :=
  ⟨[], String.toList_ofList⟩

namespace NamesReg

variable {r : String} {a : Fin 8}

/-- A name of a register is taken for one. -/
theorem matchReg (h : NamesReg r a) : matchReg r = pure true := by
  have hc : ∀ a : Fin 8,
      Char.ofNat (48 + a) ∈ ['0', '1', '2', '3', '4', '5', '6', '7'] := by decide
  obtain ⟨rest, h⟩ := h
  rw [BareMetal.matchReg, h]
  simp only [hc]
  rfl

/-- Its number is the digit. -/
theorem regnum (h : NamesReg r a) : regnum r = pure (a : ℕ) := by
  have hd : ∀ a : Fin 8, (Char.ofNat (48 + a)).isDigit ∧ digit (Char.ofNat (48 + a)) = a := by
    decide
  obtain ⟨rest, h⟩ := h
  have hsp : r ≠ "SP" := by
    rintro rfl
    cases h
  rw [BareMetal.regnum, if_neg hsp, h]
  simp [hd]

/-- It is not the star of the indirect forms. -/
theorem ne_star (h : NamesReg r a) : r ≠ "*" := by
  obtain ⟨rest, h⟩ := h
  rintro rfl
  cases h

/-- Nor is it a number. -/
theorem isNum (h : NamesReg r a) : isNum r = false := by
  obtain ⟨rest, h⟩ := h
  rw [BareMetal.isNum, h]
  rfl

end NamesReg

/-- The row for a register behind the star lets a constant pass. -/
theorem matchReg_of_isConst {n : String} (hn : IsConst n) (h : ¬ LooksLikeReg n) :
    matchReg n = pure false := by
  have hnil : n.toList ≠ [] := by
    intro e
    simp [IsConst, isNum, isIdentifier, e] at hn
  rw [matchReg]
  split
  · next e => exact absurd e hnil
  · next rest e =>
      cases rest with
      | nil => exact absurd (.inl (String.toList_inj.mp e)) h
      | cons c rest =>
          have hc : c ∉ ['0', '1', '2', '3', '4', '5', '6', '7'] :=
            fun hc => h (.inr ⟨c, rest, e, hc⟩)
          simp only [hc, decide_false]
  · rfl

/-- The number of a register or of `SP` in a `MOVE`. -/
@[simp] theorem regnum_name (d : RegSp) : regnum d.name = pure (d.code : ℕ) := by
  cases d with
  | r i => exact (namesReg_regName i).regnum
  | sp => rfl

/-- The table has the names of the registers and `SP`. -/
theorem RegSp.name_mem (d : RegSp) : d.name ∈ regSp := by
  have h : ∀ a : Fin 8, regName a ∈ regSp := by decide
  cases d with
  | r i => exact h i
  | sp => decide

/-- A constant that is no number is a label. -/
theorem IsConst.label {n : String} (h : IsConst n) : isNum n = false → isIdentifier n := by
  intro hn
  exact h.resolve_left (by simp [hn])

/-- A constant is not the star of the indirect forms. -/
theorem IsConst.ne_star {n : String} (h : IsConst n) : n ≠ "*" := by
  rintro rfl
  exact absurd h (by unfold IsConst; decide)

/-! ### Memory instructions -/

section Memory

/-- The rows of `LOAD`, and those of `STORE`. -/
def memRows (names : List String) (arrow : String) (code : ℕ) :
    List (List Pattern × (List String → Py Unit)) :=
  [([.oneOf names, .reg, .lit arrow, .num], doMem code),
    ([.oneOf names, .reg, .lit arrow, .lit "*", .num], doMem code),
    ([.oneOf names, .reg, .lit arrow, .label], doMem code),
    ([.oneOf names, .reg, .lit arrow, .lit "*", .reg], doMemRel (code + 0x0800)),
    ([.oneOf names, .reg, .lit arrow, .lit "*", .label], doMem code)]

variable {names : List String} {name arrow r q n : String} {code : ℕ} {a b : Fin 8}

/-- Among the rows of loads or stores, a constant finds that with a constant. -/
theorem doPatterns_mem (hr : NamesReg r a) (hname : name ∈ names) (hn : IsConst n)
    (hs : name ≠ "*") (harrow : arrow ≠ "*") :
    doPatterns [name, r, arrow, n] (memRows names arrow code) = (do
      storeInsn (code ||| byteFlag name ||| a)
      storeInsn (← value n)) := by
  have he : [name, r, arrow, n].erase "*" = [name, r, arrow, n] :=
    List.erase_of_not_mem (by simp [hs.symm, harrow.symm, hn.ne_star.symm, hr.ne_star.symm])
  cases h : isNum n <;>
    simp [memRows, doPatterns, matchLine, matchTokens, matchToken, hname, h, hn.label, doMem, he,
      item, hr.matchReg, hr.regnum]

/-- With a star in front of a constant that looks like no register, it finds the row of constants,
too. -/
theorem doPatterns_memStar (hr : NamesReg r a) (hname : name ∈ names) (hn : IsConst n)
    (hl : ¬ LooksLikeReg n) (hs : name ≠ "*") (harrow : arrow ≠ "*") :
    doPatterns [name, r, arrow, "*", n] (memRows names arrow code) = (do
      storeInsn (code ||| byteFlag name ||| a)
      storeInsn (← value n)) := by
  have he : [name, r, arrow, "*", n].erase "*" = [name, r, arrow, n] := by
    simp [hs, harrow, hr.ne_star]
  cases h : isNum n <;>
    simp [memRows, doPatterns, matchLine, matchTokens, matchToken, hname, h, hn.label, doMem, he,
      item, matchReg_of_isConst hn hl, hr.matchReg, hr.regnum]

/-- With a star in front of a register it finds that of registers. -/
theorem doPatterns_memRel (hr : NamesReg r a) (hq : NamesReg q b) (hname : name ∈ names) :
    doPatterns [name, r, arrow, "*", q] (memRows names arrow code) =
      storeInsn (code + 0x0800 ||| byteFlag name ||| (b : ℕ) <<< 3 ||| a) := by
  simp [memRows, doPatterns, matchLine, matchTokens, matchToken, hname, doMemRel, item,
    hr.matchReg, hr.regnum, hq.isNum, hq.matchReg, hq.regnum]

end Memory

/-! ### The lines -/

/-- The rows that begin with `LOAD` or `LOAD.B`. -/
theorem rows_load (w : Width) :
    patterns.filter (fun p => Pattern.heads w.load p.1) = memRows load "<-" 0x2000 := by
  cases w <;> rfl

/-- The rows that begin with `STORE` or `STORE.B`. -/
theorem rows_store (w : Width) :
    patterns.filter (fun p => Pattern.heads w.store p.1) = memRows store "->" 0x3000 := by
  cases w <;> rfl

/-- The rows that begin with the name of a jump. -/
theorem rows_jmp (cond : Cond) :
    patterns.filter (fun p => Pattern.heads cond.name p.1) =
      [([.oneOf jmp, .num], doJmp), ([.oneOf jmp, .label], doJmp),
        ([.oneOf jmp, .lit "*", .reg], doJmpRel)] := by
  cases cond <;> rfl

/-- The rows that begin with `CALL`. -/
theorem rows_call :
    patterns.filter (fun p => Pattern.heads "CALL" p.1) =
      [([.lit "CALL", .num], doCall), ([.lit "CALL", .label], doCall),
        ([.lit "CALL", .lit "*", .reg], doCallRel)] := rfl

/-- The bit for a byte in the opcode of a load. -/
@[simp] theorem byteFlag_load (w : Width) : byteFlag w.load = w.code * 512 := by
  cases w <;> rfl

/-- The bit for a byte in the opcode of a store. -/
@[simp] theorem byteFlag_store (w : Width) : byteFlag w.store = w.code * 512 := by
  cases w <;> rfl

/-- The table of operations has the code of each, in its place in the word. -/
@[simp] theorem entry_aluOps (op : AluOp) :
    entry aluOps op.name = pure (op.code * 512 : ℕ) := by
  cases op <;> rfl

/-- The table of jumps has the code of each condition, in its place in the word. -/
@[simp] theorem entry_jmpCode (cond : Cond) :
    entry jmpCode cond.name = pure (cond.code * 512 : ℕ) := by
  cases cond <;> rfl

section Lines

variable {r q t n : String} {a b c : Fin 8}

/-- The line of a `SET` emits it. -/
theorem doLine_set (hr : NamesReg r a) (hn : IsConst n) :
    doLine ["SET", r, "=", n] = emitInsn (.set a n) := by
  have hrows : patterns.filter (fun p => Pattern.heads "SET" p.1) =
      [([.lit "SET", .reg, .lit "=", .num], doSet),
        ([.lit "SET", .reg, .lit "=", .label], doSet)] := rfl
  rw [doLine_cons, hrows]
  cases h : isNum n <;>
    simp [doPatterns, matchLine, matchTokens, matchToken, doSet, item, h, hn.label, emitInsn,
      Insn.const, Insn.opcode, fields_eq_or_a, hr.matchReg, hr.regnum]

/-- What a load emits is the word that `do_load` puts together. -/
theorem emitInsn_load (w : Width) (a : Fin 8) (n : String) :
    emitInsn (.load w a n) = (do
      storeInsn (0x2000 ||| byteFlag w.load ||| a)
      storeInsn (← value n)) := by
  simp [emitInsn, Insn.opcode, Insn.const, fields_eq_or_a]

/-- What a store emits is the word that `do_store` puts together. -/
theorem emitInsn_store (w : Width) (a : Fin 8) (n : String) :
    emitInsn (.store w a n) = (do
      storeInsn (0x3000 ||| byteFlag w.store ||| a)
      storeInsn (← value n)) := by
  simp [emitInsn, Insn.opcode, Insn.const, fields_eq_or_a]

/-- The line of a load from an address emits it. -/
theorem doLine_load (w : Width) (hr : NamesReg r a) (hn : IsConst n) :
    doLine [w.load, r, "<-", n] = emitInsn (.load w a n) := by
  rw [doLine_cons, rows_load, doPatterns_mem hr (by cases w <;> decide) hn
    (by cases w <;> decide) (by decide), emitInsn_load]

/-- So does the one with a star in front of the address. -/
theorem doLine_loadStar (w : Width) (hr : NamesReg r a) (hn : IsConst n) (hl : ¬ LooksLikeReg n) :
    doLine [w.load, r, "<-", "*", n] = emitInsn (.load w a n) := by
  rw [doLine_cons, rows_load, doPatterns_memStar hr (by cases w <;> decide) hn hl
    (by cases w <;> decide) (by decide), emitInsn_load]

/-- The line of a load through a register emits it. -/
theorem doLine_loadRel (w : Width) (hr : NamesReg r a) (hq : NamesReg q b) :
    doLine [w.load, r, "<-", "*", q] = emitInsn (.loadRel w a b) := by
  rw [doLine_cons, rows_load, doPatterns_memRel hr hq (by cases w <;> decide), byteFlag_load]
  cases w <;> simp [emitInsn, Insn.opcode, Insn.const, fields_eq_or_b, Width.code]

/-- The line of a store to an address emits it. -/
theorem doLine_store (w : Width) (hr : NamesReg r a) (hn : IsConst n) :
    doLine [w.store, r, "->", n] = emitInsn (.store w a n) := by
  rw [doLine_cons, rows_store, doPatterns_mem hr (by cases w <;> decide) hn
    (by cases w <;> decide) (by decide), emitInsn_store]

/-- So does the one with a star in front of the address. -/
theorem doLine_storeStar (w : Width) (hr : NamesReg r a) (hn : IsConst n)
    (hl : ¬ LooksLikeReg n) : doLine [w.store, r, "->", "*", n] = emitInsn (.store w a n) := by
  rw [doLine_cons, rows_store, doPatterns_memStar hr (by cases w <;> decide) hn hl
    (by cases w <;> decide) (by decide), emitInsn_store]

/-- The line of a store through a register emits it. -/
theorem doLine_storeRel (w : Width) (hr : NamesReg r a) (hq : NamesReg q b) :
    doLine [w.store, r, "->", "*", q] = emitInsn (.storeRel w a b) := by
  rw [doLine_cons, rows_store, doPatterns_memRel hr hq (by cases w <;> decide), byteFlag_store]
  cases w <;> simp [emitInsn, Insn.opcode, Insn.const, fields_eq_or_b, Width.code]

/-- The line of a jump emits it. -/
theorem doLine_jmp (cond : Cond) (hn : IsConst n) :
    doLine [cond.name, n] = emitInsn (.jmp cond n) := by
  have hc : cond.name ∈ jmp := by cases cond <;> decide
  rw [doLine_cons, rows_jmp]
  cases h : isNum n <;>
    simp [doPatterns, matchLine, matchTokens, matchToken, hc, h, hn.label, doJmp, item, emitInsn,
      Insn.const, Insn.opcode, fields_eq_or_none]

/-- The line of a jump through a register emits it. -/
theorem doLine_jmpRel (cond : Cond) (hr : NamesReg r a) :
    doLine [cond.name, "*", r] = emitInsn (.jmpRel cond a) := by
  have hc : cond.name ∈ jmp := by cases cond <;> decide
  rw [doLine_cons, rows_jmp]
  simp [doPatterns, matchLine, matchTokens, matchToken, hc, doJmpRel, item, emitInsn,
    Insn.const, Insn.opcode, fields_eq_or_a, hr.matchReg, hr.regnum]

/-- The line of a call emits it. -/
theorem doLine_call (hn : IsConst n) : doLine ["CALL", n] = emitInsn (.call n) := by
  rw [doLine_cons, rows_call]
  cases h : isNum n <;>
    simp [doPatterns, matchLine, matchTokens, matchToken, h, hn.label, doCall, item, emitInsn,
      Insn.const, Insn.opcode, fields_eq_or_none]

/-- The line of a call through a register emits it. -/
theorem doLine_callRel (hr : NamesReg r a) :
    doLine ["CALL", "*", r] = emitInsn (.callRel a) := by
  rw [doLine_cons, rows_call]
  simp [doPatterns, matchLine, matchTokens, matchToken, doCallRel, item, emitInsn, Insn.const,
    Insn.opcode, fields_eq_or_a, hr.matchReg, hr.regnum]

/-- The lines that one row alone can match. -/
theorem doLine_of_row {w : String} {rest : List String} {p : List Pattern}
    {act : List String → Py Unit}
    (hrows : patterns.filter (fun p => Pattern.heads w p.1) = [(p, act)])
    (hm : matchLine (w :: rest) p = pure true) : doLine (w :: rest) = act (w :: rest) := by
  rw [doLine_cons, hrows]
  simp [doPatterns, hm]

/-- The line of a move emits it, for `SP` on either side. -/
theorem doLine_move (s d : RegSp) :
    doLine ["MOVE", s.name, "->", d.name] = emitInsn (.move s d) := by
  have hm : matchLine ["MOVE", s.name, "->", d.name]
      [.lit "MOVE", .oneOf regSp, .lit "->", .oneOf regSp] = pure true := by
    simp [matchLine, matchTokens, matchToken, RegSp.name_mem]
  have hd : 0x4000 ||| (d.code : ℕ) <<< 4 = 4 * 4096 + d.code * 16 := by
    rw [Nat.shiftLeft_eq]
    exact Fields.or_field (k := 12) (by decide) (by omega)
  have hs : (4 * 4096 + d.code * 16 : ℕ) ||| (s.code : ℕ) = 4 * 4096 + d.code * 16 + s.code :=
    Fields.or_field (k := 4) (by omega) s.code.isLt
  rw [doLine_of_row rfl hm]
  simp only [doMove, item, List.getElem?_cons_succ, List.getElem?_cons_zero, pure_bind,
    regnum_name, hd, hs, emitInsn, Insn.opcode, Insn.const]
  simp

/-- The line of an operation emits it. -/
theorem doLine_alu (op : AluOp) (hr : NamesReg r a) (hq : NamesReg q b) (ht : NamesReg t c) :
    doLine [op.name, r, op.symbol, q, "->", t] = emitInsn (.alu op a b c) := by
  have hrow : patterns.filter (fun p => Pattern.heads op.name p.1) =
      [([.lit op.name, .reg, .lit op.symbol, .reg, .lit "->", .reg], doAlu)] := by
    cases op <;> rfl
  have hm : matchLine [op.name, r, op.symbol, q, "->", t]
      [.lit op.name, .reg, .lit op.symbol, .reg, .lit "->", .reg] = pure true := by
    simp [matchLine, matchTokens, matchToken, hr.matchReg, hq.matchReg, ht.matchReg]
  rw [doLine_of_row hrow hm]
  simp [doAlu, item, emitInsn, Insn.opcode, Insn.const, fields_eq_or, hr.regnum, hq.regnum,
    ht.regnum]

/-- The line of a comparison emits it. -/
theorem doLine_cmp (hr : NamesReg r a) (hq : NamesReg q b) :
    doLine ["CMP", r, "-", q] = emitInsn (.cmp a b) := by
  have hm : matchLine ["CMP", r, "-", q] [.lit "CMP", .reg, .lit "-", .reg] = pure true := by
    simp [matchLine, matchTokens, matchToken, hr.matchReg, hq.matchReg]
  rw [doLine_of_row rfl hm]
  simp [doCmp, item, emitInsn, Insn.opcode, Insn.const, fields_eq_or_b, hr.regnum, hq.regnum]

/-- The line of a test emits it. -/
theorem doLine_test (hr : NamesReg r a) : doLine ["TEST", r] = emitInsn (.test a) := by
  have hm : matchLine ["TEST", r] [.lit "TEST", .reg] = pure true := by
    simp [matchLine, matchTokens, matchToken, hr.matchReg]
  rw [doLine_of_row rfl hm]
  simp [doTest, item, emitInsn, Insn.opcode, Insn.const, fields_eq_or_a, hr.regnum]

/-- The lines of `do_misc` without a register. -/
theorem doLine_misc {w : String} {t : Fin 16} {i : Insn String}
    (hrow : patterns.filter (fun p => Pattern.heads w p.1) = [([.lit w], doMisc)])
    (hw : w ∈ ["RET", "HALT"]) (he : entry miscOpcode w = pure (t * 4096 : ℕ))
    (hi : i.opcode = fields t 0 0 0 0) (hc : i.const = none) : doLine [w] = emitInsn i := by
  have hm : matchLine [w] [.lit w] = pure true := by
    simp [matchLine, matchTokens, matchToken]
  rw [doLine_of_row hrow hm]
  simp only [doMisc, item, List.getElem?_cons_zero, pure_bind, if_pos hw, he, emitInsn, hi, hc,
    fields_eq_or_none]
  simp

/-- The lines of `do_misc` with a register. -/
theorem doLine_misc_reg (hr : NamesReg r a) {w : String} {t : Fin 16} {i : Insn String}
    (hrow : patterns.filter (fun p => Pattern.heads w p.1) = [([.lit w, .reg], doMisc)])
    (hw : w ∉ ["RET", "HALT"]) (he : entry miscOpcode w = pure (t * 4096 : ℕ))
    (hi : i.opcode = fields t 0 0 0 a) (hc : i.const = none) :
    doLine [w, r] = emitInsn i := by
  have hm : matchLine [w, r] [.lit w, .reg] = pure true := by
    simp [matchLine, matchTokens, matchToken, hr.matchReg]
  rw [doLine_of_row hrow hm]
  simp only [doMisc, item, List.getElem?_cons_zero, List.getElem?_cons_succ, pure_bind, if_neg hw,
    he, emitInsn, hi, hc, fields_eq_or_a, hr.regnum]
  simp

end Lines

/-- What is stored for a constant that is read in another way. -/
theorem emitInsn_eq_emit {κ : Type} {C : String → κ → Prop} {val : κ → Py ℕ} {j : Insn String}
    {i : Insn κ} {n : String} {x : κ} (hval : ∀ n x, C n x → value n = val x) (hn : C n x)
    (hop : j.opcode = i.opcode) (hj : j.const = some n) (hi : i.const = some x) :
    emitInsn j = emit val i := by
  simp only [emitInsn, emit, hop, hj, hi, hval n x hn]

/-- Instructions without a constant and with the same opcode emit the same word. -/
theorem emitInsn_eq_emit_none {κ : Type} {val : κ → Py ℕ} {j : Insn String} {i : Insn κ}
    (hop : j.opcode = i.opcode) (hj : j.const = none) (hi : i.const = none) :
    emitInsn j = emit val i := by
  simp only [emitInsn, emit, hop, hj, hi]

/-- A row of the table stores the words of the instruction that it is written for. -/
theorem Spelled.doLine_eq {κ : Type} {C : String → κ → Prop} {val : κ → Py ℕ}
    (hC : ∀ n x, C n x → IsConst n) (hval : ∀ n x, C n x → value n = val x)
    {line : List String} {i : Insn κ} (h : Spelled C line i) : doLine line = emit val i := by
  cases h with
  | set hr hn => exact (doLine_set hr (hC _ _ hn)).trans (emitInsn_eq_emit hval hn rfl rfl rfl)
  | load w hr hn =>
      exact (doLine_load w hr (hC _ _ hn)).trans (emitInsn_eq_emit hval hn rfl rfl rfl)
  | loadStar w hr hn hl =>
      exact (doLine_loadStar w hr (hC _ _ hn) hl).trans (emitInsn_eq_emit hval hn rfl rfl rfl)
  | loadRel w hr hq => exact (doLine_loadRel w hr hq).trans (emitInsn_eq_emit_none rfl rfl rfl)
  | store w hr hn =>
      exact (doLine_store w hr (hC _ _ hn)).trans (emitInsn_eq_emit hval hn rfl rfl rfl)
  | storeStar w hr hn hl =>
      exact (doLine_storeStar w hr (hC _ _ hn) hl).trans (emitInsn_eq_emit hval hn rfl rfl rfl)
  | storeRel w hr hq => exact (doLine_storeRel w hr hq).trans (emitInsn_eq_emit_none rfl rfl rfl)
  | move s d => exact (doLine_move s d).trans (emitInsn_eq_emit_none rfl rfl rfl)
  | alu op hr hq ht => exact (doLine_alu op hr hq ht).trans (emitInsn_eq_emit_none rfl rfl rfl)
  | cmp hr hq => exact (doLine_cmp hr hq).trans (emitInsn_eq_emit_none rfl rfl rfl)
  | test hr => exact (doLine_test hr).trans (emitInsn_eq_emit_none rfl rfl rfl)
  | jmp cond hn =>
      exact (doLine_jmp cond (hC _ _ hn)).trans (emitInsn_eq_emit hval hn rfl rfl rfl)
  | jmpRel cond hr => exact (doLine_jmpRel cond hr).trans (emitInsn_eq_emit_none rfl rfl rfl)
  | call hn => exact (doLine_call (hC _ _ hn)).trans (emitInsn_eq_emit hval hn rfl rfl rfl)
  | callRel hr => exact (doLine_callRel hr).trans (emitInsn_eq_emit_none rfl rfl rfl)
  | ret => exact doLine_misc (t := 10) (i := .ret) rfl (by decide) rfl rfl rfl
  | halt => exact doLine_misc (t := 15) (i := .halt) rfl (by decide) rfl rfl rfl
  | @push _ a hr => exact doLine_misc_reg hr (t := 11) (i := .push a) rfl (by decide) rfl rfl rfl
  | @pop _ a hr => exact doLine_misc_reg hr (t := 12) (i := .pop a) rfl (by decide) rfl rfl rfl
  | @input _ a hr =>
      exact doLine_misc_reg hr (t := 13) (i := .input a) rfl (by decide) rfl rfl rfl
  | @output _ a hr =>
      exact doLine_misc_reg hr (t := 14) (i := .output a) rfl (by decide) rfl rfl rfl

/-- A line with its constant read in another way. -/
theorem Spelled.map {κ μ : Type} {C : String → κ → Prop} {D : String → μ → Prop} {f : κ → μ}
    (hf : ∀ n x, C n x → D n (f x)) {line : List String} {i : Insn κ} (h : Spelled C line i) :
    Spelled D line (i.map f) := by
  cases h with
  | set hr hn => exact .set hr (hf _ _ hn)
  | load w hr hn => exact .load w hr (hf _ _ hn)
  | loadStar w hr hn hl => exact .loadStar w hr (hf _ _ hn) hl
  | loadRel w hr hq => exact .loadRel w hr hq
  | store w hr hn => exact .store w hr (hf _ _ hn)
  | storeStar w hr hn hl => exact .storeStar w hr (hf _ _ hn) hl
  | storeRel w hr hq => exact .storeRel w hr hq
  | move s d => exact .move s d
  | alu op hr hq ht => exact .alu op hr hq ht
  | cmp hr hq => exact .cmp hr hq
  | test hr => exact .test hr
  | jmp cond hn => exact .jmp cond (hf _ _ hn)
  | jmpRel cond hr => exact .jmpRel cond hr
  | call hn => exact .call (hf _ _ hn)
  | callRel hr => exact .callRel hr
  | ret => exact .ret
  | halt => exact .halt
  | push hr => exact .push hr
  | pop hr => exact .pop hr
  | input hr => exact .input hr
  | output hr => exact .output hr

/-- The constant of an instruction is read from a token of its line. -/
theorem Spelled.const {κ : Type} {C : String → κ → Prop} {line : List String} {i : Insn κ}
    (h : Spelled C line i) : ∀ x ∈ i.const, ∃ t, C t x := by
  rintro x hx
  cases h <;> cases hx <;> exact ⟨_, ‹C _ _›⟩

/-- A constant that stays as it is written. -/
def Verbatim (n m : String) : Prop := n = m ∧ IsConst n

/-- The lines with the names of the registers written out are rows of the table. -/
theorem Written.spelled {line : List String} {i : Insn String} (h : Written line i) :
    Spelled Verbatim line i := by
  have hreg := namesReg_regName
  cases h with
  | set a hn => exact .set (hreg a) ⟨rfl, hn⟩
  | load w a hn => exact .load w (hreg a) ⟨rfl, hn⟩
  | loadStar w a hn hr => exact .loadStar w (hreg a) ⟨rfl, hn⟩ hr
  | loadRel w a b => exact .loadRel w (hreg a) (hreg b)
  | store w a hn => exact .store w (hreg a) ⟨rfl, hn⟩
  | storeStar w a hn hr => exact .storeStar w (hreg a) ⟨rfl, hn⟩ hr
  | storeRel w a b => exact .storeRel w (hreg a) (hreg b)
  | move s d => exact .move s d
  | alu op a b c => exact .alu op (hreg a) (hreg b) (hreg c)
  | cmp a b => exact .cmp (hreg a) (hreg b)
  | test a => exact .test (hreg a)
  | jmp cond hn => exact .jmp cond ⟨rfl, hn⟩
  | jmpRel cond a => exact .jmpRel cond (hreg a)
  | call hn => exact .call ⟨rfl, hn⟩
  | callRel a => exact .callRel (hreg a)
  | ret => exact .ret
  | halt => exact .halt
  | push a => exact .push (hreg a)
  | pop a => exact .pop (hreg a)
  | input a => exact .input (hreg a)
  | output a => exact .output (hreg a)

/-- **Every instruction row.** A line that is written for an instruction emits it. -/
theorem Written.doLine_eq {line : List String} {i : Insn String} (h : Written line i) :
    doLine line = emitInsn i := by
  have he : emitInsn i = emit value i := by cases i <;> rfl
  rw [he]
  refine h.spelled.doLine_eq (fun n m hn => hn.2) ?_
  rintro n _ ⟨rfl, _⟩
  rfl

end SystemsProjects.BareMetal
