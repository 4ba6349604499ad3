import Mathlib.Data.List.Forall2
import SystemsProjects.BareMetal.Decode
import SystemsProjects.BareMetal.Disassembler
import SystemsProjects.BareMetal.Resolution
import SystemsProjects.BareMetal.Spacing

/-!
# There and Back

The text that the disassembler prints for an assembled instruction, and what the assembler
makes of it. The disassembler has the register of some forms in another field than the
assembler, and its own word for `MOVE`; everything else comes back.

## Main definitions

* `Insn.listing`: the text that is printed.
* `Insn.Printed`: the forms that come back.
* `RoundTrips`: the lines that are printed spell the instructions and have the same image.

## Main results

* `disasm_opcode`, `disassemble_code`: what is printed.
* `Insn.parse_listing`: the tokens of what is printed.
* `round_trip_iff`: a program comes back exactly when its instructions do.
-/

namespace SystemsProjects.BareMetal

open Stateful

/-! ### The fields, as the disassembler takes them out -/

section Masks

variable (t : Fin 16) (o c b a : Fin 8)

/-- The mask `070` leaves the second register of an opcode. -/
theorem fields_and_070 : (fields t o c b a &&& 56) >>> 3 = b := by
  have h : fields t o c b a &&& 56 = fields t o c b a / 8 % 8 * 8 := Fields.and_mask _ 3 3
  rw [h, Nat.shiftRight_eq_div_pow, fields]
  omega

/-- The mask `0700` leaves the third one. -/
theorem fields_and_0700 : (fields t o c b a &&& 448) >>> 6 = c := by
  have h : fields t o c b a &&& 448 = fields t o c b a / 64 % 8 * 64 := Fields.and_mask _ 6 3
  rw [h, Nat.shiftRight_eq_div_pow, fields]
  omega

/-- Behind `fields_and_0e00`. -/
theorem ccc_shift : ((o : ℕ) * 512) >>> 9 = o := by
  rw [Nat.shiftRight_eq_div_pow]
  omega

end Masks

/-! ### What is printed -/

/-- The text for an instruction. The registers of these forms of `JMP` and `CALL`, and of
`PUSH`, `POP`, `IN` and `OUT`, are looked for in a field where the assembler has none. -/
def Insn.listing : Insn ℕ → String
  | .set a x => "SET R" ++ dec a ++ " = 0x" ++ hex4 x
  | .load w a x => w.load ++ " R" ++ dec a ++ " <- *0x" ++ hex4 x
  | .loadRel w a b => w.load ++ " R" ++ dec a ++ " <- *R" ++ dec b
  | .store w a x => w.store ++ " R" ++ dec a ++ " -> *0x" ++ hex4 x
  | .storeRel w a b => w.store ++ " R" ++ dec a ++ " -> *R" ++ dec b
  | .move s d => "MOV " ++ s.name ++ " -> " ++ d.name
  | .alu op a b c =>
      op.name ++ " R" ++ dec a ++ " " ++ op.symbol ++ " R" ++ dec b ++ " -> R" ++ dec c
  | .cmp a b => "CMP R" ++ dec a ++ " - R" ++ dec b
  | .test a => "TEST R" ++ dec a
  | .jmp cond x => cond.name ++ " 0x" ++ hex4 x
  | .jmpRel cond _ => cond.name ++ " *R" ++ dec 0
  | .call x => "CALL 0x" ++ hex4 x
  | .callRel _ => "CALL *R" ++ dec 0
  | .ret => "RET"
  | .halt => "HALT"
  | .push _ => "PUSH R" ++ dec 0
  | .pop _ => "POP R" ++ dec 0
  | .input _ => "IN R" ++ dec 0
  | .output _ => "OUT R" ++ dec 0

/-- The name that the disassembler prints for a register is the one that the assembler reads. -/
theorem regStr_code (d : RegSp) : regStr d.code = d.name := by
  have h : ∀ a : Fin 8, regStr a = regName a := by decide
  cases d with
  | r i => exact h i
  | sp => rfl

/-- The suffix of a jump that the disassembler prints is the one that the assembler reads. -/
theorem jmpSuff_code (cond : Cond) : "JMP" ++ jmpSuff cond.code = cond.name := by
  cases cond <;> decide

/-- The operands of `MOVE` have four bits each. -/
theorem disasm_move (s d : RegSp) (next : ℕ) :
    disasm (.move s d : Insn ℕ).opcode next = (some (Insn.move s d).listing, 2) := by
  have ht : (4 * 4096 + d.code * 16 + s.code : ℕ) &&& 0xF000 = 0x4000 := by
    have e := Fields.and_mask (4 * 4096 + d.code * 16 + s.code) 12 4
    exact e.trans (by omega)
  have hd : ((4 * 4096 + d.code * 16 + s.code : ℕ) &&& 0xF0) >>> 4 = d.code := by
    have e := Fields.and_mask (4 * 4096 + d.code * 16 + s.code) 4 4
    rw [Nat.shiftRight_eq_div_pow]
    exact (congrArg (· / 2 ^ 4) e).trans (by omega)
  have hs : (4 * 4096 + d.code * 16 + s.code : ℕ) &&& 0xF = s.code := by
    have e := Nat.and_two_pow_sub_one_eq_mod (4 * 4096 + d.code * 16 + s.code) 4
    exact e.trans (by omega)
  simp only [disasm, Insn.opcode, Insn.listing, ht, hd, hs, regStr_code]

/-- The disassembler, on the words of an instruction. -/
theorem disasm_opcode (i : Insn ℕ) {next : ℕ} (h : ∀ x ∈ i.const, next = x) :
    disasm i.opcode next = (some i.listing, i.size) := by
  cases i with
  | set a x =>
      obtain rfl := h x rfl
      simp [disasm, Insn.opcode, Insn.listing, Insn.size]
  | load w a x =>
      obtain rfl := h x rfl
      cases w <;> simp [disasm, Insn.opcode, Insn.listing, Insn.size, Width.code, Width.load]
  | loadRel w a b =>
      cases w <;>
        simp [disasm, Insn.opcode, Insn.listing, Insn.size, Width.code, Width.load, fields_and_070]
  | store w a x =>
      obtain rfl := h x rfl
      cases w <;> simp [disasm, Insn.opcode, Insn.listing, Insn.size, Width.code, Width.store]
  | storeRel w a b =>
      cases w <;>
        simp [disasm, Insn.opcode, Insn.listing, Insn.size, Width.code, Width.store,
          fields_and_070]
  | move s d => exact disasm_move s d next
  | alu op a b c =>
      cases op <;>
        simp [disasm, Insn.opcode, Insn.listing, Insn.size, AluOp.code, AluOp.name, AluOp.symbol,
          fields_and_070, fields_and_0700, String.append_assoc]
  | cmp a b => simp [disasm, Insn.opcode, Insn.listing, Insn.size, fields_and_070]
  | test a => simp [disasm, Insn.opcode, Insn.listing, Insn.size]
  | jmp cond x =>
      obtain rfl := h x rfl
      simp [disasm, Insn.opcode, Insn.listing, Insn.size, ccc_shift, jmpSuff_code]
  | jmpRel cond a =>
      simp [disasm, Insn.opcode, Insn.listing, Insn.size, ccc_shift, jmpSuff_code,
        fields_and_0700]
  | call x =>
      obtain rfl := h x rfl
      simp [disasm, Insn.opcode, Insn.listing, Insn.size]
  | callRel a => simp [disasm, Insn.opcode, Insn.listing, Insn.size, fields_and_0700]
  | ret => simp [disasm, Insn.opcode, Insn.listing, Insn.size]
  | halt => simp [disasm, Insn.opcode, Insn.listing, Insn.size]
  | push a => simp [disasm, Insn.opcode, Insn.listing, Insn.size, fields_and_0700]
  | pop a => simp [disasm, Insn.opcode, Insn.listing, Insn.size, fields_and_0700]
  | input a => simp [disasm, Insn.opcode, Insn.listing, Insn.size, fields_and_0700]
  | output a => simp [disasm, Insn.opcode, Insn.listing, Insn.size, fields_and_0700]

/-! ### Its tokens -/

/-- The forms that are printed as the assembler writes them. -/
def Insn.Printed {κ : Type} : Insn κ → Prop
  | .move .. => False
  | .jmpRel _ a | .callRel a | .push a | .pop a | .input a | .output a => a = 0
  | _ => True

/-- Whether an instruction is printed as it is can be computed. -/
instance {κ : Type} (i : Insn κ) : Decidable i.Printed := by
  cases i <;> unfold Insn.Printed <;> infer_instance

/-- The number of a register has one digit. -/
theorem dec_eq (a : Fin 8) : dec a = String.ofList [Char.ofNat (48 + a)] := by
  revert a
  decide

/-- The digit of a field that is not read. -/
theorem dec_zero : dec 0 = "0" := by decide

/-- The constant, as it is printed. -/
def constText (x : ℕ) : List Char :=
  ['0', 'x', hexDigit (x / 4096 % 16), hexDigit (x / 256 % 16), hexDigit (x / 16 % 16),
    hexDigit (x % 16)]

/-- The register, as it is printed. -/
def regChars (a : Fin 8) : List Char := ['R', Char.ofNat (48 + a)]

/-- The name of a register is one token. -/
theorem solid_regChars (a : Fin 8) : Solid (regChars a) := by
  have hdigit : ∀ a : Fin 8, WordChar (Char.ofNat (48 + a)) := by decide
  refine solid_of_wordChar (List.cons_ne_nil _ _) ?_
  rw [regChars, List.forall_mem_cons, List.forall_mem_singleton]
  exact ⟨by decide, hdigit a⟩

/-- A hexadecimal digit is a character of words. -/
theorem wordChar_hexDigit (n : ℕ) : WordChar (hexDigit (n % 16)) := by
  have h : ∀ n < 16, WordChar (hexDigit n) := by decide
  exact h _ (Nat.mod_lt _ (by decide))

/-- A constant, as it is printed, is one token. -/
theorem solid_constText (x : ℕ) : Solid (constText x) := by
  refine solid_of_wordChar (List.cons_ne_nil _ _) ?_
  simp only [constText, List.forall_mem_cons, wordChar_hexDigit, List.not_mem_nil, false_imp_iff,
    implies_true, and_true]
  decide

/-- The tokens with a blank behind them. -/
def Insn.front : Insn ℕ → List (List Char)
  | .set a _ => ["SET".toList, regChars a, "=".toList]
  | .load w a _ | .loadRel w a _ => [w.load.toList, regChars a, "<-".toList]
  | .store w a _ | .storeRel w a _ => [w.store.toList, regChars a, "->".toList]
  | .move s _ => ["MOV".toList, s.name.toList, "->".toList]
  | .alu op a b _ => [op.name.toList, regChars a, op.symbol.toList, regChars b, "->".toList]
  | .cmp a _ => ["CMP".toList, regChars a, "-".toList]
  | .test _ => ["TEST".toList]
  | .jmp cond _ | .jmpRel cond _ => [cond.name.toList]
  | .call _ | .callRel _ => ["CALL".toList]
  | .ret | .halt => []
  | .push _ => ["PUSH".toList]
  | .pop _ => ["POP".toList]
  | .input _ => ["IN".toList]
  | .output _ => ["OUT".toList]

/-- The tokens with nothing behind them. -/
def Insn.back : Insn ℕ → List (List Char)
  | .set _ x | .jmp _ x | .call x => [constText x]
  | .load _ _ x | .store _ _ x => [['*'], constText x]
  | .loadRel _ _ b | .storeRel _ _ b => [['*'], regChars b]
  | .move _ d => [d.name.toList]
  | .alu _ _ _ c => [regChars c]
  | .cmp _ b => [regChars b]
  | .test a => [regChars a]
  | .jmpRel .. | .callRel _ => [['*'], regChars 0]
  | .ret => ["RET".toList]
  | .halt => ["HALT".toList]
  | .push _ | .pop _ | .input _ | .output _ => [regChars 0]

/-- What is printed for an instruction is its front, with a blank behind each token, and its back,
without any. -/
theorem Insn.toList_listing (i : Insn ℕ) :
    i.listing.toList = blanksThen i.front i.back.flatten := by
  cases i <;>
    simp [listing, front, back, blanksThen, dec_eq, dec_zero, hex4, regChars, constText]

/-- The keyword of a load is one token. -/
theorem solid_load (w : Width) : Solid w.load.toList := by
  cases w <;> decide

/-- The keyword of a store is one token. -/
theorem solid_store (w : Width) : Solid w.store.toList := by
  cases w <;> decide

/-- The name of an operand of `MOVE` is one token. -/
theorem solid_regSp (d : RegSp) : Solid d.name.toList := by
  cases d with
  | r a =>
      have h : (RegSp.r a).name.toList = regChars a := String.toList_ofList
      rw [h]
      exact solid_regChars a
  | sp => decide

/-- The keyword of an operation is one token, and so is its symbol. -/
theorem solid_aluOp (op : AluOp) : Solid op.name.toList ∧ Solid op.symbol.toList := by
  cases op <;> decide

/-- The keyword of a jump is one token. -/
theorem solid_cond (cond : Cond) : Solid cond.name.toList := by
  cases cond <;> decide

/-- The front of a printed line is made of tokens. -/
theorem Insn.solid_front (i : Insn ℕ) : ∀ w ∈ i.front, Solid w := by
  have hload : Solid "<-".toList := by decide
  have hstore : Solid "->".toList := by decide
  cases i with
  | set a x =>
      rw [front, List.forall_mem_cons, List.forall_mem_cons, List.forall_mem_singleton]
      exact ⟨by decide, solid_regChars a, by decide⟩
  | load w a x | loadRel w a b =>
      rw [front, List.forall_mem_cons, List.forall_mem_cons, List.forall_mem_singleton]
      exact ⟨solid_load w, solid_regChars a, hload⟩
  | store w a x | storeRel w a b =>
      rw [front, List.forall_mem_cons, List.forall_mem_cons, List.forall_mem_singleton]
      exact ⟨solid_store w, solid_regChars a, hstore⟩
  | move s d =>
      rw [front, List.forall_mem_cons, List.forall_mem_cons, List.forall_mem_singleton]
      exact ⟨by decide, solid_regSp s, hstore⟩
  | alu op a b c =>
      rw [front, List.forall_mem_cons, List.forall_mem_cons, List.forall_mem_cons,
        List.forall_mem_cons, List.forall_mem_singleton]
      exact ⟨(solid_aluOp op).1, solid_regChars a, (solid_aluOp op).2, solid_regChars b, hstore⟩
  | cmp a b =>
      rw [front, List.forall_mem_cons, List.forall_mem_cons, List.forall_mem_singleton]
      exact ⟨by decide, solid_regChars a, by decide⟩
  | jmp cond x | jmpRel cond a =>
      rw [front, List.forall_mem_singleton]
      exact solid_cond cond
  | ret | halt => exact fun w hw => absurd hw List.not_mem_nil
  | test a | call x | callRel a | push a | pop a | input a | output a =>
      rw [front, List.forall_mem_singleton]
      decide

/-- A star needs no blank behind it. -/
theorem spaced_star {w : List Char} (hw : Solid w) (hc : ∀ c ∈ w.head?, WordChar c) :
    Spaced [['*'], w] (['*'] ++ w) := by
  refine .tight (by decide) ?_ (.last hw)
  rintro _ ⟨⟩ c hc'
  exact (hc c hc').parted (by decide)

/-- A star is split from the register behind it. -/
theorem spaced_star_reg (a : Fin 8) : Spaced [['*'], regChars a] (['*'] ++ regChars a) := by
  refine spaced_star (solid_regChars a) ?_
  rintro _ ⟨⟩
  decide

/-- A star is split from the constant behind it. -/
theorem spaced_star_const (x : ℕ) : Spaced [['*'], constText x] (['*'] ++ constText x) := by
  refine spaced_star (solid_constText x) ?_
  rintro _ ⟨⟩
  decide

/-- The back of a printed line is split into its tokens, though there is no blank between them. -/
theorem Insn.spaced_back (i : Insn ℕ) : Spaced i.back i.back.flatten := by
  have hlast {w : List Char} (hw : Solid w) : Spaced [w] [w].flatten := by
    rw [List.flatten_singleton]
    exact .last hw
  have hstar {w : List Char} (h : Spaced [['*'], w] (['*'] ++ w)) :
      Spaced [['*'], w] [['*'], w].flatten := by
    rwa [List.flatten_cons, List.flatten_singleton]
  cases i with
  | set a x | jmp cond x | call x => exact hlast (solid_constText x)
  | load w a x | store w a x => exact hstar (spaced_star_const x)
  | loadRel w a b | storeRel w a b => exact hstar (spaced_star_reg b)
  | move s d => exact hlast (solid_regSp d)
  | alu op a b c => exact hlast (solid_regChars c)
  | cmp a b => exact hlast (solid_regChars b)
  | test a => exact hlast (solid_regChars a)
  | jmpRel cond a | callRel a => exact hstar (spaced_star_reg 0)
  | ret | halt => exact hlast (by decide)
  | push a | pop a | input a | output a => exact hlast (solid_regChars 0)

/-- The tokens of the text that is printed. -/
def Insn.tokens (i : Insn ℕ) : List String := (i.front ++ i.back).map String.ofList

/-- The assembler finds these tokens in the line. -/
theorem Insn.parse_listing (i : Insn ℕ) : parse false (i.listing ++ "\n") = (i.tokens, false) := by
  have hspaced := i.spaced_back.blanksThen i.solid_front
  rw [← i.toList_listing] at hspaced
  have hline : (i.listing ++ "\n").toList = [] ++ (i.listing.toList ++ ['\n']) := by
    rw [String.toList_append]
    rfl
  refine hspaced.parse_eq (fun _ h => absurd h List.not_mem_nil) (fun c hc => ?_) hline
  rw [List.mem_singleton.mp hc]
  decide

/-! ### What the tokens spell -/

/-- A constant that is a number. -/
def Number (t : String) (n : ℕ) : Prop := isNum t ∧ Numeral t n

/-- What is printed as a hexadecimal digit is read as the same number. -/
theorem digit_hexDigit (n : ℕ) : digit (hexDigit (n % 16)) = n % 16 := by
  have h : ∀ n < 16, digit (hexDigit n) = n := by decide
  exact h _ (Nat.mod_lt _ (by decide))

/-- What is printed as a hexadecimal digit is read as one. -/
theorem isHex_hexDigit (n : ℕ) : isHex (hexDigit (n % 16)) = true := by
  have h : ∀ n < 16, isHex (hexDigit n) = true := by decide
  exact h _ (Nat.mod_lt _ (by decide))

/-- A hexadecimal digit is no blank of `int`. -/
theorem isIntSpace_hexDigit (n : ℕ) : isIntSpace (hexDigit (n % 16)) = false :=
  isIntSpace_eq_false (wordChar_hexDigit n).1.1

/-- The constant that is printed is read back. -/
theorem number_constText {x : ℕ} (hx : x < 65536) : Number (String.ofList (constText x)) x := by
  refine ⟨?_, ?_, hx⟩
  · rw [isNum, String.toList_ofList]
    simp [constText, isHex_hexDigit]
  · have hstrip : ((constText x).dropWhile isIntSpace).rdropWhile isIntSpace = constText x := by
      have hlast : constText x = ['0', 'x', hexDigit (x / 4096 % 16), hexDigit (x / 256 % 16),
          hexDigit (x / 16 % 16)] ++ [hexDigit (x % 16)] := rfl
      rw [constText, List.dropWhile_cons_of_neg (by decide), ← constText, hlast,
        List.rdropWhile_concat_neg _ _ _ (by simp [isIntSpace_hexDigit])]
    have hdigits : digits 16 [hexDigit (x / 4096 % 16), hexDigit (x / 256 % 16),
        hexDigit (x / 16 % 16), hexDigit (x % 16)] = x := by
      simp only [digits, List.foldl_cons, List.foldl_nil, digit_hexDigit]
      omega
    rw [pyInt, String.toList_ofList, hstrip]
    simp only [constText]
    rw [if_pos (by simp [isHex_hexDigit]), hdigits]

/-- What is printed for these forms spells the instruction. -/
theorem Insn.spelled_tokens {i : Insn ℕ} (hp : i.Printed) (hx : ∀ x ∈ i.const, x < 65536) :
    Spelled Number i.tokens i := by
  have hreg := namesReg_regName
  cases i <;>
    simp only [tokens, front, back, List.cons_append, List.nil_append, List.map_cons,
      List.map_nil, String.ofList_toList]
  case set a x => exact .set (hreg a) (number_constText (hx x rfl))
  case load w a x =>
      have hn := number_constText (hx x rfl)
      exact .loadStar w (hreg a) hn (not_looksLikeReg_of_isNum hn.1)
  case loadRel w a b => exact .loadRel w (hreg a) (hreg b)
  case store w a x =>
      have hn := number_constText (hx x rfl)
      exact .storeStar w (hreg a) hn (not_looksLikeReg_of_isNum hn.1)
  case storeRel w a b => exact .storeRel w (hreg a) (hreg b)
  case move s d => cases hp
  case alu op a b c => exact .alu op (hreg a) (hreg b) (hreg c)
  case cmp a b => exact .cmp (hreg a) (hreg b)
  case test a => exact .test (hreg a)
  case jmp cond x => exact .jmp cond (number_constText (hx x rfl))
  case jmpRel cond a =>
      obtain rfl : a = 0 := hp
      exact .jmpRel cond (hreg 0)
  case call x => exact .call (number_constText (hx x rfl))
  case callRel a =>
      obtain rfl : a = 0 := hp
      exact .callRel (hreg 0)
  case ret => exact .ret
  case halt => exact .halt
  case push a =>
      obtain rfl : a = 0 := hp
      exact .push (hreg 0)
  case pop a =>
      obtain rfl : a = 0 := hp
      exact .pop (hreg 0)
  case input a =>
      obtain rfl : a = 0 := hp
      exact .input (hreg 0)
  case output a =>
      obtain rfl : a = 0 := hp
      exact .output (hreg 0)

/-- The name of `R0` stands for no other register. -/
theorem NamesReg.eq_zero {a : Fin 8} (h : NamesReg (String.ofList (regChars 0)) a) : a = 0 := by
  have hall : ∀ a : Fin 8, Char.ofNat (48 + a) = '0' → a = 0 := by decide
  obtain ⟨rest, h⟩ := h
  rw [String.toList_ofList] at h
  injection h with _ h
  injection h with h _
  exact hall a h.symm

/-- And what is printed for the others does not. -/
theorem Insn.printed_of_spelled {C : String → ℕ → Prop} {i : Insn ℕ}
    (h : Spelled C i.tokens i) : i.Printed := by
  generalize ht : i.tokens = line at h
  cases h with
  | move s d => simp [tokens, front, back] at ht
  | @jmpRel r a cond hr | @callRel r a hr | @push r a hr | @pop r a hr | @input r a hr
  | @output r a hr =>
      obtain rfl : String.ofList (regChars 0) = r := by simpa [tokens, front, back] using ht
      exact hr.eq_zero
  | _ => trivial

/-! ### The image of instruction lines -/

/-- The bytes of an instruction. -/
def Insn.cells (i : Insn ℕ) : List ℕ :=
  wordCells i.opcode ++ (i.const.map wordCells).getD []

/-- An image of cells. -/
def imageCells (l : List ℕ) : List Byte := l.map (.ofNat 8)

/-- The image of instructions. -/
def code (is : List (Insn ℕ)) : List Byte := imageCells (is.flatMap Insn.cells)

/-- An instruction as a statement. -/
def Insn.statement (i : Insn ℕ) : Statement := .insn (i.map .number)

/-- The name of a register is no colon. A line that has it second is not taken for a label. -/
theorem NamesReg.ne_colon {r : String} {a : Fin 8} (h : NamesReg r a) : r ≠ ":" := by
  rintro rfl
  obtain ⟨rest, h⟩ := h
  cases h

/-- An instruction line is not taken for a label. -/
theorem Spelled.no_colon {line : List String} {i : Insn ℕ} (h : Spelled Number line i) :
    (line)[1]? ≠ some ":" := by
  have hnum {t : String} {n : ℕ} (h : Number t n) : t ≠ ":" := by
    rintro rfl
    exact absurd h.1 (by decide)
  cases h with
  | jmp _ hn | call hn => exact fun h => hnum hn (Option.some.inj h)
  | set hr _ | load _ hr _ | loadStar _ hr _ _ | loadRel _ hr _ | store _ hr _
  | storeStar _ hr _ _ | storeRel _ hr _ | alu _ hr _ _ | cmp hr _ | test hr | push hr | pop hr
  | input hr | output hr => exact fun h => hr.ne_colon (Option.some.inj h)
  | jmpRel _ _ | callRel _ | ret | halt => simp
  | move s d =>
      have hne : s.name ≠ ":" := by
        have h : ∀ a : Fin 8, regName a ≠ ":" := by decide
        cases s with
        | r a => exact h a
        | sp => decide
      exact fun h => hne (Option.some.inj h)

/-- Instruction lines are read as a program. -/
theorem readsProgram_of_spelled {file : List (List String)} {is : List (Insn ℕ)}
    (h : List.Forall₂ (Spelled Number) file is) : ReadsProgram file (is.map Insn.statement) := by
  induction h with
  | nil => exact .nil
  | @cons line i file is hi _ ih =>
      have hread : Spelled ReadsOperand line (i.map .number) :=
        hi.map (f := Operand.number) fun _ _ hn => hn
      exact .cons (.line hi.no_colon (.insn hread)) ih

/-- A disassembled program has no labels, so that none is missing. -/
theorem resolved_statements (is : List (Insn ℕ)) : Resolved (is.map Insn.statement) := by
  intro l hl
  obtain ⟨st, hst, hl⟩ := List.mem_flatMap.mp hl
  obtain ⟨i, -, rfl⟩ := List.mem_map.mp hst
  cases i <;> cases hl

/-- A disassembled program lays out the cells of its instructions. -/
theorem cells_statements (address : String → ℕ) (addr : ℕ) (is : List (Insn ℕ)) :
    cells address addr (is.map Insn.statement) = is.flatMap Insn.cells := by
  induction is generalizing addr with
  | nil => rfl
  | cons i is ih =>
      rw [List.map_cons, BareMetal.cells, ih, List.flatMap_cons]
      cases i <;> rfl

/-- An instruction whose constant is a word lays out bytes. -/
theorem Insn.cells_lt {i : Insn ℕ} (hx : ∀ x ∈ i.const, x < 65536) : ∀ v ∈ i.cells, v < 256 := by
  intro v hv
  rcases List.mem_append.mp hv with hv | hv
  · exact lt_of_mem_wordCells i.opcode_lt hv
  · cases hc : i.const with
    | none => simp [hc] at hv
    | some x =>
        rw [hc] at hv
        exact lt_of_mem_wordCells (hx x hc) hv

/-- `bytes` takes values below 256 as they are. -/
theorem mapM_byteOf {l : List ℕ} (h : ∀ v ∈ l, v < 256) :
    l.mapM byteOf = some (l.map (.ofNat 8)) := by
  induction l with
  | nil => rfl
  | cons v l ih =>
      rw [List.mapM_cons, byteOf, if_pos (h v List.mem_cons_self),
        ih fun w hw => h w (List.mem_cons_of_mem v hw)]
      rfl

/-- The constants of instruction lines are words. -/
theorem const_lt {file : List (List String)} {is : List (Insn ℕ)}
    (h : List.Forall₂ (Spelled Number) file is) : ∀ i ∈ is, ∀ x ∈ i.const, x < 65536 := by
  induction h with
  | nil => exact fun i hi => absurd hi List.not_mem_nil
  | cons h _ ih =>
      intro i hi x hx
      rcases List.mem_cons.mp hi with rfl | hi
      · obtain ⟨t, ht⟩ := h.const x hx
        exact ht.2.2
      · exact ih i hi x hx

/-- The image of instruction lines that fit. -/
theorem imageOf_eq_code {lines : List String} {is : List (Insn ℕ)}
    (h : List.Forall₂ (Spelled Number) (tokenize false lines) is)
    (hfits : (is.flatMap Insn.cells).length ≤ 65536) : imageOf lines = some (code is) := by
  have hread := readsProgram_of_spelled h
  have hend : endAddr 0 (is.map Insn.statement) ≤ 65536 := by
    have hlen : (cells (fun _ => 0) 0 (is.map Insn.statement)).length =
        endAddr 0 (is.map Insn.statement) := length_cells_zero
    rwa [← hlen, cells_statements]
  rw [imageOf_eq hread (resolved_statements is) hend, twoPass, cells_statements, code]
  refine mapM_byteOf fun v hv => ?_
  obtain ⟨i, hi, hv⟩ := List.mem_flatMap.mp hv
  exact Insn.cells_lt (const_lt h i hi) v hv

/-! ### A program that has an image fits -/

/-- An instruction lays out as many cells as it takes bytes. -/
theorem Insn.length_cells (i : Insn ℕ) : i.cells.length = i.size := by
  cases i <;> rfl

/-- Every instruction takes an even number of bytes. -/
theorem Insn.size_mod_two (i : Insn ℕ) : i.size % 2 = 0 := by
  cases i <;> simp [size]

/-- An instruction with a number for its constant is laid out at the current address, and it must
end within the memory. -/
theorem emit_ok {a b : Asm} {i : Insn Operand} (hn : ∀ o ∈ i.const, ∃ n, o = .number n)
    (h : emit Operand.find i a = .ok () b) :
    b.currentAddr = a.currentAddr + i.size ∧ b.currentAddr ≤ 65536 := by
  rw [emit] at h
  obtain ⟨_, c, hfirst, h⟩ := bind_eq_ok.mp h
  obtain ⟨hlt, rfl⟩ := storeInsn_ok hfirst
  cases hc : i.const with
  | none =>
      rw [hc] at h
      cases h
      rw [Insn.size_of_const_none hc]
      exact ⟨rfl, hlt⟩
  | some o =>
      rw [hc] at h
      obtain ⟨n, rfl⟩ := hn o hc
      obtain ⟨hlt', rfl⟩ := storeInsn_ok h
      rw [Insn.size_of_const hc]
      exact ⟨rfl, hlt'⟩

/-- The loop of the assembler goes on behind all of the instructions, and they must end within the
memory. -/
theorem mainLoop_ok {lines : List String} {inQuote : Bool} {is : List (Insn ℕ)} {m r : ℕ}
    {a b : Asm} (hlines : List.Forall₂ (Spelled Number) (tokenize inQuote lines) is)
    (ha : a.currentAddr ≤ 65536) (h : mainLoop lines inQuote m a = .ok r b) :
    a.currentAddr + (is.flatMap Insn.cells).length ≤ 65536 := by
  induction lines generalizing inQuote is m a with
  | nil =>
      cases hlines
      exact ha
  | cons line lines ih =>
      cases hlines with
      | @cons _ i _ is hi hrest =>
          obtain ⟨_, c, hline, h⟩ := bind_eq_ok.mp h
          obtain ⟨_, _, ⟨⟩, h⟩ := bind_eq_ok.mp h
          change doTokens (parse inQuote line).1 a = _ at hline
          have hread := hi.map (D := ReadsOperand) (f := Operand.number) fun _ _ hn => hn
          rw [doTokens_of_no_colon hi.no_colon,
            hread.doLine_eq (fun _ _ ho => ho.isConst) fun _ _ ho => ho.value_eq] at hline
          have hnumber : ∀ o ∈ (i.map Operand.number).const, ∃ n, o = .number n := by
            intro o ho
            rw [Insn.const_map] at ho
            obtain ⟨n, -, rfl⟩ := Option.map_eq_some_iff.mp ho
            exact ⟨n, rfl⟩
          obtain ⟨haddr, hle⟩ := emit_ok hnumber hline
          have hrest := ih hrest hle h
          rw [List.flatMap_cons, List.length_append, Insn.length_cells]
          rw [haddr, Insn.size_map] at hrest
          omega

/-- Instruction lines with an image fit. -/
theorem fits_of_imageOf {lines : List String} {is : List (Insn ℕ)} {image : List Byte}
    (hlines : List.Forall₂ (Spelled Number) (tokenize false lines) is)
    (h : imageOf lines = some image) : (is.flatMap Insn.cells).length ≤ 65536 := by
  rw [imageOf] at h
  split at h
  · rename_i _ _ hrun
    obtain ⟨_, _, hloop, -⟩ := bind_eq_ok.mp hrun
    have := mainLoop_ok hlines (Nat.zero_le _) hloop
    rwa [Asm.start, Nat.zero_add] at this
  · cases h

/-! ### The loop of the disassembler -/

/-- A byte of the image is the cell that was laid out there. -/
theorem memByte_imageCells {pre rest : List ℕ} {v : ℕ} (hv : v < 256)
    (hroom : pre.length < 65536) :
    memByte (imageCells (pre ++ v :: rest)) pre.length = some v := by
  rw [memByte, if_pos hroom, imageCells, List.map_append, List.map_cons,
    List.getElem?_append_right (by rw [List.length_map]), List.length_map, Nat.sub_self,
    List.getElem?_cons_zero, Option.getD_some, BitVec.toNat_ofNat, Nat.mod_eq_of_lt hv]

/-- A word of the image. -/
theorem loadWord_imageCells {pre rest : List ℕ} {v : ℕ} (hv : v < 65536)
    (hroom : pre.length + 2 ≤ 65536) :
    loadWord (imageCells (pre ++ (wordCells v ++ rest))) pre.length = some v := by
  have hlow : memByte (imageCells (pre ++ (wordCells v ++ rest))) pre.length = some (v % 256) :=
    memByte_imageCells (by omega) (by omega)
  have hhigh : memByte (imageCells (pre ++ (wordCells v ++ rest))) (pre.length + 1) =
      some (v / 256) := by
    have happ : pre ++ (wordCells v ++ rest) = (pre ++ [v % 256]) ++ v / 256 :: rest := by
      simp [wordCells]
    have hlen : (pre ++ [v % 256]).length = pre.length + 1 := by simp
    rw [happ, ← hlen]
    exact memByte_imageCells (by omega) (by omega)
  have hor : v / 256 * 2 ^ 8 ||| v % 256 = v / 256 * 2 ^ 8 + v % 256 :=
    Fields.or_field (Nat.dvd_mul_left _ _) (Nat.mod_lt _ (by decide))
  have hword : v % 256 ||| (v / 256) <<< 8 = v := by
    rw [Nat.or_comm, Nat.shiftLeft_eq, hor]
    omega
  rw [loadWord, Nat.mod_eq_of_lt (by omega), hlow, hhigh]
  exact congrArg some hword

/-- A word at an even address can be loaded. -/
theorem exists_loadWord (image : List Byte) (addr : ℕ) (h : addr % 2 = 0) :
    ∃ v, loadWord image addr = some v := by
  have hmod : addr % 65536 + 1 < 65536 := by omega
  rw [loadWord, memByte, if_pos (by omega), memByte, if_pos hmod]
  exact ⟨_, rfl⟩

/-- No other instruction is taken for `HALT`. -/
theorem Insn.eq_halt_of_opcode {i : Insn ℕ} (h : i.opcode = 0xF000) : i = .halt := by
  have hfields (t : Fin 16) (o c b a : Fin 8) : fields t o c b a / 4096 = t := by
    rw [fields]
    omega
  have htop : i.opcode / 4096 = 15 := by rw [h]
  cases i with
  | halt => rfl
  | move s d =>
      rw [opcode] at htop
      omega
  | _ =>
      rw [opcode, hfields] at htop
      exact absurd htop (by decide)

/-- The words that the disassembler looks at for the first instruction behind `pre`. -/
theorem loadWord_cells {i : Insn ℕ} {pre rest : List ℕ} (hpre : pre.length % 2 = 0)
    (hx : ∀ x ∈ i.const, x < 65536) (hroom : (pre ++ (i.cells ++ rest)).length ≤ 65536) :
    loadWord (imageCells (pre ++ (i.cells ++ rest))) pre.length = some i.opcode ∧
      ∃ next, loadWord (imageCells (pre ++ (i.cells ++ rest))) (pre.length + 2) = some next ∧
        ∀ x ∈ i.const, next = x := by
  rw [List.length_append, List.length_append, i.length_cells] at hroom
  have hfirst : loadWord (imageCells (pre ++ (i.cells ++ rest))) pre.length = some i.opcode := by
    have htwo := i.two_le_size
    rw [Insn.cells, List.append_assoc]
    exact loadWord_imageCells i.opcode_lt (by omega)
  refine ⟨hfirst, ?_⟩
  cases hc : i.const with
  | none =>
      obtain ⟨next, hnext⟩ := exists_loadWord (imageCells (pre ++ (i.cells ++ rest)))
        (pre.length + 2) (by omega)
      exact ⟨next, hnext, fun x hx => by cases hx⟩
  | some x =>
      have hsize := i.size_of_const hc
      have happ : pre ++ (i.cells ++ rest) =
          (pre ++ wordCells i.opcode) ++ (wordCells x ++ rest) := by
        rw [Insn.cells, hc, Option.map_some, Option.getD_some, List.append_assoc, List.append_assoc]
      have hlen : (pre ++ wordCells i.opcode).length = pre.length + 2 := by
        rw [List.length_append]
        rfl
      refine ⟨x, ?_, fun y hy => Option.some.inj hy⟩
      rw [happ, ← hlen]
      exact loadWord_imageCells (hx x hc) (by omega)

/-- The loop prints the texts of the instructions. -/
theorem disasmLoop_run {is : List (Insn ℕ)} (pre : List ℕ) {turns : ℕ}
    (hpre : pre.length % 2 = 0) (hturns : is.length ≤ turns)
    (hhalt : ∀ i ∈ is.dropLast, i ≠ .halt) (hx : ∀ i ∈ is, ∀ x ∈ i.const, x < 65536)
    (hroom : (pre ++ is.flatMap Insn.cells).length ≤ 65536) :
    disasmLoop (imageCells (pre ++ is.flatMap Insn.cells))
        (pre ++ is.flatMap Insn.cells).length turns pre.length =
      some (is.map fun i => some i.listing) := by
  induction is generalizing pre turns with
  | nil =>
      cases turns with
      | zero => rfl
      | succ turns => rw [disasmLoop, if_neg (by simp)]; rfl
  | cons i is ih =>
      cases turns with
      | zero => cases hturns
      | succ turns =>
          rw [List.flatMap_cons] at hroom ⊢
          have hconst := hx i List.mem_cons_self
          obtain ⟨hfirst, next, hnext, hc⟩ := loadWord_cells hpre hconst hroom
          have hsize := i.length_cells
          have htwo := i.two_le_size
          have hlt : pre.length < (pre ++ (i.cells ++ is.flatMap Insn.cells)).length := by
            rw [List.length_append, List.length_append]
            omega
          simp only [disasmLoop, if_pos hlt, hfirst, hnext, disasm_opcode i hc, Option.bind_eq_bind,
            Option.bind_some]
          split
          · -- the loop is left at a `HALT`, which is the last line
            rename_i hop
            obtain rfl := Insn.eq_halt_of_opcode hop
            cases is with
            | nil => rfl
            | cons j is => exact absurd rfl (hhalt .halt List.mem_cons_self)
          · have happ : pre ++ (i.cells ++ is.flatMap Insn.cells) =
                (pre ++ i.cells) ++ is.flatMap Insn.cells := (List.append_assoc ..).symm
            have hlen : (pre ++ i.cells).length = pre.length + i.size := by
              rw [List.length_append, hsize]
            have heven := i.size_mod_two
            have hrest := ih (pre ++ i.cells) (by omega)
              (Nat.le_of_succ_le_succ hturns) (fun j hj => hhalt j ?_)
              (fun j hj => hx j (List.mem_cons_of_mem i hj)) (by rwa [List.append_assoc])
            · rw [happ, ← hlen, hrest]
              rfl
            · cases is with
              | nil => cases hj
              | cons k is => exact List.mem_cons_of_mem i hj

/-- A program has no more instructions than bytes. -/
theorem length_le_flatMap_cells (is : List (Insn ℕ)) :
    is.length ≤ (is.flatMap Insn.cells).length := by
  induction is with
  | nil => exact Nat.le_refl 0
  | cons i is ih =>
      have hsize := i.length_cells
      have htwo := i.two_le_size
      rw [List.flatMap_cons, List.length_append, List.length_cons]
      omega

/-- What is printed for the image of instructions. -/
theorem disassemble_code {is : List (Insn ℕ)} (hhalt : ∀ i ∈ is.dropLast, i ≠ .halt)
    (hx : ∀ i ∈ is, ∀ x ∈ i.const, x < 65536) (hfits : (is.flatMap Insn.cells).length ≤ 65536) :
    disassemble (code is) = some (is.map fun i => some i.listing) := by
  have hlen : (code is).length = (is.flatMap Insn.cells).length := List.length_map ..
  rw [disassemble, hlen, Nat.min_eq_left hfits, List.take_of_length_le (by omega)]
  exact disasmLoop_run [] rfl (length_le_flatMap_cells is) hhalt hx hfits

/-! ### There and back -/

/-- The lines of a file. -/
def fileLines (texts : List String) : List String := texts.map (· ++ "\n")

/-- The disassembler prints a line for each instruction, which spells it, and the lines are
assembled to the image again. -/
def RoundTrips (image : List Byte) (is : List (Insn ℕ)) : Prop :=
  ∃ texts : List String, disassemble image = some (texts.map some) ∧
    List.Forall₂ (Spelled Number) (tokenize false (fileLines texts)) is ∧
    imageOf (fileLines texts) = some image

/-- The assembler reads the printed lines as the tokens of the instructions. -/
theorem tokenize_listings (is : List (Insn ℕ)) :
    tokenize false (fileLines (is.map Insn.listing)) = is.map Insn.tokens := by
  induction is with
  | nil => rfl
  | cons i is ih =>
      rw [fileLines] at ih ⊢
      rw [List.map_cons, List.map_cons, tokenize, i.parse_listing, ih, List.map_cons]

/-- The tokens of a program spell it if those of each instruction do. -/
theorem forall₂_tokens {is : List (Insn ℕ)} :
    List.Forall₂ (Spelled Number) (is.map Insn.tokens) is ↔
      ∀ i ∈ is, Spelled Number i.tokens i := by
  rw [List.forall₂_map_left_iff, List.forall₂_same]

/-- Only the texts of `Insn.listing` can be meant. -/
theorem RoundTrips.printed {is : List (Insn ℕ)} (hhalt : ∀ i ∈ is.dropLast, i ≠ .halt)
    (hx : ∀ i ∈ is, ∀ x ∈ i.const, x < 65536) (hfits : (is.flatMap Insn.cells).length ≤ 65536)
    (h : RoundTrips (code is) is) : ∀ i ∈ is, i.Printed := by
  obtain ⟨texts, htexts, hspelled, -⟩ := h
  have heq : (is.map Insn.listing).map some = texts.map some := by
    rw [disassemble_code hhalt hx hfits] at htexts
    rw [List.map_map]
    exact Option.some.inj htexts
  obtain rfl := List.map_injective_iff.mpr (Option.some_injective String) heq
  rw [tokenize_listings, forall₂_tokens] at hspelled
  exact fun i hi => Insn.printed_of_spelled (hspelled i hi)

/-- The disassembler undoes the assembler exactly on programs without `MOVE` whose registers in
`JMP`, `CALL`, `PUSH`, `POP`, `IN` and `OUT` are `R0`. -/
theorem round_trip_iff {lines : List String} {is : List (Insn ℕ)} {image : List Byte}
    (hlines : List.Forall₂ (Spelled Number) (tokenize false lines) is)
    (hhalt : ∀ i ∈ is.dropLast, i ≠ .halt) (himage : imageOf lines = some image) :
    RoundTrips image is ↔ ∀ i ∈ is, i.Printed := by
  have hx := const_lt hlines
  have hfits := fits_of_imageOf hlines himage
  obtain rfl : code is = image := Option.some.inj ((imageOf_eq_code hlines hfits).symm.trans himage)
  refine ⟨RoundTrips.printed hhalt hx hfits, fun hprinted => ?_⟩
  have hspelled : List.Forall₂ (Spelled Number)
      (tokenize false (fileLines (is.map Insn.listing))) is := by
    rw [tokenize_listings, forall₂_tokens]
    exact fun i hi => Insn.spelled_tokens (hprinted i hi) (hx i hi)
  refine ⟨is.map Insn.listing, ?_, hspelled, imageOf_eq_code hspelled hfits⟩
  rw [disassemble_code hhalt hx hfits, List.map_map]
  rfl

/-- `SET` and `HALT` are printed and read back as they are. -/
theorem round_trip_set : RoundTrips [0x01, 0x10, 0x05, 0x00, 0x00, 0xF0] [.set 1 5, .halt] := by
  have hfive : Number "5" 5 := ⟨by decide, rfl, by decide⟩
  have hlines : List.Forall₂ (Spelled Number) (tokenize false ["SET R1 = 5\n", "HALT\n"])
      [.set 1 5, .halt] := .cons (.set (namesReg_regName 1) hfive) (.cons .halt .nil)
  have himage : imageOf ["SET R1 = 5\n", "HALT\n"] =
      some [0x01, 0x10, 0x05, 0x00, 0x00, 0xF0] := imageOf_eq_code hlines (by decide)
  refine (round_trip_iff hlines (fun i hi => ?_) himage).mpr fun i hi => ?_
  · rw [List.mem_singleton.mp hi]
    exact fun h => by cases h
  · rcases List.mem_pair.mp hi with rfl | rfl <;> trivial

/-- `PUSH R1` is printed as `PUSH R0`. -/
theorem not_round_trip_push :
    ¬ ∀ (lines : List String) (is : List (Insn ℕ)) (image : List Byte),
      List.Forall₂ (Spelled Number) (tokenize false lines) is →
      (∀ i ∈ is.dropLast, i ≠ .halt) → imageOf lines = some image → RoundTrips image is := by
  intro h
  have hlines : List.Forall₂ (Spelled Number) (tokenize false ["PUSH R1\n"]) [.push 1] :=
    .cons (.push (namesReg_regName 1)) .nil
  have hfits : (([.push 1] : List (Insn ℕ)).flatMap Insn.cells).length ≤ 65536 := by decide
  have hhalt : ∀ i ∈ ([.push 1] : List (Insn ℕ)).dropLast, i ≠ .halt :=
    fun i hi => absurd hi List.not_mem_nil
  have hx : ∀ i ∈ ([.push 1] : List (Insn ℕ)), ∀ x ∈ i.const, x < 65536 := by
    intro i hi x hx
    rw [List.mem_singleton.mp hi] at hx
    cases hx
  have htrip := h _ _ _ hlines hhalt (imageOf_eq_code hlines hfits)
  have hpush := htrip.printed hhalt hx hfits (.push 1) List.mem_cons_self
  exact absurd hpush (by decide)

end SystemsProjects.BareMetal
