import Mathlib.Data.List.Forall2
import SystemsProjects.BareMetal.Rows
import SystemsProjects.BareMetal.Script

/-!
# A Two-Pass Assembler

What the lines of a program are written for, and the image they stand for: the first pass
goes over the statements and notes the address of every label, the second one encodes every
statement with these addresses. Nothing is looked up before it is known, and nothing is left
to be filled in.

A line of tokens is read as the statement of a row of the table that it matches. The reading
of a register goes by its first two characters, as the table has it.

## Main definitions

* `Statement`: an instruction, the definition of a label, or a directive.
* `places`: the first pass.
* `cells`: the second pass.
* `twoPass`: the image.
* `Reads`, `ReadsTokens`, `ReadsProgram`: what the lines are written for.
* `InTable`: a line of the table, with labels and numbers of the right form.

## Main results

* `InTable.reads`: a line of the table is read as a statement.
* `exists_readsProgram`: a file of such lines is read as a program.
-/

namespace SystemsProjects.BareMetal

/-! ### Statements -/

/-- The constant of an instruction: a number, or a label that stands for its address. -/
inductive Operand
  | number (n : ℕ)
  | label (l : String)
  deriving DecidableEq, Repr

/-- The value of a constant, for given addresses of the labels. -/
def Operand.value (address : String → ℕ) : Operand → ℕ
  | number n => n
  | label l => address l

/-- What one line, or the label in front of it, is written for. A line with a label makes two of
them. -/
inductive Statement
  | insn (i : Insn Operand)
  | symbol (l : String)
  | bytes (n : ℕ)
  | words (n : ℕ)
  | string (s : String)
  | align (n : ℕ)
  deriving DecidableEq, Repr

/-- A word in two cells, the lower byte first. -/
def wordCells (v : ℕ) : List ℕ := [v % 256, v / 256]

/-- How far the next multiple of `n` is. -/
def gap (n addr : ℕ) : ℕ := (n - addr % n) % n

namespace Statement

/-- How many bytes the statement takes at an address. -/
def size (addr : ℕ) : Statement → ℕ
  | insn i => i.size
  | symbol _ => 0
  | bytes _ => 1
  | words _ => 2
  | string s => (replaceNewlines s.toList).length + 1
  | align n => gap n addr

/-- The bytes of the statement at an address. -/
def cells (address : String → ℕ) (addr : ℕ) : Statement → List ℕ
  | insn i =>
      wordCells i.opcode ++
        match i.const with
        | some o => wordCells (o.value address)
        | none => []
  | symbol _ => []
  | bytes n => [n % 256]
  | words n => wordCells (n % 65536)
  | string s => (replaceNewlines s.toList).map Char.toNat ++ [0]
  | align n => List.replicate (gap n addr) 0

/-- The labels that the statement defines. -/
def defines : Statement → List String
  | symbol l => [l]
  | _ => []

/-- The labels that the statement refers to. -/
def refers : Statement → List String
  | insn i =>
      match i.const with
      | some (.label l) => [l]
      | _ => []
  | _ => []

end Statement

/-! ### The passes -/

/-- The address behind a program. -/
def endAddr : ℕ → List Statement → ℕ
  | addr, [] => addr
  | addr, st :: p => endAddr (addr + st.size addr) p

/-- The first pass: the labels with their addresses. -/
def places : ℕ → List Statement → List (String × ℕ)
  | _, [] => []
  | addr, st :: p => st.defines.map (fun l => (l, addr)) ++ places (addr + st.size addr) p

/-- The second pass: the bytes, for given addresses of the labels. -/
def cells (address : String → ℕ) : ℕ → List Statement → List ℕ
  | _, [] => []
  | addr, st :: p => st.cells address addr ++ cells address (addr + st.size addr) p

/-- The address of a label. -/
def addressOf (p : List Statement) (l : String) : ℕ := ((places 0 p).lookup l).getD 0

/-- A cell as a byte, where it is one. -/
def byteOf (v : ℕ) : Option Byte := if v < 256 then some (.ofNat 8 v) else none

/-- The image of a program. There is none where an address has more than two bytes, or a
character more than one. -/
def twoPass (p : List Statement) : Option (List Byte) :=
  (cells (addressOf p) 0 p).mapM byteOf

/-- Every label that the program refers to is defined exactly once. Labels that nobody refers to
may be defined twice. -/
def Resolved (p : List Statement) : Prop :=
  ∀ l ∈ p.flatMap Statement.refers, (p.flatMap Statement.defines).count l = 1

/-- Whether every label that is referred to is defined once can be computed. -/
instance (p : List Statement) : Decidable (Resolved p) :=
  inferInstanceAs (Decidable (∀ l ∈ p.flatMap Statement.refers, _ = 1))

/-! ### Reading lines -/

/-- The token is a numeral below 65536. -/
def Numeral (t : String) (n : ℕ) : Prop := pyInt t = pure n ∧ n < 65536

/-- How the constant of an instruction is read. -/
def ReadsOperand (t : String) : Operand → Prop
  | .number n => isNum t ∧ Numeral t n
  | .label l => t = l ∧ isIdentifier l

/-- How the tokens of one call of `do_line` are read. It does not mention the table. -/
inductive Reads : List String → Statement → Prop
  | insn {line : List String} {i : Insn Operand} (h : Spelled ReadsOperand line i) :
      Reads line (.insn i)
  | symbol {l : String} (h : isIdentifier l) : Reads ["SYMBOL", l] (.symbol l)
  | bytes {t : String} {n : ℕ} (h : matchToken t .nums = pure true) (hn : Numeral t n) :
      Reads ["BYTES", t] (.bytes n)
  | words {t : String} {n : ℕ} (h : matchToken t .nums = pure true) (hn : Numeral t n) :
      Reads ["WORDS", t] (.words n)
  | string (s : String) : Reads ["STRING", s] (.string s)
  | align {t : String} {n : ℕ} (h : isNum t) (hn : Numeral t n) (hpos : 1 ≤ n) :
      Reads ["ALIGN", t] (.align n)

/-- How the tokens of one line of the file are read: a label with its colon is what a `SYMBOL`
line is, and it may have a statement behind it. As tokens have no quotes, any second token `:`
is the colon of a label. -/
inductive ReadsTokens : List String → List Statement → Prop
  | blank : ReadsTokens [] []
  | line {tokens : List String} {st : Statement} (hcolon : tokens[1]? ≠ some ":")
      (h : Reads tokens st) : ReadsTokens tokens [st]
  | label {l : String} {st : Statement} (hl : Reads ["SYMBOL", l] st) : ReadsTokens [l, ":"] [st]
  | labelled {l : String} {tokens : List String} {st st' : Statement}
      (hl : Reads ["SYMBOL", l] st) (h : Reads tokens st') :
      ReadsTokens (l :: ":" :: tokens) [st, st']

/-- The tokens of the lines of a file, from its first line on. -/
def tokenize : Bool → List String → List (List String)
  | _, [] => []
  | inQuote, line :: lines => (parse inQuote line).1 :: tokenize (parse inQuote line).2 lines

/-- How the lines of a file are read. -/
inductive ReadsProgram : List (List String) → List Statement → Prop
  | nil : ReadsProgram [] []
  | cons {tokens : List String} {sts p : List Statement} {file : List (List String)}
      (h : ReadsTokens tokens sts) (hp : ReadsProgram file p) :
      ReadsProgram (tokens :: file) (sts ++ p)

/-! ### Lines of the table -/

/-- The line matches a row, its labels do not pass for registers, and its numbers are numerals
below 65536. -/
structure Accepts (line : List String) (row : List Pattern) : Prop where
  matched : matchLine line row = pure true
  label : ∀ t, (t, Pattern.label) ∈ line.zip row → ¬ LooksLikeReg t
  number : ∀ t p, (t, p) ∈ line.zip row → p = .num ∨ p = .nums → ∃ n, Numeral t n

/-- The line is one of the table: not of its row `ADDR`, and an `ALIGN` is by 1 at least. A
label is not the name of a register. -/
def InTable (line : List String) : Prop :=
  ∃ row ∈ patterns, Accepts line row.1 ∧ line.head? ≠ some "ADDR" ∧
    ∀ t, line = ["ALIGN", t] → ¬ Numeral t 0

/-- A line of the file is blank, or of the table, with a label in front of it or without. -/
def InTableTokens : List String → Prop
  | l :: colon :: tokens =>
      if colon = ":" then InTable ["SYMBOL", l] ∧ (tokens = [] ∨ InTable tokens)
      else InTable (l :: colon :: tokens)
  | tokens => tokens = [] ∨ InTable tokens

/-- What a token of a line is that `Accepts` lets through. -/
def Admits (t : String) : Pattern → Prop
  | .lit s => t = s
  | .oneOf names => t ∈ names
  | .reg => ∃ a, NamesReg t a
  | .num => isNum t ∧ ∃ n, Numeral t n
  | .nums => matchToken t .nums = pure true ∧ ∃ n, Numeral t n
  | .label => isIdentifier t ∧ ¬ LooksLikeReg t
  | .any => True

/-- The results of two functions that do nothing else are the same only if they return the same. -/
theorem pure_inj {α : Type} {x y : α} (h : (pure x : Py α) = pure y) : x = y := by
  have h' := congrFun h Asm.start
  cases h'
  rfl

/-- A test of a token does not look at the globals. -/
theorem matchToken_cases (t : String) (p : Pattern) :
    (∃ b, matchToken t p = pure b) ∨ ∃ e, matchToken t p = raise e := by
  cases p with
  | reg =>
      rw [matchToken, matchReg]
      split
      · exact .inr ⟨_, rfl⟩
      · split
        · exact .inr ⟨_, rfl⟩
        · exact .inl ⟨_, rfl⟩
      · exact .inl ⟨_, rfl⟩
  | _ => exact .inl ⟨_, rfl⟩

/-- A line matches a row when its first token matches the first pattern and the rest the others. -/
theorem matchTokens_cons {t : String} {p : Pattern} {line : List String} {row : List Pattern}
    (h : matchTokens (t :: line) (p :: row) = pure true) :
    matchToken t p = pure true ∧ matchTokens line row = pure true := by
  rw [matchTokens] at h
  rcases matchToken_cases t p with ⟨b, hb⟩ | ⟨e, he⟩
  · rw [hb, pure_bind] at h
    cases b with
    | true => exact ⟨hb, h⟩
    | false => cases pure_inj h
  · rw [he] at h
    have h' := congrFun h Asm.start
    cases h'

/-- A token that passes for a register names one. -/
theorem namesReg_of_matchReg {t : String} (h : matchReg t = pure true) :
    ∃ a, NamesReg t a := by
  rw [matchReg] at h
  split at h
  · cases congrFun h Asm.start
  · rename_i rest hR
    split at h
    · cases congrFun h Asm.start
    · rename_i c rest
      have hc := of_decide_eq_true (pure_inj h)
      have hdigit : ∀ c ∈ ['0', '1', '2', '3', '4', '5', '6', '7'],
          ∃ a : Fin 8, c = Char.ofNat (48 + a) := by
        simp only [List.forall_mem_cons, List.not_mem_nil, false_imp_iff, implies_true, and_true]
        decide
      obtain ⟨a, rfl⟩ := hdigit c hc
      exact ⟨a, rest, hR⟩
  · cases pure_inj h

/-- A token that matches its pattern is what the pattern stands for, with a label that is no
register and a number that `int` takes. -/
theorem admits_of_matchToken {t : String} {p : Pattern} (h : matchToken t p = pure true)
    (hlabel : p = .label → ¬ LooksLikeReg t)
    (hnum : p = .num ∨ p = .nums → ∃ n, Numeral t n) : Admits t p := by
  cases p with
  | oneOf names => exact of_decide_eq_true (p := t ∈ names) (pure_inj h)
  | num => exact ⟨pure_inj h, hnum (.inl rfl)⟩
  | nums => exact ⟨h, hnum (.inr rfl)⟩
  | any => trivial
  | label => exact ⟨pure_inj h, hlabel rfl⟩
  | reg => exact namesReg_of_matchReg h
  | lit s => exact of_decide_eq_true (p := t = s) (pure_inj h)

/-- The columns of a row are matched one by one. -/
theorem forall₂_of_matchLine {line : List String} {row : List Pattern}
    (h : matchLine line row = pure true) :
    List.Forall₂ (fun t p => matchToken t p = pure true) line row := by
  rw [matchLine] at h
  split at h
  · cases pure_inj h
  · rename_i hlen
    rw [not_ne_iff] at hlen
    induction line generalizing row with
    | nil =>
        cases row with
        | nil => exact .nil
        | cons p row => cases hlen
    | cons t line ih =>
        cases row with
        | nil => cases hlen
        | cons p row =>
            obtain ⟨ht, hrest⟩ := matchTokens_cons h
            exact .cons ht (ih (Nat.succ.inj hlen) hrest)

/-- Every token of a line that is accepted is what its pattern stands for. -/
theorem Accepts.admits {line : List String} {row : List Pattern} (h : Accepts line row) :
    List.Forall₂ Admits line row := by
  obtain ⟨hlen, hmatch⟩ := List.forall₂_iff_zip.mp (forall₂_of_matchLine h.matched)
  refine List.forall₂_iff_zip.mpr ⟨hlen, fun {t p} hmem => ?_⟩
  refine admits_of_matchToken (hmatch hmem) ?_ (h.number t p hmem)
  rintro rfl
  exact h.label t hmem

/-- A number does not look like a register. -/
theorem not_looksLikeReg_of_isNum {t : String} (h : isNum t) : ¬ LooksLikeReg t := by
  rintro (rfl | ⟨c, rest, hR, -⟩)
  · exact absurd h (by decide)
  · rw [isNum, hR] at h
    simp at h

namespace Admits

variable {t : String} {p : Pattern}

/-- What is let through is what the rows of the instructions take. -/
theorem takes (h : Admits t p) : Takes ReadsOperand t p := by
  cases p with
  | num =>
      obtain ⟨hnum, n, hn⟩ := h
      exact ⟨.number n, hnum, hn⟩
  | label => exact ⟨.label t, rfl, h.1⟩
  | nums => trivial
  | any => trivial
  | oneOf names => exact h
  | reg => exact h
  | lit s => exact h

/-- At the place of a constant nothing that is let through looks like a register. -/
theorem not_looksLikeReg (hp : Constant p) (h : Admits t p) : ¬ LooksLikeReg t := by
  cases hp with
  | num => exact not_looksLikeReg_of_isNum h.1
  | label => exact h.2

end Admits

/-! ### The rows -/

section Rows

open List

variable {line : List String}

/-- A line of an instruction row. -/
theorem reads_instruction {row : List Pattern} (hrow : row ∈ instructionRows)
    (h : Forall₂ Admits line row) : ∃ st, Reads line st := by
  obtain ⟨i, hi⟩ := exists_spelled hrow (h.imp fun _ _ => Admits.takes) (by
    rintro hreg w r s n rfl
    rcases h with _ | ⟨-, _ | ⟨-, _ | ⟨-, _ | ⟨-, _ | ⟨hn, ⟨⟩⟩⟩⟩⟩⟩
    -- a column behind a star is one for constants or for registers
    have hlast : ∀ row ∈ instructionRows, row.length = 5 →
        row.getLast? ∈ [some .num, some .label, some .reg] := by decide
    have hmem := hlast _ hrow rfl
    simp only [getLast?_cons_cons, getLast?_singleton, mem_cons, Option.some.injEq, not_mem_nil,
      or_false, ne_eq] at hmem hreg
    rcases hmem with rfl | rfl | rfl
    · exact hn.not_looksLikeReg .num
    · exact hn.not_looksLikeReg .label
    · exact absurd rfl hreg)
  exact ⟨_, .insn hi⟩

/-- The line of a `SYMBOL` is read as a label. -/
theorem reads_symbol (h : Forall₂ Admits line [.lit "SYMBOL", .label]) :
    ∃ st, Reads line st := by
  rcases h with _ | ⟨⟨⟩, _ | ⟨⟨hl, -⟩, ⟨⟩⟩⟩
  exact ⟨_, .symbol hl⟩

/-- The line of a `BYTES` is read as its number. -/
theorem reads_bytes (h : Forall₂ Admits line [.lit "BYTES", .nums]) : ∃ st, Reads line st := by
  rcases h with _ | ⟨⟨⟩, _ | ⟨⟨ht, n, hn⟩, ⟨⟩⟩⟩
  exact ⟨_, .bytes ht hn⟩

/-- The line of a `WORDS` is read as its number. -/
theorem reads_words (h : Forall₂ Admits line [.lit "WORDS", .nums]) : ∃ st, Reads line st := by
  rcases h with _ | ⟨⟨⟩, _ | ⟨⟨ht, n, hn⟩, ⟨⟩⟩⟩
  exact ⟨_, .words ht hn⟩

/-- The line of a `STRING` is read as its text, whatever it is. -/
theorem reads_string (h : Forall₂ Admits line [.lit "STRING", .any]) : ∃ st, Reads line st := by
  rcases h with _ | ⟨⟨⟩, _ | ⟨-, ⟨⟩⟩⟩
  exact ⟨_, .string _⟩

/-- The line of an `ALIGN` is read as its number, where that is not 0. -/
theorem reads_align (h : Forall₂ Admits line [.lit "ALIGN", .num])
    (hpos : ∀ t, line = ["ALIGN", t] → ¬ Numeral t 0) : ∃ st, Reads line st := by
  rcases h with _ | ⟨⟨⟩, _ | ⟨⟨ht, n, hn⟩, ⟨⟩⟩⟩
  have hne : n ≠ 0 := by
    rintro rfl
    exact hpos _ rfl hn
  exact ⟨_, .align ht hn (Nat.one_le_iff_ne_zero.mpr hne)⟩

end Rows

/-- A line of the table is read as a statement. -/
theorem InTable.reads {line : List String} (h : InTable line) : ∃ st, Reads line st := by
  obtain ⟨row, hrow, haccepts, haddr, halign⟩ := h
  have h := haccepts.admits
  have hmem : row.1 ∈ patterns.map Prod.fst := List.mem_map_of_mem hrow
  rw [map_fst_patterns, List.mem_append] at hmem
  rcases hmem with hmem | hmem
  · exact reads_instruction hmem h
  · simp only [directiveRows, List.mem_cons, List.not_mem_nil, or_false] at hmem
    rcases hmem with hrow | hrow | hrow | hrow | hrow | hrow <;> rw [hrow] at h
    · exact reads_symbol h
    · exact reads_bytes h
    · exact reads_words h
    · exact reads_string h
    · exact reads_align h halign
    · rcases h with _ | ⟨⟨⟩, _⟩
      exact absurd rfl haddr

/-- A line of the file is read as its statements. -/
theorem InTableTokens.reads {tokens : List String} (h : InTableTokens tokens) :
    ∃ sts, ReadsTokens tokens sts := by
  match tokens, h with
  | [], _ => exact ⟨_, .blank⟩
  | [t], h =>
      obtain ⟨st, hst⟩ := (h.resolve_left nofun).reads
      exact ⟨_, .line nofun hst⟩
  | l :: colon :: tokens, h =>
      rw [InTableTokens] at h
      split at h
      · subst colon
        obtain ⟨st, hst⟩ := h.1.reads
        rcases h.2 with rfl | h
        · exact ⟨_, .label hst⟩
        · obtain ⟨st', hst'⟩ := h.reads
          exact ⟨_, .labelled hst hst'⟩
      · rename_i hcolon
        obtain ⟨st, hst⟩ := h.reads
        exact ⟨_, .line (fun h => hcolon (Option.some.inj h)) hst⟩

/-- A file of such lines is read as a program. -/
theorem exists_readsProgram {file : List (List String)}
    (h : ∀ tokens ∈ file, InTableTokens tokens) : ∃ p, ReadsProgram file p := by
  induction file with
  | nil => exact ⟨_, .nil⟩
  | cons tokens file ih =>
      obtain ⟨p, hp⟩ := ih fun t ht => h t (List.mem_cons_of_mem _ ht)
      obtain ⟨sts, hsts⟩ := (h tokens List.mem_cons_self).reads
      exact ⟨_, .cons hsts hp⟩

end SystemsProjects.BareMetal
