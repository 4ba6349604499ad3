import SystemsProjects.BareMetal.Encode

/-!
# The Rows of the Table

The instruction rows of the table, and what a line is that one of them takes: every column
asks for a token of its kind, and the line spells the instruction of the row, whatever is
asked of the tokens for constants.

## Main definitions

* `instructionRows`, `directiveRows`: the two parts of the table.
* `Takes`: the tokens of a column, with the constants read by a given relation.

## Main results

* `exists_spelled`: a line that an instruction row takes spells an instruction.
-/

namespace SystemsProjects.BareMetal

/-! ### The table -/

/-- The rows of the table in front of the directives. -/
def instructionRows : List (List Pattern) :=
  (patterns.map Prod.fst).takeWhile (· ≠ [.lit "SYMBOL", .label])

/-- The rows of the directives. -/
def directiveRows : List (List Pattern) :=
  [[.lit "SYMBOL", .label], [.lit "BYTES", .nums], [.lit "WORDS", .nums], [.lit "STRING", .any],
    [.lit "ALIGN", .num], [.lit "ADDR", .num]]

/-- The table has the rows of the instructions first and those of the directives behind them. -/
theorem map_fst_patterns : patterns.map Prod.fst = instructionRows ++ directiveRows := by decide

/-- A token that a column takes. The registers go by their first two characters, and the
constants by `C`. -/
def Takes {κ : Type} (C : String → κ → Prop) (t : String) : Pattern → Prop
  | .lit s => t = s
  | .oneOf names => t ∈ names
  | .reg => ∃ a, NamesReg t a
  | .num | .label => ∃ x, C t x
  | .nums | .any => True

/-! ### Names in columns -/

/-- The words that `load` lists are the keywords of the two loads. -/
theorem exists_load {t : String} (h : t ∈ load) : ∃ w : Width, t = w.load := by
  rcases List.mem_cons.mp h with rfl | h
  · exact ⟨.word, rfl⟩
  · exact ⟨.byte, List.mem_singleton.mp h⟩

/-- The words that `store` lists are the keywords of the two stores. -/
theorem exists_store {t : String} (h : t ∈ store) : ∃ w : Width, t = w.store := by
  rcases List.mem_cons.mp h with rfl | h
  · exact ⟨.word, rfl⟩
  · exact ⟨.byte, List.mem_singleton.mp h⟩

/-- The words that `jmp` lists are the keywords of the seven jumps. -/
theorem exists_jmp {t : String} (h : t ∈ jmp) : ∃ cond : Cond, t = cond.name := by
  have hall : ∀ t ∈ jmp, t ∈ [Cond.always, .z, .nz, .lt, .gt, .le, .ge].map Cond.name := by decide
  obtain ⟨cond, -, rfl⟩ := List.mem_map.mp (hall t h)
  exact ⟨cond, rfl⟩

/-- The words that `reg_sp` lists are the eight registers and the stack pointer. -/
theorem exists_regSp {t : String} (h : t ∈ regSp) : ∃ d : RegSp, t = d.name := by
  have hall : ∀ t ∈ regSp, t = "SP" ∨ ∃ a : Fin 8, t = regName a := by decide
  rcases hall t h with rfl | ⟨a, rfl⟩
  · exact ⟨.sp, rfl⟩
  · exact ⟨.r a, rfl⟩

/-- The columns of the table for a constant: numbers, or labels. -/
inductive Constant : Pattern → Prop
  | num : Constant .num
  | label : Constant .label

/-! ### The rows -/

section Rows

open List

variable {κ : Type} {C : String → κ → Prop} {line : List String} {p : Pattern}

/-- A token at the place of a constant is read as one. -/
theorem Constant.read {t : String} (hp : Constant p) (h : Takes C t p) : ∃ x, C t x := by
  cases hp with
  | num => exact h
  | label => exact h

/-- The line of a `SET` with a constant spells it. -/
theorem spelled_set (hp : Constant p)
    (h : Forall₂ (Takes C) line [.lit "SET", .reg, .lit "=", p]) : ∃ i, Spelled C line i := by
  rcases h with _ | ⟨⟨⟩, _ | ⟨⟨a, hr⟩, _ | ⟨⟨⟩, _ | ⟨hn, ⟨⟩⟩⟩⟩⟩
  obtain ⟨x, hx⟩ := hp.read hn
  exact ⟨_, .set hr hx⟩

/-- The line of a load from a constant address spells it. -/
theorem spelled_load (hp : Constant p)
    (h : Forall₂ (Takes C) line [.oneOf load, .reg, .lit "<-", p]) : ∃ i, Spelled C line i := by
  rcases h with _ | ⟨hw, _ | ⟨⟨a, hr⟩, _ | ⟨⟨⟩, _ | ⟨hn, ⟨⟩⟩⟩⟩⟩
  obtain ⟨w, rfl⟩ := exists_load hw
  obtain ⟨x, hx⟩ := hp.read hn
  exact ⟨_, .load w hr hx⟩

/-- The same with a star, where what is behind it does not look like a register. Otherwise the row
of the register comes first. -/
theorem spelled_loadStar (hp : Constant p)
    (h : Forall₂ (Takes C) line [.oneOf load, .reg, .lit "<-", .lit "*", p])
    (hl : ∀ w r s n, line = [w, r, s, "*", n] → ¬ LooksLikeReg n) :
    ∃ i, Spelled C line i := by
  rcases h with _ | ⟨hw, _ | ⟨⟨a, hr⟩, _ | ⟨⟨⟩, _ | ⟨⟨⟩, _ | ⟨hn, ⟨⟩⟩⟩⟩⟩⟩
  obtain ⟨w, rfl⟩ := exists_load hw
  obtain ⟨x, hx⟩ := hp.read hn
  exact ⟨_, .loadStar w hr hx (hl _ _ _ _ rfl)⟩

/-- The line of a load from an address in a register spells it. -/
theorem spelled_loadRel
    (h : Forall₂ (Takes C) line [.oneOf load, .reg, .lit "<-", .lit "*", .reg]) :
    ∃ i, Spelled C line i := by
  rcases h with _ | ⟨hw, _ | ⟨⟨a, hr⟩, _ | ⟨⟨⟩, _ | ⟨⟨⟩, _ | ⟨⟨b, hq⟩, ⟨⟩⟩⟩⟩⟩⟩
  obtain ⟨w, rfl⟩ := exists_load hw
  exact ⟨_, .loadRel w hr hq⟩

/-- The line of a store to a constant address spells it. -/
theorem spelled_store (hp : Constant p)
    (h : Forall₂ (Takes C) line [.oneOf store, .reg, .lit "->", p]) : ∃ i, Spelled C line i := by
  rcases h with _ | ⟨hw, _ | ⟨⟨a, hr⟩, _ | ⟨⟨⟩, _ | ⟨hn, ⟨⟩⟩⟩⟩⟩
  obtain ⟨w, rfl⟩ := exists_store hw
  obtain ⟨x, hx⟩ := hp.read hn
  exact ⟨_, .store w hr hx⟩

/-- The same with a star, where what is behind it does not look like a register. -/
theorem spelled_storeStar (hp : Constant p)
    (h : Forall₂ (Takes C) line [.oneOf store, .reg, .lit "->", .lit "*", p])
    (hl : ∀ w r s n, line = [w, r, s, "*", n] → ¬ LooksLikeReg n) :
    ∃ i, Spelled C line i := by
  rcases h with _ | ⟨hw, _ | ⟨⟨a, hr⟩, _ | ⟨⟨⟩, _ | ⟨⟨⟩, _ | ⟨hn, ⟨⟩⟩⟩⟩⟩⟩
  obtain ⟨w, rfl⟩ := exists_store hw
  obtain ⟨x, hx⟩ := hp.read hn
  exact ⟨_, .storeStar w hr hx (hl _ _ _ _ rfl)⟩

/-- The line of a store to an address in a register spells it. -/
theorem spelled_storeRel
    (h : Forall₂ (Takes C) line [.oneOf store, .reg, .lit "->", .lit "*", .reg]) :
    ∃ i, Spelled C line i := by
  rcases h with _ | ⟨hw, _ | ⟨⟨a, hr⟩, _ | ⟨⟨⟩, _ | ⟨⟨⟩, _ | ⟨⟨b, hq⟩, ⟨⟩⟩⟩⟩⟩⟩
  obtain ⟨w, rfl⟩ := exists_store hw
  exact ⟨_, .storeRel w hr hq⟩

/-- The line of a `MOVE` spells it, with the stack pointer on either side. -/
theorem spelled_move
    (h : Forall₂ (Takes C) line [.lit "MOVE", .oneOf regSp, .lit "->", .oneOf regSp]) :
    ∃ i, Spelled C line i := by
  rcases h with _ | ⟨⟨⟩, _ | ⟨hs, _ | ⟨⟨⟩, _ | ⟨hd, ⟨⟩⟩⟩⟩⟩
  obtain ⟨s, rfl⟩ := exists_regSp hs
  obtain ⟨d, rfl⟩ := exists_regSp hd
  exact ⟨_, .move s d⟩

/-- The line of an operation spells it, where the symbol is the one of its keyword. -/
theorem spelled_alu (op : AluOp)
    (h : Forall₂ (Takes C) line [.lit op.name, .reg, .lit op.symbol, .reg, .lit "->", .reg]) :
    ∃ i, Spelled C line i := by
  rcases h with
    _ | ⟨⟨⟩, _ | ⟨⟨a, hr⟩, _ | ⟨⟨⟩, _ | ⟨⟨b, hq⟩, _ | ⟨⟨⟩, _ | ⟨⟨c, ht⟩, ⟨⟩⟩⟩⟩⟩⟩⟩
  exact ⟨_, .alu op hr hq ht⟩

/-- The line of a `CMP` spells it. -/
theorem spelled_cmp (h : Forall₂ (Takes C) line [.lit "CMP", .reg, .lit "-", .reg]) :
    ∃ i, Spelled C line i := by
  rcases h with _ | ⟨⟨⟩, _ | ⟨⟨a, hr⟩, _ | ⟨⟨⟩, _ | ⟨⟨b, hq⟩, ⟨⟩⟩⟩⟩⟩
  exact ⟨_, .cmp hr hq⟩

/-- The line of a jump to a constant address spells it. -/
theorem spelled_jmp (hp : Constant p) (h : Forall₂ (Takes C) line [.oneOf jmp, p]) :
    ∃ i, Spelled C line i := by
  rcases h with _ | ⟨hc, _ | ⟨hn, ⟨⟩⟩⟩
  obtain ⟨cond, rfl⟩ := exists_jmp hc
  obtain ⟨x, hx⟩ := hp.read hn
  exact ⟨_, .jmp cond hx⟩

/-- The line of a jump to an address in a register spells it. -/
theorem spelled_jmpRel (h : Forall₂ (Takes C) line [.oneOf jmp, .lit "*", .reg]) :
    ∃ i, Spelled C line i := by
  rcases h with _ | ⟨hc, _ | ⟨⟨⟩, _ | ⟨⟨a, hr⟩, ⟨⟩⟩⟩⟩
  obtain ⟨cond, rfl⟩ := exists_jmp hc
  exact ⟨_, .jmpRel cond hr⟩

/-- The line of a `CALL` of a constant address spells it. -/
theorem spelled_call (hp : Constant p) (h : Forall₂ (Takes C) line [.lit "CALL", p]) :
    ∃ i, Spelled C line i := by
  rcases h with _ | ⟨⟨⟩, _ | ⟨hn, ⟨⟩⟩⟩
  obtain ⟨x, hx⟩ := hp.read hn
  exact ⟨_, .call hx⟩

/-- The line of a `CALL` of an address in a register spells it. -/
theorem spelled_callRel (h : Forall₂ (Takes C) line [.lit "CALL", .lit "*", .reg]) :
    ∃ i, Spelled C line i := by
  rcases h with _ | ⟨⟨⟩, _ | ⟨⟨⟩, _ | ⟨⟨a, hr⟩, ⟨⟩⟩⟩⟩
  exact ⟨_, .callRel hr⟩

/-- The rows of a mnemonic with nothing behind it. -/
theorem spelled_plain {w : String} {i : Insn κ} (hi : Spelled C [w] i)
    (h : Forall₂ (Takes C) line [.lit w]) : ∃ i, Spelled C line i := by
  rcases h with _ | ⟨⟨⟩, ⟨⟩⟩
  exact ⟨_, hi⟩

/-- The rows of a mnemonic with a register behind it. -/
theorem spelled_reg {w : String} {i : Fin 8 → Insn κ}
    (hi : ∀ r a, NamesReg r a → Spelled C [w, r] (i a))
    (h : Forall₂ (Takes C) line [.lit w, .reg]) : ∃ i, Spelled C line i := by
  rcases h with _ | ⟨⟨⟩, _ | ⟨⟨a, hr⟩, ⟨⟩⟩⟩
  exact ⟨_, hi _ a hr⟩

/-- **A line that an instruction row takes** spells an instruction. Behind a star, a constant
must not look like a register. -/
theorem exists_spelled {row : List Pattern} (hrow : row ∈ instructionRows)
    (h : Forall₂ (Takes C) line row)
    (hl : row.getLast? ≠ some .reg →
      ∀ w r s n, line = [w, r, s, "*", n] → ¬ LooksLikeReg n) : ∃ i, Spelled C line i := by
  have hrows : instructionRows = (patterns.take 33).map Prod.fst := by decide
  simp only [hrows, patterns, List.take_succ_cons, List.take_zero, List.map_cons, List.map_nil,
    List.mem_cons, List.not_mem_nil, or_false] at hrow
  rcases hrow with rfl | rfl | rfl | rfl | rfl | rfl | rfl | rfl | rfl | rfl | rfl | rfl | rfl |
    rfl | rfl | rfl | rfl | rfl | rfl | rfl | rfl | rfl | rfl | rfl | rfl | rfl | rfl | rfl |
    rfl | rfl | rfl | rfl | rfl
  · exact spelled_set .num h
  · exact spelled_set .label h
  · exact spelled_load .num h
  · exact spelled_loadStar .num h (hl (by decide))
  · exact spelled_load .label h
  · exact spelled_loadRel h
  · exact spelled_loadStar .label h (hl (by decide))
  · exact spelled_store .num h
  · exact spelled_storeStar .num h (hl (by decide))
  · exact spelled_store .label h
  · exact spelled_storeRel h
  · exact spelled_storeStar .label h (hl (by decide))
  · exact spelled_move h
  · exact spelled_alu .add h
  · exact spelled_alu .sub h
  · exact spelled_alu .and h
  · exact spelled_alu .or h
  · exact spelled_alu .xor h
  · exact spelled_alu .rshift h
  · exact spelled_cmp h
  · exact spelled_reg (fun _ _ => .test) h
  · exact spelled_jmp .num h
  · exact spelled_jmp .label h
  · exact spelled_jmpRel h
  · exact spelled_call .num h
  · exact spelled_call .label h
  · exact spelled_callRel h
  · exact spelled_plain .ret h
  · exact spelled_plain .halt h
  · exact spelled_reg (fun _ _ => .push) h
  · exact spelled_reg (fun _ _ => .pop) h
  · exact spelled_reg (fun _ _ => .input) h
  · exact spelled_reg (fun _ _ => .output) h

end Rows

end SystemsProjects.BareMetal
