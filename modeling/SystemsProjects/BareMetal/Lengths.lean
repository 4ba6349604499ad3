import SystemsProjects.BareMetal.Disassembler
import SystemsProjects.BareMetal.Step

/-!
# Lengths of Instructions

`disasm` returns how many bytes an instruction takes, and `emulate` goes on by as many, or
pushes the address that many bytes on. They find the length in different ways: the
disassembler from single bits, the emulator, for a store, from the whole upper byte. The
stores of which a bit without a use is set are two bytes long for the one and four for the
other.

## Main definitions

* `Machine.Transfers`: the next step goes elsewhere.
* `LengthAgrees`: a step has gone by the length that `disasm` returns.

## Main results

* `length_agrees_iff`: when it has.
-/

namespace SystemsProjects.BareMetal

/-! ### The length that `disasm` returns -/

/-- The upper bytes of the stores to a constant address that the emulator does not take for
such. -/
def StrayStore (insn : ℕ) : Prop :=
  insn / 4096 = 3 ∧ insn / 2048 % 2 = 0 ∧ insn / 256 ≠ 0x30 ∧ insn / 256 ≠ 0x34

/-- Whether a word is such a store can be computed. -/
instance (insn : ℕ) : Decidable (StrayStore insn) := by
  unfold StrayStore
  infer_instance

/-- The length by the fields of the word. -/
theorem disasm_length (t : Fin 16) (o c b a : Fin 8) (next : ℕ) :
    (disasm (fields t o c b a) next).2 =
      if (t : ℕ) = 1 ∨ ((t : ℕ) = 2 ∨ (t : ℕ) = 3) ∧ (o : ℕ) / 4 = 0 ∨ (t : ℕ) = 6 ∨ (t : ℕ) = 8
      then 4 else 2 := by
  have hi : (o : ℕ) / 4 = 0 ∨ (o : ℕ) / 4 = 1 := by omega
  fin_cases t
  · simp [disasm]
  · simp [disasm]
  · rcases hi with hi | hi <;> simp [disasm, hi]
  · rcases hi with hi | hi <;> simp [disasm, hi]
  · simp [disasm]
  · fin_cases o <;> simp [disasm]
  · simp [disasm]
  · simp [disasm]
  · simp [disasm]
  · simp [disasm]
  · simp [disasm]
  · simp [disasm]
  · simp [disasm]
  · simp [disasm]
  · simp [disasm]
  · simp [disasm]

/-- A store is four bytes long for two upper bytes only. -/
theorem size_store_iff (o c a b : Fin 8) (x y : Word) {u : ℕ} (hu : 48 + (o : ℕ) * 2 + c / 4 = u) :
    (if u = 0x30 then Insn.store .word a x else if u = 0x34 then .store .byte a y
      else if u = 0x3C then .storeRel .byte a b else .storeRel .word a b).size =
      (if (o : ℕ) / 4 = 0 then 4 else 2) ↔ ((o : ℕ) / 4 = 0 → ¬u = 0x30 → u = 0x34) := by
  have hi : (o : ℕ) / 4 = 0 ↔ u < 56 := by omega
  simp only [hi]
  by_cases h30 : u = 0x30
  · simp [h30, Insn.size]
  · by_cases h34 : u = 0x34
    · simp [h34, Insn.size]
    · by_cases h3c : u = 0x3C
      · simp [h3c, Insn.size]
      · simp [h30, h34, h3c, Insn.size]

/-- **The two lengths of a word** are the same but for the stray stores. -/
theorem size_decode_iff {insn : ℕ} (hlt : insn < 65536) (x : Word) (next : ℕ)
    (hr : (decode insn x).result = 0) :
    (decode insn x).size = (disasm insn next).2 ↔ ¬StrayStore insn := by
  obtain ⟨t, o, c, b, a, rfl⟩ := exists_fields hlt
  rw [disasm_length, StrayStore, fields_div_4096, fields_indirect, fields_div_256]
  simp only [decode, fields_div_4096, fields_indirect, fields_byte, fields_code, fields_div_256,
    ofNat_fields_a, ofNat_fields_b, ofNat_fields_c] at hr ⊢
  fin_cases t
  · exact absurd hr Nat.one_ne_zero
  · simp [Insn.size]
  · rcases (by omega : (o : ℕ) / 4 = 0 ∨ (o : ℕ) / 4 = 1) with hi | hi <;> simp [Insn.size, hi]
  · simpa using size_store_iff o c a b x (x + 1#16) rfl
  · simp [Insn.size]
  · fin_cases o <;> simp [aluInsn, Insn.size]
  · cases hc : Cond.ofCode o with
    | none =>
        rw [hc] at hr
        exact absurd hr Nat.one_ne_zero
    | some cond => simp [Insn.size]
  · cases hc : Cond.ofCode o with
    | none =>
        rw [hc] at hr
        exact absurd hr Nat.one_ne_zero
    | some cond => simp [Insn.size]
  · simp [Insn.size]
  · simp [Insn.size]
  · simp [Insn.size]
  · simp [Insn.size]
  · simp [Insn.size]
  · simp [Insn.size]
  · simp [Insn.size]
  · exact absurd hr Nat.one_ne_zero

/-! ### Where a step goes -/

/-- The step goes elsewhere: it carries out a jump that is taken, a call or a return. -/
def Insn.Transfers (m : Machine) : Insn Word → Prop
  | .jmp cond _ | .jmpRel cond _ => cond.Holds m
  | .call _ | .callRel _ | .ret => True
  | _ => False

/-- The word at `PC` is a jump that is taken, a call or a return. -/
def Machine.Transfers (m : Machine) : Prop :=
  match (m.word m.PC).toNat / 4096 with
  | 6 | 7 => Taken m ((m.word m.PC).toNat / 512 % 8)
  | 8 | 9 | 10 => True
  | _ => False

/-- Other instructions go on behind themselves. -/
theorem Insn.PC_exec {i : Insn Word} {m : Machine} (hr : i.result = 0) (h : ¬i.Transfers m) :
    (i.exec m).PC = m.PC + .ofNat 16 i.size := by
  rw [PC_exec_eq hr]
  cases i with
  | jmp cond x => exact if_neg h
  | jmpRel cond a => exact if_neg h
  | call x => exact absurd True.intro h
  | callRel a => exact absurd True.intro h
  | ret => exact absurd True.intro h
  | _ => rfl

/-- A jump of the emulator, by its condition. -/
theorem transfers_elim {m : Machine} (o : Fin 8) {jump : Cond → Insn Word}
    (hj : ∀ cond, (jump cond).Transfers m ↔ cond.Holds m) :
    ((Cond.ofCode o).elim .halt jump).Transfers m ↔ Taken m o := by
  cases hc : Cond.ofCode o with
  | none =>
      refine iff_of_false id ?_
      revert hc
      fin_cases o <;> simp [Cond.ofCode, Taken]
  | some cond => exact (hj cond).trans (taken_iff o hc).symm

/-- The instruction of a word goes elsewhere if the word does. -/
theorem transfers_iff {m : Machine} : m.current.Transfers m ↔ m.Transfers := by
  rw [Machine.current, Machine.Transfers]
  obtain ⟨t, o, c, b, a, hw⟩ := exists_fields (m.word m.PC).isLt
  rw [hw]
  simp only [decode, fields_div_4096, fields_code]
  fin_cases t
  · exact Iff.rfl
  · exact Iff.rfl
  · simp only
    split <;> exact Iff.rfl
  · simp only
    split_ifs <;> exact Iff.rfl
  · exact Iff.rfl
  · fin_cases o <;> exact Iff.rfl
  · exact transfers_elim o fun _ => Iff.rfl
  · exact transfers_elim o fun _ => Iff.rfl
  · exact Iff.rfl
  · exact Iff.rfl
  · exact Iff.rfl
  · exact Iff.rfl
  · exact Iff.rfl
  · exact Iff.rfl
  · exact Iff.rfl
  · exact Iff.rfl

/-! ### The two programs -/

/-- The length of the instruction at `PC`, as `runsim -v` finds it. -/
def Machine.length (m : Machine) : ℕ :=
  (disasm (m.word m.PC).toNat (m.word (m.PC + 2#16)).toNat).2

/-- The step went on by that length, unless it was a jump that was taken, a call or a
return; and a call pushed the address that length on. -/
structure LengthAgrees (m m' : Machine) : Prop where
  advance : ¬m.Transfers → m'.PC = m.PC + .ofNat 16 m.length
  pushed : (m.word m.PC).toNat / 4096 = 8 ∨ (m.word m.PC).toNat / 4096 = 9 →
    m'.word m'.SP = m.PC + .ofNat 16 m.length

/-- There are two sizes of instructions. -/
theorem Insn.size_eq (i : Insn Word) : i.size = 2 ∨ i.size = 4 := by
  cases i <;> simp [size]

/-- The disassembler knows two lengths, too. -/
theorem Machine.length_eq (m : Machine) : m.length = 2 ∨ m.length = 4 := by
  obtain ⟨t, o, c, b, a, hw⟩ := exists_fields (m.word m.PC).isLt
  rw [length, hw, disasm_length]
  split
  · exact .inr rfl
  · exact .inl rfl

/-- **Where the lengths agree.** A step that does not halt went by the length that the
disassembler returns, if and only if its word is no store of which the emulator alone looks
at the unused bits. -/
theorem length_agrees_iff {m m' : Machine} (h : emulate m = .ok 0 m') :
    LengthAgrees m m' ↔ ¬StrayStore (m.word m.PC).toNat := by
  obtain ⟨-, hr, rfl⟩ := emulate_eq_ok_iff.mp h
  have hsize := size_decode_iff (m.word m.PC).isLt m.constant
    (m.word (m.PC + 2#16)).toNat hr.symm
  change m.current.size = m.length ↔ _ at hsize
  constructor
  · intro hagree hstray
    have hnot : ¬m.Transfers := by
      rw [Machine.Transfers, hstray.1]
      exact id
    have hpc := hagree.advance hnot
    rw [Insn.PC_exec hr.symm (mt transfers_iff.mp hnot)] at hpc
    have hlen : m.current.size = m.length := by
      rcases m.current.size_eq with h₁ | h₁ <;> rcases m.length_eq with h₂ | h₂
      · rw [h₁, h₂]
      · rw [h₁, h₂] at hpc
        bv_omega
      · rw [h₁, h₂] at hpc
        bv_omega
      · rw [h₁, h₂]
    exact hsize.mp hlen hstray
  · intro hstray
    have hlen := hsize.mpr hstray
    refine ⟨fun hnot => ?_, fun hcall => ?_⟩
    · rw [Insn.PC_exec hr.symm (mt transfers_iff.mp hnot), hlen]
    · rw [← hlen]
      rcases hcall with h8 | h9
      · have hcur : m.current = .call m.constant := by
          simp only [Machine.current, decode, h8]
        rw [hcur]
        exact m.word_pushWord_self _ _
      · have hcur : m.current = .callRel (.ofNat 8 (m.word m.PC).toNat) := by
          simp only [Machine.current, decode, h9]
        rw [hcur]
        exact m.word_pushWord_self _ _

/-- `SET R0 = 0`, which takes four bytes. -/
theorem length_agrees_set : ∃ m', emulate (cpu (oneWord 0x1000) []) = .ok 0 m' ∧
    LengthAgrees (cpu (oneWord 0x1000) []) m' := by
  have hin : InBounds (cpu (oneWord 0x1000) []) := by decide +kernel
  have hrun := emulate_of_inBounds hin
  have hcur : (cpu (oneWord 0x1000) []).current = .set 0 0 := by decide +kernel
  rw [hcur] at hrun
  refine ⟨_, hrun, (length_agrees_iff hrun).mpr ?_⟩
  decide +kernel

/-- `STORE` with an unused bit set takes two bytes when it is run, and four when it is
listed. -/
theorem not_length_agrees : ¬∀ m m' : Machine, emulate m = .ok 0 m' → LengthAgrees m m' := by
  intro hall
  let m := cpu (oneWord 0x3100) []
  have hword : m.word m.PC = 0x3100 := by decide +kernel
  have hin : InBounds m := by decide +kernel
  have hrun := emulate_of_inBounds hin
  have hcur : m.current = .storeRel .word 0 0 := by decide +kernel
  rw [hcur] at hrun
  have hnot : ¬m.Transfers := by
    rw [Machine.Transfers, hword]
    exact id
  have hpc := (hall m _ hrun).advance hnot
  have hlen : m.length = 4 := by decide +kernel
  rw [hlen] at hpc
  exact absurd hpc (by decide)

end SystemsProjects.BareMetal
