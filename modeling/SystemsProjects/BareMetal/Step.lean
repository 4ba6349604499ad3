import SystemsProjects.BareMetal.Bounds

/-!
# What a Step Does

The instruction that `emulate` carries out for the word at `PC`, for every word. The bits
that an instruction has no use for may be set: they are ignored, but for the unused bits of
a store, where the whole upper byte is looked at. A word that is no instruction halts, and
so does a jump with an eighth condition. A store of a byte to a constant address is carried
out for the address behind it.

## Main definitions

* `decode`: the instruction of a word.
* `Machine.current`: the one that the next step carries out.
* `Insn.destination`: where an instruction goes.

## Main results

* `emulate_eq_ok_iff`: a step carries it out, if it stays within the machine.
-/

namespace SystemsProjects.BareMetal

open Stateful

/-! ### The instruction of a word -/

/-- The width of a memory instruction, in the bit that tells bytes from words. -/
def Width.ofBit (bit : ℕ) : Width := if bit = 0 then .word else .byte

/-- The condition of a number. -/
def Cond.ofCode : ℕ → Option Cond
  | 0 => some .always
  | 1 => some .z
  | 2 => some .nz
  | 3 => some .lt
  | 4 => some .gt
  | 5 => some .le
  | 6 => some .ge
  | _ => none

/-- The operation of the ALU of a number, on the registers of its fields. -/
def aluInsn (code : ℕ) (a b c : Fin 8) : Insn Word :=
  match code with
  | 1 => .alu .sub a b c
  | 2 => .alu .and a b c
  | 3 => .alu .or a b c
  | 4 => .alu .xor a b c
  | 5 => .alu .rshift a b c
  | 6 => .cmp a b
  | 7 => .test a
  | _ => .alu .add a b c

/-- An operand of `MOVE`, in its four bits. -/
def RegSp.ofCode (code : ℕ) : RegSp := if code = 8 then .sp else .r (.ofNat 8 code)

/-- What is carried out for a word, with `x` behind it. Every word is carried out as some
instruction, also those that the assembler never writes. -/
def decode (insn : ℕ) (x : Word) : Insn Word :=
  let a : Fin 8 := .ofNat 8 insn
  let b : Fin 8 := .ofNat 8 (insn / 8)
  let c : Fin 8 := .ofNat 8 (insn / 64)
  match insn / 4096 with
  | 1 => .set a x
  | 2 =>
      if insn / 2048 % 2 = 0 then .load (.ofBit (insn / 1024 % 2)) a x
      else .loadRel (.ofBit (insn / 1024 % 2)) a b
  | 3 =>
      if insn / 256 = 0x30 then .store .word a x
      else if insn / 256 = 0x34 then .store .byte a (x + 1#16)
      else if insn / 256 = 0x3C then .storeRel .byte a b
      else .storeRel .word a b
  | 4 => .move (.ofCode (insn % 16)) (.ofCode (insn / 16 % 16))
  | 5 => aluInsn (insn / 512 % 8) a b c
  | 6 => (Cond.ofCode (insn / 512 % 8)).elim .halt (.jmp · x)
  | 7 => (Cond.ofCode (insn / 512 % 8)).elim .halt (.jmpRel · a)
  | 8 => .call x
  | 9 => .callRel a
  | 10 => .ret
  | 11 => .push a
  | 12 => .pop a
  | 13 => .input a
  | 14 => .output a
  | _ => .halt

/-- The constant behind the instruction. A `CALL` looks for it behind its push. -/
def Machine.constant (m : Machine) : Word :=
  if (m.word m.PC).toNat / 4096 = 8 then (m.pushWord (m.PC + 4#16)).word (m.PC + 2#16)
  else m.word (m.PC + 2#16)

/-- The instruction that the next step carries out, with its constant. -/
def Machine.current (m : Machine) : Insn Word := decode (m.word m.PC).toNat m.constant

/-! ### The bits without a use -/

section Ignored

variable {m : Machine} (x : Word) (o c b a : Fin 8) (w : Width)

/-- The bits of a `SET` above its register have no use. -/
theorem emulateInsn_set :
    emulateInsn (fields 1 o c b a) = emulateInsn (Insn.set a x).opcode := by
  simp [emulateInsn, Insn.opcode]

/-- A load from a constant address does not read the fields of the other registers. -/
theorem emulateInsn_load (hi : (o : ℕ) / 4 = 0) :
    emulateInsn (fields 2 o c b a) =
      emulateInsn (Insn.load (.ofBit ((o : ℕ) / 2 % 2)) a x).opcode := by
  rcases Nat.mod_two_eq_zero_or_one ((o : ℕ) / 2) with hb | hb
  · simp [emulateInsn, emulateLoad, Insn.opcode, Width.ofBit, Width.code, hi, hb]
  · simp [emulateInsn, emulateLoad, Insn.opcode, Width.ofBit, Width.code, hi, hb]

/-- A load from an address in a register reads two of the registers. -/
theorem emulateInsn_loadRel (hi : (o : ℕ) / 4 ≠ 0) :
    emulateInsn (fields 2 o c b a) =
      emulateInsn (Insn.loadRel (κ := Word) (.ofBit ((o : ℕ) / 2 % 2)) a b).opcode := by
  rcases Nat.mod_two_eq_zero_or_one ((o : ℕ) / 2) with hb | hb
  · simp [emulateInsn, emulateLoad, Insn.opcode, Width.ofBit, Width.code, hi, hb]
  · simp [emulateInsn, emulateLoad, Insn.opcode, Width.ofBit, Width.code, hi, hb]

/-- A store of a word to a constant address is told by the whole upper byte `0x30`. -/
theorem emulateInsn_store (h : (fields 3 o c b a &&& 0xFF00) >>> 8 = 0x30) :
    emulateInsn (fields 3 o c b a) = emulateInsn (Insn.store .word a x).opcode := by
  simp only [emulateInsn, fields_and_f000, fields_b, fields_a, Insn.opcode, emulateStore, h]
  simp [Width.code]

/-- A store to a constant address is told by its whole upper byte, and so is the store of a
byte through a register. All others are stores of a word through a register. -/
theorem emulateInsn_storeRel_byte (h : (fields 3 o c b a &&& 0xFF00) >>> 8 = 0x3C) :
    emulateInsn (fields 3 o c b a) =
      emulateInsn (Insn.storeRel (κ := Word) .byte a b).opcode := by
  simp only [emulateInsn, fields_and_f000, fields_b, fields_a, Insn.opcode, emulateStore, h]
  simp [Width.code]

/-- All other words of its group are stores of a word through a register, whatever their bits for
the size and the form say. -/
theorem emulateInsn_storeRel (h₀ : (fields 3 o c b a &&& 0xFF00) >>> 8 ≠ 0x30)
    (h₁ : (fields 3 o c b a &&& 0xFF00) >>> 8 ≠ 0x34)
    (h₂ : (fields 3 o c b a &&& 0xFF00) >>> 8 ≠ 0x3C) :
    emulateInsn (fields 3 o c b a) =
      emulateInsn (Insn.storeRel (κ := Word) .word a b).opcode := by
  simp only [emulateInsn, fields_and_f000, fields_b, fields_a, Insn.opcode, emulateStore, h₀,
    h₁, h₂, if_false]
  simp [Width.code]

/-- The store of a byte to a constant address is carried out for the address behind it. -/
theorem emulateInsn_store_byte (h : (fields 3 o c b a &&& 0xFF00) >>> 8 = 0x34)
    (hload : load2 (m.PC + 2#16) m = .ok x m) (hx : WordAt x) :
    emulateInsn (fields 3 o c b a) m = .ok 0 ((Insn.store .byte a (x + 1#16)).exec m) := by
  simp only [emulateInsn, fields_and_f000, fields_b, fields_a, emulateStore, h]
  simp [Stateful.bind_run, Stateful.map_run, hload, setMemoryAt_succ hx, Insn.exec, Insn.size,
    Machine.put, Machine.next]

/-- The operation is told by its three bits. With `7` it is a `TEST`, with `0` an addition. -/
theorem emulateInsn_alu :
    emulateInsn (fields 5 o c b a) = emulateInsn (aluInsn o a b c).opcode := by
  fin_cases o <;> simp [emulateInsn, emulateAlu, Insn.opcode, AluOp.code, aluInsn]

/-- A move looks at its two fields of four bits. -/
theorem emulateInsn_move {insn : ℕ} {s d : RegSp} (ht : insn / 4096 = 4)
    (hs : insn % 16 = s.code) (hd : insn / 16 % 16 = d.code) :
    emulateInsn insn = emulateInsn (Insn.move (κ := Word) s d).opcode := by
  have hf (n : ℕ) (h4 : n / 4096 = 4) : n &&& 0xF000 = 0x4000 :=
    (Fields.and_mask n 12 4).trans (by omega)
  have hlow (n : ℕ) : n &&& 0x0F = n % 16 := Nat.and_two_pow_sub_one_eq_mod n 4
  have hhigh (n : ℕ) : (n >>> 4) &&& 0x0F = n / 16 % 16 := Fields.shiftRight_and n 4 4
  have hop : (Insn.move (κ := Word) s d).opcode / 4096 = 4 := by
    simp only [Insn.opcode]
    omega
  have hops : (Insn.move (κ := Word) s d).opcode % 16 = s.code := by
    simp only [Insn.opcode]
    omega
  have hopd : (Insn.move (κ := Word) s d).opcode / 16 % 16 = d.code := by
    simp only [Insn.opcode]
    omega
  simp only [emulateInsn, hf _ ht, hf _ hop, emulateMove, hhigh, hd, hopd]
  simp only [hlow, hs, hops]

/-- A jump with an eighth condition halts. -/
theorem emulateJmp_halts (h : Cond.ofCode o = none) (target : Exec Word) (size : Word) :
    emulateJmp o target size m = .ok 1 m := by
  have ho : (o : ℕ) ≥ 7 := by
    revert h
    fin_cases o <;> simp [Cond.ofCode]
  rw [emulateJmp, if_pos ho]
  rfl

/-- The conditions of the emulator, by number and by name. -/
theorem taken_iff {cond : Cond} (h : Cond.ofCode o = some cond) : Taken m o ↔ cond.Holds m := by
  revert h
  fin_cases o <;> simp [Cond.ofCode] <;> rintro rfl <;> rfl

/-- The target of a jump is only looked for where it is taken. -/
theorem emulateJmp_eq {cond : Cond} (h : Cond.ofCode o = some cond) {target : Exec Word} (n : ℕ)
    (ht : Taken m o → target m = .ok x m) :
    emulateJmp o target (.ofNat 16 n) m =
      .ok 0 (if cond.Holds m then m.goto x else m.next n) := by
  have ho : ¬ (o : ℕ) ≥ 7 := by
    revert h
    fin_cases o <;> simp [Cond.ofCode]
  rw [emulateJmp, if_neg ho, run_bind_ok (jumps_taken o)]
  by_cases hh : Taken m o
  · rw [decide_eq_true hh, if_pos rfl, if_pos ((taken_iff o h).mp hh), run_bind_ok (ht hh)]
    rfl
  · rw [decide_eq_false hh, if_neg Bool.false_ne_true, if_neg (mt (taken_iff o h).mpr hh)]
    rfl

end Ignored

/-! ### The step -/

section Step

variable {m : Machine} {x : Word} (o c b a : Fin 8)

/-- What a step does for a word of given fields. -/
def CarriesOut (m : Machine) (insn : ℕ) (i : Insn Word) : Prop :=
  emulateInsn insn m = .ok i.result (i.exec m)

/-- A word of the loads is carried out as the load that its bits ask for. -/
theorem carriesOut_load (hload : WordAt (m.PC + 2#16) → load2 (m.PC + 2#16) m = .ok x m)
    (hb : if (o : ℕ) / 4 = 0 then WordAt (m.PC + 2#16) ∧ ((o : ℕ) / 2 % 2 = 0 → WordAt x)
      else (o : ℕ) / 2 % 2 = 0 → WordAt (m.R b)) :
    CarriesOut m (fields 2 o c b a) (if (o : ℕ) / 4 = 0 then .load (.ofBit ((o : ℕ) / 2 % 2)) a x
      else .loadRel (.ofBit ((o : ℕ) / 2 % 2)) a b) := by
  have hword : Width.ofBit ((o : ℕ) / 2 % 2) = .word → (o : ℕ) / 2 % 2 = 0 := fun h => by
    by_contra hne
    rw [Width.ofBit, if_neg hne] at h
    cases h
  by_cases hi : (o : ℕ) / 4 = 0
  · rw [if_pos hi] at hb ⊢
    rw [CarriesOut, emulateInsn_load x o c b a hi]
    exact runs_load a _ (hload hb.1) fun hw => hb.2 (hword hw)
  · rw [if_neg hi] at hb ⊢
    rw [CarriesOut, emulateInsn_loadRel o c b a hi]
    exact runs_loadRel a b _ fun hw => hb (hword hw)

/-- A word of the stores is carried out as the store that its upper byte is taken for. -/
theorem carriesOut_store (hload : WordAt (m.PC + 2#16) → load2 (m.PC + 2#16) m = .ok x m)
    {u : ℕ} (hu : 48 + (o : ℕ) * 2 + c / 4 = u)
    (hb : if u = 0x30 ∨ u = 0x34 then WordAt (m.PC + 2#16) ∧ WordAt x
      else u ≠ 0x3C → WordAt (m.R b)) :
    CarriesOut m (fields 3 o c b a) (if u = 0x30 then .store .word a x
      else if u = 0x34 then .store .byte a (x + 1#16)
      else if u = 0x3C then .storeRel .byte a b
      else .storeRel .word a b) := by
  have hupper : (fields 3 o c b a &&& 0xFF00) >>> 8 = u := by
    rw [fields_upper, ← hu]
    rfl
  by_cases h30 : u = 0x30
  · rw [if_pos (.inl h30)] at hb
    rw [if_pos h30, CarriesOut, emulateInsn_store x o c b a (hupper.trans h30)]
    exact runs_store a (hload hb.1) hb.2
  · by_cases h34 : u = 0x34
    · rw [if_pos (.inr h34)] at hb
      rw [if_neg h30, if_pos h34]
      exact emulateInsn_store_byte x o c b a (hupper.trans h34) (hload hb.1) hb.2
    · rw [if_neg (by omega)] at hb
      rw [if_neg h30, if_neg h34]
      by_cases h3c : u = 0x3C
      · rw [if_pos h3c, CarriesOut, emulateInsn_storeRel_byte o c b a (hupper.trans h3c)]
        exact runs_storeRel a b .byte fun hw => by cases hw
      · rw [if_neg h3c, CarriesOut, emulateInsn_storeRel o c b a (hupper ▸ h30) (hupper ▸ h34)
          (hupper ▸ h3c)]
        exact runs_storeRel a b .word fun _ => hb h3c

/-- `MOVE` is carried out for registers and for the stack pointer on one side. For both sides at
once the code reads behind the registers. -/
theorem carriesOut_move {insn : ℕ} (ht : insn / 4096 = 4)
    (hb : insn % 16 ≤ 8 ∧ insn / 16 % 16 ≤ 8 ∧ ¬ (insn % 16 = 8 ∧ insn / 16 % 16 = 8)) :
    CarriesOut m insn (.move (.ofCode (insn % 16)) (.ofCode (insn / 16 % 16))) := by
  have hcode (n : ℕ) (hn : n ≤ 8) : ((RegSp.ofCode n).code : ℕ) = n := by
    rw [RegSp.ofCode]
    split
    · exact (‹n = 8›).symm
    · simp only [RegSp.code, Fin.val_castLE, Fin.val_ofNat]
      omega
  have hsp (n : ℕ) (h : RegSp.ofCode n = .sp) : n = 8 := by
    by_contra hne
    rw [RegSp.ofCode, if_neg hne] at h
    cases h
  rw [CarriesOut, emulateInsn_move ht (hcode _ hb.1).symm (hcode _ hb.2.1).symm]
  exact runs_move _ _ fun h => hb.2.2 ⟨hsp _ h.1, hsp _ h.2⟩

/-- An operation is carried out where a shift is by less than 32. -/
theorem carriesOut_alu (hb : (o : ℕ) = 5 → (m.R b).toNat < 32) :
    CarriesOut m (fields 5 o c b a) (aluInsn o a b c) := by
  rw [CarriesOut, emulateInsn_alu]
  fin_cases o
  · exact runs_alu a b c .add fun h => by cases h
  · exact runs_alu a b c .sub fun h => by cases h
  · exact runs_alu a b c .and fun h => by cases h
  · exact runs_alu a b c .or fun h => by cases h
  · exact runs_alu a b c .xor fun h => by cases h
  · exact runs_alu a b c .rshift fun _ => hb rfl
  · exact runs_cmp a b
  · exact runs_test a

/-- A jump is carried out as its condition says. With condition 7 the word halts the machine. -/
theorem carriesOut_jmp (hload : WordAt (m.PC + 2#16) → load2 (m.PC + 2#16) m = .ok x m)
    (hb : Taken m o → WordAt (m.PC + 2#16)) :
    CarriesOut m (fields 6 o c b a) ((Cond.ofCode o).elim .halt (.jmp · x)) := by
  have hop : emulateInsn (fields 6 o c b a) = emulateJmp o (do load2 ((← pc) + 2)) 4 := by
    simp [emulateInsn]
  rw [CarriesOut, hop]
  cases hc : Cond.ofCode o with
  | none => exact emulateJmp_halts o hc _ _
  | some cond => exact emulateJmp_eq x o hc 4 fun ht => hload (hb ht)

/-- A jump to a register needs no constant, and so no word behind it. -/
theorem carriesOut_jmpRel :
    CarriesOut m (fields 7 o c b a) ((Cond.ofCode o).elim .halt (.jmpRel · a)) := by
  have hop : emulateInsn (fields 7 o c b a) = emulateJmp o (reg a) 2 := by simp [emulateInsn]
  rw [CarriesOut, hop]
  cases hc : Cond.ofCode o with
  | none => exact emulateJmp_halts o hc _ _
  | some cond => exact emulateJmp_eq (m.R a) o hc 2 fun _ => reg_run m a

/-- A `CALL` looks for its target behind its own push, which may have overwritten it. -/
theorem carriesOut_call (hsp : WordAt (m.SP - 2#16)) (hpc : WordAt (m.PC + 2#16))
    (hx : x = (m.pushWord (m.PC + 4#16)).word (m.PC + 2#16)) :
    CarriesOut m (fields 8 o c b a) (.call x) := by
  have hop : emulateInsn (fields 8 o c b a) = emulateInsn (Insn.call x).opcode := by
    simp [emulateInsn, Insn.opcode]
  rw [CarriesOut, hop]
  exact runs_call hsp (hx ▸ load2_run _ hpc)

/-- An instruction without a constant, of which only the register `a` is looked at. -/
theorem carriesOut_of_opcode {insn : ℕ} {i : Insn Word}
    (hop : emulateInsn insn = emulateInsn i.opcode) (hr : i.Runs m) : CarriesOut m insn i := by
  rw [CarriesOut, hop]
  exact hr

/-- **A word is carried out as it is decoded**, where that stays within the machine. -/
theorem carriesOut_decode {insn : ℕ} (hlt : insn < 65536) (hb : InsnInBounds m insn)
    (hx : x = if insn / 4096 = 8 then (m.pushWord (m.PC + 4#16)).word (m.PC + 2#16)
      else m.word (m.PC + 2#16)) : CarriesOut m insn (decode insn x) := by
  obtain ⟨t, o, c, b, a, rfl⟩ := exists_fields hlt
  have hmove : fields 4 o c b a / 4096 = 4 := fields_div_4096 4 o c b a
  simp only [InsnInBounds, fields_div_4096, fields_indirect, fields_byte, fields_code,
    fields_div_256, ofNat_fields_b] at hb
  simp only [fields_div_4096] at hx
  simp only [decode, fields_div_4096, fields_indirect, fields_byte, fields_code, fields_div_256,
    ofNat_fields_a, ofNat_fields_b, ofNat_fields_c]
  have hload (h8 : (t : ℕ) ≠ 8) (h : WordAt (m.PC + 2#16)) :
      load2 (m.PC + 2#16) m = .ok x m := by
    rw [hx, if_neg h8]
    exact load2_run m h
  fin_cases t
  · exact carriesOut_of_opcode (by simp [emulateInsn, Insn.opcode]) runs_halt
  · exact carriesOut_of_opcode (emulateInsn_set x o c b a) (runs_set a (hload (by decide) hb))
  · refine carriesOut_load o c b a (hload (by decide)) ?_
    rwa [hx]
  · refine carriesOut_store o c b a (hload (by decide)) rfl ?_
    rwa [hx]
  · exact carriesOut_move hmove hb
  · exact carriesOut_alu o c b a hb
  · exact carriesOut_jmp o c b a (hload (by decide)) hb
  · exact carriesOut_jmpRel o c b a
  · exact carriesOut_call o c b a hb.1 hb.2 hx
  · exact carriesOut_of_opcode (by simp [emulateInsn, Insn.opcode]) (runs_callRel a hb)
  · exact carriesOut_of_opcode (by simp [emulateInsn, Insn.opcode]) (runs_ret hb)
  · exact carriesOut_of_opcode (by simp [emulateInsn, Insn.opcode]) (runs_push a hb)
  · exact carriesOut_of_opcode (by simp [emulateInsn, Insn.opcode]) (runs_pop a hb)
  · exact carriesOut_of_opcode (by simp [emulateInsn, Insn.opcode]) (runs_input a)
  · exact carriesOut_of_opcode (by simp [emulateInsn, Insn.opcode]) (runs_output a)
  · exact carriesOut_of_opcode (by simp [emulateInsn, Insn.opcode]) runs_halt

/-- **A step carries out the current instruction**, if it stays within the machine. -/
theorem emulate_of_inBounds (h : InBounds m) :
    emulate m = .ok m.current.result (m.current.exec m) := by
  have hrun : emulate m = emulateInsn (m.word m.PC).toNat m := by
    simp [emulate, Stateful.bind_run, load2_run m h.1]
  rw [hrun]
  exact carriesOut_decode (m.word m.PC).isLt h.2 rfl

/-- How a step ends, and where. -/
theorem emulate_eq_ok_iff {r : ℕ} {m' : Machine} :
    emulate m = .ok r m' ↔ InBounds m ∧ r = m.current.result ∧ m' = m.current.exec m := by
  constructor
  · intro h
    have hb := emulate_returns_iff.mp (.of_ok h)
    rw [emulate_of_inBounds hb] at h
    cases h
    exact ⟨hb, rfl, rfl⟩
  · rintro ⟨hb, rfl, rfl⟩
    exact emulate_of_inBounds hb

/-- A step carries out an instruction that is known to be the current one. -/
theorem emulate_of_current {i : Insn Word} {r : ℕ} (h : InBounds m) (hi : m.current = i)
    (hr : i.result = r) : emulate m = .ok r (i.exec m) := by
  subst hi hr
  exact emulate_of_inBounds h

end Step

/-! ### Words in memory -/

/-- A word is read back where it was written. -/
theorem Machine.word_putWord (m : Machine) (x v : Word) : (m.putWord x v).word x = v := by
  have hne : x ≠ x + 1#16 := by bv_omega
  have hbits : v.extractLsb' 8 8 ++ v.setWidth 8 = v := by
    apply BitVec.eq_of_toNat_eq
    have hv := v.isLt
    rw [BitVec.toNat_append, ← Nat.shiftLeft_add_eq_or_of_lt (BitVec.isLt _)]
    simp [Nat.shiftRight_eq_div_pow, Nat.shiftLeft_eq]
    omega
  simp only [word, putWord, putByte, Function.update_self, Function.update_of_ne hne]
  exact hbits

/-- A word is on top of the stack when it has been pushed. -/
theorem Machine.word_pushWord_self (m : Machine) (v x : Word) :
    ((m.pushWord v).goto x).word ((m.pushWord v).goto x).SP = v :=
  word_putWord { m with SP := m.SP - 2#16 } (m.SP - 2#16) v

/-! ### Where a step goes -/

/-- Where the instruction goes: to its target, if it is a jump that is taken or a call, to
the address on the stack, or on behind itself. -/
def Insn.destination (m : Machine) : Insn Word → Word
  | .jmp cond x => if cond.Holds m then x else m.PC + 4#16
  | .jmpRel cond a => if cond.Holds m then m.R a else m.PC + 2#16
  | .call x => x
  | .callRel a => m.R a
  | .ret => m.word m.SP
  | i => m.PC + .ofNat 16 i.size

/-- A step that does not halt leads to the destination of the instruction. -/
theorem Insn.PC_exec_eq {i : Insn Word} {m : Machine} (hr : i.result = 0) :
    (i.exec m).PC = i.destination m := by
  cases i with
  | halt => cases hr
  | store w a x => cases w <;> rfl
  | storeRel w a b => cases w <;> rfl
  | move s d => cases d <;> rfl
  | jmp cond x =>
      change (if cond.Holds m then _ else _ : Machine).PC = if cond.Holds m then _ else _
      rw [apply_ite Machine.PC]
      rfl
  | jmpRel cond a =>
      change (if cond.Holds m then _ else _ : Machine).PC = if cond.Holds m then _ else _
      rw [apply_ite Machine.PC]
      rfl
  | input a =>
      simp only [exec, Machine.readInto]
      split <;> rfl
  | _ => rfl

/-- An image of one word. -/
def oneWord (insn : Word) (x : Word) : Byte :=
  if x = 0 then insn.setWidth 8 else if x = 1 then insn.extractLsb' 8 8 else 0

end SystemsProjects.BareMetal
