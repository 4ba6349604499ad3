import Mathlib.Data.Fin.Basic
import SystemsProjects.BareMetal.Isa
import SystemsProjects.Library.Fields

/-!
# What the Emulator Decodes

With an instruction in memory at `PC`, `emulate` takes its fields out of the word it loads
and does what the instruction set says. Each branch has its own lemma, for the opcode in
its field form; the masks of the source are divisions and remainders there.

## Main definitions

* `Insn.At`: the instruction is in memory at `PC`.
* `Insn.Supported`: it is one that `emulate` carries out as written.

## Main results

* `emulate_spec`: the two definitions of an instruction agree.
-/

namespace SystemsProjects.BareMetal

/-! ### The fields of a word -/

section Masks

variable (t : Fin 16) (o c b a : Fin 8)

/-- The first of the five fields selects the kind of instruction. -/
theorem fields_div_4096 : fields t o c b a / 4096 = t := by
  rw [fields]
  omega

/-- The upper byte has the first two fields and one bit of the third. -/
theorem fields_div_256 : fields t o c b a / 256 = t * 16 + o * 2 + c / 4 := by
  rw [fields]
  omega

/-- The second field is the operation, the condition, or the form of an access. -/
theorem fields_code : fields t o c b a / 512 % 8 = o := by
  rw [fields]
  omega

/-- Its upper bit tells the form with a register from the one with a constant. -/
theorem fields_indirect : fields t o c b a / 2048 % 2 = o / 4 := by
  rw [fields]
  omega

/-- Its middle bit tells a byte from a word. -/
theorem fields_byte : fields t o c b a / 1024 % 2 = (o : ℕ) / 2 % 2 := by
  rw [fields]
  omega

/-- The last field is the number of the first register. -/
theorem ofNat_fields_a : Fin.ofNat 8 (fields t o c b a) = a := by
  apply Fin.ext
  simp only [Fin.ofNat, fields]
  omega

/-- The field before it is that of the second. -/
theorem ofNat_fields_b : Fin.ofNat 8 (fields t o c b a / 8) = b := by
  apply Fin.ext
  simp only [Fin.ofNat, fields]
  omega

/-- And the one before that is that of the third. -/
theorem ofNat_fields_c : Fin.ofNat 8 (fields t o c b a / 64) = c := by
  apply Fin.ext
  simp only [Fin.ofNat, fields]
  omega

/-- The instruction code. -/
@[simp] theorem fields_and_f000 : fields t o c b a &&& 0xF000 = t * 4096 := by
  have h : fields t o c b a &&& 0xF000 = fields t o c b a / 4096 % 16 * 4096 :=
    Fields.and_mask _ 12 4
  rw [h, fields_div_4096, Nat.mod_eq_of_lt t.isLt]

/-- The operation of the ALU, where it stands. -/
@[simp] theorem fields_and_0e00 : fields t o c b a &&& 0x0E00 = o * 512 := by
  have h : fields t o c b a &&& 0x0E00 = fields t o c b a / 512 % 8 * 512 :=
    Fields.and_mask _ 9 3
  rw [h, fields_code]

/-- The flag of an address in a register. -/
@[simp] theorem fields_and_0800 : fields t o c b a &&& 0x0800 = o / 4 * 2048 := by
  have h : fields t o c b a &&& 0x0800 = fields t o c b a / 2048 % 2 * 2048 :=
    Fields.and_mask _ 11 1
  rw [h, fields_indirect]

/-- The flag of a byte. -/
@[simp] theorem fields_and_0400 : fields t o c b a &&& 0x0400 = o / 2 % 2 * 1024 := by
  have h : fields t o c b a &&& 0x0400 = fields t o c b a / 1024 % 2 * 1024 :=
    Fields.and_mask _ 10 1
  rw [h, fields_byte]

/-- The upper byte, which `STORE` looks at. -/
@[simp] theorem fields_upper :
    (fields t o c b a &&& 0xFF00) >>> 8 = t * 16 + o * 2 + c / 4 := by
  have h : fields t o c b a &&& 0xFF00 = fields t o c b a / 256 % 256 * 256 :=
    Fields.and_mask _ 8 8
  rw [h, Nat.shiftRight_eq_div_pow, fields_div_256]
  omega

/-- The field `op`. -/
@[simp] theorem fields_op : (fields t o c b a >>> 9) &&& 7 = o := by
  have h : (fields t o c b a >>> 9) &&& 7 = fields t o c b a / 512 % 8 :=
    Fields.shiftRight_and _ 9 3
  rw [h, fields_code]

/-- The field `c`. -/
@[simp] theorem fields_c : (fields t o c b a >>> 6) &&& 7 = c := by
  have h : (fields t o c b a >>> 6) &&& 7 = fields t o c b a / 64 % 8 :=
    Fields.shiftRight_and _ 6 3
  exact h.trans (congrArg Fin.val (ofNat_fields_c t o c b a))

/-- The field `b`. -/
@[simp] theorem fields_b : (fields t o c b a >>> 3) &&& 7 = b := by
  have h : (fields t o c b a >>> 3) &&& 7 = fields t o c b a / 8 % 8 :=
    Fields.shiftRight_and _ 3 3
  exact h.trans (congrArg Fin.val (ofNat_fields_b t o c b a))

/-- The field `a`. -/
@[simp] theorem fields_a : fields t o c b a &&& 7 = a := by
  have h : fields t o c b a &&& 7 = fields t o c b a % 8 :=
    Nat.and_two_pow_sub_one_eq_mod _ 3
  exact h.trans (congrArg Fin.val (ofNat_fields_a t o c b a))

end Masks

/-! ### The primitives -/

attribute [local simp] Stateful.bind_run Stateful.map_run Stateful.pure_run

section Primitives

variable (m : Machine)

/-- Reading a register. -/
@[simp] theorem reg_run (a : Fin 8) : reg a m = .ok (m.R a) m := by
  simp [reg]

/-- Writing a register. -/
@[simp] theorem setReg_run (a : Fin 8) (v : Word) :
    setReg a v m = .ok () (m.putReg a v) := by
  simp [setReg, Machine.putReg]

/-- Reading the program counter. -/
@[simp] theorem pc_run : pc m = .ok m.PC m := rfl

/-- Writing the program counter. -/
@[simp] theorem setPC_run (v : Word) : setPC v m = .ok () (m.goto v) := rfl

/-- Reading the stack pointer. -/
@[simp] theorem sp_run : sp m = .ok m.SP m := rfl

/-- Writing the stack pointer. -/
@[simp] theorem setSP_run (v : Word) : setSP v m = .ok () { m with SP := v } := rfl

/-- Reading a byte at an address, which is always in memory. -/
@[simp] theorem memoryAt_run (x : Word) : memoryAt x.toNat m = .ok (m.memory x) m := by
  simp [memoryAt, x.isLt]

/-- Writing a byte at an address. -/
@[simp] theorem setMemoryAt_run (x : Word) (v : Byte) :
    setMemoryAt x.toNat v m = .ok () (m.putByte x v) := by
  simp [setMemoryAt, x.isLt, Machine.putByte]

/-- Writing a byte to the output. -/
@[simp] theorem fputc_run (v : Word) : fputc v m = .ok () (m.write (v.setWidth 8)) := rfl

/-- The sign bit that the source masks out. -/
theorem and_8000_ne_zero (v : Word) : v &&& 0x8000 ≠ 0 ↔ v.msb = true := by
  have h : (v &&& 0x8000).toNat = v.toNat / 32768 % 2 * 32768 := by
    rw [BitVec.toNat_and]
    exact Fields.and_mask _ 15 1
  have hlt := v.isLt
  rw [BitVec.msb_eq_decide, decide_eq_true_iff, ne_eq, ← BitVec.toNat_inj, h]
  change ¬ _ = 0 ↔ 32768 ≤ v.toNat
  omega

/-- Both flags are set from a result. -/
@[simp] theorem setFlags_run (v : Word) : setFlags v m = .ok () (m.flags v) := by
  simp only [setFlags, Machine.flags, and_8000_ne_zero]

/-- The test of a jump is its condition. -/
@[simp] theorem jumps_run (cond : Cond) :
    jumps cond.code m = .ok (decide (cond.Holds m)) m := by
  cases cond <;> rfl

/-- Below the last address, the index of the upper byte is the next address. -/
theorem toNat_succ {x : Word} (h : x ≠ 0xFFFF) : x.toNat + 1 = (x + 1#16).toNat := by
  have hx : x.toNat ≠ 0xFFFF := fun e => h (BitVec.eq_of_toNat_eq e)
  have := x.isLt
  rw [BitVec.toNat_add]
  change _ = (x.toNat + 1) % 65536
  omega

/-- The mask of a byte that is stored. -/
@[simp] theorem and_00ff (v : Byte) : v &&& 255#8 = v :=
  BitVec.and_allOnes

/-- A word from its bytes. -/
theorem word_of_bytes (high low : Byte) :
    low.setWidth 16 ||| high.setWidth 16 <<< 8 = high ++ low := by
  apply BitVec.eq_of_toNat_eq
  have hh : high.toNat < 256 := high.isLt
  have hl : low.toNat < 256 := low.isLt
  rw [BitVec.toNat_append, BitVec.toNat_or, BitVec.toNat_shiftLeft, BitVec.toNat_setWidth,
    BitVec.toNat_setWidth, Nat.mod_eq_of_lt (by omega), Nat.mod_eq_of_lt (by omega),
    Nat.shiftLeft_eq, Nat.mod_eq_of_lt (by omega), Nat.or_comm, Nat.shiftLeft_eq]

/-- The upper byte of a word. -/
theorem upper_byte (v : Word) : (v >>> 8).setWidth 8 = v.extractLsb' 8 8 := by
  apply BitVec.eq_of_toNat_eq
  simp [Nat.shiftRight_eq_div_pow]

/-- Reading a word that does not begin at the last address. -/
theorem load2_run {x : Word} (h : x ≠ 0xFFFF) : load2 x m = .ok (m.word x) m := by
  rw [load2, toNat_succ h]
  simp only [Stateful.bind_run, memoryAt_run, Stateful.pure_run, Machine.word]
  rw [word_of_bytes]

/-- Writing a word that does not begin at the last address. -/
theorem store2_run {x : Word} (h : x ≠ 0xFFFF) (v : Word) :
    store2 v x m = .ok () (m.putWord x v) := by
  rw [store2, toNat_succ h]
  simp only [Stateful.bind_run, setMemoryAt_run, Machine.putWord, upper_byte]

end Primitives

/-! ### The branches -/

section Branches

/-- The opcode of the instruction is decoded and carried out as written. -/
def Insn.Runs (i : Insn Word) (m : Machine) : Prop :=
  emulateInsn i.opcode m = .ok i.result (i.exec m)

variable {m : Machine} {x : Word} (a b c : Fin 8)

/-- `SET` is carried out as written. -/
theorem runs_set (h : load2 (m.PC + 2#16) m = .ok x m) : (Insn.set a x).Runs m := by
  simp [Insn.Runs, Insn.opcode, Insn.exec, Insn.size, Insn.result, emulateInsn, emulateSet, h,
    Machine.next]

/-- `LOAD` and `LOAD.B` from a constant address are carried out as written. -/
theorem runs_load (w : Width) (h : load2 (m.PC + 2#16) m = .ok x m)
    (hx : w = .word → x ≠ 0xFFFF) : (Insn.load w a x).Runs m := by
  simp only [Insn.Runs, Insn.opcode, Insn.exec, Insn.size, Insn.result, Machine.next]
  cases w with
  | word =>
      simp [emulateInsn, emulateLoad, Width.code, h, load2_run m (hx rfl), Machine.fetch]
  | byte => simp [emulateInsn, emulateLoad, Width.code, h, Machine.fetch]

/-- So are the loads through a register. -/
theorem runs_loadRel (w : Width) (hx : w = .word → m.R b ≠ 0xFFFF) :
    (Insn.loadRel w a b).Runs m := by
  simp only [Insn.Runs, Insn.opcode, Insn.exec, Insn.size, Insn.result, Machine.next]
  cases w with
  | word => simp [emulateInsn, emulateLoad, Width.code, load2_run m (hx rfl), Machine.fetch]
  | byte => simp [emulateInsn, emulateLoad, Width.code, Machine.fetch]

/-- `STORE` to a constant address is carried out as written; `STORE.B` is not. -/
theorem runs_store (h : load2 (m.PC + 2#16) m = .ok x m) (hx : x ≠ 0xFFFF) :
    (Insn.store .word a x).Runs m := by
  simp [Insn.Runs, Insn.opcode, Insn.exec, Insn.size, Insn.result, Width.code, emulateInsn,
    emulateStore, h, store2_run m hx, Machine.put, Machine.next]

/-- The stores through a register are carried out as written. -/
theorem runs_storeRel (w : Width) (hx : w = .word → m.R b ≠ 0xFFFF) :
    (Insn.storeRel w a b).Runs m := by
  simp only [Insn.Runs, Insn.opcode, Insn.exec, Insn.size, Insn.result, Machine.next]
  cases w with
  | word => simp [emulateInsn, emulateStore, Width.code, store2_run m (hx rfl), Machine.put]
  | byte => simp [emulateInsn, emulateStore, Width.code, Machine.put]

/-- Away from `SP` to itself. That move reads a ninth register, since the source looks at
the destination first. -/
theorem runs_move (s d : RegSp) (h : ¬ (s = .sp ∧ d = .sp)) : (Insn.move s d).Runs m := by
  have ht : (4 * 4096 + d.code * 16 + s.code : ℕ) &&& 0xF000 = 0x4000 := by
    have e := Fields.and_mask (4 * 4096 + d.code * 16 + s.code) 12 4
    exact e.trans (by omega)
  have hd : ((4 * 4096 + d.code * 16 + s.code : ℕ) >>> 4) &&& 0x0F = d.code := by
    have e := Fields.shiftRight_and (4 * 4096 + d.code * 16 + s.code) 4 4
    exact e.trans (by omega)
  have hs : (4 * 4096 + d.code * 16 + s.code : ℕ) &&& 0x0F = s.code := by
    have e := Nat.and_two_pow_sub_one_eq_mod (4 * 4096 + d.code * 16 + s.code) 4
    exact e.trans (by omega)
  -- a register field is below 8, so that both tests of the source miss it
  have hr (i : Fin 8) : (i : ℕ) ≠ 8 := i.isLt.ne
  have hv (i : Fin 8) : ((RegSp.r i).code : ℕ) = i := rfl
  have h8 : (RegSp.sp.code : ℕ) = 8 := rfl
  simp only [Insn.Runs, Insn.opcode, Insn.exec, Insn.size, Insn.result, Machine.next,
    emulateInsn, ht, emulateMove, hd, hs]
  cases d with
  | r i =>
      cases s with
      | r j => simp [hr, hv, Machine.regSp, Machine.putRegSp]
      | sp => simp [hr, hv, h8, Machine.regSp, Machine.putRegSp]
  | sp =>
      cases s with
      | r j => simp [hv, h8, Machine.regSp, Machine.putRegSp]
      | sp => simp at h

/-- The operations with a result are carried out as written, up to shifts by 32 or more. -/
theorem runs_alu (op : AluOp) (h : op = .rshift → (m.R b).toNat < 32) :
    (Insn.alu op a b c).Runs m := by
  simp only [Insn.Runs, Insn.opcode, Insn.exec, Insn.size, Insn.result, Machine.next]
  cases op <;> simp [emulateInsn, emulateAlu, AluOp.code, AluOp.apply, shiftRight, h]

/-- `CMP` sets the flags from a difference, and stores nothing. -/
theorem runs_cmp : (Insn.cmp a b).Runs m := by
  simp [Insn.Runs, Insn.opcode, Insn.exec, Insn.size, Insn.result, emulateInsn, emulateAlu,
    Machine.next]

/-- `TEST` sets the flags from a register. -/
theorem runs_test : (Insn.test a).Runs m := by
  simp [Insn.Runs, Insn.opcode, Insn.exec, Insn.size, Insn.result, emulateInsn, emulateAlu,
    Machine.next]

/-- The jumps in their two forms, which differ in where the target is and in length. -/
theorem emulateJmp_run (cond : Cond) {target : Exec Word} (h : target m = .ok x m) (n : ℕ) :
    emulateJmp cond.code target (.ofNat 16 n) m =
      .ok 0 (if cond.Holds m then m.goto x else m.next n) := by
  have hop : ¬ (cond.code : ℕ) ≥ 7 := by cases cond <;> decide
  by_cases hc : cond.Holds m
  · simp [emulateJmp, hop, hc, h]
  · simp [emulateJmp, hop, hc, Machine.next]

/-- The jumps to a constant address are carried out as written. -/
theorem runs_jmp (cond : Cond) (h : load2 (m.PC + 2#16) m = .ok x m) :
    (Insn.jmp cond x).Runs m := by
  have ht : (do load2 ((← pc) + 2) : Exec Word) m = .ok x m := by simpa using h
  simpa [Insn.Runs, Insn.opcode, Insn.exec, Insn.size, Insn.result, emulateInsn]
    using emulateJmp_run cond ht 4

/-- So are the jumps through a register. -/
theorem runs_jmpRel (cond : Cond) : (Insn.jmpRel cond a).Runs m := by
  simpa [Insn.Runs, Insn.opcode, Insn.exec, Insn.size, Insn.result, emulateInsn]
    using emulateJmp_run cond (reg_run m a) 2

/-- The calls in their two forms. The target is found behind the push. -/
theorem emulateCall_run {target : Exec Word} (n : ℕ) (hsp : m.SP - 2#16 ≠ 0xFFFF)
    (h : target (m.pushWord (m.PC + .ofNat 16 n)) =
      .ok x (m.pushWord (m.PC + .ofNat 16 n))) :
    emulateCall target (.ofNat 16 n) m =
      .ok 0 ((m.pushWord (m.PC + .ofNat 16 n)).goto x) := by
  simp only [Machine.pushWord] at h ⊢
  simp [emulateCall, store2_run _ hsp, h]

/-- `CALL` pushes the address behind itself first, and reads its own constant afterwards. -/
theorem runs_call (hsp : m.SP - 2#16 ≠ 0xFFFF)
    (h : load2 (m.PC + 2#16) (m.pushWord (m.PC + 4#16)) = .ok x (m.pushWord (m.PC + 4#16))) :
    (Insn.call x).Runs m := by
  have ht : (do load2 ((← pc) + 2) : Exec Word) (m.pushWord (m.PC + 4#16)) =
      .ok x (m.pushWord (m.PC + 4#16)) := by
    simp only [Stateful.bind_run, pc_run]
    exact h
  simpa [Insn.Runs, Insn.opcode, Insn.exec, Insn.size, Insn.result, emulateInsn]
    using emulateCall_run 4 hsp ht

/-- So does `CALL` through a register. -/
theorem runs_callRel (hsp : m.SP - 2#16 ≠ 0xFFFF) : (Insn.callRel a).Runs m := by
  have hr : (m.pushWord (m.PC + 2#16)).R a = m.R a := rfl
  simpa [Insn.Runs, Insn.opcode, Insn.exec, Insn.size, Insn.result, emulateInsn, hr]
    using emulateCall_run 2 hsp (reg_run _ a)

/-- `RET` takes the return address from the stack. -/
theorem runs_ret (h : m.SP ≠ 0xFFFF) : (Insn.ret).Runs m := by
  simp [Insn.Runs, Insn.opcode, Insn.exec, Insn.result, emulateInsn, emulateRet,
    load2_run m h, Machine.dropWord, Machine.goto]

/-- `PUSH` is carried out as written. -/
theorem runs_push (h : m.SP - 2#16 ≠ 0xFFFF) : (Insn.push a).Runs m := by
  simp [Insn.Runs, Insn.opcode, Insn.exec, Insn.size, Insn.result, emulateInsn, emulatePush,
    store2_run _ h, Machine.next, Machine.pushWord]

/-- `POP` is carried out as written. -/
theorem runs_pop (h : m.SP ≠ 0xFFFF) : (Insn.pop a).Runs m := by
  simp [Insn.Runs, Insn.opcode, Insn.exec, Insn.size, Insn.result, emulateInsn, emulatePop,
    load2_run m h, Machine.dropWord, Machine.putReg, Machine.next]

/-- `IN` reads a byte, or -1 at the end. -/
theorem runs_input : (Insn.input a).Runs m := by
  simp only [Insn.Runs, Insn.opcode, Insn.exec, Insn.size, Insn.result, Machine.next]
  cases h : m.stdin with
  | nil => simp [emulateInsn, emulateIn, fgetc, h, Machine.readInto]
  | cons b rest => simp [emulateInsn, emulateIn, fgetc, h, Machine.readInto]

/-- `OUT` writes the low byte of a register. -/
theorem runs_output : (Insn.output a).Runs m := by
  simp [Insn.Runs, Insn.opcode, Insn.exec, Insn.size, Insn.result, emulateInsn, emulateOut,
    Machine.next]

/-- `HALT` changes nothing. -/
theorem runs_halt : (Insn.halt).Runs m := by
  simp [Insn.Runs, Insn.opcode, Insn.exec, Insn.result, emulateInsn]

end Branches

/-! ### The instruction -/

namespace Insn

variable {κ : Type}

/-- The instruction is in memory at `PC`. -/
structure At (i : Insn Word) (m : Machine) : Prop where
  fits : m.PC.toNat + i.size ≤ 65536
  opcode : (m.word m.PC).toNat = i.opcode
  const : ∀ x ∈ i.const, m.word (m.PC + 2#16) = x

/-- The instruction is one that is carried out as written: not the store of a byte to a
constant address, the move of `SP` to itself, or a shift by 32 or more. -/
def Supported (m : Machine) : Insn Word → Prop
  | store w _ _ => w ≠ .byte
  | move s d => ¬ (s = .sp ∧ d = .sp)
  | alu op _ b _ => op = .rshift → (m.R b).toNat < 32
  | set .. | load .. | loadRel .. | storeRel .. | cmp .. | test .. | jmp .. | jmpRel ..
  | call .. | callRel .. | ret | halt | push .. | pop .. | input .. | output .. => True

namespace At

variable {m : Machine} {i : Insn Word} {x : Word}

/-- The first word is what is decoded. -/
theorem emulate_eq (h : i.At m) : emulate m = emulateInsn i.opcode m := by
  have hpc : m.PC ≠ 0xFFFF := by
    have hfits := h.fits
    have := i.two_le_size
    bv_omega
  simp [emulate, load2_run m hpc, h.opcode]

/-- The constant ends within the memory. -/
theorem const_ne (h : i.At m) (hx : i.const = some x) : m.PC + 2#16 ≠ 0xFFFF := by
  have hfits := h.fits
  rw [size_of_const hx] at hfits
  bv_omega

/-- The constant is loaded from behind the first word. -/
theorem load_const (h : i.At m) (hx : i.const = some x) :
    load2 (m.PC + 2#16) m = .ok x m := by
  rw [load2_run m (h.const_ne hx), h.const x hx]

end At

end Insn

/-- A push leaves the words it does not overlap. -/
theorem Machine.word_pushWord {m : Machine} {x v : Word}
    (h : ∀ y ∈ [m.SP - 2#16, m.SP - 1#16], y ≠ x ∧ y ≠ x + 1#16) :
    (m.pushWord v).word x = m.word x := by
  obtain ⟨h₁, h₂⟩ := h (m.SP - 2#16) (by simp)
  obtain ⟨h₃, h₄⟩ := h (m.SP - 1#16) (by simp)
  have e : m.SP - 2#16 + 1#16 = m.SP - 1#16 := by bv_omega
  simp only [word, pushWord, putWord, putByte, e]
  rw [Function.update_of_ne h₄.symm, Function.update_of_ne h₂.symm,
    Function.update_of_ne h₃.symm, Function.update_of_ne h₁.symm]

variable {m : Machine} {i : Insn Word}

/-- **One call of `emulate`.** It carries out the instruction at `PC`, where its words lie in
memory and what it pushes does not change the instruction itself. -/
theorem emulate_spec (h : i.At m) (hs : i.Supported m) (hw : ∀ x ∈ i.words m, x ≠ 0xFFFF)
    (hp : ∀ x ∈ i.pushes m, x ∉ i.bytes m) : emulate m = .ok i.result (i.exec m) := by
  rw [h.emulate_eq]
  change i.Runs m
  cases i with
  | set a x => exact runs_set a (h.load_const rfl)
  | load w a x =>
      refine runs_load a w (h.load_const rfl) ?_
      rintro rfl
      exact hw x (by simp [Insn.words, Width.words])
  | loadRel w a b =>
      refine runs_loadRel a b w ?_
      rintro rfl
      exact hw _ (by simp [Insn.words, Width.words])
  | store w a x =>
      cases w with
      | word =>
          exact runs_store a (h.load_const rfl) (hw x (by simp [Insn.words, Width.words]))
      | byte => exact absurd rfl hs
  | storeRel w a b =>
      refine runs_storeRel a b w ?_
      rintro rfl
      exact hw _ (by simp [Insn.words, Width.words])
  | move s d => exact runs_move s d hs
  | alu op a b c => exact runs_alu a b c op hs
  | cmp a b => exact runs_cmp a b
  | test a => exact runs_test a
  | jmp cond x => exact runs_jmp cond (h.load_const rfl)
  | jmpRel cond a => exact runs_jmpRel a cond
  | call x =>
      refine runs_call (hw _ (by simp [Insn.words])) ?_
      have hkept : (m.pushWord (m.PC + 4#16)).word (m.PC + 2#16) = m.word (m.PC + 2#16) := by
        refine Machine.word_pushWord fun y hy => ?_
        have hy' := hp y hy
        constructor
        · rintro rfl
          exact hy' (List.mem_map.mpr ⟨2, by simp [Insn.size], rfl⟩)
        · rintro rfl
          exact hy' (List.mem_map.mpr ⟨3, by simp [Insn.size], by bv_omega⟩)
      rw [load2_run _ (h.const_ne rfl), hkept, h.const x rfl]
  | callRel a => exact runs_callRel a (hw _ (by simp [Insn.words]))
  | ret => exact runs_ret (hw _ (by simp [Insn.words]))
  | halt => exact runs_halt
  | push a => exact runs_push a (hw _ (by simp [Insn.words]))
  | pop a => exact runs_pop a (hw _ (by simp [Insn.words]))
  | input a => exact runs_input a
  | output a => exact runs_output a

end SystemsProjects.BareMetal
