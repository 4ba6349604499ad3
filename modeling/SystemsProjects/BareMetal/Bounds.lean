import Mathlib.Data.Fintype.Basic
import Mathlib.Tactic.FinCases
import SystemsProjects.BareMetal.Decode

/-!
# What Stays Within the Machine

When one step of `emulate` keeps its indices within the memory and within `R` and its shift
counts below the width of `int`, told from the state before the step; and from it when a
whole run of the emulator does, from the start state of `runsim.c`.

A step goes wrong at single places only: a word at the last byte of memory, where the index
of its upper byte does not wrap; a `MOVE` with a field above 8, or from `SP` to itself; and
a shift by 32 or more.

## Main definitions

* `InBounds`: the step from this state stays within the machine.
* `emulateN`: so many steps, or as many as there are before the machine halts.

## Main results

* `emulate_returns_iff`: one step.
* `emulateN_returns_iff`: a run.
-/

namespace SystemsProjects.BareMetal

open Stateful

/-! ### The condition -/

/-- The word at an address ends within the memory: only the last address has none. -/
def WordAt (x : Word) : Prop := x ≠ 0xFFFF

/-- Whether an address has a word at it can be computed. -/
instance (x : Word) : Decidable (WordAt x) := inferInstanceAs (Decidable (x ≠ 0xFFFF))

/-- The jump with number `op` is taken. -/
def Taken (m : Machine) (op : ℕ) : Prop :=
  match op with
  | 0 => True
  | 1 => m.Z = 1
  | 2 => m.Z = 0
  | 3 => m.N = 1
  | 4 => m.N = 0 ∧ m.Z = 0
  | 5 => m.N = 1 ∨ m.Z = 1
  | 6 => m.N = 0
  | _ => False

/-- Whether a jump is taken can be computed from the flags. -/
instance (m : Machine) (op : ℕ) : Decidable (Taken m op) := by
  unfold Taken
  split <;> infer_instance

/-- The instruction stays within the machine: the constant behind it is in memory and so are
the words it addresses, where there are any; a `MOVE` names registers or `SP`, and not `SP`
twice; a shift is by less than 32. -/
def InsnInBounds (m : Machine) (insn : ℕ) : Prop :=
  let const := m.word (m.PC + 2#16)
  let b : Fin 8 := .ofNat 8 (insn / 8)
  match insn / 4096 with
  | 1 => WordAt (m.PC + 2#16)
  | 2 =>
      if insn / 2048 % 2 = 0 then
        WordAt (m.PC + 2#16) ∧ (insn / 1024 % 2 = 0 → WordAt const)
      else insn / 1024 % 2 = 0 → WordAt (m.R b)
  | 3 =>
      if insn / 256 = 0x30 ∨ insn / 256 = 0x34 then WordAt (m.PC + 2#16) ∧ WordAt const
      else insn / 256 ≠ 0x3C → WordAt (m.R b)
  | 4 => insn % 16 ≤ 8 ∧ insn / 16 % 16 ≤ 8 ∧ ¬ (insn % 16 = 8 ∧ insn / 16 % 16 = 8)
  | 5 => insn / 512 % 8 = 5 → (m.R b).toNat < 32
  | 6 => Taken m (insn / 512 % 8) → WordAt (m.PC + 2#16)
  | 8 => WordAt (m.SP - 2#16) ∧ WordAt (m.PC + 2#16)
  | 9 | 11 => WordAt (m.SP - 2#16)
  | 10 | 12 => WordAt m.SP
  | _ => True

/-- Whether all accesses of an instruction are in bounds can be computed. -/
instance decidableInsnInBounds (m : Machine) (insn : ℕ) : Decidable (InsnInBounds m insn) := by
  unfold InsnInBounds
  split <;> infer_instance

/-- The step from this state stays within the machine: the word at `PC` is in memory, and
the instruction it is stays within the machine. -/
def InBounds (m : Machine) : Prop :=
  WordAt m.PC ∧ InsnInBounds m (m.word m.PC).toNat

/-- So can whether the next call of `emulate` returns. -/
instance decidableInBounds (m : Machine) : Decidable (InBounds m) :=
  inferInstanceAs (Decidable (_ ∧ _))

/-! ### The primitives -/

variable {m : Machine} {x : Word}

attribute [local simp] Stateful.bind_run Stateful.map_run Stateful.pure_run

/-- Reading a word at the last address reads one byte too far. -/
theorem load2_last (h : ¬ WordAt x) : load2 x m = .error .memory m := by
  obtain rfl : x = 0xFFFF := not_not.mp h
  rfl

/-- Writing a word at the last address writes one byte, and then one too far. -/
theorem store2_last (h : ¬ WordAt x) (v : Word) :
    store2 v x m = .error .memory (m.putByte x (v.setWidth 8)) := by
  obtain rfl : x = 0xFFFF := not_not.mp h
  rfl

/-! ### The branches -/

section Branches

variable (o c b a : Fin 8)

/-- A constant is loaded from behind the instruction. -/
theorem emulateSet_returns : Returns (emulateSet a) m ↔ WordAt (m.PC + 2#16) := by
  by_cases h : WordAt (m.PC + 2#16)
  · simp [Returns, emulateSet, load2_run m h, h]
  · simp [Returns, emulateSet, load2_last h, h]

/-- A load returns if the words it reads lie in memory, the constant and the data. -/
theorem emulateLoad_returns :
    Returns (emulateLoad (fields 2 o c b a) a b) m ↔
      if (o : ℕ) / 4 = 0 then
        WordAt (m.PC + 2#16) ∧ ((o : ℕ) / 2 % 2 = 0 → WordAt (m.word (m.PC + 2#16)))
      else (o : ℕ) / 2 % 2 = 0 → WordAt (m.R b) := by
  by_cases ho : (o : ℕ) / 4 = 0
  · by_cases hb : (o : ℕ) / 2 % 2 = 0
    · by_cases h : WordAt (m.PC + 2#16)
      · by_cases hx : WordAt (m.word (m.PC + 2#16))
        · simp [Returns, emulateLoad, ho, hb, load2_run m h, load2_run m hx, h, hx]
        · simp [Returns, emulateLoad, ho, hb, load2_run m h, load2_last hx, h, hx]
      · simp [Returns, emulateLoad, ho, hb, load2_last h, h]
    · by_cases h : WordAt (m.PC + 2#16)
      · simp [Returns, emulateLoad, ho, hb, load2_run m h, h]
      · simp [Returns, emulateLoad, ho, hb, load2_last h, h]
  · by_cases hb : (o : ℕ) / 2 % 2 = 0
    · by_cases hx : WordAt (m.R b)
      · simp [Returns, emulateLoad, ho, hb, load2_run m hx, hx]
      · simp [Returns, emulateLoad, ho, hb, load2_last hx, hx]
    · simp [Returns, emulateLoad, ho, hb]

/-- The byte behind an address, which is stored to for a constant address. -/
theorem setMemoryAt_succ_last (h : ¬ WordAt x) (v : Byte) :
    setMemoryAt (x.toNat + 1) v m = .error .memory m := by
  obtain rfl : x = 0xFFFF := not_not.mp h
  rfl

/-- The second byte of a word that lies in memory is written behind the first. -/
theorem setMemoryAt_succ (h : WordAt x) (v : Byte) :
    setMemoryAt (x.toNat + 1) v m = .ok () (m.putByte (x + 1#16) v) := by
  rw [toNat_succ h, setMemoryAt_run]

/-- A store returns if its constant and the bytes it writes lie in memory; the store of a byte
writes one further. -/
theorem emulateStore_returns :
    Returns (emulateStore (fields 3 o c b a) a b) m ↔
      if 48 + (o : ℕ) * 2 + c / 4 = 48 ∨ 48 + (o : ℕ) * 2 + c / 4 = 52 then
        WordAt (m.PC + 2#16) ∧ WordAt (m.word (m.PC + 2#16))
      else 48 + (o : ℕ) * 2 + c / 4 ≠ 60 → WordAt (m.R b) := by
  obtain ⟨u, hu⟩ : ∃ u, 48 + (o : ℕ) * 2 + c / 4 = u := ⟨_, rfl⟩
  have hupper : (fields 3 o c b a &&& 0xFF00) >>> 8 = u := by
    rw [fields_upper, ← hu]
    rfl
  rw [hu]
  by_cases h30 : u = 48
  · by_cases h : WordAt (m.PC + 2#16)
    · by_cases hx : WordAt (m.word (m.PC + 2#16))
      · simp [Returns, emulateStore, hupper, h30, load2_run m h, store2_run m hx, h, hx]
      · simp [Returns, emulateStore, hupper, h30, load2_run m h, store2_last hx, h, hx]
    · simp [Returns, emulateStore, hupper, h30, load2_last h, h]
  · by_cases h34 : u = 52
    · by_cases h : WordAt (m.PC + 2#16)
      · by_cases hx : WordAt (m.word (m.PC + 2#16))
        · simp [Returns, emulateStore, hupper, h34, load2_run m h, setMemoryAt_succ hx, h, hx]
        · simp [Returns, emulateStore, hupper, h34, load2_run m h, setMemoryAt_succ_last hx, h, hx]
      · simp [Returns, emulateStore, hupper, h34, load2_last h, h]
    · by_cases h3c : u = 60
      · simp [Returns, emulateStore, hupper, h3c]
      · by_cases hx : WordAt (m.R b)
        · simp [Returns, emulateStore, hupper, h30, h34, h3c, store2_run m hx, hx]
        · simp [Returns, emulateStore, hupper, h30, h34, h3c, store2_last hx, hx]

/-- The fields of `MOVE` have four bits each, and `SP` is looked for in the destination
first. -/
theorem emulateMove_returns (insn : ℕ) :
    Returns (emulateMove insn) m ↔
      insn % 16 ≤ 8 ∧ insn / 16 % 16 ≤ 8 ∧ ¬ (insn % 16 = 8 ∧ insn / 16 % 16 = 8) := by
  have hs : insn &&& 0x0F = insn % 16 := Nat.and_two_pow_sub_one_eq_mod insn 4
  have hd : (insn >>> 4) &&& 0x0F = insn / 16 % 16 := Fields.shiftRight_and insn 4 4
  simp only [emulateMove, hs, hd]
  generalize insn % 16 = s
  generalize insn / 16 % 16 = d
  by_cases hd8 : d = 8
  · by_cases hs8 : s < 8
    · simp [Returns, hd8, reg, hs8]
      omega
    · simp [Returns, hd8, reg, hs8]
      omega
  · by_cases hs8 : s = 8
    · by_cases hd8' : d < 8
      · simp [Returns, hd8, hs8, setReg, hd8']
        omega
      · simp [Returns, hd8, hs8, setReg, hd8']
        omega
    · by_cases hs' : s < 8
      · by_cases hd' : d < 8
        · simp [Returns, hd8, hs8, reg, setReg, hs', hd']
          omega
        · simp [Returns, hd8, hs8, reg, setReg, hs', hd']
          omega
      · simp [Returns, hd8, hs8, reg, hs']
        omega

/-- Of the operations only the shift can go wrong. -/
theorem emulateAlu_returns :
    Returns (emulateAlu (fields 5 o c b a) a b c) m ↔ ((o : ℕ) = 5 → (m.R b).toNat < 32) := by
  by_cases h : (m.R b).toNat < 32
  · fin_cases o <;> simp [Returns, emulateAlu, shiftRight, h]
  · fin_cases o <;> simp [Returns, emulateAlu, shiftRight, h]

/-- The return address is stored before the target is looked up. -/
theorem emulateCall_returns (target : Exec Word) (n : ℕ) :
    Returns (emulateCall target (.ofNat 16 n)) m ↔
      WordAt (m.SP - 2#16) ∧ Returns target (m.pushWord (m.PC + .ofNat 16 n)) := by
  by_cases h : WordAt (m.SP - 2#16)
  · have hrun : emulateCall target (.ofNat 16 n) m =
        (do setPC (← target); return 0 : Exec ℕ) (m.pushWord (m.PC + .ofNat 16 n)) := by
      simp [emulateCall, store2_run _ h, Machine.pushWord]
    rw [Returns, hrun]
    cases ht : target (m.pushWord (m.PC + .ofNat 16 n)) with
    | ok x u => simp [Returns, ht, h]
    | error e u => simp [Returns, ht, h]
  · simp [Returns, emulateCall, store2_last h, h]

/-- The constant of an instruction, looked up. -/
theorem const_returns :
    Returns (do load2 ((← pc) + 2) : Exec Word) m ↔ WordAt (m.PC + 2#16) := by
  by_cases h : WordAt (m.PC + 2#16)
  · simp [Returns, load2_run m h, h]
  · simp [Returns, load2_last h, h]

/-- A register whose number is three bits exists. -/
theorem reg_returns : Returns (reg a) m := .of_ok (reg_run m a)

/-- The condition that `emulate` looks at. -/
theorem jumps_taken (op : Fin 8) : jumps op m = .ok (decide (Taken m op)) m := by
  fin_cases op <;> simp [jumps, Taken]

/-- The target of a jump is only looked up where the jump is taken. -/
theorem emulateJmp_returns (op : Fin 8) (target : Exec Word) (n : ℕ) :
    Returns (emulateJmp op target (.ofNat 16 n)) m ↔ (Taken m op → Returns target m) := by
  by_cases hop : (op : ℕ) ≥ 7
  · have hnot : ¬ Taken m op := by
      have h7 : (op : ℕ) = 7 := by omega
      rw [h7]
      exact id
    simp [Returns, emulateJmp, hop, hnot]
  · have hj := jumps_taken (m := m) op
    by_cases ht : Taken m op
    · cases hr : target m with
      | ok x u => simp [Returns, emulateJmp, hop, hj, ht, hr]
      | error e u => simp [Returns, emulateJmp, hop, hj, ht, hr]
    · simp [Returns, emulateJmp, hop, hj, ht]

/-- A return reads a word from the stack. -/
theorem emulateRet_returns : Returns emulateRet m ↔ WordAt m.SP := by
  by_cases h : WordAt m.SP
  · simp [Returns, emulateRet, load2_run m h, h]
  · simp [Returns, emulateRet, load2_last h, h]

/-- A push writes a word to the stack. -/
theorem emulatePush_returns : Returns (emulatePush a) m ↔ WordAt (m.SP - 2#16) := by
  by_cases h : WordAt (m.SP - 2#16)
  · simp [Returns, emulatePush, store2_run _ h, h]
  · simp [Returns, emulatePush, store2_last h, h]

/-- A pop reads a word from the stack. -/
theorem emulatePop_returns : Returns (emulatePop a) m ↔ WordAt m.SP := by
  by_cases h : WordAt m.SP
  · simp [Returns, emulatePop, load2_run m h, h]
  · simp [Returns, emulatePop, load2_last h, h]

/-- Input always returns: at the end of the input it has a value, too. -/
theorem emulateIn_returns : Returns (emulateIn a) m := by
  cases h : m.stdin <;> simp [Returns, emulateIn, fgetc, h]

/-- Output always returns. -/
theorem emulateOut_returns : Returns (emulateOut a) m := by
  simp [Returns, emulateOut]

end Branches

/-! ### The step -/

/-- Every word is made of its fields. -/
theorem exists_fields {insn : ℕ} (h : insn < 65536) : ∃ t o c b a, insn = fields t o c b a := by
  refine ⟨⟨insn / 4096, by omega⟩, ⟨insn / 512 % 8, by omega⟩, ⟨insn / 64 % 8, by omega⟩,
    ⟨insn / 8 % 8, by omega⟩, ⟨insn % 8, by omega⟩, ?_⟩
  simp only [fields]
  omega

/-- The instruction stays within the machine exactly where the condition says so. -/
theorem emulateInsn_returns_iff {insn : ℕ} (h : insn < 65536) :
    Returns (emulateInsn insn) m ↔ InsnInBounds m insn := by
  obtain ⟨t, o, c, b, a, rfl⟩ := exists_fields h
  simp only [InsnInBounds, emulateInsn, fields_and_f000, fields_op, fields_c, fields_b, fields_a,
    fields_div_4096, fields_div_256, fields_code, fields_indirect, fields_byte, ofNat_fields_b]
  fin_cases t
  · simp [Returns]
  · simpa using emulateSet_returns a
  · simpa using emulateLoad_returns o c b a
  · simpa using emulateStore_returns o c b a
  · simpa using emulateMove_returns (fields 4 o c b a)
  · simpa using emulateAlu_returns o c b a
  · exact (emulateJmp_returns o _ 4).trans (imp_congr_right fun _ => const_returns)
  · exact (emulateJmp_returns o _ 2).trans (by simp [reg_returns])
  · exact (emulateCall_returns _ 4).trans (and_congr_right fun _ => const_returns)
  · exact (emulateCall_returns _ 2).trans (by simp [reg_returns])
  · simpa using emulateRet_returns
  · simpa using emulatePush_returns a
  · simpa using emulatePop_returns a
  · simpa using emulateIn_returns a
  · simpa using emulateOut_returns a
  · simp [Returns]

/-- One step stays within the machine exactly where the condition says so. -/
theorem emulate_returns_iff : Returns emulate m ↔ InBounds m := by
  by_cases h : WordAt m.PC
  · have hrun : emulate m = emulateInsn (m.word m.PC).toNat m := by
      simp [emulate, load2_run m h]
    rw [Returns, hrun, InBounds, ← Returns, emulateInsn_returns_iff (m.word m.PC).isLt]
    simp [h]
  · have hrun : emulate m = .error .memory m := by
      simp [emulate, load2_last h]
    exact iff_of_false (Returns.not_of_error hrun) fun hb => h hb.1

/-! ### The run -/

/-- The state that `runsim.c` starts from, with an image in memory and an input. Registers,
flags, program counter and stack pointer are 0. -/
def cpu (image : Word → Byte) (input : List Byte) : Machine :=
  { memory := image, R := fun _ => 0, PC := 0, SP := 0xFFFE, Z := 0, N := 0
    stdin := input, stdout := [] }

/-- So many calls of `emulate`, up to the one that halts. It goes wrong where one of them does. -/
def emulateN : ℕ → Exec ℕ
  | 0 => return 0
  | n + 1 => do
      let r ← emulate
      if r = 0 then emulateN n else return r

/-- A step in front of the others. -/
theorem emulateN_succ {r : ℕ} {u : Machine} (h : emulate m = .ok r u) (n : ℕ) :
    emulateN (n + 1) m = if r = 0 then emulateN n u else .ok r u := by
  rw [emulateN, run_bind_ok h]
  split <;> rfl

/-- A run stays within the machine exactly where the condition holds before each of its
steps. -/
theorem emulateN_returns (n : ℕ) :
    Returns (emulateN n) m ↔ ∀ k < n, ∀ u, emulateN k m = .ok 0 u → InBounds u := by
  induction n generalizing m with
  | zero => exact iff_of_true .pure nofun
  | succ n ih =>
      constructor
      · intro h k hk u hu
        by_cases hm : Returns emulate m
        · obtain ⟨r, m', hrun⟩ := hm
          rw [Returns, emulateN_succ hrun] at h
          cases k with
          | zero =>
              cases hu
              exact emulate_returns_iff.mp (.of_ok hrun)
          | succ k =>
              rw [emulateN_succ hrun] at hu
              split at h
              · rw [if_pos ‹_›] at hu
                exact ih.mp h k (by omega) u hu
              · rw [if_neg ‹_›] at hu
                cases hu
                contradiction
        · obtain ⟨_, _, hbind⟩ := h
          obtain ⟨r, m', hrun, -⟩ := bind_eq_ok.mp hbind
          exact absurd (.of_ok hrun) hm
      · intro h
        obtain ⟨r, m', hrun⟩ := emulate_returns_iff.mpr (h 0 (by omega) m rfl)
        rw [Returns, emulateN_succ hrun]
        split
        · refine ih.mpr fun k hk u hu => h (k + 1) (by omega) u ?_
          rw [emulateN_succ hrun, if_pos ‹_›, hu]
        · exact ⟨r, m', rfl⟩

/-- On every image and every input, the emulator stays within the machine for a number of steps
exactly where the condition holds before each of them. The condition is about the instruction
and the registers that the step finds, not about what it does. -/
theorem emulateN_returns_iff (image : Word → Byte) (input : List Byte) (n : ℕ) :
    Returns (emulateN n) (cpu image input) ↔
      ∀ k < n, ∀ m, emulateN k (cpu image input) = .ok 0 m → InBounds m :=
  emulateN_returns n

/-- The image of `MOVE SP -> SP`. -/
def moveSpSp (x : Word) : Byte := if x = 0 then 0x88 else if x = 1 then 0x40 else 0

/-- `MOVE SP -> SP`, which the assembler takes, reads a ninth register. -/
theorem not_emulateN_returns : ¬ Returns (emulateN 1) (cpu moveSpSp []) :=
  Returns.not_of_error (e := .register) (u := cpu moveSpSp []) rfl

end SystemsProjects.BareMetal
