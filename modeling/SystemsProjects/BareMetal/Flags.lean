import SystemsProjects.BareMetal.Step
import SystemsProjects.Library.Runs

/-!
# Flags and Jumps

The flags of the CPU are C `int`s that the jumps compare with 0 and with 1. From a state in
which both are 0, every step leaves them 0 or 1, and never both 1, so that jumps which are
written to exclude each other do. A comparison sets them so that the jumps behind it agree
with the order of the signed values, as long as their difference is a signed value too.

## Main definitions

* `Reaches`: the states that calls of `emulate` lead to.
* `Machine.FlagsConsistent`, `Machine.Exclusive`: what holds of the flags.
* `Machine.Compared`: what the jumps tell after a comparison.

## Main results

* `jumps_consistent`: flags, jumps and comparisons in every state of a run.
-/

namespace SystemsProjects.BareMetal

/-- Calls of `emulate` lead from one state to the other. None of them goes wrong, and what they
return does not matter. -/
def Reaches : Machine → Machine → Prop :=
  Relation.ReflTransGen fun m m' => ∃ r, emulate m = .ok r m'

/-! ### The flags -/

/-- The flags are 0 or 1, and not both 1. -/
def Machine.FlagsConsistent (m : Machine) : Prop :=
  (m.Z = 0 ∨ m.Z = 1) ∧ (m.N = 0 ∨ m.N = 1) ∧ ¬(m.Z = 1 ∧ m.N = 1)

/-- Zero has no sign. -/
theorem flags_consistent (m : Machine) (res : Word) : (m.flags res).FlagsConsistent := by
  by_cases h : res = 0
  · subst h
    exact ⟨.inr rfl, .inl rfl, fun h => absurd h.2 zero_ne_one⟩
  · have hz : (m.flags res).Z = 0 := if_neg h
    refine ⟨.inl hz, ?_, fun h => absurd (hz.symm.trans h.1) zero_ne_one⟩
    cases hm : res.msb with
    | true => exact .inr (if_pos hm)
    | false => exact .inl (if_neg (hm ▸ Bool.false_ne_true))

/-- An instruction sets both flags from a result, or leaves them as they are. -/
theorem Insn.flags_exec (i : Insn Word) (m : Machine) :
    ((i.exec m).Z = m.Z ∧ (i.exec m).N = m.N) ∨
      ∃ (m' : Machine) (res : Word), (i.exec m).Z = (m'.flags res).Z ∧
        (i.exec m).N = (m'.flags res).N := by
  cases i with
  | alu op a b c => exact .inr ⟨m, op.apply (m.R a) (m.R b), rfl, rfl⟩
  | cmp a b => exact .inr ⟨m, m.R a - m.R b, rfl, rfl⟩
  | test a => exact .inr ⟨m, m.R a, rfl, rfl⟩
  | store w a x => cases w <;> exact .inl ⟨rfl, rfl⟩
  | storeRel w a b => cases w <;> exact .inl ⟨rfl, rfl⟩
  | move s d => cases d <;> exact .inl ⟨rfl, rfl⟩
  | jmp cond x =>
      simp only [exec]
      split <;> exact .inl ⟨rfl, rfl⟩
  | jmpRel cond a =>
      simp only [exec]
      split <;> exact .inl ⟨rfl, rfl⟩
  | input a =>
      simp only [exec, Machine.readInto]
      split <;> exact .inl ⟨rfl, rfl⟩
  | _ => exact .inl ⟨rfl, rfl⟩

/-- A step keeps the flags consistent. -/
theorem flagsConsistent_step {m m' : Machine} {r : ℕ} (hm : m.FlagsConsistent)
    (h : emulate m = .ok r m') : m'.FlagsConsistent := by
  obtain ⟨-, -, rfl⟩ := emulate_eq_ok_iff.mp h
  rcases m.current.flags_exec m with ⟨hz, hn⟩ | ⟨m₁, res, hz, hn⟩
  · rw [Machine.FlagsConsistent, hz, hn]
    exact hm
  · rw [Machine.FlagsConsistent, hz, hn]
    exact flags_consistent m₁ res

/-- The flags are consistent all along a run that starts with both at 0. -/
theorem Reaches.flagsConsistent {m₀ m : Machine} (h : Reaches m₀ m) (hz : m₀.Z = 0)
    (hn : m₀.N = 0) : m.FlagsConsistent := by
  refine Runs.invariant_of_run h ⟨.inl hz, .inl hn, fun h => ?_⟩ fun x y hx hs => ?_
  · exact absurd (hz.symm.trans h.1) zero_ne_one
  · obtain ⟨r, hr⟩ := hs
    exact flagsConsistent_step hx hr

/-! ### The jumps -/

/-- Jumps that are written to exclude each other do, and one of each set is taken. -/
structure Machine.Exclusive (m : Machine) : Prop where
  lt_ge : Cond.lt.Holds m ↔ ¬Cond.ge.Holds m
  gt_le : Cond.gt.Holds m ↔ ¬Cond.le.Holds m
  z_nz : Cond.z.Holds m ↔ ¬Cond.nz.Holds m
  trichotomy : ∃! cond, cond ∈ [Cond.lt, .z, .gt] ∧ cond.Holds m

/-- Flags that come from a result make exactly one of the conditions true, and its opposite false.
-/
theorem Machine.FlagsConsistent.exclusive {m : Machine} (h : m.FlagsConsistent) :
    m.Exclusive := by
  obtain ⟨hz, hn, hzn⟩ := h
  have hlt : Cond.lt.Holds m ↔ m.N = 1 := Iff.rfl
  have hge : Cond.ge.Holds m ↔ m.N = 0 := Iff.rfl
  have hgt : Cond.gt.Holds m ↔ m.N = 0 ∧ m.Z = 0 := Iff.rfl
  have hle : Cond.le.Holds m ↔ m.N = 1 ∨ m.Z = 1 := Iff.rfl
  have hzero : Cond.z.Holds m ↔ m.Z = 1 := Iff.rfl
  have hnz : Cond.nz.Holds m ↔ m.Z = 0 := Iff.rfl
  refine ⟨?_, ?_, ?_, ?_⟩
  · rw [hlt, hge]
    omega
  · rw [hgt, hle]
    omega
  · rw [hzero, hnz]
    omega
  rcases hn with hn | hn
  · rcases hz with hz | hz
    · refine ⟨.gt, ⟨by decide, hgt.mpr ⟨hn, hz⟩⟩, fun cond hc => ?_⟩
      cases cond <;> simp_all
    · refine ⟨.z, ⟨by decide, hzero.mpr hz⟩, fun cond hc => ?_⟩
      cases cond <;> simp_all
  · refine ⟨.lt, ⟨by decide, hlt.mpr hn⟩, fun cond hc => ?_⟩
    cases cond <;> simp_all

/-- A condition is recovered from its code. -/
theorem Cond.ofCode_code (cond : Cond) : Cond.ofCode cond.code = some cond := by
  cases cond <;> rfl

/-- A jump to a constant, with whatever bits below its condition. -/
theorem decode_jmp {insn : ℕ} {cond : Cond} (h : insn / 512 = 6 * 8 + cond.code) (x : Word) :
    decode insn x = .jmp cond x := by
  have ht : insn / 4096 = 6 := by omega
  have ho : insn / 512 % 8 = cond.code := by omega
  simp only [decode, ht, ho, Cond.ofCode_code, Option.elim_some]

/-- A jump to a register. -/
theorem decode_jmpRel {insn : ℕ} {cond : Cond} (h : insn / 512 = 7 * 8 + cond.code) (x : Word) :
    decode insn x = .jmpRel cond (.ofNat 8 insn) := by
  have ht : insn / 4096 = 7 := by omega
  have ho : insn / 512 % 8 = cond.code := by omega
  simp only [decode, ht, ho, Cond.ofCode_code, Option.elim_some]

/-- A comparison. -/
theorem decode_cmp {insn : ℕ} (h : insn / 512 = 5 * 8 + 6) (x : Word) :
    decode insn x = .cmp (.ofNat 8 insn) (.ofNat 8 (insn / 8)) := by
  have ht : insn / 4096 = 5 := by omega
  have ho : insn / 512 % 8 = 6 := by omega
  simp only [decode, ht, ho, aluInsn]

/-! ### Comparisons -/

/-- The jumps tell how two words compare: whether they are equal, and, if their difference
is a signed value, how their signed values are ordered. -/
def Machine.Compared (m : Machine) (v w : Word) : Prop :=
  (Cond.z.Holds m ↔ v = w) ∧
    (-32768 ≤ v.toInt - w.toInt → v.toInt - w.toInt ≤ 32767 →
      (Cond.lt.Holds m ↔ v.toInt < w.toInt) ∧ (Cond.le.Holds m ↔ v.toInt ≤ w.toInt) ∧
        (Cond.gt.Holds m ↔ w.toInt < v.toInt) ∧ (Cond.ge.Holds m ↔ w.toInt ≤ v.toInt))

/-- The sign of a difference that does not overflow. -/
theorem msb_sub {v w : Word} (hl : -32768 ≤ v.toInt - w.toInt)
    (hu : v.toInt - w.toInt ≤ 32767) : (v - w).msb = true ↔ v.toInt < w.toInt := by
  have hsub : (v - w).toInt = v.toInt - w.toInt := by
    rw [BitVec.toInt_sub]
    exact Int.bmod_eq_of_le (by omega) (by omega)
  rw [BitVec.msb_eq_toInt, decide_eq_true_iff, hsub]
  omega

/-- The zero flag tells whether the result is zero. -/
theorem flags_Z (m : Machine) (res : Word) :
    ((m.flags res).Z = 1 ↔ res = 0) ∧ ((m.flags res).Z = 0 ↔ res ≠ 0) := by
  rw [Machine.flags]
  by_cases h : res = 0 <;> simp [h]

/-- The negative flag tells the sign bit of the result. -/
theorem flags_N (m : Machine) (res : Word) :
    ((m.flags res).N = 1 ↔ res.msb = true) ∧ ((m.flags res).N = 0 ↔ ¬res.msb = true) := by
  rw [Machine.flags]
  by_cases h : res.msb <;> simp [h]

/-- Behind a comparison the flags tell how the two numbers compare. -/
theorem compared_flags (m : Machine) (v w : Word) : (m.flags (v - w)).Compared v w := by
  obtain ⟨hz₁, hz₀⟩ := flags_Z m (v - w)
  obtain ⟨hn₁, hn₀⟩ := flags_N m (v - w)
  have heq : v - w = 0 ↔ v = w := by
    constructor
    · intro h
      bv_omega
    · rintro rfl
      exact BitVec.sub_self v
  rw [heq] at hz₁
  rw [ne_eq, heq] at hz₀
  refine ⟨hz₁, fun hl hu => ?_⟩
  have hmsb := msb_sub hl hu
  have hint : v = w ↔ v.toInt = w.toInt := BitVec.toInt_inj.symm
  rw [hmsb] at hn₁ hn₀
  rw [hint] at hz₁ hz₀
  refine ⟨hn₁, (or_congr hn₁ hz₁).trans ?_, (and_congr hn₀ hz₀).trans ?_, hn₀.trans ?_⟩
  · omega
  · omega
  · omega

/-! ### Runs -/

/-- **Flags, jumps and comparisons.** In every state of a run from `Z = N = 0`, the flags
are 0 or 1 and not both 1, and jumps that are written to exclude each other do. A step at a
jump goes to its target or on to the next instruction, by its condition, and a step at a
comparison lets the jumps tell how the two registers compare. -/
theorem jumps_consistent {m₀ m : Machine} (hz : m₀.Z = 0) (hn : m₀.N = 0)
    (h : Reaches m₀ m) :
    m.FlagsConsistent ∧ m.Exclusive ∧
      ∀ r m', emulate m = .ok r m' →
        (∀ cond : Cond, (m.word m.PC).toNat / 512 = 6 * 8 + cond.code →
          r = 0 ∧ m' = if cond.Holds m then m.goto (m.word (m.PC + 2#16)) else m.next 4) ∧
        (∀ cond : Cond, (m.word m.PC).toNat / 512 = 7 * 8 + cond.code →
          r = 0 ∧ m' = if cond.Holds m then m.goto (m.R (.ofNat 8 (m.word m.PC).toNat))
            else m.next 2) ∧
        ((m.word m.PC).toNat / 512 = 5 * 8 + 6 →
          r = 0 ∧ m'.Compared (m.R (.ofNat 8 (m.word m.PC).toNat))
            (m.R (.ofNat 8 ((m.word m.PC).toNat / 8)))) := by
  have hflags := h.flagsConsistent hz hn
  refine ⟨hflags, hflags.exclusive, fun r m' hrun => ?_⟩
  obtain ⟨-, rfl, rfl⟩ := emulate_eq_ok_iff.mp hrun
  refine ⟨fun cond hc => ?_, fun cond hc => ?_, fun hc => ?_⟩
  · have hcur : m.current = .jmp cond (m.word (m.PC + 2#16)) := by
      have h8 : (m.word m.PC).toNat / 4096 ≠ 8 := by omega
      rw [Machine.current, decode_jmp hc, Machine.constant, if_neg h8]
    rw [hcur]
    exact ⟨rfl, rfl⟩
  · rw [Machine.current, decode_jmpRel hc]
    exact ⟨rfl, rfl⟩
  · rw [Machine.current, decode_cmp hc]
    exact ⟨rfl, compared_flags m _ _⟩

/-- The image of `CMP R0 - R1`, and behind it `JMP_Z *R0`. -/
def cmpJump (x : Word) : Byte :=
  if x = 0 then 0x08 else if x = 1 then 0x5C else if x = 3 then 0x72 else 0

/-- The comparison of two zeros is followed by a jump that is taken. -/
theorem jumps_consistent_cmp : ∃ m m', Reaches (cpu cmpJump []) m ∧ emulate m = .ok 0 m' ∧
    m.Exclusive ∧ m' = m.goto (m.R 0) := by
  let m := { cpu cmpJump [] with PC := 2, Z := 1 }
  have hstep : emulate (cpu cmpJump []) = .ok 0 m := rfl
  have hin : InBounds m := by decide +kernel
  have hcur : m.current = .jmpRel .z 0 := by decide +kernel
  have hjump := emulate_of_inBounds hin
  have h := jumps_consistent rfl rfl (.single ⟨0, hstep⟩)
  have htaken : Cond.z.Holds m := rfl
  rw [hcur] at hjump
  refine ⟨m, _, .single ⟨0, hstep⟩, hjump, h.2.1, ?_⟩
  rw [((h.2.2 0 _ hjump).2.1 .z (by decide +kernel)).2, if_pos htaken]
  rfl

end SystemsProjects.BareMetal
