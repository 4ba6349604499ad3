import SystemsProjects.BareMetal.Decode
import SystemsProjects.BareMetal.Encode

/-!
# Assembler and Emulator Agree

A line of the assembler and the instruction that the emulator carries out for its bytes.
The bytes of a line are those that `do_line` stores and, where its label is not known yet,
those that its fixup puts over them once the symbol table is complete.

## Main definitions

* `Denotes`: what a constant of a line means.
* `PointsAt`: the machine is about to run the bytes of a line.

## Main results

* `PointsAt.at_`: the bytes of a line are the instruction that is written.
* `emulate_written`: one call of `emulate` on them does what is written.
-/

namespace SystemsProjects.BareMetal

/-- The constant `n` of a line stands for `x`: it is a number, a label that is defined when
the line is read, or one that the complete symbol table has. -/
def Denotes (a : Asm) (symtab : String → Option ℕ) (n : String) (x : Word) : Prop :=
  if isIdentifier n then (a.symtab n).or (symtab n) = some x.toNat
  else pyInt n = pure x.toNat

/-- The program counter is at the bytes that `line` has become, read in state `a`, once the
fixups it asks for are made with the complete symbol table. -/
def PointsAt (m : Machine) (a : Asm) (symtab : String → Option ℕ) (line : List String) : Prop :=
  ∃ a' image, doLine line a = .ok () a' ∧
    applyFixups (a'.fixups.drop a.fixups.length) { a' with symtab := symtab } = .ok () image ∧
    m.PC.toNat = a.currentAddr ∧
    ∀ k, a.currentAddr ≤ k → k < a'.currentAddr →
      (m.memory (.ofNat 16 k)).toNat = image.memory k

/-! ### The image of a line -/

/-- A constant is stored at once, or it is left to a fixup at its place. -/
theorem value_cases {a : Asm} {symtab : String → Option ℕ} {n : String} {x : Word}
    (h : Denotes a symtab n x) (b : Asm) (hb : b.symtab = a.symtab) :
    value n b = .ok x.toNat b ∨
      symtab n = some x.toNat ∧
        value n b = .ok 0 { b with fixups := b.fixups ++ [(n, b.currentAddr)] } := by
  rw [Denotes] at h
  cases hi : isIdentifier n with
  | false =>
      rw [hi] at h
      simp at h
      simp [value, hi, h, Stateful.pure_run]
  | true =>
      rw [hi] at h
      simp at h
      cases hs : a.symtab n with
      | some v => simp_all [value]
      | none => simp_all [value]

/-- What the finished image has for a line: its words at its address, with the labels at their
values. -/
structure Image (i : Insn Word) (p q : ℕ) (image : Asm) : Prop where
  size : q = p + i.size
  fits : p + i.size ≤ 65536
  low : image.memory p = i.opcode &&& 0xFF
  high : image.memory (p + 1) = i.opcode >>> 8
  constLow : ∀ x ∈ i.const, image.memory (p + 2) = x.toNat &&& 0xFF
  constHigh : ∀ x ∈ i.const, image.memory (p + 3) = x.toNat >>> 8

variable {i : Insn String} {a a' image : Asm} {symtab : String → Option ℕ} {val : String → Word}

/-- The image of a line without a constant. -/
theorem Image.of_none (hc : i.const = none) (hlt : a.currentAddr + 1 < 65536)
    (hm : image.memory = (a.putWord a.currentAddr i.opcode).memory) :
    Image (i.map val) a.currentAddr (a.currentAddr + 2) image := by
  have hsize : (i.map val).size = 2 := by rw [Insn.size_map, Insn.size_of_const_none hc]
  have hconst : (i.map val).const = none := by rw [Insn.const_map, hc, Option.map_none]
  constructor
  · rw [hsize]
  · omega
  · simp [hm, Asm.putWord, Insn.opcode_map]
  · simp [hm, Asm.putWord, Insn.opcode_map]
  · simp [hconst]
  · simp [hconst]

/-- The image of a line with a constant. -/
theorem Image.of_some {n : String} (hc : i.const = some n) (hlt : a.currentAddr + 3 < 65536)
    (hm : image.memory = ((a.putWord a.currentAddr i.opcode).putWord (a.currentAddr + 2)
      (val n).toNat).memory) :
    Image (i.map val) a.currentAddr (a.currentAddr + 4) image := by
  have hsize : (i.map val).size = 4 := by rw [Insn.size_map, Insn.size_of_const hc]
  have hconst : (i.map val).const = some (val n) := by rw [Insn.const_map, hc, Option.map_some]
  constructor
  · rw [hsize]
  · omega
  · simp [hm, Asm.putWord, Insn.opcode_map]
    omega
  · simp [hm, Asm.putWord, Insn.opcode_map]
  · simp [hm, hconst, Asm.putWord]
  · simp [hm, hconst, Asm.putWord]

/-- The words of an instruction and the fixup they ask for make its image. -/
theorem image_of_emit (hval : ∀ n ∈ i.const, Denotes a symtab n (val n))
    (hrun : emitInsn i a = .ok () a')
    (hfix : applyFixups (a'.fixups.drop a.fixups.length) { a' with symtab := symtab } =
      .ok () image) : Image (i.map val) a.currentAddr a'.currentAddr image := by
  cases hc : i.const with
  | none =>
      have hr : storeInsn i.opcode a = .ok () a' := by simpa [emitInsn, hc] using hrun
      obtain ⟨hlt, rfl⟩ := storeInsn_ok hr
      refine Image.of_none hc hlt ?_
      simp [Asm.next, Asm.putWord, applyFixups, Stateful.pure_run] at hfix
      rw [← hfix]
      rfl
  | some n =>
      have hr : (storeInsn i.opcode >>= fun _ => value n >>= storeInsn) a = .ok () a' := by
        simpa [emitInsn, hc] using hrun
      obtain ⟨_, b, h₁, h₂⟩ := Stateful.bind_eq_ok.mp hr
      obtain ⟨v, c, hv, h₃⟩ := Stateful.bind_eq_ok.mp h₂
      obtain ⟨hlt, rfl⟩ := storeInsn_ok h₁
      obtain ⟨hlt', rfl⟩ := storeInsn_ok h₃
      rcases value_cases (hval n hc) (a.next i.opcode) rfl with e | ⟨hs, e⟩
      · -- the constant is known: no fixup is asked for
        obtain ⟨rfl, rfl⟩ : (val n).toNat = v ∧ a.next i.opcode = c := by
          simpa using e.symm.trans hv
        refine Image.of_some hc hlt' ?_
        simp [Asm.next, Asm.putWord, applyFixups, Stateful.pure_run] at hfix
        rw [← hfix]
        rfl
      · -- the label comes later: a zero is stored, and the fixup puts the address over it
        obtain ⟨rfl, rfl⟩ : 0 = v ∧
            { a.next i.opcode with
              fixups := (a.next i.opcode).fixups ++ [(n, (a.next i.opcode).currentAddr)] } = c := by
          simpa using e.symm.trans hv
        refine Image.of_some hc hlt' ?_
        simp [Asm.next, Asm.putWord, applyFixups, Stateful.bind_run, symbol, hs] at hfix
        rw [storeWord_ok hfix]
        funext k
        simp only [Asm.putWord]
        split_ifs <;> rfl

/-! ### The bytes in memory -/

variable {m : Machine} {line : List String}

/-- The value of a word in memory, from those of its two bytes. -/
theorem Machine.word_toNat (x : Word) :
    (m.word x).toNat = (m.memory (x + 1#16)).toNat * 256 + (m.memory x).toNat := by
  have h := Nat.shiftLeft_add_eq_or_of_lt (m.memory x).isLt (m.memory (x + 1#16)).toNat
  rw [word, BitVec.toNat_append, ← h, Nat.shiftLeft_eq]

/-- Two bytes of an image are one word in memory. -/
theorem word_of_image {x : Word} {v : ℕ} {low high : ℕ} (hl : (m.memory x).toNat = low)
    (hh : (m.memory (x + 1#16)).toNat = high) (el : low = v &&& 0xFF) (eh : high = v >>> 8) :
    (m.word x).toNat = v := by
  have hv : v &&& 0xFF = v % 256 := Nat.and_two_pow_sub_one_eq_mod v 8
  rw [Machine.word_toNat, hl, hh, el, eh, hv, Nat.shiftRight_eq_div_pow]
  omega

/-- The bytes of a line are the instruction that is written. -/
theorem PointsAt.at_ (hm : PointsAt m a symtab line) (hi : Written line i)
    (hval : ∀ n ∈ i.const, Denotes a symtab n (val n)) : (i.map val).At m := by
  obtain ⟨a', image, hrun, hfix, hpc, hbytes⟩ := hm
  rw [hi.doLine_eq] at hrun
  have himage := image_of_emit hval hrun hfix
  have hsize := himage.size
  -- the bytes of the image by their distance from the program counter
  have hat (k : ℕ) (hk : k < (i.map val).size) :
      (m.memory (m.PC + .ofNat 16 k)).toNat = image.memory (a.currentAddr + k) := by
    rw [← hbytes (a.currentAddr + k) (by omega) (by omega), BitVec.ofNat_add, ← hpc,
      BitVec.ofNat_toNat, BitVec.setWidth_eq]
  have htwo := (i.map val).two_le_size
  refine ⟨?_, ?_, fun x hx => ?_⟩
  · rw [hpc]
    exact himage.fits
  · refine word_of_image ?_ (hat 1 (by omega)) himage.low himage.high
    simpa using hat 0 (by omega)
  · have hfour := Insn.size_of_const hx
    refine BitVec.eq_of_toNat_eq (word_of_image (hat 2 (by omega)) ?_ (himage.constLow x hx)
      (himage.constHigh x hx))
    have e : m.PC + 2#16 + 1#16 = m.PC + 3#16 := by bv_omega
    rw [e]
    exact hat 3 (by omega)

/-- One call of `emulate`, at the bytes of a line, does what the line is written to do, and
nothing else. The line is any of the instruction lines of the table, with its labels at any
addresses; the step must stay within the memory and must not push over the bytes of the line. -/
theorem emulate_written (hi : Written line i)
    (hval : ∀ n ∈ i.const, Denotes a symtab n (val n)) (hm : PointsAt m a symtab line)
    (hs : (i.map val).Supported m) (hw : ∀ x ∈ (i.map val).words m, x.toNat ≤ 0xFFFE)
    (hp : ∀ x ∈ i.pushes m, x ∉ i.bytes m) :
    emulate m = .ok i.result ((i.map val).exec m) := by
  have hw' : ∀ x ∈ (i.map val).words m, x ≠ 0xFFFF := by
    rintro x hx rfl
    exact absurd (hw _ hx) (by decide)
  have hp' : ∀ x ∈ (i.map val).pushes m, x ∉ (i.map val).bytes m := by
    rwa [Insn.pushes_map, Insn.bytes_map]
  rw [emulate_spec (hm.at_ hi hval) hs hw' hp', Insn.result_map]

/-! ### Rows of the table -/

/-- `zerocpu` of `test.c`. -/
def zerocpu : Machine :=
  { memory := fun _ => 0, R := fun _ => 0, PC := 0, SP := 0, Z := 0, N := 0
    stdin := [], stdout := [] }

/-- The globals of the assembler before its first line. -/
def blank : Asm := ⟨fun _ => none, 0, fun _ => 0, []⟩

/-- An instruction at address 0. -/
def atZero (i : Insn Word) : Machine :=
  (zerocpu.putWord 0 (.ofNat 16 i.opcode)).putWord 2 (i.const.getD 0)

/-- The four bytes of the memory of such a machine. -/
theorem memory_atZero (i : Insn Word) :
    ((atZero i).memory 0).toNat = i.opcode &&& 0xFF ∧
      ((atZero i).memory 1).toNat = i.opcode >>> 8 ∧
      ((atZero i).memory 2).toNat = (i.const.getD 0).toNat &&& 0xFF ∧
      ((atZero i).memory 3).toNat = (i.const.getD 0).toNat >>> 8 := by
  have hlt := i.opcode_lt
  have hconst := (i.const.getD 0).isLt
  have hand (v : ℕ) : v &&& 0xFF = v % 256 := Nat.and_two_pow_sub_one_eq_mod v 8
  simp only [hand, Nat.shiftRight_eq_div_pow]
  refine ⟨?_, ?_, ?_, ?_⟩ <;>
    simp [atZero, Machine.putWord, Machine.putByte, Nat.shiftRight_eq_div_pow] <;> omega

/-- The line of an instruction whose constant is a number is what the machine is about to run. -/
theorem pointsAt_atZero (hi : Written line i)
    (hnum : ∀ n ∈ i.const, value n = pure (val n).toNat) :
    PointsAt (atZero (i.map val)) blank blank.symtab line := by
  obtain ⟨h₀, h₁, h₂, h₃⟩ := memory_atZero (i.map val)
  rw [Insn.opcode_map] at h₀ h₁
  rw [Insn.const_map] at h₂ h₃
  cases hc : i.const with
  | none =>
      refine ⟨blank.next i.opcode, blank.next i.opcode, ?_, rfl, rfl, fun k _ hk => ?_⟩
      · rw [hi.doLine_eq]
        simp [emitInsn, hc, storeInsn, Stateful.bind_run, currentAddr, setMemory, setCurrentAddr,
          Asm.next, Asm.putWord, blank]
        rfl
      · have hk' : k < 2 := hk
        rcases k with _ | _ | k
        · exact h₀
        · exact h₁
        · omega
  | some n =>
      rw [hc] at h₂ h₃
      refine ⟨(blank.next i.opcode).next (val n).toNat, (blank.next i.opcode).next (val n).toNat,
        ?_, rfl, rfl, fun k _ hk => ?_⟩
      · rw [hi.doLine_eq]
        simp [emitInsn, hc, hnum n hc, storeInsn, Stateful.bind_run, currentAddr, setMemory,
          setCurrentAddr, Asm.next, Asm.putWord, blank]
        rfl
      · have hk' : k < 4 := hk
        rcases k with _ | _ | _ | _ | k
        · exact h₀
        · exact h₁
        · exact h₂
        · exact h₃
        · omega

/-- The number in the lines below. -/
def number (_ : String) : Word := 0x1234

/-- It is what their constants stand for. -/
theorem denotes_number (hc : ∀ n ∈ i.const, n = "0x1234") :
    ∀ n ∈ i.const, Denotes blank blank.symtab n (number n) := by
  intro n hn
  rw [hc n hn]
  rfl

/-- So a machine with such a line at address 0 is about to run it. -/
theorem pointsAt_number (hc : ∀ n ∈ i.const, n = "0x1234") (hi : Written line i) :
    PointsAt (atZero (i.map number)) blank blank.symtab line :=
  pointsAt_atZero hi fun n hn => by
    rw [hc n hn]
    rfl

/-- The instruction is carried out at address 0 as it is written. -/
def Insn.Performed (i : Insn String) : Prop :=
  emulate (atZero (i.map number)) = .ok i.result ((i.map number).exec (atZero (i.map number)))

/-- What is pushed there does not reach the instruction. -/
theorem pushes_atZero {κ : Type} {i : Insn κ} {j : Insn Word} :
    ∀ x ∈ i.pushes (atZero j), x ∉ i.bytes (atZero j) := by
  intro x hx hmem
  obtain ⟨k, hk, rfl⟩ := List.mem_map.mp hmem
  have hsize : i.size ≤ 4 := by cases i <;> simp [Insn.size]
  have hlt := List.mem_range.mp hk
  cases i <;> simp [Insn.pushes, atZero, zerocpu, Machine.putWord, Machine.putByte] at hx hlt <;>
    bv_omega

/-- Lines with a constant and without one, for every kind of instruction. -/
theorem emulate_written_rows :
    (Insn.set 1 "0x1234").Performed ∧ (Insn.load .byte 2 "0x1234").Performed ∧
      (Insn.storeRel .word 3 0).Performed ∧ (Insn.move (.r 1) .sp).Performed ∧
      (Insn.alu .sub 1 2 3).Performed ∧ (Insn.cmp 1 2).Performed ∧
      (Insn.jmp .z "0x1234").Performed ∧ (Insn.call "0x1234").Performed ∧ Insn.ret.Performed ∧
      (Insn.push 4).Performed ∧ (Insn.output 5).Performed ∧ Insn.halt.Performed := by
  have hn : IsConst "0x1234" := .inl (by decide)
  have hone : ∀ n ∈ some "0x1234", n = "0x1234" := fun _ h => (Option.mem_some_iff.mp h).symm
  have hnone : ∀ n ∈ (none : Option String), n = "0x1234" := fun _ h => by cases h
  have hword {x : Word} (h : x.toNat ≤ 0xFFFE) : ∀ y ∈ [x], y.toNat ≤ 0xFFFE :=
    List.forall_mem_singleton.mpr h
  have hempty {P : Word → Prop} : ∀ x ∈ ([] : List Word), P x := fun _ h => by cases h
  refine ⟨?_, ?_, ?_, ?_, ?_, ?_, ?_, ?_, ?_, ?_, ?_, ?_⟩
  · have hi := Written.set 1 hn
    exact emulate_written hi (denotes_number hone) (pointsAt_number hone hi) trivial hempty hempty
  · have hi := Written.load .byte 2 hn
    exact emulate_written hi (denotes_number hone) (pointsAt_number hone hi) trivial hempty hempty
  · have hi := Written.storeRel .word 3 0
    exact emulate_written hi (denotes_number hnone) (pointsAt_number hnone hi)
      trivial (hword (by decide)) hempty
  · have hi := Written.move (.r 1) .sp
    exact emulate_written hi (denotes_number hnone) (pointsAt_number hnone hi)
      (by simp [Insn.Supported, Insn.map]) hempty hempty
  · have hi := Written.alu .sub 1 2 3
    exact emulate_written hi (denotes_number hnone) (pointsAt_number hnone hi)
      (by simp [Insn.Supported, Insn.map]) hempty hempty
  · have hi := Written.cmp 1 2
    exact emulate_written hi (denotes_number hnone) (pointsAt_number hnone hi) trivial hempty hempty
  · have hi := Written.jmp .z hn
    exact emulate_written hi (denotes_number hone) (pointsAt_number hone hi) trivial hempty hempty
  · have hi := Written.call hn
    exact emulate_written hi (denotes_number hone) (pointsAt_number hone hi)
      trivial (hword (by decide)) pushes_atZero
  · have hi := Written.ret
    exact emulate_written hi (denotes_number hnone) (pointsAt_number hnone hi)
      trivial (hword (by decide)) hempty
  · have hi := Written.push 4
    exact emulate_written hi (denotes_number hnone) (pointsAt_number hnone hi)
      trivial (hword (by decide)) pushes_atZero
  · have hi := Written.output 5
    exact emulate_written hi (denotes_number hnone) (pointsAt_number hnone hi) trivial hempty hempty
  · have hi := Written.halt
    exact emulate_written hi (denotes_number hnone) (pointsAt_number hnone hi) trivial hempty hempty

end SystemsProjects.BareMetal
