import SystemsProjects.BareMetal.TwoPass
import SystemsProjects.Library.Patches

/-!
# Label Resolution

The script goes over the lines once: a label that is defined further up is looked up, and for
one that comes later a zero is stored and a fixup noted. Its image is the one of the two-pass
assembler.

The invariant is that, with the pending fixups made, the memory is the image of the statements
read so far. The addresses that are used are those of the whole program, which is why a label
that is referred to may be defined only once.

## Main definitions

* `Asm.Holds`: the memory and the fixups stand for an image.
* `Asm.Reached`: so far the statements of a program have been read.

## Main results

* `Reads.run`: one call of `do_line` adds the bytes of its statement.
* `Asm.Reached.mainLoop_run`: so does the main loop for a program.
* `image_eq_twoPass`: the image that is written.
-/

namespace SystemsProjects.BareMetal

open Stateful

variable {address : String → ℕ} {a : Asm} {done : List ℕ}

/-! ### The image so far -/

/-- The fixups as patches. -/
def Asm.pending (address : String → ℕ) (a : Asm) : List (ℕ × List ℕ) :=
  a.fixups.map fun f => (f.2, wordCells (address f.1))

/-- With its fixups made, the memory is the image `done`. What is pending is a zero until then. -/
structure Asm.Holds (address : String → ℕ) (done : List ℕ) (a : Asm) : Prop where
  here : a.currentAddr = done.length
  built : Patches.Built 0 done (a.pending address) a.memory

/-- A word that is put into memory is two cells written one after the other. -/
theorem Asm.putWord_memory (a : Asm) (addr v : ℕ) :
    (a.putWord addr v).memory = Patches.write addr (wordCells v) a.memory := by
  funext k
  have hlow : v &&& 0xFF = v % 256 := Nat.and_two_pow_sub_one_eq_mod v 8
  have hhigh : v >>> 8 = v / 256 := Nat.shiftRight_eq_div_pow v 8
  simp only [putWord, Patches.write_apply, hlow, hhigh]
  by_cases hk : addr ≤ k
  · obtain ⟨j, rfl⟩ := Nat.exists_eq_add_of_le hk
    rw [if_pos hk, Nat.add_sub_cancel_left]
    match j with
    | 0 => simp [wordCells]
    | 1 => simp [wordCells]
    | j + 2 => simp [wordCells]
  · rw [if_neg hk, if_neg (by omega), if_neg (by omega)]

/-- `store_insn` puts a word at the current address and goes on behind it. -/
theorem storeInsn_run (v : ℕ) (h : a.currentAddr + 1 < 65536) :
    storeInsn v a = .ok () (a.next v) := by
  have h' : a.currentAddr < 65536 := by omega
  simp [storeInsn, bind_run, currentAddr, setMemory, setCurrentAddr, h, h', Asm.next,
    Asm.putWord]

/-- The state behind a byte at the current address. -/
def Asm.nextByte (a : Asm) (v : ℕ) : Asm :=
  { a with
    memory := fun k => if k = a.currentAddr then v else a.memory k
    currentAddr := a.currentAddr + 1 }

/-- A directive that puts one byte at the current address goes on behind it. -/
theorem storeByte_run {β : Type} (v : ℕ) (x : Py β) (h : a.currentAddr < 65536) :
    (do
      setMemory (← currentAddr) v
      setCurrentAddr ((← currentAddr) + 1)
      x) a = x (a.nextByte v) := by
  simp [bind_run, currentAddr, setMemory, setCurrentAddr, h, Asm.nextByte]

namespace Asm.Holds

/-- At the start no memory has been written. -/
theorem start : Asm.start.Holds address [] :=
  ⟨rfl, .nil⟩

/-- A word more in memory is two cells more that the second pass lays out. -/
theorem next (h : a.Holds address done) (v : ℕ) :
    (a.next v).Holds address (done ++ wordCells v) := by
  constructor
  · rw [List.length_append, ← h.here]
    rfl
  · have hb := h.built.write (wordCells v)
    rw [← h.here, ← putWord_memory] at hb
    exact hb

/-- A word that is left to a fixup. -/
theorem leave (h : a.Holds address done) (l : String) :
    Asm.Holds address (done ++ wordCells (address l))
      ({ a with fixups := a.fixups ++ [(l, a.currentAddr)] }.next 0) := by
  constructor
  · rw [List.length_append, ← h.here]
    rfl
  · have hlen : (wordCells 0).length = (wordCells (address l)).length := rfl
    have hb := h.built.leave hlen
    rw [← h.here, ← putWord_memory] at hb
    have hp : a.pending address ++ [(a.currentAddr, wordCells (address l))] =
        pending address { a with fixups := a.fixups ++ [(l, a.currentAddr)] } := by
      rw [pending, pending, List.map_append]
      rfl
    rw [hp] at hb
    exact hb

/-- A byte more in memory is a cell more that the second pass lays out. -/
theorem nextByte (h : a.Holds address done) (v : ℕ) :
    (a.nextByte v).Holds address (done ++ [v]) := by
  constructor
  · rw [List.length_append, ← h.here]
    rfl
  · have hb := h.built.write [v]
    have hm : (a.nextByte v).memory = Patches.write done.length [v] a.memory := by
      funext k
      rw [Patches.write_apply, ← h.here]
      by_cases hk : k = a.currentAddr
      · subst hk
        simp [Asm.nextByte]
      · by_cases hle : a.currentAddr ≤ k
        · rw [if_pos hle, List.getElem?_eq_none (by simp; omega)]
          exact if_neg hk
        · rw [if_neg hle]
          exact if_neg hk
    rw [← hm] at hb
    exact hb

/-- Cells that are skipped are zero. -/
theorem skip (h : a.Holds address done) (n : ℕ) :
    Asm.Holds address (done ++ List.replicate n 0)
      { a with currentAddr := a.currentAddr + n } := by
  refine ⟨?_, h.built.skip n⟩
  rw [List.length_append, List.length_replicate, ← h.here]

end Asm.Holds

/-! ### One statement -/

/-- What the script stores for a constant. -/
def Operand.find : Operand → Py ℕ
  | .number n => pure n
  | .label l => BareMetal.value l

/-- An identifier does not begin with a digit. -/
theorem not_identifier_of_isDigit {c : Char} (h : c.isDigit = true) :
    (c.isAlpha || c = '_') = false := by
  have hne : c ≠ '_' := by
    rintro rfl
    exact absurd h (by decide)
  simp only [Char.isDigit, Bool.and_eq_true, decide_eq_true_eq, UInt32.le_iff_toNat_le,
    ge_iff_le] at h
  have halpha : c.isAlpha = (decide (65 ≤ c.val ∧ c.val ≤ 90) ||
      decide (97 ≤ c.val) && decide (c.val ≤ 122)) := rfl
  simp only [halpha, hne, decide_false, Bool.or_false, Bool.or_eq_false_iff, Bool.and_eq_false_iff,
    decide_eq_false_iff_not, UInt32.le_iff_toNat_le]
  change 48 ≤ c.val.toNat ∧ c.val.toNat ≤ 57 at h
  change ¬ (65 ≤ c.val.toNat ∧ c.val.toNat ≤ 90) ∧ (¬ 97 ≤ c.val.toNat ∨ ¬ c.val.toNat ≤ 122)
  omega

/-- A number is no name, because of its first character. -/
theorem isIdentifier_of_isNum {t : String} (h : isNum t) : isIdentifier t = false := by
  rw [isNum] at h
  rw [isIdentifier]
  split at h
  · rename_i ht
    rw [ht]
    rfl
  · cases ht : t.toList with
    | nil => rfl
    | cons c rest =>
        simp only [ht, List.isEmpty_cons, Bool.not_false, Bool.true_and, List.all_cons,
          Bool.and_eq_true] at h
        simp only [not_identifier_of_isDigit h.1, Bool.false_and]

/-- What is read as an operand is a constant for the rows of the table. -/
theorem ReadsOperand.isConst {t : String} {o : Operand} (h : ReadsOperand t o) : IsConst t := by
  cases o with
  | number n => exact .inl h.1
  | label l =>
      obtain ⟨rfl, hl⟩ := h
      exact .inr hl

/-- `value` looks up a name and leaves a number as it is. -/
theorem ReadsOperand.value_eq {t : String} {o : Operand} (h : ReadsOperand t o) :
    value t = o.find := by
  cases o with
  | number n =>
      rw [value, isIdentifier_of_isNum h.1]
      exact h.2.1
  | label l => rw [h.1, Operand.find]

/-- What a statement does to the globals, read when the image is `done`. -/
structure Asm.Adds (address : String → ℕ) (done : List ℕ) (st : Statement) (a b : Asm) :
    Prop where
  holds : b.Holds address (done ++ st.cells address done.length)
  symtab : ∀ l, b.symtab l = if l ∈ st.defines then some done.length else a.symtab l
  fixups : ∀ f ∈ b.fixups, f ∈ a.fixups ∨ f.1 ∈ st.refers

/-- A constant is stored at once or left to a fixup. -/
theorem Asm.Holds.constant (h : a.Holds address done) {o : Operand} {t : String}
    (ho : ReadsOperand t o) (hlen : done.length + 2 ≤ 65536)
    (hknown : ∀ l, o = .label l → ∀ v, a.symtab l = some v → v = address l) :
    ∃ b, (do storeInsn (← o.find)) a = .ok () b ∧
      b.Holds address (done ++ wordCells (o.value address)) ∧ b.symtab = a.symtab ∧
      ∀ f ∈ b.fixups, f ∈ a.fixups ∨ o = .label f.1 := by
  have hroom : a.currentAddr + 1 < 65536 := by
    rw [h.here]
    omega
  cases o with
  | number n => exact ⟨a.next n, storeInsn_run n hroom, h.next n, rfl, fun _ hf => .inl hf⟩
  | label l =>
      obtain ⟨rfl, hl⟩ := ho
      cases hs : a.symtab t with
      | some v =>
          obtain rfl := hknown t rfl v hs
          have hfind : (Operand.label t).find a = .ok (address t) a := by
            simp [Operand.find, value, hl, hs]
          exact ⟨_, (run_bind_ok hfind).trans (storeInsn_run _ hroom), h.next _, rfl,
            fun _ hf => .inl hf⟩
      | none =>
          have hfind : (Operand.label t).find a =
              .ok 0 { a with fixups := a.fixups ++ [(t, a.currentAddr)] } := by
            simp [Operand.find, value, hl, hs]
          refine ⟨_, (run_bind_ok hfind).trans (storeInsn_run _ hroom), h.leave t, rfl,
            fun f hf => ?_⟩
          rcases List.mem_append.mp hf with hf | hf
          · exact .inl hf
          · exact .inr (by rw [List.mem_singleton.mp hf])

/-- The words of an instruction. -/
theorem Asm.Holds.insn (h : a.Holds address done) {i : Insn Operand}
    (hi : ∀ o ∈ i.const, ∃ t, ReadsOperand t o) (hlen : done.length + i.size ≤ 65536)
    (hknown : ∀ l ∈ (Statement.insn i).refers, ∀ v, a.symtab l = some v → v = address l) :
    ∃ b, emit Operand.find i a = .ok () b ∧ a.Adds address done (.insn i) b := by
  have hroom : a.currentAddr + 1 < 65536 := by
    have := i.two_le_size
    rw [h.here]
    omega
  have hfirst := h.next i.opcode
  cases hc : i.const with
  | none =>
      refine ⟨a.next i.opcode, ?_, ?_, fun l => ?_, fun f hf => .inl hf⟩
      · simp only [emit, hc]
        exact run_bind_ok (storeInsn_run _ hroom)
      · simpa only [Statement.cells, hc, List.append_nil] using hfirst
      · exact (if_neg List.not_mem_nil).symm
  | some o =>
      obtain ⟨t, ht⟩ := hi o hc
      have hlen' : (done ++ wordCells i.opcode).length + 2 ≤ 65536 := by
        have hsize := Insn.size_of_const hc
        rw [List.length_append]
        change done.length + 2 + 2 ≤ 65536
        omega
      have hknown' : ∀ l, o = .label l → ∀ v, (a.next i.opcode).symtab l = some v →
          v = address l := by
        rintro l rfl v hv
        exact hknown l (by simp [Statement.refers, hc]) v hv
      obtain ⟨b, hrun, hb, hsym, hfix⟩ := hfirst.constant ht hlen' hknown'
      refine ⟨b, ?_, ?_, fun l => ?_, fun f hf => ?_⟩
      · simp only [emit, hc]
        exact (run_bind_ok (storeInsn_run _ hroom)).trans hrun
      · simpa only [Statement.cells, hc, List.append_assoc] using hb
      · rw [hsym]
        exact (if_neg List.not_mem_nil).symm
      · rcases hfix f hf with hf | rfl
        · exact .inl hf
        · exact .inr (by simp [Statement.refers, hc])

/-! ### Directives -/

/-- A line of a keyword and one token matches its row when the token does. -/
theorem matchLine_pair (w : String) {t : String} {p : Pattern} (h : matchToken t p = pure true) :
    matchLine [w, t] [.lit w, p] = pure true := by
  have hw : matchToken w (.lit w) = pure true := by simp [matchToken]
  simp [matchLine, matchTokens, hw, h]

/-- A line with a name behind `SYMBOL` defines the label. -/
theorem doLine_symbol {l : String} (hl : isIdentifier l) :
    doLine ["SYMBOL", l] = doSym ["SYMBOL", l] :=
  doLine_of_row rfl (matchLine_pair "SYMBOL" (congrArg pure hl))

/-- A label takes no memory. It is entered with the address that it stands at. -/
theorem Asm.Holds.symbol (h : a.Holds address done) {l : String} (hl : isIdentifier l) :
    ∃ b, doLine ["SYMBOL", l] a = .ok () b ∧ a.Adds address done (.symbol l) b := by
  rw [doLine_symbol hl]
  refine ⟨_, rfl, ?_, fun l' => ?_, fun f hf => .inl hf⟩
  · rw [Statement.cells, List.append_nil]
    exact ⟨h.here, h.built⟩
  · simp only [Statement.defines, List.mem_singleton, ← h.here]

/-- A line of `BYTES` stores the low byte of its number. -/
theorem doLine_bytes {t : String} {n : ℕ} (h : matchToken t .nums = pure true)
    (hn : pyInt t = pure n) : doLine ["BYTES", t] = (do
      setMemory (← currentAddr) (n % 256)
      setCurrentAddr ((← currentAddr) + 1)) := by
  have hlow : n &&& 0xFF = n % 256 := Nat.and_two_pow_sub_one_eq_mod n 8
  rw [doLine_of_row rfl (matchLine_pair "BYTES" h), doBytes, List.tail_cons, bytesLoop, hn,
    pure_bind, hlow]
  simp [bytesLoop]

/-- `BYTES` lays out the cell that the second pass does. -/
theorem Asm.Holds.bytes (h : a.Holds address done) {t : String} {n : ℕ}
    (ht : matchToken t .nums = pure true) (hn : pyInt t = pure n)
    (hlen : done.length + 1 ≤ 65536) :
    ∃ b, doLine ["BYTES", t] a = .ok () b ∧ a.Adds address done (.bytes n) b := by
  have hroom : a.currentAddr < 65536 := by
    rw [h.here]
    omega
  rw [doLine_bytes ht hn]
  refine ⟨a.nextByte (n % 256), storeByte_run _ (pure ()) hroom, h.nextByte _, fun l => ?_,
    fun f hf => .inl hf⟩
  exact (if_neg List.not_mem_nil).symm

/-- A line of `WORDS` stores the low word of its number. -/
theorem doLine_words {t : String} {n : ℕ} (h : matchToken t .nums = pure true)
    (hn : pyInt t = pure n) : doLine ["WORDS", t] = storeInsn (n % 65536) := by
  have hword : n &&& 0xFFFF = n % 65536 := Nat.and_two_pow_sub_one_eq_mod n 16
  have hhigh : (n % 65536) >>> 8 &&& 0xFF = (n % 65536) >>> 8 := by
    have e : (n % 65536) >>> 8 &&& 0xFF = _ := Fields.shiftRight_and (n % 65536) 8 8
    rw [e, Nat.shiftRight_eq_div_pow]
    omega
  rw [doLine_of_row rfl (matchLine_pair "WORDS" h), doWords, List.tail_cons, wordsLoop, hn,
    pure_bind, hword]
  simp [wordsLoop, storeInsn, hhigh]

/-- `WORDS` lays out the two cells that the second pass does. -/
theorem Asm.Holds.words (h : a.Holds address done) {t : String} {n : ℕ}
    (ht : matchToken t .nums = pure true) (hn : pyInt t = pure n)
    (hlen : done.length + 2 ≤ 65536) :
    ∃ b, doLine ["WORDS", t] a = .ok () b ∧ a.Adds address done (.words n) b := by
  have hroom : a.currentAddr + 1 < 65536 := by
    rw [h.here]
    omega
  rw [doLine_words ht hn]
  refine ⟨a.next (n % 65536), storeInsn_run _ hroom, h.next _, fun l => ?_, fun f hf => .inl hf⟩
  exact (if_neg List.not_mem_nil).symm

/-- The characters of a string are stored one after the other. -/
theorem Asm.Holds.characters (h : a.Holds address done) {s : List Char}
    (hlen : done.length + s.length ≤ 65536) :
    ∃ b, stringLoop s a = .ok () b ∧ b.Holds address (done ++ s.map Char.toNat) ∧
      b.symtab = a.symtab ∧ b.fixups = a.fixups := by
  induction s generalizing a done with
  | nil => exact ⟨a, rfl, by rwa [List.map_nil, List.append_nil], rfl, rfl⟩
  | cons c s ih =>
      rw [List.length_cons] at hlen
      have hroom : a.currentAddr < 65536 := by
        rw [h.here]
        omega
      have hlen' : (done ++ [c.toNat]).length + s.length ≤ 65536 := by
        rw [List.length_append, List.length_singleton]
        omega
      obtain ⟨b, hrun, hb, hsym, hfix⟩ := ih (h.nextByte c.toNat) hlen'
      refine ⟨b, (storeByte_run _ _ hroom).trans hrun, ?_, hsym, hfix⟩
      rwa [List.append_assoc] at hb

/-- `STRING` lays out the codes of its characters and a zero behind them. -/
theorem Asm.Holds.string (h : a.Holds address done) {s : String}
    (hlen : done.length + (Statement.string s).size done.length ≤ 65536) :
    ∃ b, doLine ["STRING", s] a = .ok () b ∧ a.Adds address done (.string s) b := by
  rw [Statement.size] at hlen
  rw [doLine_of_row rfl (matchLine_pair "STRING" (p := .any) rfl)]
  obtain ⟨b, hrun, hb, hsym, hfix⟩ := h.characters (s := replaceNewlines s.toList) (by omega)
  have hroom : b.currentAddr < 65536 := by
    rw [hb.here, List.length_append, List.length_map]
    omega
  refine ⟨b.nextByte 0, ?_, ?_, fun l => ?_, fun f hf => .inl (hfix ▸ hf)⟩
  · rw [doString, item, List.getElem?_cons_succ, List.getElem?_cons_zero]
    exact (run_bind_ok hrun).trans (storeByte_run _ (pure ()) hroom)
  · simpa only [Statement.cells, List.append_assoc] using hb.nextByte 0
  · exact (congrFun hsym l).trans (if_neg List.not_mem_nil).symm

/-- At a multiple there is no gap. -/
theorem gap_of_mod_eq_zero {n addr : ℕ} (h : addr % n = 0) : gap n addr = 0 := by
  rw [gap, h, Nat.sub_zero, Nat.mod_self]

/-- Elsewhere the gap is one more than at the next address. -/
theorem gap_of_mod_ne_zero {n addr : ℕ} (hn : 1 ≤ n) (h : addr % n ≠ 0) :
    gap n addr = gap n (addr + 1) + 1 := by
  have hlt := Nat.mod_lt addr hn
  have hgap : gap n addr = n - addr % n := Nat.mod_eq_of_lt (by omega)
  have hsucc : (addr + 1) % n = (addr % n + 1) % n := (Nat.mod_add_mod addr n 1).symm
  by_cases hlast : addr % n + 1 = n
  · rw [hgap, gap_of_mod_eq_zero (by rw [hsucc, hlast, Nat.mod_self])]
    omega
  · have hnext : (addr + 1) % n = addr % n + 1 := by
      rw [hsucc, Nat.mod_eq_of_lt (by omega)]
    have hgap' : gap n (addr + 1) = n - (addr % n + 1) := by
      rw [gap, hnext, Nat.mod_eq_of_lt (by omega)]
    omega

/-- The gap up to the next multiple is at most the number itself. -/
theorem gap_le {n addr : ℕ} (hn : 1 ≤ n) : gap n addr ≤ n :=
  (Nat.mod_lt _ hn).le

/-- The loop of `do_align` ends at the next multiple. -/
theorem alignLoop_eq {n turns addr : ℕ} (hn : 1 ≤ n) (h : gap n addr ≤ turns) :
    alignLoop n turns addr = addr + gap n addr := by
  induction turns generalizing addr with
  | zero => rw [alignLoop, Nat.le_zero.mp h, Nat.add_zero]
  | succ turns ih =>
      rw [alignLoop]
      split
      · rename_i hmod
        have hgap := gap_of_mod_ne_zero hn hmod
        rw [ih (by omega)]
        omega
      · rename_i hmod
        rw [gap_of_mod_eq_zero (not_not.mp hmod), Nat.add_zero]

/-- `ALIGN` goes on at the next multiple. The loop has no limit of its own, but it takes fewer
than `n` turns. -/
theorem doLine_align_run {t : String} {n : ℕ} (ht : isNum t) (hn : pyInt t = pure n)
    (hpos : 1 ≤ n) (a : Asm) : doLine ["ALIGN", t] a =
      .ok () { a with currentAddr := a.currentAddr + gap n a.currentAddr } := by
  rw [doLine_of_row rfl (matchLine_pair "ALIGN" (p := .num) (congrArg pure ht)), doAlign, item,
    List.getElem?_cons_succ, List.getElem?_cons_zero]
  change (pyInt t >>= _) a = _
  rw [hn, pure_bind, if_neg (by omega), ← alignLoop_eq hpos (gap_le hpos)]
  rfl

/-- `ALIGN` leaves the gap that the second pass does. -/
theorem Asm.Holds.align (h : a.Holds address done) {t : String} {n : ℕ} (ht : isNum t)
    (hn : pyInt t = pure n) (hpos : 1 ≤ n) :
    ∃ b, doLine ["ALIGN", t] a = .ok () b ∧ a.Adds address done (.align n) b := by
  refine ⟨_, doLine_align_run ht hn hpos a, ?_, fun l => ?_, fun f hf => .inl hf⟩
  · rw [Statement.cells, ← h.here]
    exact h.skip _
  · exact (if_neg List.not_mem_nil).symm

/-- One call of `do_line` adds its statement. -/
theorem Reads.run {line : List String} {st : Statement} (hr : Reads line st)
    (h : a.Holds address done) (hlen : done.length + st.size done.length ≤ 65536)
    (hknown : ∀ l ∈ st.refers, ∀ v, a.symtab l = some v → v = address l) :
    ∃ b, doLine line a = .ok () b ∧ a.Adds address done st b := by
  cases hr with
  | insn hi =>
      rw [hi.doLine_eq (fun _ _ ho => ho.isConst) fun _ _ ho => ho.value_eq]
      exact h.insn hi.const hlen hknown
  | symbol hl => exact h.symbol hl
  | bytes ht hn => exact h.bytes ht hn.1 hlen
  | words ht hn => exact h.words ht hn.1 hlen
  | string s => exact h.string hlen
  | align ht hn hpos => exact h.align ht hn.1 hpos

/-! ### Layout -/

section Layout

variable {addr : ℕ} {st : Statement} {d p : List Statement} {l : String} {v : ℕ}

/-- A statement lays out as many cells as it takes bytes. -/
theorem Statement.length_cells (address : String → ℕ) (addr : ℕ) (st : Statement) :
    (st.cells address addr).length = st.size addr := by
  cases st with
  | insn i =>
      cases hc : i.const with
      | none => simp [cells, size, hc, wordCells, Insn.size_of_const_none hc]
      | some o => simp [cells, size, hc, wordCells, Insn.size_of_const hc]
  | symbol l => rfl
  | bytes n => rfl
  | words n => rfl
  | string s => simp [cells, size]
  | align n => exact List.length_replicate

/-- The end of a program in two parts is the end of the second behind that of the first. -/
theorem endAddr_append : endAddr addr (d ++ p) = endAddr (endAddr addr d) p := by
  induction d generalizing addr with
  | nil => rfl
  | cons st d ih => exact ih

/-- A program does not end before it starts. -/
theorem le_endAddr : addr ≤ endAddr addr p := by
  induction p generalizing addr with
  | nil => exact Nat.le_refl addr
  | cons st p ih => exact (Nat.le_add_right addr _).trans ih

/-- The places of the labels of a program in two parts are those of the first and of the second
behind it. -/
theorem places_append : places addr (d ++ p) = places addr d ++ places (endAddr addr d) p := by
  induction d generalizing addr with
  | nil => rfl
  | cons st d ih => rw [List.cons_append, places, places, ih, List.append_assoc, endAddr]

/-- The cells of a program in two parts are those of the first and of the second behind it. -/
theorem cells_append :
    cells address addr (d ++ p) = cells address addr d ++ cells address (endAddr addr d) p := by
  induction d generalizing addr with
  | nil => rfl
  | cons st d ih => rw [List.cons_append, cells, cells, ih, List.append_assoc, endAddr]

/-- The cells reach from the start of the program to its end. -/
theorem length_cells : addr + (cells address addr p).length = endAddr addr p := by
  induction p generalizing addr with
  | nil => rfl
  | cons st p ih =>
      rw [cells, List.length_append, Statement.length_cells, ← Nat.add_assoc, ih, endAddr]

/-- From address 0 on, there are as many cells as the end of the program says. -/
theorem length_cells_zero : (cells address 0 p).length = endAddr 0 p := by
  rw [← length_cells, Nat.zero_add]

/-- The labels of the first pass are those that are defined. -/
theorem map_fst_places : (places addr p).map Prod.fst = p.flatMap Statement.defines := by
  induction p generalizing addr with
  | nil => rfl
  | cons st p ih =>
      rw [places, List.map_append, ih, List.flatMap_cons, List.map_map]
      exact congrArg (· ++ _) (List.map_id _)

/-- A label with one definition is looked up at it. -/
theorem lookup_of_count_eq_one {l : List (String × ℕ)} {n : String}
    (h : (l.map Prod.fst).count n = 1) (hv : (n, v) ∈ l) : l.lookup n = some v := by
  induction l with
  | nil => exact absurd hv List.not_mem_nil
  | cons x l ih =>
      obtain ⟨m, w⟩ := x
      rw [List.lookup_cons]
      by_cases hm : n = m
      · subst hm
        rw [beq_self_eq_true]
        rw [List.map_cons, List.count_cons_self, Nat.add_eq_right] at h
        rcases List.mem_cons.mp hv with hv | hv
        · cases hv
          rfl
        · have hnot : n ∉ l.map Prod.fst := List.count_eq_zero.mp h
          exact absurd (List.mem_map_of_mem (f := Prod.fst) hv) hnot
      · have hbeq : (n == m) = false := beq_eq_false_iff_ne.mpr hm
        rw [hbeq]
        rw [List.map_cons, List.count_cons_of_ne (Ne.symm hm)] at h
        rcases List.mem_cons.mp hv with hv | hv
        · cases hv
          exact absurd rfl hm
        · exact ih h hv

/-- The address of a label that is referred to is the one it is defined at. -/
theorem Resolved.addressOf_eq (h : Resolved p) (hl : l ∈ p.flatMap Statement.refers)
    (hv : (l, v) ∈ places 0 p) : v = addressOf p l := by
  have hcount := h l hl
  rw [← map_fst_places] at hcount
  rw [addressOf, lookup_of_count_eq_one hcount hv]
  rfl

end Layout

/-! ### The main loop -/

/-- The statements `d` of a program have been read: their cells are there, and their labels are
known. -/
structure Asm.Reached (address : String → ℕ) (d : List Statement) (a : Asm) : Prop where
  holds : a.Holds address (cells address 0 d)
  symtab : ∀ l v, a.symtab l = some v → (l, v) ∈ places 0 d
  defined : ∀ l ∈ d.flatMap Statement.defines, a.symtab l ≠ none
  fixups : ∀ f ∈ a.fixups, f.1 ∈ d.flatMap Statement.refers

/-- What the addresses have to be, and the room the program has to have. Both hold of the parts
of the program, too. -/
structure Placed (address : String → ℕ) (p : List Statement) : Prop where
  fits : endAddr 0 p ≤ 65536
  known : ∀ l ∈ p.flatMap Statement.refers, ∀ v, (l, v) ∈ places 0 p → v = address l

variable {d p : List Statement}

/-- The first part of a program has the room and the addresses that the whole has. -/
theorem Placed.of_append (h : Placed address (d ++ p)) : Placed address d := by
  refine ⟨?_, fun l hl v hv => h.known l ?_ v ?_⟩
  · exact le_endAddr.trans (endAddr_append ▸ h.fits)
  · rw [List.flatMap_append]
    exact List.mem_append_left _ hl
  · rw [places_append]
    exact List.mem_append_left _ hv

/-- At the start nothing of the program has been read. -/
theorem Asm.Reached.start : Asm.start.Reached address [] :=
  ⟨.start, nofun, fun _ h => absurd h List.not_mem_nil, fun _ h => absurd h List.not_mem_nil⟩

/-- One call of `do_line`, in the course of a program. -/
theorem Asm.Reached.read {line : List String} {st : Statement} (h : a.Reached address d)
    (hr : Reads line st) (hp : Placed address (d ++ [st])) :
    ∃ b, doLine line a = .ok () b ∧ b.Reached address (d ++ [st]) := by
  have hlen : (cells address 0 d).length = endAddr 0 d := length_cells_zero
  have hfits : endAddr 0 d + st.size (endAddr 0 d) ≤ 65536 := by
    have := hp.fits
    rwa [endAddr_append] at this
  have hplaces : places 0 (d ++ [st]) =
      places 0 d ++ st.defines.map fun l => (l, endAddr 0 d) := by
    rw [places_append, places, places, List.append_nil]
  have hrefers : (d ++ [st]).flatMap Statement.refers =
      d.flatMap Statement.refers ++ st.refers := by
    rw [List.flatMap_append, List.flatMap_singleton]
  have hknown : ∀ l ∈ st.refers, ∀ v, a.symtab l = some v → v = address l := by
    intro l hl v hv
    refine hp.known l ?_ v ?_
    · rw [hrefers]
      exact List.mem_append_right _ hl
    · rw [hplaces]
      exact List.mem_append_left _ (h.symtab l v hv)
  obtain ⟨b, hrun, hb⟩ := hr.run h.holds (by rwa [hlen]) hknown
  refine ⟨b, hrun, ?_, fun l v hv => ?_, fun l hl => ?_, fun f hf => ?_⟩
  · have hholds := hb.holds
    rw [hlen] at hholds
    rwa [cells_append, cells, cells, List.append_nil]
  · rw [hplaces]
    rw [hb.symtab, hlen] at hv
    split at hv
    · rename_i hl
      cases hv
      exact List.mem_append_right _ (List.mem_map_of_mem hl)
    · exact List.mem_append_left _ (h.symtab l v hv)
  · rw [List.flatMap_append, List.flatMap_singleton] at hl
    rw [hb.symtab]
    split
    · nofun
    · rename_i hst
      exact h.defined l ((List.mem_append.mp hl).resolve_right hst)
  · rw [hrefers]
    rcases hb.fixups f hf with hf | hf
    · exact List.mem_append_left _ (h.fixups f hf)
    · exact List.mem_append_right _ hf

/-- A line without a colon behind its first token is an instruction or a directive. -/
theorem doTokens_of_no_colon {tokens : List String} (h : tokens[1]? ≠ some ":") :
    doTokens tokens = doLine tokens := by
  match tokens, h with
  | [], _ => rfl
  | [_], _ => rfl
  | _ :: colon :: _, h => exact if_neg fun hcolon => h (congrArg some hcolon)

/-- One line of the file. -/
theorem Asm.Reached.readTokens {tokens : List String} {sts : List Statement}
    (h : a.Reached address d) (hr : ReadsTokens tokens sts) (hp : Placed address (d ++ sts)) :
    ∃ b, doTokens tokens a = .ok () b ∧ b.Reached address (d ++ sts) := by
  cases hr with
  | blank => exact ⟨a, rfl, by rwa [List.append_nil]⟩
  | line hcolon hst =>
      rw [doTokens_of_no_colon hcolon]
      exact h.read hst hp
  | label hl =>
      obtain ⟨b, hrun, hb⟩ := h.read hl hp
      exact ⟨b, run_bind_ok hrun, hb⟩
  | @labelled l tokens st st' hl hst =>
      have happ : d ++ [st, st'] = (d ++ [st]) ++ [st'] := by
        rw [List.append_assoc, List.singleton_append]
      rw [happ] at hp ⊢
      obtain ⟨b, hrun, hb⟩ := h.read hl hp.of_append
      obtain ⟨c, hrun', hc⟩ := hb.read hst hp
      exact ⟨c, (run_bind_ok hrun).trans hrun', hc⟩

/-- The main loop reads the program. As no address is given by hand, the greatest one is that
behind the last line. -/
theorem Asm.Reached.mainLoop_run {lines : List String} {inQuote : Bool} (h : a.Reached address d)
    (hr : ReadsProgram (tokenize inQuote lines) p) (hp : Placed address (d ++ p)) :
    ∃ b, mainLoop lines inQuote a.currentAddr a = .ok b.currentAddr b ∧
      b.Reached address (d ++ p) := by
  induction lines generalizing a d p inQuote with
  | nil =>
      cases hr with
      | nil => exact ⟨a, rfl, by rwa [List.append_nil]⟩
  | cons line lines ih =>
      cases hr with
      | @cons _ sts p _ htokens hrest =>
          rw [← List.append_assoc] at hp ⊢
          obtain ⟨b, hrun, hb⟩ := h.readTokens htokens hp.of_append
          obtain ⟨c, hrun', hc⟩ := ih hb hrest hp
          refine ⟨c, (run_bind_ok hrun).trans ?_, hc⟩
          have hle : a.currentAddr ≤ b.currentAddr := by
            rw [h.holds.here, hb.holds.here, cells_append, List.length_append]
            exact Nat.le_add_right _ _
          rw [← Nat.max_eq_left hle] at hrun'
          exact (run_bind_ok rfl).trans hrun'

/-! ### The image -/

/-- The loop over the fixups makes the pending patches. -/
theorem applyFixups_run {fs : List (String × ℕ)}
    (h : ∀ f ∈ fs, a.symtab f.1 = some (address f.1) ∧ f.2 + 1 < 65536) :
    ∃ b, applyFixups fs a = .ok () b ∧
      b.memory = Patches.make (fs.map fun f => (f.2, wordCells (address f.1))) a.memory := by
  induction fs generalizing a with
  | nil => exact ⟨a, rfl, rfl⟩
  | cons f fs ih =>
      obtain ⟨hsym, hlt⟩ := h f List.mem_cons_self
      have hlt' : f.2 < 65536 := by omega
      have hstore : storeWord f.2 (address f.1) a = .ok () (a.putWord f.2 (address f.1)) := by
        simp [storeWord, bind_run, setMemory, hlt, hlt', Asm.putWord]
      obtain ⟨b, hrun, hb⟩ := ih (a := a.putWord f.2 (address f.1)) fun g hg =>
        h g (List.mem_cons_of_mem f hg)
      have hsymbol : symbol f.1 a = .ok (address f.1) a := by simp [symbol, hsym]
      refine ⟨b, ?_, ?_⟩
      · rw [applyFixups]
        exact (run_bind_ok hsymbol).trans ((run_bind_ok hstore).trans hrun)
      · rw [hb, Asm.putWord_memory]
        rfl

/-- The loop that fills the `bytearray`: it stops at the first cell that is not a byte. -/
theorem imageLoop_run {whole : List ℕ} (hm : a.memory = Patches.image 0 whole) (n : ℕ) :
    ∀ i, i + n = whole.length → whole.length ≤ 65536 →
      imageLoop n i a = match (whole.drop i).mapM byteOf with
        | some bs => .ok bs a
        | none => .error .value a := by
  induction n with
  | zero =>
      intro i hi _
      rw [List.drop_eq_nil_of_le (by omega)]
      rfl
  | succ n ih =>
      intro i hi hlen
      have hlt : i < whole.length := by omega
      have hcell : a.memory i = whole[i] := by
        rw [hm, Patches.image, List.getElem?_eq_getElem hlt, Option.getD_some]
      rw [imageLoop, List.drop_eq_getElem_cons hlt, List.mapM_cons, byteOf]
      by_cases hbyte : whole[i] < 256
      · have hat : byteAt i a = .ok (.ofNat 8 whole[i]) a := by
          rw [byteAt, if_pos (by omega), hcell, if_pos hbyte]
        have hrest := ih (i + 1) (by omega) hlen
        rw [if_pos hbyte]
        refine (run_bind_ok hat).trans ?_
        cases hb : (whole.drop (i + 1)).mapM byteOf with
        | some bs =>
            rw [hb] at hrest
            exact run_bind_ok hrest
        | none =>
            rw [hb] at hrest
            exact run_bind_error hrest
      · have hat : byteAt i a = .error .value a := by
          rw [byteAt, if_pos (by omega), hcell, if_neg hbyte]
        rw [if_neg hbyte]
        exact run_bind_error hat

/-- Behind the main loop every fixup has its label in the symbol table, and its place in the
memory. -/
theorem Asm.Reached.fixup (h : a.Reached (addressOf p) p) (hres : Resolved p)
    (hfits : endAddr 0 p ≤ 65536) {f : String × ℕ} (hf : f ∈ a.fixups) :
    a.symtab f.1 = some (addressOf p f.1) ∧ f.2 + 1 < 65536 := by
  have hl := h.fixups f hf
  constructor
  · have hdef : f.1 ∈ p.flatMap Statement.defines := by
      rw [← List.count_pos_iff, hres f.1 hl]
      exact Nat.one_pos
    obtain ⟨v, hv⟩ := Option.ne_none_iff_exists'.mp (h.defined f.1 hdef)
    rw [hv, hres.addressOf_eq hl (h.symtab f.1 v hv)]
  · have hwithin : f.2 + 2 ≤ (cells (addressOf p) 0 p).length :=
      h.holds.built.within _ (List.mem_map_of_mem hf)
    rw [length_cells_zero] at hwithin
    omega

/-- The image that the script writes is that of the two-pass assembler. -/
theorem imageOf_eq {lines : List String} (hr : ReadsProgram (tokenize false lines) p)
    (hres : Resolved p) (hfits : endAddr 0 p ≤ 65536) : imageOf lines = twoPass p := by
  have hp : Placed (addressOf p) ([] ++ p) := ⟨hfits, fun l hl v hv => hres.addressOf_eq hl hv⟩
  obtain ⟨a, hrun, ha⟩ := Asm.Reached.start.mainLoop_run hr hp
  rw [List.nil_append] at ha
  obtain ⟨b, hfix, hb⟩ := applyFixups_run fun f hf => ha.fixup hres hfits hf
  have himage : b.memory = Patches.image 0 (cells (addressOf p) 0 p) :=
    hb.trans ha.holds.built.made
  have hloop := imageLoop_run himage a.currentAddr 0
    (by rw [Nat.zero_add, ha.holds.here]) (length_cells_zero ▸ hfits)
  have hassemble : assemble lines Asm.start = imageLoop a.currentAddr 0 b :=
    (run_bind_ok hrun).trans ((run_bind_ok rfl).trans (run_bind_ok hfix))
  rw [imageOf, hassemble, hloop, List.drop_zero, twoPass]
  cases (cells (addressOf p) 0 p).mapM byteOf with
  | some bs => rfl
  | none => rfl

/-! ### Where there is an image -/

/-- The addresses of the labels that are referred to have two bytes, and the characters of the
strings one. -/
def ByteSized (p : List Statement) : Prop :=
  (∀ l ∈ p.flatMap Statement.refers, addressOf p l < 65536) ∧
    ∀ s, .string s ∈ p → ∀ c ∈ s.toList, c.toNat < 256

/-- The cells of a word are bytes. -/
theorem lt_of_mem_wordCells {v w : ℕ} (hv : v < 65536) (hw : w ∈ wordCells v) : w < 256 := by
  rcases List.mem_cons.mp hw with rfl | hw
  · omega
  · rw [List.mem_singleton.mp hw]
    omega

/-- Replacing the newlines of a string adds newlines only. -/
theorem mem_replaceNewlines {c : Char} {s : List Char} (h : c ∈ replaceNewlines s) :
    c = '\n' ∨ c ∈ s := by
  fun_induction replaceNewlines s with
  | case1 rest ih =>
      rcases List.mem_cons.mp h with rfl | h
      · exact .inl rfl
      · exact (ih h).imp_right fun h => List.mem_cons_of_mem _ (List.mem_cons_of_mem _ h)
  | case2 d rest _ ih =>
      rcases List.mem_cons.mp h with rfl | h
      · exact .inr List.mem_cons_self
      · exact (ih h).imp_right (List.mem_cons_of_mem _)
  | case3 => exact absurd h List.not_mem_nil

/-- Where the addresses are words and the characters of the strings bytes, all cells of a
statement are bytes. -/
theorem Reads.cells_lt {line : List String} {st : Statement} (h : Reads line st)
    (hl : ∀ l ∈ st.refers, address l < 65536)
    (hs : ∀ s, st = .string s → ∀ c ∈ s.toList, c.toNat < 256) (addr : ℕ) :
    ∀ v ∈ st.cells address addr, v < 256 := by
  intro v hv
  cases h with
  | @insn _ i hi =>
      rcases List.mem_append.mp hv with hv | hv
      · exact lt_of_mem_wordCells i.opcode_lt hv
      · cases hc : i.const with
        | none => simp [hc] at hv
        | some o =>
            simp only [hc] at hv
            refine lt_of_mem_wordCells ?_ hv
            obtain ⟨t, ht⟩ := hi.const o hc
            cases o with
            | number n => exact ht.2.2
            | label l => exact hl l (by simp [Statement.refers, hc])
  | symbol hl => exact absurd hv List.not_mem_nil
  | bytes ht hn =>
      rw [List.mem_singleton.mp hv]
      omega
  | words ht hn => exact lt_of_mem_wordCells (by omega) hv
  | string s =>
      rcases List.mem_append.mp hv with hv | hv
      · obtain ⟨c, hc, rfl⟩ := List.mem_map.mp hv
        rcases mem_replaceNewlines hc with rfl | hc
        · decide
        · exact hs s rfl c hc
      · rw [List.mem_singleton.mp hv]
        omega
  | align ht hn hpos =>
      rw [(List.mem_replicate.mp hv).2]
      omega

/-- Every statement of a line is read from tokens of that line. -/
theorem ReadsTokens.exists_reads {tokens : List String} {sts : List Statement}
    (h : ReadsTokens tokens sts) : ∀ st ∈ sts, ∃ line, Reads line st := by
  intro st hst
  cases h with
  | blank => exact absurd hst List.not_mem_nil
  | line _ h => exact ⟨_, List.mem_singleton.mp hst ▸ h⟩
  | label h => exact ⟨_, List.mem_singleton.mp hst ▸ h⟩
  | labelled h h' =>
      rcases List.mem_cons.mp hst with rfl | hst
      · exact ⟨_, h⟩
      · exact ⟨_, List.mem_singleton.mp hst ▸ h'⟩

/-- Every statement of the program is read from some line of the file. -/
theorem ReadsProgram.exists_reads {file : List (List String)} (h : ReadsProgram file p) :
    ∀ st ∈ p, ∃ line, Reads line st := by
  induction h with
  | nil => exact fun st hst => absurd hst List.not_mem_nil
  | cons h _ ih =>
      intro st hst
      rcases List.mem_append.mp hst with hst | hst
      · exact h.exists_reads st hst
      · exact ih st hst

/-- Every cell of the program is laid out by one of its statements. -/
theorem mem_cells {v : ℕ} {addr : ℕ} (hv : v ∈ cells address addr p) :
    ∃ st ∈ p, ∃ addr', v ∈ st.cells address addr' := by
  induction p generalizing addr with
  | nil => exact absurd hv List.not_mem_nil
  | cons st p ih =>
      rcases List.mem_append.mp hv with hv | hv
      · exact ⟨st, List.mem_cons_self, addr, hv⟩
      · obtain ⟨st', hst, h⟩ := ih hv
        exact ⟨st', List.mem_cons_of_mem st hst, h⟩

/-- `bytes` takes values below 256. -/
theorem mapM_byteOf_ne_none {l : List ℕ} (h : ∀ v ∈ l, v < 256) : l.mapM byteOf ≠ none := by
  induction l with
  | nil => nofun
  | cons v l ih =>
      obtain ⟨bs, hbs⟩ := Option.ne_none_iff_exists'.mp
        (ih fun w hw => h w (List.mem_cons_of_mem v hw))
      rw [List.mapM_cons, byteOf, if_pos (h v List.mem_cons_self), hbs]
      nofun

/-- A program whose addresses are words and whose strings are bytes has an image. -/
theorem twoPass_ne_none {file : List (List String)} (hr : ReadsProgram file p)
    (h : ByteSized p) : twoPass p ≠ none := by
  refine mapM_byteOf_ne_none fun v hv => ?_
  obtain ⟨st, hst, addr, hv⟩ := mem_cells hv
  obtain ⟨line, hline⟩ := hr.exists_reads st hst
  refine hline.cells_lt (fun l hl => h.1 l (List.mem_flatMap.mpr ⟨st, hst, hl⟩)) ?_ addr v hv
  rintro s rfl
  exact h.2 s hst

/-- A file whose lines are of the table is a program. If every label that it refers to is
defined once, and the program ends within the memory, then the script writes the image of the
two-pass assembler; there is one where every address and every character fits. -/
theorem image_eq_twoPass {lines : List String}
    (h : ∀ tokens ∈ tokenize false lines, InTableTokens tokens) :
    (∃ p, ReadsProgram (tokenize false lines) p) ∧
      ∀ p, ReadsProgram (tokenize false lines) p → Resolved p → endAddr 0 p ≤ 65536 →
        imageOf lines = twoPass p ∧ (ByteSized p → twoPass p ≠ none) :=
  ⟨exists_readsProgram h, fun _ hr hres hfits =>
    ⟨imageOf_eq hr hres hfits, twoPass_ne_none hr⟩⟩

/-- A jump forwards and a jump back. -/
def spin : List String := ["JMP done\n", "done: JMP done\n"]

/-- The tokens of its lines. The label of the second line is a token of its own. -/
theorem tokenize_spin :
    tokenize false spin = [["JMP", "done"], ["done", ":", "JMP", "done"]] := by
  decide

/-- The rows of the table with one label, in front of a label that is no register. -/
theorem inTable_label {w l : String} {row : List Pattern × (List String → Py Unit)}
    {p : Pattern} (hrow : row ∈ patterns) (hp : row.1 = [p, .label])
    (hne : p ∉ [.label, .num, .nums]) (hm : matchLine [w, l] row.1 = pure true)
    (hl : ¬ LooksLikeReg l) (hw : w ∉ ["ADDR", "ALIGN"]) : InTable [w, l] := by
  simp only [List.mem_cons, List.not_mem_nil, or_false, not_or] at hne hw
  refine ⟨row, hrow, ⟨hm, fun t ht => ?_, fun t q ht hq => ?_⟩, ?_, fun t ht => ?_⟩
  · rw [hp] at ht
    rcases List.mem_cons.mp ht with ht | ht
    · cases ht
      exact absurd rfl hne.1
    · cases List.mem_singleton.mp ht
      exact hl
  · rw [hp] at ht
    rcases List.mem_cons.mp ht with ht | ht
    · cases ht
      exact absurd hq (not_or.mpr hne.2)
    · cases List.mem_singleton.mp ht
      exact absurd hq (by decide)
  · exact fun h => hw.1 (Option.some.inj h)
  · cases ht
    exact absurd rfl hw.2

/-- Both jumps lead to the second one, at address 4. -/
theorem image_spin : imageOf spin = some [0x00, 0x60, 0x04, 0x00, 0x00, 0x60, 0x04, 0x00] := by
  have hdone : isIdentifier "done" := by decide
  have hreg : ¬ LooksLikeReg "done" := by
    rintro (h | ⟨c, rest, h, -⟩)
    · exact absurd h (by decide)
    · cases h
  have hoperand : ReadsOperand "done" (.label "done") := ⟨rfl, hdone⟩
  have hjmp : InTable ["JMP", "done"] :=
    inTable_label (List.getElem_mem (l := patterns) (n := 22) (by decide)) rfl (by decide) rfl hreg
      (by decide)
  have hsymbol : InTable ["SYMBOL", "done"] :=
    inTable_label (List.getElem_mem (l := patterns) (n := 33) (by decide)) rfl (by decide) rfl hreg
      (by decide)
  have htable : ∀ tokens ∈ tokenize false spin, InTableTokens tokens := by
    rw [tokenize_spin]
    intro tokens ht
    rcases List.mem_cons.mp ht with rfl | ht
    · exact hjmp
    · cases List.mem_singleton.mp ht
      exact ⟨hsymbol, .inr hjmp⟩
  have hreads : ReadsProgram (tokenize false spin)
      ([.insn (.jmp .always (.label "done"))] ++
        ([.symbol "done", .insn (.jmp .always (.label "done"))] ++ [])) := by
    rw [tokenize_spin]
    exact .cons (.line (by decide) (.insn (.jmp .always hoperand)))
      (.cons (.labelled (.symbol hdone) (.insn (.jmp .always hoperand))) .nil)
  exact ((image_eq_twoPass htable).2 _ hreads (by decide) (by decide)).1.trans (by decide)

end SystemsProjects.BareMetal
