import SystemsProjects.BareMetal.Bounds
import SystemsProjects.BareMetal.RoundTrip

/-!
# The Program That Prints a String

`hello.asm`, from its text to what it prints. The assembler stores the string behind the
code, with a zero at its end, and the loop of the program prints it byte by byte up to that
zero. Only for the string `:` there is none in the image: the script takes its line for a
label with the name `STRING`.

## Main definitions

* `Loaded`: a program is at the bottom of the memory.
* `Text`: a string in memory, up to its zero.
* `helloLines`: the lines of the file, with a given string.
* `Prints`: a file is assembled, and the program runs to its end and prints something.

## Main results

* `hello_step`: a step of the program in memory.
* `run_hello`: what the loop prints.
* `imageOf_hello`: the image of the file.
* `hello_prints_iff`: the program prints its string if and only if that is not `:`.
-/

namespace SystemsProjects.BareMetal

open Stateful

/-! ### Programs in memory -/

section Programs

variable {m m' : Machine} {is : List (Insn ℕ)}

/-- The program is at the bottom of the memory. -/
def Loaded (is : List (Insn ℕ)) (m : Machine) : Prop :=
  ∀ k, ∀ v ∈ (is.flatMap Insn.cells)[k]?, m.memory (.ofNat 16 k) = .ofNat 8 v

/-- A program stays loaded as long as the memory is what it was. -/
theorem Loaded.of_memory_eq (h : Loaded is m) (he : m'.memory = m.memory) : Loaded is m' := by
  intro k v hv
  rw [he]
  exact h k v hv

/-- Two cells in memory are a word. -/
theorem word_of_cells {k v : ℕ} (hv : v < 65536)
    (hlow : m.memory (.ofNat 16 k) = .ofNat 8 (v % 256))
    (hhigh : m.memory (.ofNat 16 (k + 1)) = .ofNat 8 (v / 256)) :
    m.word (.ofNat 16 k) = .ofNat 16 v := by
  have hnext : (.ofNat 16 k : Word) + 1#16 = .ofNat 16 (k + 1) := (BitVec.ofNat_add k 1).symm
  apply BitVec.eq_of_toNat_eq
  rw [Machine.word, hnext, hlow, hhigh, BitVec.toNat_append,
    ← Nat.shiftLeft_add_eq_or_of_lt (BitVec.isLt _)]
  simp only [BitVec.toNat_ofNat, Nat.shiftLeft_eq]
  omega

/-- An instruction whose cells are in memory is there. -/
theorem Insn.at_of_cells {i : Insn ℕ} {n : ℕ} (hpc : m.PC = .ofNat 16 n)
    (hcell : ∀ k, ∀ v ∈ i.cells[k]?, m.memory (.ofNat 16 (n + k)) = .ofNat 8 v)
    (hx : ∀ x ∈ i.const, x < 65536) (hfits : n + i.size ≤ 65536) :
    (i.map (.ofNat 16)).At m := by
  refine ⟨?_, ?_, ?_⟩
  · rw [hpc, Insn.size_map, BitVec.toNat_ofNat, Nat.mod_eq_of_lt (by
      have := i.two_le_size
      omega)]
    exact hfits
  · have hword : m.word (.ofNat 16 n) = .ofNat 16 i.opcode :=
      word_of_cells i.opcode_lt (hcell 0 _ rfl) (hcell 1 _ rfl)
    rw [hpc, Insn.opcode_map, hword, BitVec.toNat_ofNat, Nat.mod_eq_of_lt i.opcode_lt]
  · intro x hc
    rw [Insn.const_map] at hc
    obtain ⟨v, hv, rfl⟩ := Option.map_eq_some_iff.mp hc
    have hcells : i.cells = wordCells i.opcode ++ wordCells v := by
      rw [Insn.cells, hv]
      rfl
    rw [hcells] at hcell
    have hnext : m.PC + 2#16 = .ofNat 16 (n + 2) := by
      rw [hpc]
      exact (BitVec.ofNat_add n 2).symm
    rw [hnext]
    exact word_of_cells (hx v hv) (hcell 2 _ rfl) (hcell 3 _ rfl)

/-- An instruction of the program is at its address. -/
theorem Loaded.at {pre post : List (Insn ℕ)} {i : Insn ℕ} (h : Loaded (pre ++ i :: post) m)
    (hpc : m.PC = .ofNat 16 (pre.flatMap Insn.cells).length) (hx : ∀ x ∈ i.const, x < 65536)
    (hfits : (pre.flatMap Insn.cells).length + i.size ≤ 65536) : (i.map (.ofNat 16)).At m := by
  refine Insn.at_of_cells hpc (fun k v hv => h _ v ?_) hx hfits
  obtain ⟨hk, -⟩ := List.getElem?_eq_some_iff.mp hv
  rw [List.flatMap_append, List.flatMap_cons,
    List.getElem?_append_right (Nat.le_add_right _ _), Nat.add_sub_cancel_left,
    List.getElem?_append_left hk]
  exact hv

end Programs

/-! ### Runs -/

section Runs

variable {m u v : Machine} {n k : ℕ}

/-- A run that has not halted goes on. -/
theorem emulateN_add (h : emulateN n m = .ok 0 u) (k : ℕ) :
    emulateN (n + k) m = emulateN k u := by
  induction n generalizing m with
  | zero =>
      cases h
      rw [Nat.zero_add]
  | succ n ih =>
      obtain ⟨r, m₁, hrun, -⟩ := bind_eq_ok.mp h
      rw [emulateN_succ hrun] at h
      rw [Nat.succ_add, emulateN_succ hrun]
      split at h
      · rw [if_pos ‹_›]
        exact ih h
      · cases h
        contradiction

/-- A run that has halted stays as it is. -/
theorem emulateN_of_halted (h : emulateN n m = .ok 1 u) (k : ℕ) :
    emulateN (n + k) m = .ok 1 u := by
  induction n generalizing m with
  | zero => cases h
  | succ n ih =>
      obtain ⟨r, m₁, hrun, -⟩ := bind_eq_ok.mp h
      rw [emulateN_succ hrun] at h
      rw [Nat.succ_add, emulateN_succ hrun]
      split at h
      · rw [if_pos ‹_›]
        exact ih h
      · rw [if_neg ‹_›]
        exact h

/-- There is one state in which a run halts. -/
theorem emulateN_unique (h : emulateN n m = .ok 1 u) (h' : emulateN k m = .ok 1 v) : u = v := by
  have hn := emulateN_of_halted h k
  have hk := emulateN_of_halted h' n
  rw [Nat.add_comm, hn] at hk
  cases hk
  rfl

end Runs

/-! ### The loop -/

/-- The instructions of the program, with the addresses of its labels. -/
def helloInsns : List (Insn ℕ) := [
  .set 0 26,
  .loadRel .byte 1 0,
  .test 1,
  .jmp .z 24,
  .output 1,
  .set 2 1,
  .alu .add 0 2 0,
  .jmp .always 4,
  .halt]

/-- A string in memory, with a zero behind it. -/
def Text (memory : Word → Byte) : Word → List Byte → Prop
  | x, [] => memory x = 0
  | x, b :: bs => memory x = b ∧ b ≠ 0 ∧ Text memory (x + 1#16) bs

section Loop

variable {m : Machine} {memory : Word → Byte} {x : Word} {out : List Byte}

/-- A step of the program. -/
theorem hello_step {k : ℕ} {i : Insn ℕ} (hi : helloInsns[k]? = some i)
    (hpc : m.PC = .ofNat 16 ((helloInsns.take k).flatMap Insn.cells).length)
    (h : Loaded helloInsns m) : emulate m = .ok i.result ((i.map (.ofNat 16)).exec m) := by
  obtain ⟨hk, rfl⟩ := List.getElem?_eq_some_iff.mp hi
  have hmem := List.getElem_mem hk
  have hsplit : helloInsns.take k ++ helloInsns[k] :: helloInsns.drop (k + 1) = helloInsns := by
    rw [List.getElem_cons_drop hk, List.take_append_drop]
  have hconst : ∀ i ∈ helloInsns, ∀ x ∈ i.const, x < 65536 := by decide
  have hfits : ∀ k < helloInsns.length,
      ((helloInsns.take k).flatMap Insn.cells).length + 4 ≤ 65536 := by decide
  have hplain : ∀ i ∈ helloInsns, (i.map (BitVec.ofNat 16)).Supported m ∧
      (i.map (BitVec.ofNat 16)).words m = [] ∧ (i.map (BitVec.ofNat 16)).pushes m = [] := by
    simp [helloInsns, Insn.map, Insn.Supported, Insn.words, Insn.pushes, Width.words]
  have hat : (helloInsns[k].map (.ofNat 16)).At m := by
    rw [← hsplit] at h
    refine h.at hpc (hconst _ hmem) ?_
    have := hfits k hk
    have hsize : helloInsns[k].size ≤ 4 := by
      cases helloInsns[k] <;> simp [Insn.size]
    omega
  obtain ⟨hs, hw, hp⟩ := hplain _ hmem
  have hspec := emulate_spec hat hs (by simp [hw]) (by simp [hp])
  rwa [Insn.result_map] at hspec

/-- The program is at an address, has printed something, and `R0` points into the string. -/
structure Looping (memory : Word → Byte) (pc : ℕ) (x : Word) (out : List Byte) (m : Machine) :
    Prop where
  loaded : Loaded helloInsns m
  memory_eq : m.memory = memory
  pc_eq : m.PC = .ofNat 16 pc
  pointer : m.R 0 = x
  printed : m.stdout = out

/-- The program counter behind an instruction of a known size. -/
theorem pc_next {pc : ℕ} (h : m.PC = .ofNat 16 pc) (n : ℕ) :
    (m.next n).PC = .ofNat 16 (pc + n) := by
  rw [BitVec.ofNat_add, ← h]
  rfl

/-- The byte that `R0` points to is loaded and tested. -/
theorem Looping.load (h : Looping memory 4 x out m) :
    ∃ u, emulateN 2 m = .ok 0 u ∧ Looping memory 8 x out u ∧
      u.R 1 = (memory x).setWidth 16 ∧ (u.Z = 1 ↔ memory x = 0) := by
  have hload := hello_step (k := 1) rfl h.pc_eq h.loaded
  set m₁ := (Insn.loadRel .byte 1 0).exec m
  have hpc₁ : m₁.PC = .ofNat 16 6 := pc_next h.pc_eq 2
  have hbyte : m₁.R 1 = (memory x).setWidth 16 := by
    rw [← h.pointer, ← h.memory_eq]
    rfl
  have htest := hello_step (k := 2) rfl hpc₁ (h.loaded.of_memory_eq rfl)
  refine ⟨_, (emulateN_succ hload 1).trans (emulateN_succ htest 0),
    ⟨h.loaded.of_memory_eq rfl, h.memory_eq, pc_next hpc₁ 2, h.pointer, h.printed⟩, hbyte, ?_⟩
  have hzero : (memory x).setWidth 16 = 0#16 ↔ memory x = 0 := by
    rw [BitVec.toNat_eq, BitVec.toNat_eq, BitVec.toNat_setWidth,
      Nat.mod_eq_of_lt ((memory x).isLt.trans (by decide))]
    rfl
  rw [← hzero, ← hbyte]
  change (if m₁.R 1 = 0 then (1 : ℤ) else 0) = 1 ↔ _
  split
  · exact iff_of_true rfl ‹_›
  · exact iff_of_false nofun ‹_›

/-- At the end of the string the program halts. -/
theorem Looping.halt (h : Looping memory 8 x out m) (hz : m.Z = 1) :
    ∃ u, emulateN 2 m = .ok 1 u ∧ u.stdout = out := by
  have hjmp : emulate m = .ok 0 (m.goto 24) :=
    (hello_step (k := 3) rfl h.pc_eq h.loaded).trans (congrArg (EStateM.Result.ok 0) (if_pos hz))
  have hhalt := hello_step (m := m.goto 24) (k := 8) rfl rfl (h.loaded.of_memory_eq rfl)
  exact ⟨_, (emulateN_succ hjmp 1).trans (emulateN_succ hhalt 0), h.printed⟩

/-- `OUT` in the loop writes the character. -/
theorem Looping.output (h : Looping memory 12 x out m) {b : Byte} (hb : m.R 1 = b.setWidth 16) :
    ∃ u, emulate m = .ok 0 u ∧ Looping memory 14 x (out ++ [b]) u := by
  refine ⟨_, hello_step (k := 4) rfl h.pc_eq h.loaded, h.loaded.of_memory_eq rfl, h.memory_eq,
    pc_next h.pc_eq 2, h.pointer, ?_⟩
  have hbyte : (b.setWidth 16).setWidth 8 = b := by
    rw [BitVec.toNat_eq]
    simp
  change m.stdout ++ [(m.R 1).setWidth 8] = _
  rw [h.printed, hb, hbyte]

/-- `SET` in the loop loads the constant 1. -/
theorem Looping.set (h : Looping memory 14 x out m) :
    ∃ u, emulate m = .ok 0 u ∧ Looping memory 18 x out u ∧ u.R 2 = 1#16 :=
  ⟨_, hello_step (k := 5) rfl h.pc_eq h.loaded,
    ⟨h.loaded.of_memory_eq rfl, h.memory_eq, pc_next h.pc_eq 4, h.pointer, h.printed⟩, rfl⟩

/-- `ADD` in the loop moves on to the next character. -/
theorem Looping.add (h : Looping memory 18 x out m) (hone : m.R 2 = 1#16) :
    ∃ u, emulate m = .ok 0 u ∧ Looping memory 20 (x + 1#16) out u := by
  refine ⟨_, hello_step (k := 6) rfl h.pc_eq h.loaded, h.loaded.of_memory_eq rfl, h.memory_eq,
    pc_next h.pc_eq 2, ?_, h.printed⟩
  rw [← h.pointer, ← hone]
  rfl

/-- The jump at its end goes back to the head of the loop. -/
theorem Looping.back (h : Looping memory 20 x out m) :
    ∃ u, emulate m = .ok 0 u ∧ Looping memory 4 x out u :=
  ⟨_, hello_step (k := 7) rfl h.pc_eq h.loaded,
    h.loaded.of_memory_eq rfl, h.memory_eq, rfl, h.pointer, h.printed⟩

/-- Before its end a byte is printed, and the next one is turned to. -/
theorem Looping.print (h : Looping memory 8 x out m) (hz : m.Z ≠ 1) {b : Byte}
    (hb : m.R 1 = b.setWidth 16) :
    ∃ u, emulateN 5 m = .ok 0 u ∧ Looping memory 4 (x + 1#16) (out ++ [b]) u := by
  have hjmp : emulate m = .ok 0 (m.next 4) :=
    (hello_step (k := 3) rfl h.pc_eq h.loaded).trans (congrArg (EStateM.Result.ok 0) (if_neg hz))
  have hm₁ : Looping memory 12 x out (m.next 4) :=
    ⟨h.loaded.of_memory_eq rfl, h.memory_eq, pc_next h.pc_eq 4, h.pointer, h.printed⟩
  obtain ⟨m₂, hout, hm₂⟩ := hm₁.output hb
  obtain ⟨m₃, hset, hm₃, hone⟩ := hm₂.set
  obtain ⟨m₄, hadd, hm₄⟩ := hm₃.add hone
  obtain ⟨m₅, hback, hm₅⟩ := hm₄.back
  exact ⟨m₅, (emulateN_succ hjmp 4).trans ((emulateN_succ hout 3).trans
    ((emulateN_succ hset 2).trans ((emulateN_succ hadd 1).trans (emulateN_succ hback 0)))), hm₅⟩

/-- From the head of the loop the rest of the string is printed. -/
theorem Looping.run {bs : List Byte} (h : Looping memory 4 x out m) (ht : Text memory x bs) :
    ∃ n u, emulateN n m = .ok 1 u ∧ u.stdout = out ++ bs := by
  obtain ⟨u, hload, hu, hbyte, hz⟩ := h.load
  induction bs generalizing m x out u with
  | nil =>
      obtain ⟨v, hhalt, hv⟩ := hu.halt (hz.mpr ht)
      exact ⟨2 + 2, v, (emulateN_add hload 2).trans hhalt, by rwa [List.append_nil]⟩
  | cons b bs ih =>
      obtain ⟨rfl, hne, hrest⟩ := ht
      obtain ⟨v, hprint, hv⟩ := hu.print (fun h => hne (hz.mp h)) hbyte
      obtain ⟨w, hload', hw, hbyte', hz'⟩ := hv.load
      obtain ⟨n, last, hrun, hlast⟩ := ih hv hrest w hload' hw hbyte' hz'
      refine ⟨2 + (5 + n), last, ?_, ?_⟩
      · rw [emulateN_add hload, emulateN_add hprint, hrun]
      · rw [hlast, List.append_assoc, List.singleton_append]

/-- With the program at the bottom of the memory and a string behind it, the string is
printed. -/
theorem run_hello {bs : List Byte} {input : List Byte} (h : Loaded helloInsns (cpu memory input))
    (ht : Text memory 26#16 bs) :
    ∃ n u, emulateN n (cpu memory input) = .ok 1 u ∧ u.stdout = bs := by
  have hset := hello_step (k := 0) rfl rfl h
  have hloop : Looping memory 4 26#16 [] ((Insn.set 0 26).exec (cpu memory input)) :=
    ⟨h.of_memory_eq rfl, rfl, rfl, rfl, rfl⟩
  obtain ⟨n, u, hrun, hu⟩ := hloop.run ht
  exact ⟨n + 1, u, (emulateN_succ hset n).trans hrun, hu⟩

end Loop

/-! ### The image in memory -/

section Image

/-- An image at the bottom of the memory, and zeros behind it. -/
def memoryOf (image : List Byte) (x : Word) : Byte := (image[x.toNat]?).getD 0

variable {is : List (Insn ℕ)} {rest : List ℕ} {input : List Byte}

/-- The byte of an image at an address. -/
theorem memoryOf_ofNat {image : List Byte} {k : ℕ} (hk : k < 65536) :
    memoryOf image (.ofNat 16 k) = (image[k]?).getD 0 := by
  rw [memoryOf, BitVec.toNat_ofNat, Nat.mod_eq_of_lt hk]

/-- The program at the bottom of an image is at the bottom of the memory. -/
theorem loaded_memoryOf (hfits : (is.flatMap Insn.cells).length ≤ 65536) :
    Loaded is (cpu (memoryOf (imageCells (is.flatMap Insn.cells ++ rest))) input) := by
  intro k v hv
  obtain ⟨hk, -⟩ := List.getElem?_eq_some_iff.mp hv
  change memoryOf _ _ = _
  rw [memoryOf_ofNat (hk.trans_le hfits), imageCells, List.getElem?_map,
    List.getElem?_append_left hk, hv]
  rfl

/-- A string at the end of an image is in the memory, up to its zero. -/
theorem text_memoryOf (pre : List Byte) {bs : List Byte} (hbs : ∀ b ∈ bs, b ≠ 0)
    (hfits : pre.length + bs.length < 65536) :
    Text (memoryOf (pre ++ (bs ++ [0]))) (.ofNat 16 pre.length) bs := by
  induction bs generalizing pre with
  | nil =>
      change memoryOf (pre ++ [0]) _ = 0
      rw [memoryOf_ofNat (by simpa using hfits), List.getElem?_concat_length]
      rfl
  | cons b bs ih =>
      obtain ⟨hb, hbs⟩ := List.forall_mem_cons.mp hbs
      rw [List.length_cons] at hfits
      have hrest := ih (pre ++ [b]) hbs (by
        rw [List.length_append, List.length_singleton]
        omega)
      rw [List.append_assoc, List.length_append, BitVec.ofNat_add] at hrest
      refine ⟨?_, hb, hrest⟩
      rw [memoryOf_ofNat (by omega), List.getElem?_append_right (Nat.le_refl _), Nat.sub_self]
      rfl

/-- Behind an image there is the empty string. -/
theorem text_nil_memoryOf {image : List Byte} (hfits : image.length < 65536) :
    Text (memoryOf image) (.ofNat 16 image.length) [] := by
  change memoryOf image _ = 0
  rw [memoryOf_ofNat hfits, List.getElem?_eq_none (Nat.le_refl _)]
  rfl

end Image

/-! ### The file -/

/-- The lines of `hello.asm` in front of the string. -/
def helloCode : List String := [
  "#\n",
  "# file: hello.asm\n",
  "#\n",
  "\n",
  "\tSET R0 = hello_str\n",
  "loop:\tLOAD.B R1 <- *R0\n",
  " \tTEST R1\n",
  "\tJMP_Z done\n",
  "\tOUT R1\n",
  "\tSET R2 = 1\n",
  "\tADD R0+R2->R0\n",
  "\tJMP loop\n",
  "done:\tHALT\n",
  "\n",
  "hello_str:\n"]

/-- The lines of `hello.asm`, for a given string. -/
def helloLines (s : String) : List String := helloCode ++ ["\tSTRING \"" ++ s ++ "\"\n"]

/-- What the lines in front of the string are written for. -/
def helloProgram : List Statement := [
  .insn (.set 0 (.label "hello_str")),
  .symbol "loop",
  .insn (.loadRel .byte 1 0),
  .insn (.test 1),
  .insn (.jmp .z (.label "done")),
  .insn (.output 1),
  .insn (.set 2 (.number 1)),
  .insn (.alu .add 0 2 0),
  .insn (.jmp .always (.label "loop")),
  .symbol "done",
  .insn .halt,
  .symbol "hello_str"]

/-- What the line of the string is taken for: a string of one colon looks like that of a
label. -/
def helloString (s : String) : List Statement :=
  if s = ":" then [.symbol "STRING"] else [.string s]

/-- Lines that leave the tokenizer outside quotes do not bear on the lines behind them. -/
theorem tokenize_append {front rest : List String}
    (h : ∀ line ∈ front, (parse false line).2 = false) :
    tokenize false (front ++ rest) = tokenize false front ++ tokenize false rest := by
  induction front with
  | nil => rfl
  | cons line front ih =>
      obtain ⟨hline, h⟩ := List.forall_mem_cons.mp h
      rw [List.cons_append, tokenize, tokenize, hline, ih h, List.cons_append]

/-- The tokens of the program's lines. -/
theorem tokenize_helloCode : tokenize false helloCode = [
    [], [], [], [],
    ["SET", "R0", "=", "hello_str"],
    ["loop", ":", "LOAD.B", "R1", "<-", "*", "R0"],
    ["TEST", "R1"],
    ["JMP_Z", "done"],
    ["OUT", "R1"],
    ["SET", "R2", "=", "1"],
    ["ADD", "R0", "+", "R2", "->", "R0"],
    ["JMP", "loop"],
    ["done", ":", "HALT"],
    [],
    ["hello_str", ":"]] := by
  decide

/-- A program in two parts reads as its parts. -/
theorem ReadsProgram.append {front back : List (List String)} {p q : List Statement}
    (h : ReadsProgram front p) (h' : ReadsProgram back q) :
    ReadsProgram (front ++ back) (p ++ q) := by
  induction h with
  | nil => exact h'
  | cons htokens _ ih =>
      rw [List.append_assoc]
      exact .cons htokens ih

/-- The lines read as the program. -/
theorem readsProgram_helloCode : ReadsProgram (tokenize false helloCode) helloProgram := by
  have hR0 : NamesReg "R0" 0 := ⟨[], rfl⟩
  have hR1 : NamesReg "R1" 1 := ⟨[], rfl⟩
  have hR2 : NamesReg "R2" 2 := ⟨[], rfl⟩
  have hlabel : ∀ l ∈ ["loop", "done", "hello_str"], isIdentifier l := by decide
  have hoperand : ∀ l ∈ ["loop", "done", "hello_str"], ReadsOperand l (.label l) :=
    fun l hl => ⟨rfl, hlabel l hl⟩
  have hone : ReadsOperand "1" (.number 1) := ⟨by decide, rfl, by decide⟩
  rw [tokenize_helloCode]
  exact .cons .blank <| .cons .blank <| .cons .blank <| .cons .blank <|
    .cons (.line (by decide) (.insn (.set hR0 (hoperand _ (by decide))))) <|
    .cons (.labelled (.symbol (hlabel _ (by decide))) (.insn (.loadRel .byte hR1 hR0))) <|
    .cons (.line (by decide) (.insn (.test hR1))) <|
    .cons (.line (by decide) (.insn (.jmp .z (hoperand _ (by decide))))) <|
    .cons (.line (by decide) (.insn (.output hR1))) <|
    .cons (.line (by decide) (.insn (.set hR2 hone))) <|
    .cons (.line (by decide) (.insn (.alu .add hR0 hR2 hR0))) <|
    .cons (.line (by decide) (.insn (.jmp .always (hoperand _ (by decide))))) <|
    .cons (.labelled (.symbol (hlabel _ (by decide))) (.insn .halt)) <|
    .cons .blank <|
    .cons (.label (.symbol (hlabel _ (by decide)))) .nil

/-- Printable ASCII, without the characters that mean something in the quotes of a string. -/
def Printable (c : Char) : Prop :=
  0x20 ≤ c.toNat ∧ c.toNat ≤ 0x7E ∧ c ≠ '"' ∧ c ≠ '#' ∧ c ≠ '\\'

/-- Whether a character can stand in the string can be computed. -/
instance (c : Char) : Decidable (Printable c) := inferInstanceAs (Decidable (_ ∧ _))

section File

variable {s : String}

/-- The line with the text, as the tokenizer reads it. -/
theorem parse_helloString (hne : s ≠ "") (hs : ∀ c ∈ s.toList, Printable c) :
    parse false ("\tSTRING \"" ++ s ++ "\"\n") = (["STRING", s], false) := by
  have hsolid : Solid "STRING".toList := by decide
  have hblank : ∀ c, isSpace c = true → Blank [c] := by
    intro c hc d hd
    rwa [List.mem_singleton.mp hd]
  have hline : ("\tSTRING \"" ++ s ++ "\"\n").toList =
      ['\t'] ++ (("STRING".toList ++ ([' '] ++ ('"' :: (s.toList ++ ['"'])))) ++ ['\n']) := by
    rw [String.toList_append, String.toList_append]
    simp
  rw [parse_quoted hsolid (hblank ' ' rfl) (List.cons_ne_nil _ _)
    (fun c hc => ⟨(hs c hc).2.2.1, (hs c hc).2.2.2.1⟩) (mt String.toList_eq_nil_iff.mp hne)
    (hblank '\t' rfl) (hblank '\n' rfl) hline, String.ofList_toList, String.ofList_toList]

/-- The tokens of that line read as the string. -/
theorem readsTokens_helloString (s : String) : ReadsTokens ["STRING", s] (helloString s) := by
  rw [helloString]
  split
  · rename_i h
    rw [h]
    exact .label (.symbol (by decide))
  · rename_i h
    exact .line (fun hcolon => h (Option.some.inj hcolon)) (.string s)

/-- How the file is read. -/
theorem readsProgram_helloLines (hne : s ≠ "") (hs : ∀ c ∈ s.toList, Printable c) :
    ReadsProgram (tokenize false (helloLines s)) (helloProgram ++ helloString s) := by
  have hquote : ∀ line ∈ helloCode, (parse false line).2 = false := by decide
  rw [helloLines, tokenize_append hquote, tokenize, parse_helloString hne hs]
  refine readsProgram_helloCode.append ?_
  have hstring := ReadsProgram.cons (readsTokens_helloString s) .nil
  rwa [List.append_nil] at hstring

/-- The cells of the string, and of the zero at its end. -/
def stringCells (s : String) : List ℕ :=
  if s = ":" then [] else s.toList.map Char.toNat ++ [0]

/-- A text without backslashes has no newlines to replace. -/
theorem replaceNewlines_eq {l : List Char} (h : ∀ c ∈ l, c ≠ '\\') : replaceNewlines l = l := by
  fun_induction replaceNewlines l with
  | case1 rest _ => exact absurd rfl (h _ List.mem_cons_self)
  | case2 c rest _ ih => rw [ih fun d hd => h d (List.mem_cons_of_mem c hd)]
  | case3 => rfl

/-- What the string takes up in the image. -/
theorem cells_helloString (hs : ∀ c ∈ s.toList, Printable c) (address : String → ℕ) (addr : ℕ) :
    cells address addr (helloString s) = stringCells s := by
  rw [helloString, stringCells]
  split
  · rfl
  · rw [cells, cells, List.append_nil, Statement.cells,
      replaceNewlines_eq fun c hc => (hs c hc).2.2.2.2]

/-- The labels of the program are defined once. -/
theorem resolved_hello (s : String) : Resolved (helloProgram ++ helloString s) := by
  have hrefers : (helloString s).flatMap Statement.refers = [] := by
    rw [helloString]
    split <;> rfl
  have hdefines : (helloString s).flatMap Statement.defines ∈ [[], ["STRING"]] := by
    rw [helloString]
    split <;> simp [Statement.defines]
  rw [Resolved, List.flatMap_append, List.flatMap_append, hrefers]
  generalize (helloString s).flatMap Statement.defines = labels at hdefines
  revert labels
  decide

/-- The addresses of the labels that the program refers to. -/
theorem addressOf_hello (s : String) :
    addressOf (helloProgram ++ helloString s) "loop" = 4 ∧
      addressOf (helloProgram ++ helloString s) "done" = 24 ∧
      addressOf (helloProgram ++ helloString s) "hello_str" = 26 :=
  ⟨rfl, rfl, rfl⟩

/-- The instructions with the addresses of the labels filled in. -/
theorem cells_helloProgram {address : String → ℕ} (hloop : address "loop" = 4)
    (hdone : address "done" = 24) (hstr : address "hello_str" = 26) :
    cells address 0 helloProgram = helloInsns.flatMap Insn.cells := by
  simp only [helloProgram, cells, Statement.cells, Insn.const, Operand.value, hloop, hdone, hstr]
  rfl

/-- The cells of the image. -/
def helloCells (s : String) : List ℕ := helloInsns.flatMap Insn.cells ++ stringCells s

/-- The image that the file is assembled to. -/
theorem imageOf_hello (hne : s ≠ "") (hs : ∀ c ∈ s.toList, Printable c)
    (hfits : (helloCells s).length ≤ 65536) :
    imageOf (helloLines s) = some (imageCells (helloCells s)) := by
  obtain ⟨hloop, hdone, hstr⟩ := addressOf_hello s
  have hcells : cells (addressOf (helloProgram ++ helloString s)) 0
      (helloProgram ++ helloString s) = helloCells s := by
    rw [cells_append, cells_helloProgram hloop hdone hstr, cells_helloString hs, helloCells]
  have hend : endAddr 0 (helloProgram ++ helloString s) ≤ 65536 := by
    rwa [← length_cells_zero, hcells]
  rw [imageOf_eq (readsProgram_helloLines hne hs) (resolved_hello s) hend, twoPass, hcells]
  refine mapM_byteOf fun v hv => ?_
  have hcode : ∀ v ∈ helloInsns.flatMap Insn.cells, v < 256 := by decide
  rcases List.mem_append.mp hv with hv | hv
  · exact hcode v hv
  · rw [stringCells] at hv
    split at hv
    · exact absurd hv List.not_mem_nil
    · rcases List.mem_append.mp hv with hv | hv
      · obtain ⟨c, hc, rfl⟩ := List.mem_map.mp hv
        have := (hs c hc).2.1
        omega
      · rw [List.mem_singleton.mp hv]
        omega

end File

/-! ### What is printed -/

/-- The bytes of a string. -/
def bytesOf (s : String) : List Byte := imageCells (s.toList.map Char.toNat)

/-- The file is assembled, and on the image, whatever the input is, the simulator halts after
some calls of `emulate`, with these bytes printed. -/
def Prints (lines : List String) (out : List Byte) : Prop :=
  ∃ image, imageOf lines = some image ∧ ∀ input, ∃ n m,
    emulateN n (cpu (memoryOf image) input) = .ok 1 m ∧ m.stdout = out

section Printing

variable {s : String}

/-- A program prints one output. -/
theorem Prints.unique {lines : List String} {out out' : List Byte} (h : Prints lines out)
    (h' : Prints lines out') : out = out' := by
  obtain ⟨image, himage, hrun⟩ := h
  obtain ⟨image', himage', hrun'⟩ := h'
  obtain rfl : image = image' := Option.some.inj (himage.symm.trans himage')
  obtain ⟨n, m, hm, rfl⟩ := hrun []
  obtain ⟨k, u, hu, rfl⟩ := hrun' []
  rw [emulateN_unique hm hu]

/-- The text behind the code is the string, unless its line is taken for a label. -/
theorem text_hello (hs : ∀ c ∈ s.toList, Printable c) (hfits : 27 + s.toList.length ≤ 65536) :
    Text (memoryOf (imageCells (helloCells s))) 26#16 (if s = ":" then [] else bytesOf s) := by
  have hlen : (imageCells (helloInsns.flatMap Insn.cells)).length = 26 := rfl
  have hcells : imageCells (helloCells s) =
      imageCells (helloInsns.flatMap Insn.cells) ++ imageCells (stringCells s) :=
    List.map_append
  rw [hcells, stringCells]
  split
  · have hnil : imageCells [] = [] := rfl
    rw [hnil, List.append_nil]
    exact text_nil_memoryOf (hlen.trans_lt (by decide))
  · have hbytes : ∀ b ∈ bytesOf s, b ≠ 0 := by
      intro b hb hzero
      obtain ⟨v, hv, rfl⟩ := List.mem_map.mp hb
      obtain ⟨c, hc, rfl⟩ := List.mem_map.mp hv
      have hnat := congrArg BitVec.toNat hzero
      rw [BitVec.toNat_ofNat] at hnat
      have := hs c hc
      rw [Printable] at this
      change c.toNat % 256 = 0 at hnat
      omega
    have hlength : (bytesOf s).length = s.toList.length := by
      rw [bytesOf, imageCells, List.length_map, List.length_map]
    have htext := text_memoryOf (imageCells (helloInsns.flatMap Insn.cells)) hbytes (by
      rw [hlen, hlength]
      omega)
    have hstring : imageCells (s.toList.map Char.toNat ++ [0]) = bytesOf s ++ [0] :=
      List.map_append
    rwa [hstring]

/-- What the program prints. -/
theorem prints_hello (hne : s ≠ "") (hs : ∀ c ∈ s.toList, Printable c)
    (hfits : 27 + s.toList.length ≤ 65536) :
    Prints (helloLines s) (if s = ":" then [] else bytesOf s) := by
  have hlen : (helloInsns.flatMap Insn.cells).length = 26 := rfl
  have hcells : (helloCells s).length ≤ 65536 := by
    rw [helloCells, stringCells, List.length_append, hlen]
    split
    · decide
    · rw [List.length_append, List.length_map, List.length_singleton]
      omega
  exact ⟨_, imageOf_hello hne hs hcells, fun _ =>
    run_hello (loaded_memoryOf (hlen.trans_le (by decide))) (text_hello hs hfits)⟩

/-- The program prints its string, byte by byte and nothing else, and comes to its `HALT`, if
and only if that string is not a colon. The text may be of any length that fits. -/
theorem hello_prints_iff (s : String) (hne : s ≠ "") (hs : ∀ c ∈ s.toList, Printable c)
    (hfits : 27 + s.toList.length ≤ 65536) :
    Prints (helloLines s) (bytesOf s) ↔ s ≠ ":" := by
  have hprints := prints_hello hne hs hfits
  constructor
  · rintro h rfl
    rw [if_pos rfl] at hprints
    exact absurd (h.unique hprints) (by decide)
  · intro hcolon
    rwa [if_neg hcolon] at hprints

/-- The text `Hi` is printed. -/
theorem hello_prints_hi : Prints (helloLines "Hi") (bytesOf "Hi") := by
  have hprintable : ∀ c ∈ "Hi".toList, Printable c := by
    have hlist : "Hi".toList = ['H', 'i'] := rfl
    simp only [hlist, List.forall_mem_cons, List.not_mem_nil, false_imp_iff, implies_true,
      and_true]
    decide
  exact (hello_prints_iff "Hi" (by decide) hprintable (by decide)).mpr (by decide)

/-- The line of a colon is taken for a label, and nothing is printed. -/
theorem not_hello_prints : ¬ Prints (helloLines ":") (bytesOf ":") := by
  have hprintable : ∀ c ∈ ":".toList, Printable c := by
    have hlist : ":".toList = [':'] := rfl
    simp only [hlist, List.forall_mem_cons, List.not_mem_nil, false_imp_iff, implies_true,
      and_true]
    decide
  have hprints := prints_hello (s := ":") (by decide) hprintable (by decide)
  exact fun h => absurd (h.unique hprints) (by decide)

end Printing

end SystemsProjects.BareMetal
