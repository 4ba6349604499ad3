import SystemsProjects.BareMetal.Calls
import SystemsProjects.BareMetal.TwoPass

/-!
# What a Program Means

A program as it is written, without its image: the statements are carried out one after the
other, and a jump to a label goes on behind the definition of that label. The statements are
not in memory, so a store does not change them. Where an address is gone to that is no label,
an address in a register or on the stack, the program goes on with what starts there.

The memory has the data of the program, and its code too, for a program may read it. It may
not write it: a step that stores to the code goes wrong, as one does that leaves the memory or
that the emulator does not carry out as written.

## Main definitions

* `Insn.target`: where an instruction goes on.
* `behind`, `startingAt`: the rest of a program from a label or from an address.
* `Insn.Sound`: the instruction does not go wrong.
* `Config.step`: one step of a program.
* `Follows`: the runs of a program.

## Main results

* `Follows.safe`: a program that comes to a `HALT` does not go wrong.
* `behind_eq_some`, `startingAt_eq_some`: these rests have the addresses of the first pass.
* `Insn.PC_exec_target`: the address that an instruction goes on at.
* `Insn.memory_exec`: an instruction leaves the bytes that it does not touch.
-/

namespace SystemsProjects.BareMetal

/-! ### Where an instruction goes on -/

/-- Where an instruction goes on: behind it, at its constant, or at an address that the machine
has in a register or on its stack. -/
inductive Target (κ : Type)
  | next
  | const (x : κ)
  | address (x : Word)
  deriving DecidableEq, Repr

/-- Where the instruction goes on. -/
def Insn.target {κ : Type} (m : Machine) : Insn κ → Target κ
  | .jmp cond x => if cond.Holds m then .const x else .next
  | .jmpRel cond a => if cond.Holds m then .address (m.R a) else .next
  | .call x => .const x
  | .callRel a => .address (m.R a)
  | .ret => .address (m.word m.SP)
  | _ => .next

/-- What is behind the definition of a label. -/
def behind (l : String) : List Statement → Option (List Statement)
  | [] => none
  | st :: p => if st = .symbol l then some p else behind l p

/-- What starts at an address, of a program that starts at `addr`. -/
def startingAt (x : ℕ) : ℕ → List Statement → Option (List Statement)
  | _, [] => none
  | addr, st :: p => if addr = x then some (st :: p) else startingAt x (addr + st.size addr) p

/-- What the program `p` goes on with, in front of `rest`. An address leads to the statement
that starts there, if one does. -/
def goesOn (p rest : List Statement) : Target Operand → Option (List Statement)
  | .next => some rest
  | .const (.label l) => behind l p
  | .const (.number n) => startingAt n 0 p
  | .address x => startingAt x.toNat 0 p

/-! ### What goes wrong -/

/-- The addresses of the bytes that the instruction writes. -/
def Insn.touched (m : Machine) (i : Insn Word) : List Word :=
  (i.writes m).map Prod.fst ++ i.pushes m

/-- The addresses of the code. -/
def codeBytes : ℕ → List Statement → List Word
  | _, [] => []
  | addr, .insn i :: p =>
      (List.range i.size).map (fun k => .ofNat 16 (addr + k)) ++ codeBytes (addr + i.size) p
  | addr, st :: p => codeBytes (addr + st.size addr) p

/-- Whether an instruction is carried out as written can be computed. -/
instance decidableSupported (m : Machine) : (i : Insn Word) → Decidable (i.Supported m)
  | .store w _ _ => inferInstanceAs (Decidable (w ≠ .byte))
  | .move s d => inferInstanceAs (Decidable (¬ (s = .sp ∧ d = .sp)))
  | .alu op _ b _ => inferInstanceAs (Decidable (op = .rshift → (m.R b).toNat < 32))
  | .set .. | .load .. | .loadRel .. | .storeRel .. | .cmp .. | .test .. | .jmp .. | .jmpRel ..
  | .call .. | .callRel .. | .ret | .halt | .push .. | .pop .. | .input .. | .output .. =>
      inferInstanceAs (Decidable True)

/-- The instruction is carried out as written, its words are in the memory, and it leaves the
code of the program alone. -/
def Insn.Sound (p : List Statement) (m : Machine) (i : Insn Word) : Prop :=
  i.Supported m ∧ (∀ x ∈ i.words m, WordAt x) ∧ ∀ x ∈ i.touched m, x ∉ codeBytes 0 p

-- both lists are gone through: the instance for all words would try each of them

/-- Whether a step goes wrong can be computed. -/
instance decidableSound (p : List Statement) (m : Machine) (i : Insn Word) :
    Decidable (i.Sound p m) :=
  @instDecidableAnd _ _ inferInstance (@instDecidableAnd _ _
    (List.decidableBAll (fun x => x ≠ 0xFFFF) (i.words m))
    (List.decidableBAll (fun x => x ∉ codeBytes 0 p) (i.touched m)))

/-! ### Runs -/

/-- What is still to be carried out, and the machine. Its `PC` is the address of that, for a
call to push the one behind it. -/
structure Config where
  rest : List Statement
  machine : Machine

/-- An instruction of the program, with the addresses of its labels. -/
def resolve (p : List Statement) (i : Insn Operand) : Insn Word :=
  i.map fun o => .ofNat 16 (o.value (addressOf p))

/-- One step of the program `p`. There is none at a `HALT`, nor where the program goes wrong:
at the end of the statements, at data, and at an instruction that is not sound or that goes on
where nothing starts. -/
def Config.step (p : List Statement) (c : Config) : Option Config :=
  match c.rest with
  | [] => none
  | .insn i :: rest =>
      if i ≠ .halt ∧ (resolve p i).Sound p c.machine then
        (goesOn p rest (i.target c.machine)).map fun rest' =>
          ⟨rest', (resolve p i).exec c.machine⟩
      else none
  | st :: rest => if st.size c.machine.PC.toNat = 0 then some ⟨rest, c.machine⟩ else none

/-- The program has come to a `HALT`. -/
def Config.Halts (c : Config) : Prop := c.rest.head? = some (.insn .halt)

/-- The runs of a program, statement by statement. They say nothing of how it is assembled. -/
def Follows (p : List Statement) : Config → Config → Prop :=
  Relation.ReflTransGen fun c c' => c.step p = some c'

/-- What a step is: an instruction that is carried out, or a statement that takes no room. -/
theorem Config.step_cases {p : List Statement} {c c' : Config} (h : c.step p = some c') :
    (∃ i rest r, c.rest = .insn i :: rest ∧ i ≠ .halt ∧ (resolve p i).Sound p c.machine ∧
      goesOn p rest (i.target c.machine) = some r ∧
      c' = ⟨r, (resolve p i).exec c.machine⟩) ∨
    ∃ st rest, c.rest = st :: rest ∧ (∀ i, st ≠ .insn i) ∧
      st.size c.machine.PC.toNat = 0 ∧ c' = ⟨rest, c.machine⟩ := by
  obtain ⟨rest, m⟩ := c
  cases rest with
  | nil => cases h
  | cons st rest =>
      cases st with
      | insn i =>
          simp only [step] at h
          split at h
          · obtain ⟨r, hr, rfl⟩ := Option.map_eq_some_iff.mp h
            exact .inl ⟨i, rest, r, rfl, (‹i ≠ .halt ∧ _›).1, (‹i ≠ .halt ∧ _›).2, hr, rfl⟩
          · cases h
      | _ =>
          simp only [step] at h
          split at h
          · cases h
            exact .inr ⟨_, rest, rfl, nofun, ‹_›, rfl⟩
          · cases h

section Safety

variable {p : List Statement} {c c' : Config}

/-- There is no step at a `HALT`. -/
theorem Config.Halts.step_eq (h : c.Halts) : c.step p = none := by
  obtain ⟨rest, m⟩ := c
  obtain ⟨rest', rfl⟩ := List.head?_eq_some_iff.mp h
  simp only [step]
  exact if_neg (not_and.mpr fun hne => absurd rfl hne)

end Safety

/-! ### Rests and their addresses -/

section Rests

variable {p r : List Statement} {l : String} {x addr : ℕ}

/-- The rest behind a label is at the address of that label. -/
theorem behind_eq_some (h : behind l p = some r) (addr : ℕ) :
    ∃ d, p = d ++ r ∧ (places addr p).lookup l = some (endAddr addr d) := by
  induction p generalizing addr with
  | nil => cases h
  | cons st p ih =>
      rw [behind] at h
      split at h
      · subst st
        cases h
        refine ⟨[.symbol l], rfl, ?_⟩
        rw [places, Statement.defines, List.map_singleton, List.singleton_append,
          List.lookup_cons, beq_self_eq_true]
        rfl
      · rename_i hne
        obtain ⟨d, rfl, hd⟩ := ih h (addr + st.size addr)
        refine ⟨st :: d, rfl, ?_⟩
        have hskip : ∀ q, (st.defines.map (fun l => (l, addr)) ++ q).lookup l = q.lookup l := by
          intro q
          cases st with
          | symbol l' =>
              have hl : (l == l') = false := beq_eq_false_iff_ne.mpr fun e => hne (e ▸ rfl)
              rw [Statement.defines, List.map_singleton, List.singleton_append, List.lookup_cons,
                hl]
          | _ => rfl
        rw [places, hskip]
        exact hd

/-- It is where the second pass has the label. -/
theorem addressOf_behind (h : behind l p = some r) :
    ∃ d, p = d ++ r ∧ addressOf p l = endAddr 0 d := by
  obtain ⟨d, hd, hlookup⟩ := behind_eq_some h 0
  refine ⟨d, hd, ?_⟩
  rw [addressOf, hlookup]
  rfl

/-- What starts at an address is there. -/
theorem startingAt_eq_some (h : startingAt x addr p = some r) :
    ∃ d, p = d ++ r ∧ x = endAddr addr d := by
  induction p generalizing addr with
  | nil => cases h
  | cons st p ih =>
      rw [startingAt] at h
      split at h
      · cases h
        exact ⟨[], rfl, (‹addr = x›).symm⟩
      · obtain ⟨d, rfl, hd⟩ := ih h
        exact ⟨st :: d, rfl, hd⟩

end Rests

/-! ### What an instruction does -/

section Instructions

variable {i : Insn Operand} {m : Machine} {address : String → ℕ}

/-- The address that a target stands for, for an instruction of `n` bytes. -/
def Target.place (m : Machine) (n : ℕ) : Target Word → Word
  | .next => m.PC + .ofNat 16 n
  | .const x => x
  | .address x => x

/-- With its constant replaced, an instruction goes to the constant that replaces it. -/
def Target.map {κ μ : Type} (f : κ → μ) : Target κ → Target μ
  | .next => .next
  | .const x => .const (f x)
  | .address x => .address x

/-- The target of a jump is replaced with its constant. -/
theorem Insn.target_map {κ μ : Type} (f : κ → μ) (i : Insn κ) :
    (i.map f).target m = (i.target m).map f := by
  cases i with
  | jmp cond x =>
      simp only [map, target]
      split <;> rfl
  | jmpRel cond a =>
      simp only [map, target]
      split <;> rfl
  | _ => rfl

/-- An instruction goes on at its target. -/
theorem Insn.PC_exec_target {i : Insn Word} (hr : i.result = 0) :
    (i.exec m).PC = (i.target m).place m i.size := by
  have hjump (cond : Cond) (t : Target Word) (x : Word) (n : ℕ) (hx : t.place m n = x) :
      (if cond.Holds m then x else m.PC + .ofNat 16 n) =
        (if cond.Holds m then t else .next).place m n := by
    rw [apply_ite (Target.place m n), hx]
    rfl
  rw [PC_exec_eq hr]
  cases i with
  | jmp cond x => exact hjump cond (.const x) x 4 rfl
  | jmpRel cond a => exact hjump cond (.address (m.R a)) (m.R a) 2 rfl
  | _ => rfl

/-- A push changes the two bytes below the stack pointer only. -/
theorem Machine.memory_pushWord_of_notMem {v y : Word} (h : y ∉ [m.SP - 2#16, m.SP - 1#16]) :
    (m.pushWord v).memory y = m.memory y := by
  have e : m.SP - 2#16 + 1#16 = m.SP - 1#16 := by bv_omega
  obtain ⟨h₁, h₂⟩ := not_or.mp (mt List.mem_pair.mpr h)
  simp only [pushWord, putWord, putByte, e]
  rw [Function.update_of_ne h₂, Function.update_of_ne h₁]

/-- The memory of an instruction that pushes. -/
theorem Insn.memory_exec_of_pushes {i : Insn Word} (h : i.SetsSP) :
    (∃ v, (i.exec m).memory = (m.pushWord v).memory ∧
      i.pushes m = [m.SP - 2#16, m.SP - 1#16]) ∨ (i.exec m).memory = m.memory := by
  cases i with
  | call x => exact .inl ⟨_, rfl, rfl⟩
  | callRel a => exact .inl ⟨_, rfl, rfl⟩
  | push a => exact .inl ⟨_, rfl, rfl⟩
  | move s d =>
      cases d with
      | r i => exact absurd h id
      | sp => exact .inr rfl
  | ret => exact .inr rfl
  | pop a => exact .inr rfl
  | _ => exact absurd h id

/-- An instruction leaves the bytes that it does not touch. -/
theorem Insn.memory_exec {i : Insn Word} {y : Word} (h : y ∉ i.touched m) :
    (i.exec m).memory y = m.memory y := by
  have hpush : y ∉ i.pushes m := fun hy => h (List.mem_append_right _ hy)
  have hwrite : ∀ e ∈ i.writes m, e.1 ≠ y := by
    rintro e he rfl
    exact h (List.mem_append_left _ (List.mem_map_of_mem he))
  by_cases hs : i.SetsSP
  · rcases memory_exec_of_pushes (m := m) hs with ⟨v, hmem, hp⟩ | hmem
    · rw [hmem]
      exact Machine.memory_pushWord_of_notMem (hp ▸ hpush)
    · rw [hmem]
  · rw [(exec_aside hs).2]
    exact remember_of_notMem hwrite

end Instructions

end SystemsProjects.BareMetal
