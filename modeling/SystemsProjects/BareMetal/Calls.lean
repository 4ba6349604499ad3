import SystemsProjects.BareMetal.Flags
import SystemsProjects.BareMetal.Memory

/-!
# Calls and the Stack

A call pushes the address behind it, and `RET` pops an address and goes there. Between the
two the stack holds other words too: those of inner calls and of `PUSH`. As long as these
come in matching pairs and nothing else writes to the words in use, each word is popped as
it was pushed, so that every call comes back.

## Main definitions

* `Insn.writes`: what an instruction stores, the stack apart.
* `Aside`: a step that leaves the stack alone.
* `Nested`: a part of a run in which pushes and pops match.
* `CallSegment`: a part of a run from a call to the return that matches it.

## Main results

* `Nested.keeps`: what such a part of a run keeps.
* `call_returns`: a call comes back, whatever is nested in it.
-/

namespace SystemsProjects.BareMetal

/-! ### Steps beside the stack -/

/-- What the instruction stores at the address it names. -/
def Insn.writes (m : Machine) : Insn Word → List (Word × Byte)
  | .store w a x => w.stored x (m.R a)
  | .storeRel w a b => w.stored (m.R b) (m.R a)
  | _ => []

/-- The instruction sets `SP`. -/
def Insn.SetsSP {κ : Type} : Insn κ → Prop
  | .call _ | .callRel _ | .ret | .push _ | .pop _ | .move _ .sp => True
  | _ => False

/-- A step that leaves `SP` alone, and the words of the stack that are in use: those from
`SP` up to `s`. -/
structure Aside (s : Word) (m m' : Machine) : Prop where
  run : emulate m = .ok 0 m'
  keeps : ¬m.current.SetsSP
  clear : ∀ e ∈ m.current.writes m, ¬(m.SP.toNat ≤ e.1.toNat ∧ e.1.toNat < s.toNat)

/-- The instruction is a call, in one of its two forms. -/
def Insn.IsCall {κ : Type} : Insn κ → Prop
  | .call _ | .callRel _ => True
  | _ => False

/-! ### Parts of runs -/

/-- A part of a run, inside a call made at `SP = s`, in which every `PUSH` is matched by a
`POP` and every call by a `RET`. Listed with it are what its stores write, and for each pair
the word that was pushed and the word that the `POP` has delivered. -/
inductive Nested (s : Word) :
    Machine → List (Word × Byte) → List (Word × Word) → Machine → Prop
  | nil {m : Machine} : Nested s m [] [] m
  | aside {m m₁ m₂ : Machine} {log : List (Word × Byte)} {pops : List (Word × Word)} :
      Aside s m m₁ → Nested s m₁ log pops m₂ →
      Nested s m (m.current.writes m ++ log) pops m₂
  | pushPop {m m₁ m₂ m₃ m₄ : Machine} {log₁ log₂ : List (Word × Byte)}
      {pops₁ pops₂ : List (Word × Word)} {a c : Fin 8} :
      m.current = .push a → 2 ≤ m.SP.toNat → emulate m = .ok 0 m₁ →
      Nested s m₁ log₁ pops₁ m₂ →
      m₂.current = .pop c → emulate m₂ = .ok 0 m₃ → Nested s m₃ log₂ pops₂ m₄ →
      Nested s m (log₁ ++ log₂) ((m.R a, m₃.R c) :: (pops₁ ++ pops₂)) m₄
  | call {m m₁ m₂ m₃ m₄ : Machine} {log₁ log₂ : List (Word × Byte)}
      {pops₁ pops₂ : List (Word × Word)} :
      m.current.IsCall → 2 ≤ m.SP.toNat → emulate m = .ok 0 m₁ →
      Nested s m₁ log₁ pops₁ m₂ →
      m₂.current = .ret → emulate m₂ = .ok 0 m₃ → Nested s m₃ log₂ pops₂ m₄ →
      Nested s m (log₁ ++ log₂) (pops₁ ++ pops₂) m₄

/-- A part of a run from a call to the `RET` that matches it. Calls and pushes within it are
matched by returns and pops, as brackets are. -/
inductive CallSegment :
    Machine → List (Word × Byte) → List (Word × Word) → Machine → Prop
  | mk {m m₁ m₂ m₃ : Machine} {log : List (Word × Byte)} {pops : List (Word × Word)} :
      m.current.IsCall → 2 ≤ m.SP.toNat → emulate m = .ok 0 m₁ →
      Nested m.SP m₁ log pops m₂ →
      m₂.current = .ret → emulate m₂ = .ok 0 m₃ → CallSegment m log pops m₃

/-- It is part of a run. -/
theorem Nested.reaches {s : Word} {m m' : Machine} {log : List (Word × Byte)}
    {pops : List (Word × Word)} (h : Nested s m log pops m') : Reaches m m' := by
  induction h with
  | nil => exact .refl
  | aside h _ ih => exact .head ⟨0, h.run⟩ ih
  | pushPop _ _ h _ _ h' _ ih ih' => exact .head ⟨0, h⟩ (ih.trans (.head ⟨0, h'⟩ ih'))
  | call _ _ h _ _ h' _ ih ih' => exact .head ⟨0, h⟩ (ih.trans (.head ⟨0, h'⟩ ih'))

/-! ### What a step does to the stack -/

section Steps

variable {s : Word} {m m' : Machine}

/-- A step beside the stack changes what it stores, and `SP` not at all. -/
theorem Insn.exec_aside {i : Insn Word} (h : ¬i.SetsSP) :
    (i.exec m).SP = m.SP ∧ (i.exec m).memory = remember m.memory (i.writes m) := by
  cases i with
  | store w a x =>
      simp only [exec, Machine.put_eq]
      exact ⟨rfl, rfl⟩
  | storeRel w a b =>
      simp only [exec, Machine.put_eq]
      exact ⟨rfl, rfl⟩
  | move s d =>
      cases d with
      | r i => exact ⟨rfl, rfl⟩
      | sp => exact absurd True.intro h
  | jmp cond x =>
      simp only [exec]
      split <;> exact ⟨rfl, rfl⟩
  | jmpRel cond a =>
      simp only [exec]
      split <;> exact ⟨rfl, rfl⟩
  | input a =>
      simp only [exec, Machine.readInto]
      split <;> exact ⟨rfl, rfl⟩
  | call x => exact absurd True.intro h
  | callRel a => exact absurd True.intro h
  | ret => exact absurd True.intro h
  | push a => exact absurd True.intro h
  | pop a => exact absurd True.intro h
  | _ => exact ⟨rfl, rfl⟩

/-- What is not stored to stays. -/
theorem remember_of_notMem {memory : Word → Byte} {log : List (Word × Byte)} {y : Word}
    (h : ∀ e ∈ log, e.1 ≠ y) : remember memory log y = memory y := by
  induction log generalizing memory with
  | nil => rfl
  | cons e log ih =>
      rw [List.forall_mem_cons] at h
      refine (ih h.2).trans ?_
      exact Function.update_of_ne h.1.symm ..

/-- A push keeps what is at `SP` and above. -/
theorem Machine.memory_pushWord {v y : Word} (h2 : 2 ≤ m.SP.toNat) (hy : m.SP.toNat ≤ y.toNat) :
    (m.pushWord v).memory y = m.memory y := by
  have h₁ : y ≠ m.SP - 2#16 := by bv_omega
  have h₂ : y ≠ m.SP - 2#16 + 1#16 := by bv_omega
  simp only [pushWord, putWord, putByte]
  rw [Function.update_of_ne h₂, Function.update_of_ne h₁]

/-- What a part of a run keeps: `SP`, the words in use, and above them everything but what
was stored there. Every word that was popped is the one that was pushed. -/
structure Keeps (s : Word) (m : Machine) (log : List (Word × Byte)) (pops : List (Word × Word))
    (m' : Machine) : Prop where
  SP : m'.SP = m.SP
  pops : ∀ p ∈ pops, p.2 = p.1
  inUse : ∀ y : Word, m.SP.toNat ≤ y.toNat → y.toNat < s.toNat → m'.memory y = m.memory y
  above : ∀ y : Word, s.toNat ≤ y.toNat → m'.memory y = remember m.memory log y

namespace Keeps

variable {m₁ m₂ m₃ : Machine} {log log' : List (Word × Byte)} {pops pops' : List (Word × Word)}

/-- Where nothing is run, everything is kept. -/
theorem refl : Keeps s m [] [] m :=
  ⟨rfl, fun _ h => absurd h List.not_mem_nil, fun _ _ _ => rfl, fun _ _ => rfl⟩

/-- What is kept in two segments is kept in both together, and their pops are those of both. -/
theorem trans (h : Keeps s m log pops m₁) (h' : Keeps s m₁ log' pops' m₂) :
    Keeps s m (log ++ log') (pops ++ pops') m₂ := by
  refine ⟨h'.SP.trans h.SP, fun p hp => ?_, fun y hy hys => ?_, fun y hys => ?_⟩
  · exact (List.mem_append.mp hp).elim (h.pops p) (h'.pops p)
  · exact (h'.inUse y (h.SP ▸ hy) hys).trans (h.inUse y hy hys)
  · rw [h'.above y hys, remember_append]
    exact remember_congr (h.above y hys)

/-- A step beside the stack. -/
theorem aside (h : Aside s m m') : Keeps s m (m.current.writes m) [] m' := by
  obtain ⟨-, -, rfl⟩ := emulate_eq_ok_iff.mp h.run
  obtain ⟨hsp, hmem⟩ := Insn.exec_aside (m := m) h.keeps
  refine ⟨hsp, fun _ hp => absurd hp List.not_mem_nil, fun y hy hys => ?_, fun y _ => ?_⟩
  · rw [hmem]
    refine remember_of_notMem fun e he hey => h.clear e he ?_
    rw [hey]
    exact ⟨hy, hys⟩
  · rw [hmem]

/-- **A frame of the stack.** A word is pushed, the part of the run behind it keeps what is
in use, and then the word on top is the one that was pushed. Once it is popped, the whole
keeps what was in use before. -/
theorem framed {v : Word} (h2 : 2 ≤ m.SP.toNat) (hs : m.SP.toNat ≤ s.toNat)
    (hsp : m₁.SP = m.SP - 2#16) (hmem : m₁.memory = (m.pushWord v).memory)
    (h : Keeps s m₁ log pops m₂) (hsp' : m₃.SP = m₂.SP + 2#16) (hmem' : m₃.memory = m₂.memory) :
    m₂.word m₂.SP = v ∧ Keeps s m log pops m₃ := by
  have hbelow : m₁.SP.toNat + 2 = m.SP.toNat := by
    rw [hsp]
    bv_omega
  constructor
  · have htop : (m.pushWord v).word (m.SP - 2#16) = v :=
      Machine.word_putWord { m with SP := m.SP - 2#16 } (m.SP - 2#16) v
    have hlow : m₂.memory m₁.SP = m₁.memory m₁.SP := h.inUse m₁.SP le_rfl (by omega)
    have hnext : (m₁.SP + 1#16).toNat = m₁.SP.toNat + 1 := by bv_omega
    have hhigh : m₂.memory (m₁.SP + 1#16) = m₁.memory (m₁.SP + 1#16) :=
      h.inUse _ (by omega) (by omega)
    rw [h.SP, Machine.word, hlow, hhigh, hmem, hsp]
    exact htop
  · refine ⟨?_, h.pops, fun y hy hys => ?_, fun y hys => ?_⟩
    · rw [hsp', h.SP, hsp]
      bv_omega
    · rw [hmem', h.inUse y (by omega) hys, hmem]
      exact Machine.memory_pushWord h2 hy
    · rw [hmem', h.above y hys, hmem]
      exact remember_congr (Machine.memory_pushWord h2 (hs.trans hys))

end Keeps

/-- A call pushes the address behind it. -/
theorem exec_call {i : Insn Word} (h : i.IsCall) :
    (i.exec m).SP = m.SP - 2#16 ∧
      (i.exec m).memory = (m.pushWord (m.PC + .ofNat 16 i.size)).memory := by
  cases i with
  | call x => exact ⟨rfl, rfl⟩
  | callRel a => exact ⟨rfl, rfl⟩
  | _ => exact h.elim

/-- A call and the `RET` that matches it are a frame: the run goes on behind the call. -/
theorem Keeps.called {m₁ m₂ m₃ : Machine} {log : List (Word × Byte)} {pops : List (Word × Word)}
    (hcall : m.current.IsCall) (h2 : 2 ≤ m.SP.toNat) (hs : m.SP.toNat ≤ s.toNat)
    (hrun : emulate m = .ok 0 m₁) (hin : m₁.SP.toNat ≤ s.toNat → Keeps s m₁ log pops m₂)
    (hret : m₂.current = .ret) (hrun' : emulate m₂ = .ok 0 m₃) :
    m₃.PC = m.PC + .ofNat 16 m.current.size ∧ Keeps s m log pops m₃ := by
  obtain ⟨-, -, rfl⟩ := emulate_eq_ok_iff.mp hrun
  obtain ⟨-, -, hm₃⟩ := emulate_eq_ok_iff.mp hrun'
  rw [hret] at hm₃
  subst hm₃
  obtain ⟨hsp, hmem⟩ := exec_call (m := m) hcall
  exact (hin (le_trans (by rw [hsp]; bv_omega) hs)).framed h2 hs hsp hmem rfl rfl

/-- **What is kept** where pushes and pops match. The induction is on the nesting: every
pair is a frame around the part of the run within it. -/
theorem Nested.keeps {log : List (Word × Byte)} {pops : List (Word × Word)}
    (h : Nested s m log pops m') (hs : m.SP.toNat ≤ s.toNat) : Keeps s m log pops m' := by
  induction h with
  | nil => exact .refl
  | aside h _ ih =>
      have hk := Keeps.aside h
      exact hk.trans (ih (hk.SP ▸ hs))
  | @pushPop m m₁ m₂ m₃ m₄ log₁ log₂ pops₁ pops₂ a c hpush h2 hrun _ hpop hrun' _ ih ih' =>
      obtain ⟨-, -, hm₁⟩ := emulate_eq_ok_iff.mp hrun
      obtain ⟨-, -, hm₃⟩ := emulate_eq_ok_iff.mp hrun'
      rw [hpush] at hm₁
      rw [hpop] at hm₃
      subst hm₁ hm₃
      have hsp : ((Insn.push a).exec m).SP = m.SP - 2#16 := rfl
      have hmem : ((Insn.push a).exec m).memory = (m.pushWord (m.R a)).memory := rfl
      have hin := ih (le_trans (by rw [hsp]; bv_omega) hs)
      obtain ⟨hv, hk⟩ : m₂.word m₂.SP = m.R a ∧
          Keeps s m log₁ pops₁ ((Insn.pop c).exec m₂) := hin.framed h2 hs hsp hmem rfl rfl
      have hall := hk.trans (ih' (hk.SP ▸ hs))
      refine ⟨hall.SP, fun p hp => ?_, hall.inUse, hall.above⟩
      rcases List.mem_cons.mp hp with rfl | hp
      · exact (Function.update_self ..).trans hv
      · exact hall.pops p hp
  | call hcall h2 hrun _ hret hrun' _ ih ih' =>
      have hk := (Keeps.called hcall h2 hs hrun ih hret hrun').2
      exact hk.trans (ih' (hk.SP ▸ hs))

/-- **A call comes back.** Behind a part of a run from a call to the `RET` that matches it,
the program counter is at the instruction behind the call, `SP` is what it was, every `POP`
has delivered what its `PUSH` pushed, and from the old `SP` on the memory is as the stores
of this part of the run left it. -/
theorem call_returns {log : List (Word × Byte)} {pops : List (Word × Word)}
    (h : CallSegment m log pops m') :
    Reaches m m' ∧ m'.SP = m.SP ∧
      (∀ x, m.current = .call x → m'.PC = m.PC + 4#16) ∧
      (∀ a, m.current = .callRel a → m'.PC = m.PC + 2#16) ∧
      (∀ p ∈ pops, p.2 = p.1) ∧
      ∀ y : Word, m.SP.toNat ≤ y.toNat → m'.memory y = remember m.memory log y := by
  cases h with
  | @mk m₁ m₂ _ _ _ hcall h2 hrun hnested hret hrun' =>
      have hreach : Reaches m m' :=
        .head ⟨0, hrun⟩ (hnested.reaches.tail ⟨0, hrun'⟩)
      obtain ⟨hpc, hk⟩ := Keeps.called hcall h2 le_rfl hrun hnested.keeps hret hrun'
      refine ⟨hreach, hk.SP, fun x hx => ?_, fun a ha => ?_, hk.pops, hk.above⟩
      · rw [hpc, hx]
        rfl
      · rw [hpc, ha]
        rfl

end Steps

/-- The image of `CALL 6` and `HALT`, and behind them `PUSH R1`, `POP R2` and `RET`. -/
def callImage (x : Word) : Byte :=
  if x = 1 then 0x80 else if x = 2 then 0x06 else if x = 5 then 0xF0
  else if x = 6 then 0x01 else if x = 7 then 0xB0 else if x = 8 then 0x02
  else if x = 9 then 0xC0 else if x = 11 then 0xA0 else 0

/-- The call of a routine that pushes a word and pops it. -/
theorem call_returns_pushPop : ∃ m, CallSegment (cpu callImage []) [] [(0, 0)] m ∧
    m.PC = 4#16 ∧ m.SP = 0xFFFE#16 := by
  let m := cpu callImage []
  let m₁ := (Insn.call 6).exec m
  let m₂ := (Insn.push 1).exec m₁
  let m₃ := (Insn.pop 2).exec m₂
  have hcall : m.current = .call 6 := by decide +kernel
  have hpush : m₁.current = .push 1 := by decide +kernel
  have hpop : m₂.current = .pop 2 := by decide +kernel
  have hret : m₃.current = .ret := by decide +kernel
  have hrun : emulate m = .ok 0 m₁ := emulate_of_current (by decide +kernel) hcall rfl
  have hrun₁ : emulate m₁ = .ok 0 m₂ := emulate_of_current (by decide +kernel) hpush rfl
  have hrun₂ : emulate m₂ = .ok 0 m₃ := emulate_of_current (by decide +kernel) hpop rfl
  have hrun₃ : emulate m₃ = .ok 0 (Insn.ret.exec m₃) :=
    emulate_of_current (by decide +kernel) hret rfl
  have hnested : Nested m.SP m₁ [] [(m₁.R 1, m₃.R 2)] m₃ :=
    .pushPop hpush (by decide +kernel) hrun₁ .nil hpop hrun₂ .nil
  have hsegment : CallSegment m [] [(0, 0)] (Insn.ret.exec m₃) := by
    refine .mk (hcall ▸ True.intro) (by decide +kernel) hrun ?_ hret hrun₃
    have hpops : (m₁.R 1, m₃.R 2) = ((0 : Word), (0 : Word)) := by decide +kernel
    exact hpops ▸ hnested
  have h := call_returns hsegment
  exact ⟨_, hsegment, h.2.2.1 6 hcall, h.2.1⟩

end SystemsProjects.BareMetal
