import SystemsProjects.BareMetal.Step

/-!
# Loads and Stores

A memory instruction names its address as a constant or in a register. The two forms of a
load have the same effect, and so have the two forms of a store of a word. The store of a
byte to a constant address writes to the address behind it, so that it does what it says
only where both bytes have the value already.

## Main definitions

* `TwoForms`: the same state at the two forms of an instruction.
* `SameEffect`: the two steps differ in where they go on.
* `Machine.Harmless`: the next step is no store of a byte that goes astray.
* `StoreRun`: a run and the bytes that were to be stored in it.

## Main results

* `forms_load`, `forms_store_iff`: the two forms of an instruction.
* `memory_agrees_iff`: these, and what later loads return.
-/

namespace SystemsProjects.BareMetal

open Stateful

/-! ### Bytes -/

/-- The bytes that are accessed at an address. -/
def Width.bytes (w : Width) (x : Word) : List Word :=
  match w with
  | word => [x, x + 1#16]
  | byte => [x]

/-- What a store writes there, the lower byte first. -/
def Width.stored (w : Width) (x v : Word) : List (Word × Byte) :=
  match w with
  | word => [(x, v.setWidth 8), (x + 1#16, v.extractLsb' 8 8)]
  | byte => [(x, v.setWidth 8)]

/-- Where the store to a constant address puts it. -/
def Width.reached (w : Width) (x : Word) : Word :=
  match w with
  | word => x
  | byte => x + 1#16

/-- A memory in which bytes have been stored, one after the other. -/
def remember (memory : Word → Byte) (log : List (Word × Byte)) : Word → Byte :=
  log.foldl (fun mem e => Function.update mem e.1 e.2) memory

/-- Bytes stored in two goes are stored one after the other. -/
theorem remember_append (memory : Word → Byte) (log new : List (Word × Byte)) :
    remember memory (log ++ new) = remember (remember memory log) new :=
  List.foldl_append

/-- A store changes the memory and nothing else. -/
theorem Machine.put_eq (m : Machine) (w : Width) (x v : Word) :
    m.put w x v = { m with memory := remember m.memory (w.stored x v) } := by
  cases w <;> rfl

/-- The bytes of an instruction with a constant at `PC`. -/
def Machine.insnBytes (m : Machine) : List Word :=
  (List.range 4).map fun k => m.PC + .ofNat 16 k

/-- The two machines are the same but for `PC` and for the bytes `own`, where their instructions
are. -/
structure Machine.Alike (own : List Word) (m₁ m₂ : Machine) : Prop where
  R : m₁.R = m₂.R
  SP : m₁.SP = m₂.SP
  Z : m₁.Z = m₂.Z
  N : m₁.N = m₂.N
  stdin : m₁.stdin = m₂.stdin
  stdout : m₁.stdout = m₂.stdout
  memory : ∀ y, y ∉ own → m₁.memory y = m₂.memory y

/-- What is read depends on the bytes that are accessed. -/
theorem Machine.fetch_congr {m₁ m₂ : Machine} {w : Width} {x : Word}
    (h : ∀ y ∈ w.bytes x, m₁.memory y = m₂.memory y) : m₁.fetch w x = m₂.fetch w x := by
  cases w with
  | word =>
      have hlow := h x List.mem_cons_self
      have hhigh := h (x + 1#16) (List.mem_cons_of_mem x List.mem_cons_self)
      simp only [fetch, word, hlow, hhigh]
  | byte =>
      have hlow := h x List.mem_cons_self
      simp only [fetch, hlow]

/-- Bytes that are stored in two memories are the same in both. -/
theorem remember_congr {mem₁ mem₂ : Word → Byte} {log : List (Word × Byte)} {y : Word}
    (h : mem₁ y = mem₂ y) : remember mem₁ log y = remember mem₂ log y := by
  induction log generalizing mem₁ mem₂ with
  | nil => exact h
  | cons e log ih =>
      refine ih ?_
      change Function.update mem₁ e.1 e.2 y = Function.update mem₂ e.1 e.2 y
      by_cases he : y = e.1
      · subst he
        rw [Function.update_self, Function.update_self]
      · rw [Function.update_of_ne he, Function.update_of_ne he, h]

/-! ### The two forms -/

/-- The machine is in one state at the two forms of a memory instruction, which find the
address `x` behind themselves and in `R[b]`. The bytes they access are not their own. -/
structure TwoForms (m₁ m₂ : Machine) (w : Width) (b : Fin 8) (x : Word) : Prop where
  pc : m₁.PC = m₂.PC
  alike : m₁.Alike m₁.insnBytes m₂
  address : m₁.R b = x
  inMemory : x.toNat ≤ 0xFFFE
  apart : ∀ y ∈ w.bytes x, y ∉ m₁.insnBytes

/-- The steps of the two forms have the same effect on registers and memory and differ in
where they go on. -/
structure SameEffect (m₁ m₂ m₁' m₂' : Machine) : Prop where
  alike : m₁'.Alike m₁.insnBytes m₂'
  const : m₁'.PC = m₁.PC + 4#16
  register : m₂'.PC = m₂.PC + 2#16

/-- Both steps are made, and have the same effect, on registers, flags, memory, input and
output. -/
def FormsAgree (m₁ m₂ : Machine) (Q : Machine → Machine → Prop) : Prop :=
  ∃ m₁' m₂', emulate m₁ = .ok 0 m₁' ∧ emulate m₂ = .ok 0 m₂' ∧ SameEffect m₁ m₂ m₁' m₂' ∧
    Q m₁ m₁' ∧ Q m₂ m₂'

/-! ### The steps -/

/-- A word may begin at every address but the last. -/
theorem wordAt_of_le {x : Word} (h : x.toNat ≤ 0xFFFE) : WordAt x := by
  rintro rfl
  exact absurd h (by decide)

section Steps

variable {m m' : Machine} {w : Width} {a b : Fin 8} {x : Word}

/-- The words of an access at such an address lie in memory. -/
theorem wordAt_of_mem_words (hx : WordAt x) : ∀ y ∈ w.words x, WordAt y := by
  intro y hy
  cases w with
  | word => exact List.mem_singleton.mp hy ▸ hx
  | byte => cases hy

/-- A load from a constant address. -/
theorem emulate_load (h : (Insn.load w a x).At m) (hx : WordAt x) :
    emulate m = .ok 0 ((m.putReg a (m.fetch w x)).next 4) :=
  emulate_spec h True.intro (wordAt_of_mem_words hx) fun _ hy => nomatch hy

/-- A load from an address in a register. -/
theorem emulate_loadRel (h : (Insn.loadRel w a b).At m) (hx : WordAt (m.R b)) :
    emulate m = .ok 0 ((m.putReg a (m.fetch w (m.R b))).next 2) :=
  emulate_spec h True.intro (wordAt_of_mem_words hx) fun _ hy => nomatch hy

/-- A store to an address in a register. The byte form writes one byte, the word form two. -/
theorem emulate_storeRel (h : (Insn.storeRel w a b).At m) (hx : WordAt (m.R b)) :
    emulate m = .ok 0 ((m.put w (m.R b) (m.R a)).next 2) :=
  emulate_spec h True.intro (wordAt_of_mem_words hx) fun _ hy => nomatch hy

/-- The store of a byte to a constant address goes one byte too far. -/
theorem emulate_store (h : (Insn.store w a x).At m) (hx : WordAt x) :
    emulate m = .ok 0 ((m.put w (w.reached x) (m.R a)).next 4) := by
  cases w with
  | word =>
      exact emulate_spec h (by simp [Insn.Supported]) (wordAt_of_mem_words (w := .word) hx)
        fun _ hy => nomatch hy
  | byte =>
      rw [h.emulate_eq]
      exact emulateInsn_store_byte x 2 0 0 a (by simp) (h.load_const rfl) hx

end Steps

/-- The next step is no store of a byte to a constant address, or both bytes that it may be
about have the value already. -/
def Machine.Harmless (m : Machine) : Prop :=
  ∀ a x, (Insn.store .byte a x).At m →
    m.memory x = (m.R a).setWidth 8 ∧ m.memory (x + 1#16) = (m.R a).setWidth 8

section Forms

variable {m₁ m₂ : Machine} {w : Width} {a b : Fin 8} {x : Word}

/-- The word at the address that both forms access lies in memory. -/
theorem TwoForms.wordAt (h : TwoForms m₁ m₂ w b x) : WordAt x := wordAt_of_le h.inMemory

/-- Both forms read the same. -/
theorem TwoForms.fetch_eq (h : TwoForms m₁ m₂ w b x) : m₁.fetch w x = m₂.fetch w x :=
  Machine.fetch_congr fun y hy => h.alike.memory y (h.apart y hy)

/-- **The two forms of a load.** -/
theorem forms_load (h : TwoForms m₁ m₂ w b x) (h₁ : (Insn.load w a x).At m₁)
    (h₂ : (Insn.loadRel w a b).At m₂) :
    FormsAgree m₁ m₂ fun m m' =>
      m'.memory = m.memory ∧ m'.R = Function.update m.R a (m.fetch w x) := by
  have hb : m₂.R b = x := h.alike.R ▸ h.address
  have hrun := emulate_loadRel h₂ (hb ▸ h.wordAt)
  rw [hb] at hrun
  refine ⟨_, _, emulate_load h₁ h.wordAt, hrun, ⟨⟨?_, h.alike.SP, h.alike.Z, h.alike.N,
    h.alike.stdin, h.alike.stdout, h.alike.memory⟩, rfl, rfl⟩, ⟨rfl, rfl⟩, ⟨rfl, rfl⟩⟩
  change Function.update m₁.R a (m₁.fetch w x) = Function.update m₂.R a (m₂.fetch w x)
  rw [h.alike.R, h.fetch_eq]

/-- A harmless store stores what it says: where the byte goes astray, it changes nothing. -/
theorem Machine.Harmless.remember_eq {m : Machine} (hm : m.Harmless)
    (h : (Insn.store w a x).At m) :
    remember m.memory (w.stored (w.reached x) (m.R a)) =
      remember m.memory (w.stored x (m.R a)) := by
  cases w with
  | word => rfl
  | byte =>
      obtain ⟨hlow, hhigh⟩ := hm a x h
      change Function.update m.memory (x + 1#16) _ = Function.update m.memory x _
      rw [← hhigh, Function.update_eq_self, hhigh, ← hlow, Function.update_eq_self]

/-- There is one instruction at `PC`. -/
theorem store_at_unique {m : Machine} {w' : Width} {a' : Fin 8} {x' : Word}
    (h : (Insn.store w a x).At m) (h' : (Insn.store w' a' x').At m) :
    w = w' ∧ a = a' ∧ x = x' := by
  have hop := h.opcode.symm.trans h'.opcode
  have hx := (h.const x rfl).symm.trans (h'.const x' rfl)
  simp only [Insn.opcode, fields] at hop
  refine ⟨?_, Fin.ext ?_, hx⟩
  · cases w <;> cases w' <;> simp [Width.code] at hop ⊢ <;> omega
  · cases w <;> cases w' <;> simp [Width.code] at hop ⊢ <;> omega

/-- **The two forms of a store.** They agree, and do what they say, if and only if the step
of the first is harmless. -/
theorem forms_store_iff (h : TwoForms m₁ m₂ w b x) (h₁ : (Insn.store w a x).At m₁)
    (h₂ : (Insn.storeRel w a b).At m₂) :
    FormsAgree m₁ m₂ (fun m m' => m'.memory = remember m.memory (w.stored x (m.R a))) ↔
      m₁.Harmless := by
  have hb : m₂.R b = x := h.alike.R ▸ h.address
  have hrun₁ := emulate_store h₁ h.wordAt
  have hrun₂ := emulate_storeRel h₂ (hb ▸ h.wordAt)
  rw [Machine.put_eq] at hrun₁ hrun₂
  rw [hb] at hrun₂
  constructor
  · rintro ⟨m₁', m₂', hrun, -, -, hmem, -⟩ a' x' h₁'
    rw [hrun₁] at hrun
    cases hrun
    obtain ⟨rfl, rfl, rfl⟩ := store_at_unique h₁ h₁'
    have hne : x ≠ x + 1#16 := by bv_omega
    change Function.update m₁.memory (x + 1#16) _ = Function.update m₁.memory x _ at hmem
    have hlow := congrFun hmem x
    have hhigh := congrFun hmem (x + 1#16)
    rw [Function.update_self, Function.update_of_ne hne] at hlow
    rw [Function.update_self, Function.update_of_ne hne.symm] at hhigh
    exact ⟨hlow, hhigh.symm⟩
  · intro hm
    rw [hm.remember_eq h₁] at hrun₁
    refine ⟨_, _, hrun₁, hrun₂, ⟨⟨h.alike.R, h.alike.SP, h.alike.Z, h.alike.N, h.alike.stdin,
      h.alike.stdout, fun y hy => ?_⟩, rfl, rfl⟩, rfl, rfl⟩
    change remember m₁.memory (w.stored x (m₁.R a)) y =
      remember m₂.memory (w.stored x (m₂.R a)) y
    rw [h.alike.R]
    exact remember_congr (h.alike.memory y hy)

end Forms

/-! ### Runs -/

/-- A step, and the bytes that it is to store. A step of another kind leaves the memory as
it is. -/
inductive Access : Machine → Machine → List (Word × Byte) → Prop
  | store {m m' : Machine} {w : Width} {a : Fin 8} {x : Word} :
      (Insn.store w a x).At m → x.toNat ≤ 0xFFFE → emulate m = .ok 0 m' →
      Access m m' (w.stored x (m.R a))
  | storeRel {m m' : Machine} {w : Width} {a b : Fin 8} :
      (Insn.storeRel w a b).At m → (m.R b).toNat ≤ 0xFFFE → emulate m = .ok 0 m' →
      Access m m' (w.stored (m.R b) (m.R a))
  | other {m m' : Machine} :
      emulate m = .ok 0 m' → m'.memory = m.memory → Access m m' []

/-- A run, and the bytes that were to be stored in it, one after the other. All its steps
start in states with `P`. -/
inductive StoreRun (P : Machine → Prop) (m : Machine) : List (Word × Byte) → Machine → Prop
  | start : StoreRun P m [] m
  | step {m₁ m₂ : Machine} {log new : List (Word × Byte)} :
      StoreRun P m log m₁ → P m₁ → Access m₁ m₂ new → StoreRun P m (log ++ new) m₂

/-- A harmless step stores what it is to store. -/
theorem Access.memory_eq {m m' : Machine} {new : List (Word × Byte)} (h : Access m m' new)
    (hm : m.Harmless) : m'.memory = remember m.memory new := by
  cases h with
  | @store w a x hat hx hrun =>
      rw [emulate_store hat (wordAt_of_le hx), Machine.put_eq] at hrun
      cases hrun
      exact hm.remember_eq hat
  | storeRel hat hx hrun =>
      rw [emulate_storeRel hat (wordAt_of_le hx), Machine.put_eq] at hrun
      cases hrun
      rfl
  | other _ hmem => exact hmem

/-- So the memory has what was last stored, along a run of harmless steps. -/
theorem StoreRun.memory_eq {m m' : Machine} {log : List (Word × Byte)}
    (h : StoreRun Machine.Harmless m log m') : m'.memory = remember m.memory log := by
  induction h with
  | start => rfl
  | step _ hm hacc ih => rw [hacc.memory_eq hm, ih, remember_append]

/-- **Loads and stores.** From one state, the two forms of a load agree, and the two forms
of a store agree and do what they say if and only if the step of the first is harmless.
After a run of harmless steps a load, in either form, returns the bytes that were last
stored, the lower byte first. -/
theorem memory_agrees_iff (w : Width) (a b : Fin 8) (x : Word) :
    (∀ {m₁ m₂ : Machine}, TwoForms m₁ m₂ w b x →
      (Insn.load w a x).At m₁ → (Insn.loadRel w a b).At m₂ →
        FormsAgree m₁ m₂ fun m m' =>
          m'.memory = m.memory ∧ m'.R = Function.update m.R a (m.fetch w x)) ∧
    (∀ {m₁ m₂ : Machine}, TwoForms m₁ m₂ w b x →
      (Insn.store w a x).At m₁ → (Insn.storeRel w a b).At m₂ →
        (FormsAgree m₁ m₂ (fun m m' => m'.memory = remember m.memory (w.stored x (m.R a))) ↔
          m₁.Harmless)) ∧
    ∀ {m m' : Machine} {log : List (Word × Byte)}, StoreRun Machine.Harmless m log m' →
      x.toNat ≤ 0xFFFE →
      (Insn.load w a x).At m' ∨ (Insn.loadRel w a b).At m' ∧ m'.R b = x →
      ∃ m'', emulate m' = .ok 0 m'' ∧
        m''.R a = { m' with memory := remember m.memory log }.fetch w x := by
  refine ⟨forms_load, forms_store_iff, fun hrun hx hat => ?_⟩
  rw [← hrun.memory_eq]
  rcases hat with hat | ⟨hat, rfl⟩
  · exact ⟨_, emulate_load hat (wordAt_of_le hx), Function.update_self ..⟩
  · exact ⟨_, emulate_loadRel hat (wordAt_of_le hx), Function.update_self ..⟩

/-! ### Instructions at address 0 -/

/-- A machine at an instruction, with `0x100` behind it and in `R1`, and 1 in `R0`. -/
def atStore (insn : Word) : Machine :=
  { cpu (fun y => if y = 3 then 1 else oneWord insn y) [] with
    R := fun r => if r = 0 then 1 else if r = 1 then 0x100 else 0 }

/-- Two of them differ in the instruction only. -/
theorem twoForms_atStore (w : Width) (i₁ i₂ : Word) :
    TwoForms (atStore i₁) (atStore i₂) w 1 0x100 := by
  have hbytes : (atStore i₁).insnBytes = [0, 1, 2, 3] := rfl
  refine ⟨rfl, ⟨rfl, rfl, rfl, rfl, rfl, rfl, fun y hy => ?_⟩, rfl, by decide, ?_⟩
  · rw [hbytes] at hy
    have h₀ : y ≠ 0 := by
      rintro rfl
      exact hy (by decide)
    have h₁ : y ≠ 1 := by
      rintro rfl
      exact hy (by decide)
    simp only [atStore, cpu, oneWord, if_neg h₀, if_neg h₁]
  · rw [hbytes]
    cases w <;> simp [Width.bytes]

/-- Where another instruction is next, the step is harmless. -/
theorem Machine.harmless_of_ne {m : Machine}
    (h : ∀ a : Fin 8, (m.word m.PC).toNat ≠ (Insn.store .byte a (0 : Word)).opcode) :
    m.Harmless :=
  fun a _ hat => absurd hat.opcode (h a)

/-- A machine at `STORE R0 -> *R1`, with `LOAD R2 <- *R1` behind it. -/
def atPair : Machine :=
  { atStore 0x3808 with
    memory := fun y => if y = 2 then 0x0A else if y = 3 then 0x28 else oneWord 0x3808 y }

/-- `LOAD` and `STORE` in both forms, from one state; and the word that `STORE R0 -> *R1` stores
is what `LOAD R2 <- *R1` returns behind it. -/
theorem memory_agrees_iff_pair :
    (FormsAgree (atStore 0x2002) (atStore 0x280A) fun m m' =>
      m'.memory = m.memory ∧ m'.R = Function.update m.R 2 (m.fetch .word 0x100)) ∧
    (FormsAgree (atStore 0x3000) (atStore 0x3808) fun m m' =>
      m'.memory = remember m.memory (Width.word.stored 0x100 (m.R 0))) ∧
    ∃ m' m'', emulate atPair = .ok 0 m' ∧ emulate m' = .ok 0 m'' ∧ m''.R 2 = 1 := by
  obtain ⟨hload, -, hrun⟩ := memory_agrees_iff .word 2 1 0x100
  obtain ⟨-, hstore, -⟩ := memory_agrees_iff .word 0 1 0x100
  refine ⟨hload (twoForms_atStore ..) ⟨by decide, by decide +kernel, ?_⟩
    ⟨by decide, by decide +kernel, ?_⟩, (hstore (twoForms_atStore ..)
    ⟨by decide, by decide +kernel, ?_⟩ ⟨by decide, by decide +kernel, ?_⟩).mpr
    (Machine.harmless_of_ne (by decide +kernel)), ?_⟩
  · rintro x ⟨⟩
    decide +kernel
  · rintro x ⟨⟩
  · rintro x ⟨⟩
    decide +kernel
  · rintro x ⟨⟩
  have hat : (Insn.storeRel (κ := Word) .word 0 1).At atPair :=
    ⟨by decide, by decide +kernel, fun x hx => by cases hx⟩
  have hstep := emulate_storeRel hat (wordAt_of_le (by decide))
  obtain ⟨m'', hload', hreg⟩ := hrun (.step .start (Machine.harmless_of_ne (by decide +kernel))
    (.storeRel hat (by decide) hstep)) (by decide)
    (.inr ⟨⟨by decide, by decide +kernel, fun x hx => by cases hx⟩, by decide⟩)
  refine ⟨_, m'', hstep, hload', ?_⟩
  rw [hreg]
  decide +kernel

/-- `STORE.B R0 -> *0x100` writes to `0x101`. -/
theorem not_memory_agrees : ¬∀ (m₁ m₂ : Machine) (w : Width) (a b : Fin 8) (x : Word),
    TwoForms m₁ m₂ w b x → (Insn.store w a x).At m₁ → (Insn.storeRel w a b).At m₂ →
    FormsAgree m₁ m₂ fun m m' => m'.memory = remember m.memory (w.stored x (m.R a)) := by
  intro hall
  have hat₁ : (Insn.store .byte 0 0x100).At (atStore 0x3400) := by
    refine ⟨by decide, by decide +kernel, fun x hx => ?_⟩
    cases hx
    decide +kernel
  have hat₂ : (Insn.storeRel (κ := Word) .byte 0 1).At (atStore 0x3C08) := by
    refine ⟨by decide, by decide +kernel, fun x hx => ?_⟩
    cases hx
  have hforms := twoForms_atStore .byte 0x3400 0x3C08
  have hm := (forms_store_iff hforms hat₁ hat₂).mp (hall _ _ _ _ _ _ hforms hat₁ hat₂)
  have hlow := (hm 0 0x100 hat₁).1
  exact absurd hlow (by decide +kernel)

end SystemsProjects.BareMetal
