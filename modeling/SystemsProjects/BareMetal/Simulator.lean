import SystemsProjects.BareMetal.Disassembler
import SystemsProjects.BareMetal.Step
import SystemsProjects.Library.Runs

/-!
# The Simulator

The main loop of `runsim.c`. Before each call of `emulate` it saves what it calls the old
program counter, and afterwards it gives up if the program counter is what was saved. But
what it saves is the word at the program counter, that is, the instruction. So a program
whose next address is the number of its instruction is stopped, and one that stays where it
is goes on, unless the two coincide.

## Main definitions

* `turn`: one turn of the loop.
* `Turns`: the states at the head of the loop.
* `Machine.TellsStuck`: the instruction lets the report tell.

## Main results

* `reports_iff`: one turn reports a stuck program counter as it should.
* `runsim_reports_iff`: all turns of a run do.
-/

namespace SystemsProjects.BareMetal

open Stateful

/-! ### The loop -/

/-- How a turn of the loop ends: the machine has halted, the program counter is reported
not to have changed, or there is another turn. -/
inductive Outcome
  | halted
  | stuck
  | goesOn
  deriving DecidableEq, Repr

/-- A turn of the loop. With the flag `-v` it loads and disassembles the instruction first.
What it prints, with this flag and with `-r`, is left out. -/
def turn (verbose : Bool) : Exec Outcome := do
  let oldPc ← load2 (← pc)
  if verbose then
    let insn ← load2 (← pc)
    let next ← load2 ((← pc) + 2)
    let _ := disasm insn.toNat next.toNat
  if (← emulate) ≠ 0 then
    return .halted
  if oldPc = (← pc) then
    return .stuck
  else
    return .goesOn

/-- The states at the head of the loop in a run that starts from `m₀`. All turns but the last
one lead there. -/
def Turns (verbose : Bool) : Machine → Machine → Prop :=
  Relation.ReflTransGen fun m m' => turn verbose m = .ok .goesOn m'

/-- The turn stays within the memory. With the flag `-v` it reads the word behind the
instruction even if it has no constant. -/
def TurnInBounds (verbose : Bool) (m : Machine) : Prop :=
  (verbose = true → WordAt (m.PC + 2#16)) ∧ InBounds m

/-- What a turn does. -/
theorem turn_run {verbose : Bool} {m : Machine} (h : TurnInBounds verbose m) :
    turn verbose m = .ok
      (if m.current.result ≠ 0 then .halted
        else if m.word m.PC = (m.current.exec m).PC then .stuck else .goesOn)
      (m.current.exec m) := by
  have hload := load2_run m h.2.1
  have hrest : (do
      if (← emulate) ≠ 0 then
        return .halted
      if m.word m.PC = (← pc) then return .stuck else return .goesOn : Exec Outcome) m = .ok
      (if m.current.result ≠ 0 then .halted
        else if m.word m.PC = (m.current.exec m).PC then .stuck else .goesOn)
      (m.current.exec m) := by
    rw [run_bind_ok (emulate_of_inBounds h.2)]
    by_cases hr : m.current.result ≠ 0
    · rw [if_pos hr, if_pos hr]
      rfl
    · rw [if_neg hr, if_neg hr, run_bind_ok (pc_run _)]
      split <;> rfl
  rw [turn, run_bind_ok (pc_run m), run_bind_ok hload]
  cases verbose with
  | false => exact hrest
  | true =>
      have hnext : load2 (m.PC + 2) m = .ok (m.word (m.PC + 2#16)) m := load2_run m (h.1 rfl)
      rw [if_pos rfl, run_bind_ok (pc_run m), run_bind_ok hload, run_bind_ok (pc_run m),
        run_bind_ok hnext]
      exact hrest

/-- A turn that leaves the memory goes wrong. -/
theorem turnInBounds_of_ok {verbose : Bool} {m m' : Machine} {out : Outcome}
    (h : turn verbose m = .ok out m') : TurnInBounds verbose m := by
  rw [turn, run_bind_ok (pc_run m)] at h
  have hpc : WordAt m.PC := by
    by_contra hlast
    rw [run_bind_error (load2_last hlast)] at h
    cases h
  rw [run_bind_ok (load2_run m hpc)] at h
  cases verbose with
  | false =>
      obtain ⟨r, u, hrun, -⟩ := bind_eq_ok.mp h
      exact ⟨fun hv => absurd hv Bool.false_ne_true, emulate_returns_iff.mp (.of_ok hrun)⟩
  | true =>
      rw [if_pos rfl, run_bind_ok (pc_run m), run_bind_ok (load2_run m hpc),
        run_bind_ok (pc_run m)] at h
      have hnext : WordAt (m.PC + 2#16) := by
        by_contra hlast
        have herr : load2 (m.PC + 2) m = .error .memory m := load2_last hlast
        rw [run_bind_error herr] at h
        cases h
      have hload : load2 (m.PC + 2) m = .ok (m.word (m.PC + 2#16)) m := load2_run m hnext
      rw [run_bind_ok hload] at h
      obtain ⟨r, u, hrun, -⟩ := bind_eq_ok.mp h
      exact ⟨fun _ => hnext, emulate_returns_iff.mp (.of_ok hrun)⟩

/-- How a turn ends, and where. -/
theorem turn_eq_ok_iff {verbose : Bool} {m m' : Machine} {out : Outcome} :
    turn verbose m = .ok out m' ↔ TurnInBounds verbose m ∧ m' = m.current.exec m ∧
      out = if m.current.result ≠ 0 then .halted
        else if m.word m.PC = (m.current.exec m).PC then .stuck else .goesOn := by
  constructor
  · intro h
    have hb := turnInBounds_of_ok h
    rw [turn_run hb] at h
    cases h
    exact ⟨hb, rfl, rfl⟩
  · rintro ⟨hb, rfl, rfl⟩
    exact turn_run hb

/-! ### The report -/

/-- The turn ends with the report if and only if `emulate` has returned 0 and has left the
program counter as it was. -/
def ReportsStuck (verbose : Bool) (m : Machine) : Prop :=
  ∀ out m', turn verbose m = .ok out m' →
    (out = .stuck ↔ emulate m = .ok 0 m' ∧ m'.PC = m.PC)

/-- The instruction is its own address, or it goes neither there nor to the address that it
is as a number. -/
def Machine.TellsStuck (m : Machine) : Prop :=
  m.word m.PC = m.PC ∨
    m.current.destination m ≠ m.PC ∧ m.current.destination m ≠ m.word m.PC

/-- Whether a turn should tell that the program is stuck can be computed. -/
instance decidableTellsStuck (m : Machine) : Decidable m.TellsStuck :=
  inferInstanceAs (Decidable (_ ∨ _))

/-- **One turn** that stays within the memory and does not halt reports as it should if and
only if its instruction lets it. -/
theorem reports_iff {verbose : Bool} {m : Machine} :
    ReportsStuck verbose m ↔
      (TurnInBounds verbose m → m.current.result = 0 → m.TellsStuck) := by
  constructor
  · intro h hb hr
    have hpc : (m.current.exec m).PC = m.current.destination m := Insn.PC_exec_eq hr
    have hturn := h _ _ (turn_run hb)
    rw [if_neg (not_not.mpr hr), emulate_eq_ok_iff, hpc] at hturn
    by_cases hs : m.word m.PC = m.current.destination m
    · rw [if_pos hs] at hturn
      exact .inl (hs.trans (hturn.mp rfl).2)
    · rw [if_neg hs] at hturn
      refine .inr ⟨fun hd => ?_, fun hd => hs hd.symm⟩
      cases hturn.mpr ⟨⟨hb.2, hr.symm, rfl⟩, hd⟩
  · intro h out m' hturn
    obtain ⟨hb, rfl, rfl⟩ := turn_eq_ok_iff.mp hturn
    rw [emulate_eq_ok_iff]
    by_cases hr : m.current.result = 0
    · have hpc : (m.current.exec m).PC = m.current.destination m := Insn.PC_exec_eq hr
      rw [if_neg (not_not.mpr hr), hpc]
      rcases h hb hr with hw | ⟨hd, hw⟩
      · rw [hw]
        constructor
        · intro hs
          split at hs
          · exact ⟨⟨hb.2, hr.symm, rfl⟩, (‹m.PC = _›).symm⟩
          · cases hs
        · exact fun hs => if_pos hs.2.symm
      · rw [if_neg hw.symm]
        exact iff_of_false Outcome.noConfusion fun hs => hd hs.2
    · rw [if_pos hr]
      exact iff_of_false Outcome.noConfusion fun hs => hr hs.1.2.1.symm

/-- **A run of the simulator.** Every turn of it reports a stuck program counter exactly
when it is stuck, if and only if all instructions it comes to, in turns that stay within
the memory and do not halt, let it tell. -/
theorem runsim_reports_iff (verbose : Bool) (image : Word → Byte) (input : List Byte) :
    (∀ m, Turns verbose (cpu image input) m → ReportsStuck verbose m) ↔
      ∀ m, Turns verbose (cpu image input) m → TurnInBounds verbose m →
        m.current.result = 0 → m.TellsStuck := by
  constructor
  · intro h m hm
    exact reports_iff.mp (h m hm)
  · intro h m hm
    exact reports_iff.mpr (h m hm)

/-- A jump to itself at address 0 is not reported. -/
theorem not_runsim_reports : ¬∀ (verbose : Bool) (image : Word → Byte) (input : List Byte)
    (m : Machine), Turns verbose (cpu image input) m → ReportsStuck verbose m := by
  intro hall
  have hb : InBounds (cpu (oneWord 0x6000) []) := by decide +kernel
  have hr : (cpu (oneWord 0x6000) []).current.result = 0 := by decide +kernel
  have htells := reports_iff.mp (hall false (oneWord 0x6000) [] _ .refl)
    ⟨fun hv => absurd hv Bool.false_ne_true, hb⟩ hr
  exact absurd htells (by decide +kernel)

end SystemsProjects.BareMetal
