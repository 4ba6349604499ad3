import Mathlib.Algebra.BigOperators.Intervals
import Mathlib.Logic.Hydra

/-!
# Processes That Come to an End

A process ends with a value, makes a request or starts another process, and what it does
after that may depend on everything observed until it goes on. `Process` is the type of the
processes that do not go on forever: a tree that branches over all observations, and in which
every path ends.

A pool of such processes is a hydra. The heads are the codes the processes still have to go
through. One turn of one process cuts off its head, and what grows back, for itself and for
the process it may have started, is further down in the tree. So the pool comes to an end
whoever is given the turns.

## Main definitions

* `Process`, `Code`: what a process does, and what it does once it goes on.
* `Below`: one code is what another leaves behind.
* `heads`: the labels of a pool.

## Main results

* `wellFounded_below`: nothing can be left behind forever.
* `cutExpand_heads`: a turn is a move in the hydra game.
-/

namespace Processes

/-- What a process does next: it ends with a value, makes a request, or starts another
process. `next` and `child` tell what is done after that, from what has been observed when
the process goes on or begins. -/
inductive Process (R C V O : Type)
  | done (value : V)
  | ask (request : R) (next : O → Process R C V O)
  | spawn (creation : C) (child next : O → Process R C V O)

/-- What a process does once it goes on. -/
abbrev Code (R C V O : Type) := O → Process R C V O

section Codes

variable {R C V O : Type}

/-- What a process leaves to be done, by itself or by the process it starts. -/
inductive Part : Code R C V O → Process R C V O → Prop
  | asked {request : R} {next : Code R C V O} : Part next (.ask request next)
  | child {creation : C} {child next : Code R C V O} : Part child (.spawn creation child next)
  | parent {creation : C} {child next : Code R C V O} : Part next (.spawn creation child next)

/-- One code is what another leaves behind, for some observation. -/
def Below (k k' : Code R C V O) : Prop := ∃ o, Part k (k' o)

/-- What a process leaves behind comes to an end. -/
theorem Part.acc {p : Process R C V O} {k : Code R C V O} (h : Part k p) : Acc Below k := by
  induction p generalizing k with
  | done value => cases h
  | ask request next ih =>
      cases h with
      | asked => exact .intro _ fun _ ⟨o, hp⟩ => ih o hp
  | spawn creation child next ihc ihn =>
      cases h with
      | child => exact .intro _ fun _ ⟨o, hp⟩ => ihc o hp
      | parent => exact .intro _ fun _ ⟨o, hp⟩ => ihn o hp

/-- **Every code comes to an end.** -/
theorem wellFounded_below : WellFounded (Below (R := R) (C := C) (V := V) (O := O)) :=
  ⟨fun _ => .intro _ fun _ ⟨_, hp⟩ => hp.acc⟩

end Codes

/-! ### Pools -/

section Pools

open Relation

variable {α : Type}

/-- The labels of the first `n` processes together; one that has ended has no label. -/
def heads (label : ℕ → Multiset α) (n : ℕ) : Multiset α := ∑ t ∈ Finset.range n, label t

/-- The label of one process among the labels of all. -/
theorem heads_eq_add {label : ℕ → Multiset α} {n cur : ℕ} (hcur : cur < n) :
    heads label n = label cur + ∑ t ∈ (Finset.range n).erase cur, label t :=
  (Finset.add_sum_erase _ _ (Finset.mem_range.mpr hcur)).symm

/-- **A turn of one process**, which may make new ones, is a move in the hydra game if all
labels it leaves are smaller than the label it had. -/
theorem cutExpand_heads {r : α → α → Prop} {label label' : ℕ → Multiset α} {n n' cur : ℕ}
    {x : α} (hcur : cur < n) (hn : n ≤ n') (hx : label cur = {x})
    (hothers : ∀ t < n, t ≠ cur → label' t = label t) (hown : ∀ y ∈ label' cur, r y x)
    (hnew : ∀ t, n ≤ t → t < n' → ∀ y ∈ label' t, r y x) :
    CutExpand r (heads label' n') (heads label n) := by
  have hrest : ∑ t ∈ (Finset.range n).erase cur, label' t =
      ∑ t ∈ (Finset.range n).erase cur, label t := by
    refine Finset.sum_congr rfl fun t ht => ?_
    obtain ⟨hne, hlt⟩ := Finset.mem_erase.mp ht
    exact hothers t (Finset.mem_range.mp hlt) hne
  have hsplit : heads label' n' = heads label' n + ∑ t ∈ Finset.Ico n n', label' t :=
    (Finset.sum_range_add_sum_Ico _ hn).symm
  refine ⟨label' cur + ∑ t ∈ Finset.Ico n n', label' t, x, fun y hy => ?_, ?_⟩
  · rcases Multiset.mem_add.mp hy with hy | hy
    · exact hown y hy
    · obtain ⟨t, ht, hy⟩ := Multiset.mem_sum.mp hy
      obtain ⟨hle, hlt⟩ := Finset.mem_Ico.mp ht
      exact hnew t hle hlt y hy
  · rw [hsplit, heads_eq_add hcur, heads_eq_add hcur, hrest, hx]
    ac_rfl

end Pools

end Processes
