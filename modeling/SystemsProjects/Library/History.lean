import Mathlib.Data.List.Basic

/-!
# Histories

A history is the list of what has been observed so far, oldest first, and a step appends
to it. An observation is justified if what came before it satisfies some condition; a
history all of whose observations are justified stays so when a step appends justified
ones. Conditions that only ask for something to have happened are monotone, and then a
step has to justify its observations by the history before the step.

## Main definitions

* `Justified`: every entry satisfies a condition on the entries before it.
* `subjects`: what the entries of one kind are about, in their order.

## Main results

* `split_of_append_eq`: where an entry of an extended history is.
* `Justified.append`, `Justified.append_of_mono`: extending a justified history.
-/

namespace History

variable {α : Type}

/-- An entry of an extended history is an old entry or a new one. -/
theorem split_of_append_eq {l m p q : List α} {e : α} (h : l ++ m = p ++ e :: q) :
    (∃ q', l = p ++ e :: q' ∧ q = q' ++ m) ∨ ∃ p', p = l ++ p' ∧ m = p' ++ e :: q := by
  rcases List.append_eq_append_iff.mp h with ⟨p', rfl, hm⟩ | ⟨q', rfl, hq⟩
  · exact .inr ⟨p', rfl, hm⟩
  · rcases q' with _ | ⟨x, q'⟩
    · exact .inr ⟨[], by simp, by simpa using hq.symm⟩
    · obtain ⟨rfl, rfl⟩ := List.cons.inj hq
      exact .inl ⟨q', rfl, rfl⟩

/-- Every entry satisfies `P` with the entries before it. -/
def Justified (P : List α → α → Prop) (h : List α) : Prop :=
  ∀ p e q, h = p ++ e :: q → P p e

/-- The empty history is justified. -/
theorem Justified.nil (P : List α → α → Prop) : Justified P [] := by
  intro p e q h
  simp at h

/-- Extending a justified history by entries that are justified where they stand. -/
theorem Justified.append {P : List α → α → Prop} {l m : List α} (hl : Justified P l)
    (hm : ∀ p e q, m = p ++ e :: q → P (l ++ p) e) : Justified P (l ++ m) := by
  intro p e q h
  rcases split_of_append_eq h with ⟨q', hq, -⟩ | ⟨p', rfl, hm'⟩
  · exact hl p e q' hq
  · exact hm p' e q hm'

/-- Extending a justified history by entries that the history itself justifies, for a
condition that stays true as the history grows. -/
theorem Justified.append_of_mono {P : List α → α → Prop} {l m : List α} (hl : Justified P l)
    (hmono : ∀ p p' e, P p e → P (p ++ p') e) (hm : ∀ e ∈ m, P l e) :
    Justified P (l ++ m) :=
  hl.append fun p e q h => hmono l p e (hm e (by simp [h]))

/-! ### Entries of one kind -/

section Subjects

variable {β : Type} {f : α → Option β} {l m : List α} {e : α}

/-- What the entries of a history that `f` recognises are about, in their order. -/
def subjects (f : α → Option β) (h : List α) : List β := h.filterMap f

/-- An empty history is about nothing. -/
@[simp] theorem subjects_nil : subjects f [] = [] := rfl

/-- The first event of a history contributes its subject, if it has one. -/
@[simp] theorem subjects_cons : subjects f (e :: l) = (f e).toList ++ subjects f l := by
  cases h : f e <;> simp [subjects, h]

/-- The subjects of a history that is continued are those of its parts, in order. -/
@[simp] theorem subjects_append : subjects f (l ++ m) = subjects f l ++ subjects f m :=
  List.filterMap_append ..

/-- Entries of other kinds add nothing. -/
theorem subjects_append_of_none (h : ∀ e ∈ m, f e = none) : subjects f (l ++ m) = subjects f l := by
  rw [subjects_append, subjects, subjects, List.filterMap_eq_nil_iff.mpr h, List.append_nil]

/-- What an entry of the kind is about is among the subjects. -/
theorem mem_subjects {x : β} : x ∈ subjects f l ↔ ∃ e ∈ l, f e = some x :=
  List.mem_filterMap

end Subjects

end History
