import Mathlib.Data.List.Basic
import Mathlib.Data.Nat.Notation

/-!
# Tables of Numbered Slots

A table of slots with the numbers from 0 on, of which finitely many are in use. A new entry
goes to the free slot with the lowest number, as file descriptors do.

## Main definitions

* `Slots`: the tables.
* `Slots.lowest`: the lowest free slot.
* `Slots.set`: a slot written.

## Main results

* `get_set`: what a table holds behind a write.
* `get_lowest`, `lowest_ne`: a free slot is none that is in use.
* `get_of_lt_lowest`, `lowest_eq_iff`: below it no slot is free.
-/

/-- A table of slots. Behind its last entry all slots are free. -/
structure Slots (α : Type) where
  entries : List (Option α)
  deriving DecidableEq, Repr

namespace Slots

variable {α : Type} (t : Slots α) {j k : ℕ}

/-- What is in a slot. -/
def get (k : ℕ) : Option α := (t.entries)[k]?.join

/-- The lowest free slot. -/
def lowest : ℕ := t.entries.findIdx (·.isNone)

/-- A slot written; `none` frees it. -/
def set (k : ℕ) (v : Option α) : Slots α :=
  ⟨(t.entries ++ List.replicate (k + 1 - t.entries.length) none).set k v⟩

/-- What a table holds behind a write. -/
theorem get_set (v : Option α) : (t.set k v).get j = if j = k then v else t.get j := by
  simp only [get, set]
  by_cases h : j = k
  · subst h
    rw [if_pos rfl, List.getElem?_set_self (by simp; omega)]
    rfl
  · rw [if_neg h, List.getElem?_set_ne (Ne.symm h)]
    by_cases hj : j < t.entries.length
    · rw [List.getElem?_append_left hj]
    · rw [List.getElem?_append_right (by omega), List.getElem?_eq_none (by omega : _ ≤ j),
        List.getElem?_replicate]
      split <;> rfl

/-- What has been put into a slot is found there. -/
@[simp] theorem get_set_self (v : Option α) : (t.set k v).get k = v := by
  rw [get_set, if_pos rfl]

/-- The other slots are as they were. -/
theorem get_set_of_ne (v : Option α) (h : j ≠ k) : (t.set k v).get j = t.get j := by
  rw [get_set, if_neg h]

/-- The lowest free slot is free. -/
@[simp] theorem get_lowest : t.get t.lowest = none := by
  simp only [get, lowest]
  by_cases h : t.entries.findIdx (·.isNone) < t.entries.length
  · have hnone := List.findIdx_getElem (w := h)
    rw [List.getElem?_eq_getElem h, Option.isNone_iff_eq_none.mp hnone]
    rfl
  · rw [List.getElem?_eq_none (by omega)]
    rfl

/-- Below the lowest free slot no slot is free. -/
theorem get_of_lt_lowest (h : k < t.lowest) : t.get k ≠ none := by
  have hk := List.not_of_lt_findIdx h
  have hlt : k < t.entries.length := Nat.lt_of_lt_of_le h List.findIdx_le_length
  rw [get, List.getElem?_eq_getElem hlt, Option.join_some]
  simpa [← Option.isSome_iff_ne_none] using hk

/-- The lowest free slot, told from what is in use. -/
theorem lowest_eq_iff : t.lowest = k ↔ t.get k = none ∧ ∀ j < k, t.get j ≠ none := by
  constructor
  · rintro rfl
    exact ⟨t.get_lowest, fun j hj => t.get_of_lt_lowest hj⟩
  · rintro ⟨hk, hlt⟩
    rcases Nat.lt_trichotomy t.lowest k with h | h | h
    · exact absurd t.get_lowest (hlt _ h)
    · exact h
    · exact absurd hk (t.get_of_lt_lowest h)

/-- A slot in use is not the lowest free one. -/
theorem lowest_ne (h : t.get k ≠ none) : t.lowest ≠ k := by
  rintro rfl
  exact h t.get_lowest

end Slots
