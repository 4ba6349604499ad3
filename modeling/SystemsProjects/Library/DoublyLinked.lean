import SystemsProjects.Library.IntrusiveQueue

/-!
# Doubly Linked Lists

A list of nodes that is linked both ways: every node has a `next` and a `prev` field, and
the second leads back where the first led on.

## Main definitions

* `Doubly next prev b p l`: from `p` the nodes `l` follow one another, and the way back
  from the first of them is `b`.

## Main results

* `Doubly.concat`: a node is put behind the last one.
* `Doubly.inverse`: the two fields are inverse to one another.
-/

namespace DoublyLinked

open IntrusiveQueue

variable {ι : Type*} {next prev next' prev' : ι → Option ι} {b p : Option ι} {l : List ι}
  {x y t r : ι}

/-- From `p` the nodes `l` follow one another, each with the way back to the one before it,
the first one with `b`. -/
def Doubly (next prev : ι → Option ι) : Option ι → Option ι → List ι → Prop
  | _, p, [] => p = none
  | b, p, x :: xs => p = some x ∧ prev x = b ∧ Doubly next prev (some x) (next x) xs

/-- The way on is a chain. -/
theorem Doubly.linked (h : Doubly next prev b p l) : Linked next p l := by
  induction l generalizing b p with
  | nil => exact h
  | cons x xs ih => exact ⟨h.1, ih h.2.2⟩

/-- A node is put behind the last one. -/
theorem Doubly.concat (h : Doubly next prev b p l) (hr : l.getLast? = some r)
    (hn : ∀ x ∈ l, x ≠ r → next' x = next x) (hp : ∀ x ∈ l, prev' x = prev x)
    (hrt : next' r = some t) (htr : prev' t = some r) (ht : next' t = none) :
    Doubly next' prev' b p (l ++ [t]) := by
  have hnd := h.linked.nodup
  induction l generalizing b p with
  | nil => cases hr
  | cons x xs ih =>
      refine ⟨h.1, (hp x (by simp)).trans h.2.1, ?_⟩
      cases xs with
      | nil =>
          obtain rfl : x = r := by simpa using hr
          rw [hrt]
          exact ⟨rfl, htr, ht⟩
      | cons y ys =>
          have hr' : (y :: ys).getLast? = some r := by
            rwa [List.getLast?_cons_cons] at hr
          have hxr : x ≠ r := by
            rintro rfl
            exact (List.nodup_cons.mp hnd).1 (List.mem_of_getLast? hr')
          rw [hn x (by simp) hxr]
          exact ih h.2.2 hr' (fun z hz => hn z (by simp [hz])) (fun z hz => hp z (by simp [hz]))
            (List.nodup_cons.mp hnd).2

/-- The way on from a node leads to a node whose way back leads to it. -/
theorem Doubly.prev_next (h : Doubly next prev b p l) (hx : x ∈ l) (hy : next x = some y) :
    y ∈ l ∧ prev y = some x := by
  induction l generalizing b p with
  | nil => cases hx
  | cons z xs ih =>
      rcases List.mem_cons.mp hx with rfl | hx
      · cases xs with
        | nil =>
            have hnone : next x = none := h.2.2
            simp [hnone] at hy
        | cons w ws =>
            obtain ⟨hw, hback, -⟩ := h.2.2
            obtain rfl : w = y := by simpa [hw] using hy
            exact ⟨by simp, hback⟩
      · obtain ⟨hmem, hback⟩ := ih h.2.2 hx
        exact ⟨by simp [hmem], hback⟩

/-- The way back from a node leads to a node whose way on leads to it, or out of the list
at its front. -/
theorem Doubly.next_prev (h : Doubly next prev b p l) (hy : y ∈ l) (hx : prev y = some x) :
    (p = some y ∧ b = some x) ∨ (x ∈ l ∧ next x = some y) := by
  induction l generalizing b p with
  | nil => cases hy
  | cons z xs ih =>
      rcases List.mem_cons.mp hy with rfl | hy
      · exact .inl ⟨h.1, h.2.1.symm.trans hx⟩
      · rcases ih h.2.2 hy with ⟨hnext, hz⟩ | ⟨hmem, hnext⟩
        · obtain rfl : z = x := Option.some.inj hz
          exact .inr ⟨by simp, hnext⟩
        · exact .inr ⟨by simp [hmem], hnext⟩

/-- In a list with nothing before it, the two fields are inverse to one another. -/
theorem Doubly.inverse (h : Doubly next prev none p l) :
    ∀ x ∈ l, ∀ y ∈ l, next x = some y ↔ prev y = some x := by
  intro x hx y hy
  constructor
  · exact fun hn => (h.prev_next hx hn).2
  · intro hp
    rcases h.next_prev hy hp with ⟨-, hb⟩ | ⟨-, hn⟩
    · cases hb
    · exact hn

end DoublyLinked
