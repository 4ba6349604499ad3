import Mathlib.Data.List.Basic
import Mathlib.Logic.Function.Basic

/-!
# First In, First Out

Lists under names, to which operations append at the end and from which they remove at the
front. A sequence of operations is admissible if nothing is appended that is in one of the
lists.

## Main definitions

* `Op`, `replay`: the operations, and the lists behind a sequence of them.
* `Admissible`: only what is in no list is appended.
* `pushed`, `removed`: what a sequence appends to a list, and what it removes from it.
* `answers`: what its removals find.

## Main results

* `removed_append_replay`: what is removed and what is left are what was there and what was
  appended.
* `removed_of_mem`: what is in a list is removed behind all that is before it.
-/

namespace Fifo

variable {κ ι : Type*}

/-- An operation on one of the lists. -/
inductive Op (κ ι : Type*)
  | push (k : κ) (x : ι)
  | pop (k : κ)
  deriving DecidableEq

section Replay

variable [DecidableEq κ]

/-- The lists behind an operation. An empty list stays as it is when it is popped. -/
def Op.apply (L : κ → List ι) : Op κ ι → κ → List ι
  | .push k x => Function.update L k (L k ++ [x])
  | .pop k => Function.update L k (L k).tail

/-- The lists behind a sequence of operations. -/
def replay (L : κ → List ι) (ops : List (Op κ ι)) : κ → List ι := ops.foldl Op.apply L

/-- The operation appends only what is in no list. -/
def Op.Admissible (L : κ → List ι) : Op κ ι → Prop
  | .push _ x => ∀ k, x ∉ L k
  | .pop _ => True

/-- Every operation appends only what is in no list by then. -/
def Admissible : (κ → List ι) → List (Op κ ι) → Prop
  | _, [] => True
  | L, op :: ops => op.Admissible L ∧ Admissible (op.apply L) ops

/-- What an operation appends to a list. -/
def Op.pushed (k : κ) : Op κ ι → List ι
  | .push k' x => if k' = k then [x] else []
  | .pop _ => []

/-- What is appended to a list. -/
def pushed (k : κ) (ops : List (Op κ ι)) : List ι := ops.flatMap (Op.pushed k)

/-- What an operation removes from a list. -/
def Op.removed (k : κ) (L : κ → List ι) : Op κ ι → List ι
  | .push _ _ => []
  | .pop k' => if k' = k then (L k).head?.toList else []

/-- What is removed from a list. -/
def removed (k : κ) : (κ → List ι) → List (Op κ ι) → List ι
  | _, [] => []
  | L, op :: ops => op.removed k L ++ removed k (op.apply L) ops

/-- What the removals of a sequence find, one after the other. -/
def answers : (κ → List ι) → List (Op κ ι) → List (Option ι)
  | _, [] => []
  | L, .push k x :: ops => answers ((Op.push k x).apply L) ops
  | L, .pop k :: ops => (L k).head? :: answers ((Op.pop k).apply L) ops

variable {k : κ} {L : κ → List ι} {ops ops' : List (Op κ ι)}

/-- Without calls the lists are as they were. -/
@[simp] theorem replay_nil : replay L ([] : List (Op κ ι)) = L := rfl

/-- The first call is made on the lists as they are, the others on what it leaves. -/
@[simp] theorem replay_cons {op : Op κ ι} : replay L (op :: ops) = replay (op.apply L) ops := rfl

/-- Calls made in two goes are the calls made in one. -/
theorem replay_append : replay L (ops ++ ops') = replay (replay L ops) ops' :=
  List.foldl_append

/-- Calls are admissible one after the other, each where those before it have led. -/
theorem admissible_append :
    Admissible L (ops ++ ops') ↔ Admissible L ops ∧ Admissible (replay L ops) ops' := by
  induction ops generalizing L with
  | nil => exact (and_iff_right trivial).symm
  | cons op ops ih => rw [List.cons_append, Admissible, Admissible, ih, replay_cons, and_assoc]

/-- What is taken away in two goes is what the first takes, and then what the second takes. -/
theorem removed_append :
    removed k L (ops ++ ops') = removed k L ops ++ removed k (replay L ops) ops' := by
  induction ops generalizing L with
  | nil => rfl
  | cons op ops ih =>
      rw [List.cons_append, removed, removed, ih, replay_cons, List.append_assoc]

/-- Where a list is not popped, nothing is removed from it. -/
theorem removed_eq_nil (h : Op.pop k ∉ ops) : removed k L ops = [] := by
  induction ops generalizing L with
  | nil => rfl
  | cons op ops ih =>
      obtain ⟨hop, hops⟩ := not_or.mp (mt List.mem_cons.mpr h)
      rw [removed, ih hops, List.append_nil]
      cases op with
      | push k' x => rfl
      | pop k' =>
          refine if_neg fun hk => hop ?_
          rw [hk]

/-- An operation appends to a list, or it removes its front. -/
theorem Op.removed_append_apply (op : Op κ ι) :
    op.removed k L ++ op.apply L k = L k ++ op.pushed k := by
  cases op with
  | push k' x =>
      by_cases hk : k' = k
      · subst hk
        simp [Op.removed, Op.apply, Op.pushed]
      · simp [Op.removed, Op.apply, Op.pushed, hk, Function.update_of_ne (Ne.symm hk)]
  | pop k' =>
      by_cases hk : k' = k
      · subst hk
        cases h : L k' <;> simp [Op.removed, Op.apply, Op.pushed, h]
      · simp [Op.removed, Op.apply, Op.pushed, hk, Function.update_of_ne (Ne.symm hk)]

/-- What is removed from a list, with what is left in it, is what was in it, with what was
appended. -/
theorem removed_append_replay :
    removed k L ops ++ replay L ops k = L k ++ pushed k ops := by
  induction ops generalizing L with
  | nil => simp [removed, pushed]
  | cons op ops ih =>
      calc removed k L (op :: ops) ++ replay L (op :: ops) k
          = op.removed k L ++ (removed k (op.apply L) ops ++ replay (op.apply L) ops k) :=
            List.append_assoc ..
        _ = op.removed k L ++ (op.apply L k ++ pushed k ops) := by rw [ih]
        _ = L k ++ op.pushed k ++ pushed k ops := by
            rw [← List.append_assoc, op.removed_append_apply]
        _ = L k ++ pushed k (op :: ops) := List.append_assoc ..

/-- What is in a list is removed behind all that is before it, or it is still there, behind
what is left of that. -/
theorem removed_of_mem {l₁ l₂ : List ι} {x : ι} (h : L k = l₁ ++ x :: l₂) :
    (∃ d, removed k L ops = l₁ ++ x :: d) ∨
      ∃ r l₃, l₁ = removed k L ops ++ r ∧ replay L ops k = r ++ x :: l₃ := by
  have hlaw : removed k L ops ++ replay L ops k = l₁ ++ (x :: l₂ ++ pushed k ops) := by
    rw [removed_append_replay, h, List.append_assoc]
  rcases List.append_eq_append_iff.mp hlaw with ⟨r, hr, hleft⟩ | ⟨d, hd, hleft⟩
  · exact .inr ⟨r, l₂ ++ pushed k ops, hr, hleft⟩
  · cases d with
    | nil => exact .inr ⟨[], l₂ ++ pushed k ops, by simpa using hd.symm, hleft.symm⟩
    | cons y d =>
        obtain ⟨rfl, -⟩ := List.cons.inj hleft
        exact .inl ⟨d, hd⟩

end Replay

end Fifo
