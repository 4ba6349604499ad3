import Mathlib.Logic.Basic

/-!
# Running Stateful Computations That May Stop

A computation of `EStateM ε σ` either returns a value in a new state or stops with a
reason, in the state it stopped in. The lemmas here run such computations forwards, one
step of a `do` block at a time, from the outcome of their first part. `Ends` is the triple
for a computation from one state: what holds where it returns, and what where it stops;
`Returns` only says that it does return.

## Main results

* `bind_run`, `map_run`, `pure_run`: the operations of the monad, run.
* `run_bind_ok`, `run_bind_error`: a sequence, from the outcome of its first part.
* `Ends.bind`, `Ends.mono`: the rules of sequence and consequence.
-/

namespace Stateful

variable {ε σ α β : Type}

/-- A sequence, run. -/
theorem bind_run (x : EStateM ε σ α) (f : α → EStateM ε σ β) (s : σ) :
    (x >>= f) s = match x s with
      | .ok a u => f a u
      | .error e u => .error e u := by
  change EStateM.bind x f s = _
  cases h : x s <;> simp only [EStateM.bind, h]

/-- A mapped computation, run. -/
theorem map_run (f : α → β) (x : EStateM ε σ α) (s : σ) :
    (f <$> x) s = match x s with
      | .ok a u => .ok (f a) u
      | .error e u => .error e u := by
  change EStateM.map f x s = _
  cases h : x s <;> simp only [EStateM.map, h]

/-- A value, run. -/
theorem pure_run (a : α) (s : σ) : (pure a : EStateM ε σ α) s = .ok a s := rfl

/-- A sequence returns where both its parts do. -/
theorem bind_eq_ok {x : EStateM ε σ α} {f : α → EStateM ε σ β} {s u : σ} {b : β} :
    (x >>= f) s = .ok b u ↔ ∃ a t, x s = .ok a t ∧ f a t = .ok b u := by
  rw [bind_run]
  cases x s with
  | ok a t =>
      constructor
      · exact fun h => ⟨a, t, rfl, h⟩
      · rintro ⟨_, _, h, hf⟩
        cases h
        exact hf
  | error e t => simp

/-- A sequence whose first part returns goes on with the second. -/
theorem run_bind_ok {x : EStateM ε σ α} {f : α → EStateM ε σ β} {s u : σ} {a : α}
    (h : x s = .ok a u) : (x >>= f) s = f a u := by
  change EStateM.bind x f s = f a u
  simp only [EStateM.bind, h]

/-- A sequence whose first part stops, stops. -/
theorem run_bind_error {x : EStateM ε σ α} {f : α → EStateM ε σ β} {s u : σ} {e : ε}
    (h : x s = .error e u) : (x >>= f) s = .error e u := by
  change EStateM.bind x f s = .error e u
  simp only [EStateM.bind, h]

/-- The value of a computation that returns. -/
theorem run'_ok {x : EStateM ε σ α} {s u : σ} {a : α} (h : x s = .ok a u) :
    x.run' s = some a := by
  delta EStateM.run' EStateM.run
  rw [h]

/-- Run from `s`, the computation returns a value and a state with `Q`, or it stops for a
reason and in a state with `E`. -/
def Ends (x : EStateM ε σ α) (s : σ) (Q : α → σ → Prop) (E : ε → σ → Prop) : Prop :=
  match x s with
  | .ok a u => Q a u
  | .error e u => E e u

namespace Ends

variable {x : EStateM ε σ α} {f : α → EStateM ε σ β} {s u : σ} {a : α} {e : ε}
variable {P Q : α → σ → Prop} {R : β → σ → Prop} {E F : ε → σ → Prop}

/-- A computation that is known to return. -/
theorem of_ok (h : x s = .ok a u) (hq : Q a u) : Ends x s Q E := by
  rw [Ends, h]
  exact hq

/-- A computation that is known to stop. -/
theorem of_error (h : x s = .error e u) (he : E e u) : Ends x s Q E := by
  rw [Ends, h]
  exact he

/-- Where the computation returns. -/
theorem ok (h : Ends x s Q E) (hx : x s = .ok a u) : Q a u := by
  rwa [Ends, hx] at h

/-- Where the computation stops. -/
theorem error (h : Ends x s Q E) (hx : x s = .error e u) : E e u := by
  rwa [Ends, hx] at h

/-- A computation that returns a given value. -/
theorem pure (h : Q a s) : Ends (Pure.pure a) s Q E :=
  of_ok rfl h

/-- The rule of sequence. -/
theorem bind (hx : Ends x s P E) (hf : ∀ a u, P a u → Ends (f a) u R E) :
    Ends (x >>= f) s R E := by
  cases h : x s with
  | ok a u =>
      rw [Ends, run_bind_ok h]
      exact hf a u (hx.ok h)
  | error e u => exact of_error (run_bind_error h) (hx.error h)

/-- A sequence whose first part is known to return. -/
theorem step (h : x s = .ok a u) (hf : Ends (f a) u R E) : Ends (x >>= f) s R E := by
  rwa [Ends, run_bind_ok h]

/-- The rule of consequence. -/
theorem mono (h : Ends x s P E) (hq : ∀ a u, P a u → Q a u)
    (he : ∀ e u, E e u → F e u) : Ends x s Q F := by
  cases hx : x s with
  | ok a u => exact of_ok hx (hq a u (h.ok hx))
  | error e u => exact of_error hx (he e u (h.error hx))

/-- A computation that ends in another way. -/
theorem not (h : Ends x s P E) (hq : ∀ a u, P a u → ¬ Q a u) (he : ∀ e u, E e u → ¬ F e u) :
    ¬ Ends x s Q F := by
  intro h'
  cases hx : x s with
  | ok a u => exact hq a u (h.ok hx) (h'.ok hx)
  | error e u => exact he e u (h.error hx) (h'.error hx)

end Ends

/-- Run from `s`, the computation returns. -/
def Returns (x : EStateM ε σ α) (s : σ) : Prop := ∃ a u, x s = .ok a u

namespace Returns

variable {x : EStateM ε σ α} {f : α → EStateM ε σ β} {s u : σ} {a : α} {e : ε}

/-- A computation that ends with a value returns. -/
theorem of_ok (h : x s = .ok a u) : Returns x s := ⟨a, u, h⟩

/-- A computation that ends with an error does not return. -/
theorem not_of_error (h : x s = .error e u) : ¬ Returns x s := by
  rintro ⟨_, _, h'⟩
  cases h.symm.trans h'

/-- A value by itself always returns. -/
theorem pure : Returns (Pure.pure a : EStateM ε σ α) s := ⟨a, s, rfl⟩

/-- A sequence whose first part returns. -/
theorem bind_of_ok (h : x s = .ok a u) : Returns (x >>= f) s ↔ Returns (f a) u := by
  rw [Returns, run_bind_ok h, Returns]

/-- A sequence whose first part stops. -/
theorem not_bind_of_error (h : x s = .error e u) : ¬ Returns (x >>= f) s :=
  not_of_error (run_bind_error h)

end Returns

end Stateful
