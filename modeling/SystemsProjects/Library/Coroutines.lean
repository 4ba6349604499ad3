import Mathlib.Logic.Function.Basic
import Mathlib.Logic.Relation

/-!
# Coroutines

Several parties, one of which runs. Of the others, each that has been started is parked
with what it needs to go on, a continuation. The running party works, starts others, or
switches to a parked one, which parks its own continuation.

## Main definitions

* `State`, `Step`: who runs, with what, and who is parked with what.
* `Step.Away`: the steps after which a given party does not run.

## Main results

* `parked_of_away`: a parked party keeps its continuation for as long as it does not run.
* `live_of_resumed`: a party that is switched back to goes on where it was.
-/

namespace Coroutines

open Relation

variable {τ κ : Type}

/-- The party that runs, its continuation at this point, and the continuations of the
parked parties. -/
structure State (τ κ : Type) where
  current : τ
  live : κ
  parked : τ → Option κ

variable [DecidableEq τ]

/-- The running party works, starts another, or switches to a parked one. -/
inductive Step (s : State τ κ) : State τ κ → Prop
  | work (k : κ) : Step s { s with live := k }
  | start {u : τ} (k k' : κ) : s.parked u = none → u ≠ s.current →
      Step s { s with live := k', parked := Function.update s.parked u (some k) }
  | switch {u : τ} {k : κ} : s.parked u = some k → u ≠ s.current →
      Step s ⟨u, k, Function.update (Function.update s.parked s.current (some s.live)) u none⟩

/-- A step after which `t` does not run. -/
def Step.Away (t : τ) (s s' : State τ κ) : Prop := Step s s' ∧ s'.current ≠ t

variable {s s₁ s₂ s₃ : State τ κ} {t : τ} {k : κ}

/-- A step leaves the continuation of a party that runs neither before nor after it. -/
theorem Step.parked_eq (h : Step s s₁) (hs : s.current ≠ t) (hs₁ : s₁.current ≠ t)
    (hk : s.parked t = some k) : s₁.parked t = some k := by
  cases h with
  | work k' => exact hk
  | @start u k' k₁ hu hne =>
      have : t ≠ u := by
        rintro rfl
        rw [hk] at hu
        cases hu
      exact (Function.update_of_ne this ..).trans hk
  | @switch u k' hu hne =>
      have htu : t ≠ u := fun h => hs₁ h.symm
      exact (Function.update_of_ne htu ..).trans
        ((Function.update_of_ne (fun h => hs h.symm) ..).trans hk)

/-- A parked party keeps its continuation for as long as it does not run. -/
theorem parked_of_away (h : ReflTransGen (Step.Away t) s s₁) (hs : s.current ≠ t)
    (hk : s.parked t = some k) : s₁.parked t = some k ∧ s₁.current ≠ t := by
  induction h with
  | refl => exact ⟨hk, hs⟩
  | tail _ hstep ih => exact ⟨hstep.1.parked_eq ih.2 hstep.2 ih.1, hstep.2⟩

/-- A step to a party that did not run takes its continuation up. -/
theorem Step.live_eq (h : Step s s₁) (hs : s.current ≠ t) (hs₁ : s₁.current = t)
    (hk : s.parked t = some k) : s₁.live = k := by
  cases h with
  | work k' => exact absurd hs₁ hs
  | start k' k₁ hu hne => exact absurd hs₁ hs
  | @switch u k' hu hne =>
      obtain rfl : u = t := hs₁
      rw [hk] at hu
      exact (Option.some.inj hu).symm

/-- A party that switches away is parked where it was. -/
theorem Step.parked_current (h : Step s s₁) (hne : s₁.current ≠ s.current) :
    s₁.parked s.current = some s.live := by
  cases h with
  | work k' => exact absurd rfl hne
  | start k' k₁ hu hne' => exact absurd rfl hne
  | @switch u k' hu hne' =>
      exact (Function.update_of_ne (fun h => hne h.symm) ..).trans (Function.update_self ..)

/-- **Back where it was.** A party that switches away and is switched back to, with others
running in between, goes on with the continuation it had. -/
theorem live_of_resumed (hout : Step s s₁) (hne : s₁.current ≠ s.current)
    (haway : ReflTransGen (Step.Away s.current) s₁ s₂) (hin : Step s₂ s₃)
    (hback : s₃.current = s.current) : s₃.live = s.live := by
  obtain ⟨hk, hs₂⟩ := parked_of_away haway hne (hout.parked_current hne)
  exact hin.live_eq hs₂ hback hk

/-- A party that was started and is switched to for the first time goes on with the
continuation it was started with. -/
theorem live_of_started (hk : s.parked t = some k) (hs : s.current ≠ t)
    (haway : ReflTransGen (Step.Away t) s s₂) (hin : Step s₂ s₃) (hto : s₃.current = t) :
    s₃.live = k := by
  obtain ⟨hk', hs₂⟩ := parked_of_away haway hs hk
  exact hin.live_eq hs₂ hto hk'

end Coroutines
