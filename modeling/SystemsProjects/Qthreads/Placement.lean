import Mathlib.Data.List.Nodup
import Mathlib.Data.Set.Insert
import SystemsProjects.Qthreads.Scheduler

/-!
# Every Thread Is in One Place

The location invariant of the abstract scheduler. `Placed E a` says that every thread
that is alive and not in `E` is in exactly one queue, or blocked in a join and recorded
as the joiner of a live thread; `E` collects the threads that are on their way from one
place to another. Between steps it is the current thread alone, and when the next thread
is about to be chosen it is empty.

Appending a thread takes it out of `E`, removing one puts it in, and every operation of
the library is a sequence of such moves, so each of them needs one lemma only.

## Main results

* `Placed.push`, `Placed.pop`: the two moves.
* `Placed.finish`, `Placed.block`, `Placed.spawn`: exit, join and create.
-/

namespace SystemsProjects.Qthreads

/-- Every live thread outside `E` is in exactly one place, and in the right one. -/
structure Placed (E : Set Tid) (a : Sched) : Prop where
  nodup : ∀ q, (a.queue q).Nodup
  disjoint : ∀ q q' t, t ∈ a.queue q → t ∈ a.queue q' → q = q'
  queued : ∀ q t, t ∈ a.queue q → a.Alive t ∧ t ∉ E
  home : ∀ q t, t ∈ a.queue q → q ≠ .runnable → (a.point t).home = some q
  joins : ∀ u j, a.Alive u → a.joiner u = some j →
    a.Alive j ∧ j ∉ E ∧ a.point j = .join u ∧ ∀ q, j ∉ a.queue q
  joining : ∀ j u, a.Alive j → a.point j = .join u →
    u < a.nthreads ∧ (a.result u = none → a.joiner u = some j)
  somewhere : ∀ t, a.Alive t → t ∉ E →
    (∃ q, t ∈ a.queue q) ∨ ∃ u, a.point t = .join u ∧ a.Alive u ∧ a.joiner u = some t
  exempt : ∀ t ∈ E, a.Alive t
  inside : ∀ t, a.Alive t → a.point t ≠ .exit

/-! ### Queues after the elementary changes -/

namespace Sched

/-- The queue a thread was appended to. -/
theorem queue_push_self {a : Sched} {q : QueueId} {t : Tid} :
    (a.push q t).queue q = a.queue q ++ [t] :=
  Function.update_self ..

/-- The other queues after an append. -/
theorem queue_push_of_ne {a : Sched} {q q' : QueueId} {t : Tid} (h : q' ≠ q) :
    (a.push q t).queue q' = a.queue q' :=
  Function.update_of_ne h ..

/-- An append to a queue is observed. -/
@[simp] theorem trace_push {a : Sched} {q : QueueId} {t : Tid} :
    (a.push q t).trace = a.trace ++ [.pushed q (some t)] := rfl

/-- An observation is at the end of the trace. -/
@[simp] theorem trace_log {a : Sched} {e : Event} : (a.log e).trace = a.trace ++ [e] := rfl

/-- The elements of a queue after an append. -/
theorem mem_push {a : Sched} {q q' : QueueId} {t x : Tid} :
    x ∈ (a.push q t).queue q' ↔ x ∈ a.queue q' ∨ (q' = q ∧ x = t) := by
  by_cases h : q' = q
  · subst h
    simp [queue_push_self]
  · simp [queue_push_of_ne h, h]

/-- A removal from a queue whose front is known. -/
theorem pop_of_cons {a : Sched} {q : QueueId} {t : Tid} {l : List Tid}
    (h : a.queue q = t :: l) :
    a.pop q = { a with
      queue := Function.update a.queue q l
      trace := a.trace ++ [.popped q (some t)] } := by
  rw [pop, h]

/-- The queue a thread was removed from. -/
theorem queue_pop_self {a : Sched} {q : QueueId} {t : Tid} {l : List Tid}
    (h : a.queue q = t :: l) : (a.pop q).queue q = l := by
  rw [pop_of_cons h]
  exact Function.update_self ..

/-- The other queues after a removal. -/
theorem queue_pop_of_ne {a : Sched} {q q' : QueueId} (h : q' ≠ q) :
    (a.pop q).queue q' = a.queue q' := by
  cases hq : a.queue q with
  | nil => rw [pop, hq]
  | cons t l =>
      rw [pop_of_cons hq]
      exact Function.update_of_ne h ..

/-- The elements of a queue after a removal. -/
theorem mem_pop {a : Sched} {q q' : QueueId} {t x : Tid} {l : List Tid}
    (h : a.queue q = t :: l) (hn : (a.queue q).Nodup) :
    x ∈ (a.pop q).queue q' ↔ x ∈ a.queue q' ∧ ¬(q' = q ∧ x = t) := by
  by_cases hq : q' = q
  · subst hq
    rw [queue_pop_self h, h, List.mem_cons]
    rw [h] at hn
    have ht := (List.nodup_cons.mp hn).1
    constructor
    · intro hx
      exact ⟨.inr hx, fun hxt => ht (hxt.2 ▸ hx)⟩
    · rintro ⟨hx | hx, hne⟩
      · exact absurd ⟨rfl, hx⟩ hne
      · exact hx
  · rw [queue_pop_of_ne hq]
    exact ⟨fun hx => ⟨hx, fun hh => hq hh.1⟩, fun hx => hx.1⟩

/-- A removal does not touch the threads. -/
theorem pop_fields (a : Sched) (q : QueueId) : (a.pop q).current = a.current ∧
    (a.pop q).point = a.point ∧ (a.pop q).result = a.result ∧ (a.pop q).joiner = a.joiner ∧
    (a.pop q).nthreads = a.nthreads := by
  cases h : a.queue q with
  | nil =>
      rw [pop, h]
      exact ⟨rfl, rfl, rfl, rfl, rfl⟩
  | cons t l =>
      rw [pop_of_cons h]
      exact ⟨rfl, rfl, rfl, rfl, rfl⟩

section Take

variable (a : Sched) (t : Tid)

/-- The thread that is taken from the active list becomes current. -/
@[simp] theorem take_current : (a.take t).current = t := rfl

/-- Where the threads stand is not changed by who is current. -/
@[simp] theorem take_point : (a.take t).point = a.point := (a.pop_fields .runnable).2.1

/-- Nor is what they have exited with. -/
@[simp] theorem take_result : (a.take t).result = a.result := (a.pop_fields .runnable).2.2.1

/-- Nor is who waits for them. -/
@[simp] theorem take_joiner : (a.take t).joiner = a.joiner := (a.pop_fields .runnable).2.2.2.1

/-- Nor is their number. -/
@[simp] theorem take_nthreads : (a.take t).nthreads = a.nthreads :=
  (a.pop_fields .runnable).2.2.2.2

end Take

/-- The active list after its head has become current. -/
theorem queue_take_runnable {a : Sched} {t : Tid} {l : List Tid}
    (h : a.queue .runnable = t :: l) : (a.take t).queue .runnable = l :=
  queue_pop_self h

/-- The other queues after the head of the active list has become current. -/
theorem queue_take_of_ne {a : Sched} {t : Tid} {q : QueueId} (h : q ≠ .runnable) :
    (a.take t).queue q = a.queue q :=
  queue_pop_of_ne h

end Sched

namespace Placed

variable {E : Set Tid} {a : Sched}

/-- The invariant depends on queues, points, results and joiners only. -/
theorem congr {b : Sched} (h : Placed E a) (hq : b.queue = a.queue)
    (hp : b.point = a.point) (hr : b.result = a.result) (hj : b.joiner = a.joiner)
    (hn : b.nthreads = a.nthreads) : Placed E b := by
  have hA : ∀ t, b.Alive t ↔ a.Alive t := fun t => by rw [Sched.Alive, Sched.Alive, hr, hn]
  constructor
  · rw [hq]
    exact h.nodup
  · rw [hq]
    exact h.disjoint
  · simp only [hq, hA]
    exact h.queued
  · simp only [hq, hp]
    exact h.home
  · simp only [hq, hp, hj, hA]
    exact h.joins
  · simp only [hp, hr, hj, hn, hA]
    exact h.joining
  · simp only [hq, hp, hj, hA]
    exact h.somewhere
  · simp only [hA]
    exact h.exempt
  · simp only [hp, hA]
    exact h.inside

/-- An observation changes nothing. -/
theorem log (h : Placed E a) (e : Event) : Placed E (a.log e) :=
  h.congr rfl rfl rfl rfl rfl

/-- A thread on its way arrives in a queue. -/
theorem push {q : QueueId} {t : Tid} (h : Placed E a) (ht : t ∈ E)
    (hq : q = .runnable ∨ (a.point t).home = some q) : Placed (E \ {t}) (a.push q t) := by
  have hfree : ∀ q, t ∉ a.queue q := fun q hm => (h.queued q t hm).2 ht
  constructor
  · intro q'
    by_cases hq' : q' = q
    · subst hq'
      rw [Sched.queue_push_self]
      exact List.nodup_append.mpr ⟨h.nodup q', List.nodup_singleton t, fun x hx y hy hxy => by
        rw [List.mem_singleton] at hy
        exact hfree q' (hy ▸ hxy ▸ hx)⟩
    · rw [Sched.queue_push_of_ne hq']
      exact h.nodup q'
  · intro q₁ q₂ x h₁ h₂
    rw [Sched.mem_push] at h₁ h₂
    rcases h₁ with h₁ | ⟨rfl, rfl⟩
    · rcases h₂ with h₂ | ⟨rfl, rfl⟩
      · exact h.disjoint q₁ q₂ x h₁ h₂
      · exact absurd h₁ (hfree q₁)
    · rcases h₂ with h₂ | ⟨rfl, -⟩
      · exact absurd h₂ (hfree q₂)
      · rfl
  · intro q' x hx
    rw [Sched.mem_push] at hx
    rcases hx with hx | ⟨-, rfl⟩
    · exact ⟨(h.queued q' x hx).1, fun hE => (h.queued q' x hx).2 hE.1⟩
    · exact ⟨h.exempt x ht, fun hE => hE.2 rfl⟩
  · intro q' x hx hne
    rw [Sched.mem_push] at hx
    rcases hx with hx | ⟨rfl, rfl⟩
    · exact h.home q' x hx hne
    · exact hq.resolve_left hne
  · intro u j hu hj
    obtain ⟨hA, hE, hp, hno⟩ := h.joins u j hu hj
    refine ⟨hA, fun hE' => hE hE'.1, hp, fun q' hx => ?_⟩
    rw [Sched.mem_push] at hx
    rcases hx with hx | ⟨-, rfl⟩
    · exact hno q' hx
    · exact hE ht
  · exact h.joining
  · intro x hx hxE
    by_cases hxt : x = t
    · exact .inl ⟨q, Sched.mem_push.mpr (.inr ⟨rfl, hxt⟩)⟩
    · rcases h.somewhere x hx fun hE => hxE ⟨hE, hxt⟩ with ⟨q', hq'⟩ | hj
      · exact .inl ⟨q', Sched.mem_push.mpr (.inl hq')⟩
      · exact .inr hj
  · exact fun x hx => h.exempt x hx.1
  · exact h.inside

/-- A thread on its way beside those in `E` arrives in a queue. -/
theorem arrive {q : QueueId} {t : Tid} (h : Placed (insert t E) a) (ht : t ∉ E)
    (hq : q = .runnable ∨ (a.point t).home = some q) : Placed E (a.push q t) := by
  have hE : insert t E \ {t} = E := by
    ext x
    constructor
    · rintro ⟨rfl | hx, hne⟩
      · exact absurd rfl hne
      · exact hx
    · exact fun hx => ⟨.inr hx, fun hxt => ht (hxt ▸ hx)⟩
  exact hE ▸ h.push (Set.mem_insert t E) hq

/-- The front of a queue sets out. -/
theorem pop {q : QueueId} {t : Tid} {l : List Tid} (h : Placed E a)
    (hq : a.queue q = t :: l) : Placed (insert t E) (a.pop q) := by
  have hmem : ∀ q' x, x ∈ (a.pop q).queue q' ↔ x ∈ a.queue q' ∧ ¬(q' = q ∧ x = t) :=
    fun q' x => Sched.mem_pop hq (h.nodup q)
  have ht : t ∈ a.queue q := hq ▸ List.mem_cons_self
  obtain ⟨-, hp, hr, hj, hn⟩ := a.pop_fields q
  have hA : ∀ x, (a.pop q).Alive x ↔ a.Alive x := fun x => by
    rw [Sched.Alive, Sched.Alive, hr, hn]
  constructor
  · intro q'
    by_cases hq' : q' = q
    · subst hq'
      rw [Sched.queue_pop_self hq]
      exact (List.nodup_cons.mp (hq ▸ h.nodup q')).2
    · rw [Sched.queue_pop_of_ne hq']
      exact h.nodup q'
  · intro q₁ q₂ x h₁ h₂
    exact h.disjoint q₁ q₂ x ((hmem q₁ x).mp h₁).1 ((hmem q₂ x).mp h₂).1
  · intro q' x hx
    obtain ⟨hx, hne⟩ := (hmem q' x).mp hx
    refine ⟨(hA x).mpr (h.queued q' x hx).1, ?_⟩
    rintro (rfl | hE)
    · exact hne ⟨h.disjoint q' q x hx ht, rfl⟩
    · exact (h.queued q' x hx).2 hE
  · intro q' x hx hne
    rw [hp]
    exact h.home q' x ((hmem q' x).mp hx).1 hne
  · intro u j hu hju
    rw [hj] at hju
    obtain ⟨hjA, hjE, hjp, hno⟩ := h.joins u j ((hA u).mp hu) hju
    refine ⟨(hA j).mpr hjA, ?_, hp ▸ hjp, fun q' hx => hno q' ((hmem q' j).mp hx).1⟩
    rintro (rfl | hE)
    · exact hno q ht
    · exact hjE hE
  · intro j u hjA hjp
    rw [hp] at hjp
    rw [hr, hj, hn]
    exact h.joining j u ((hA j).mp hjA) hjp
  · intro x hx hxE
    obtain ⟨hxt, hxE⟩ := not_or.mp hxE
    rcases h.somewhere x ((hA x).mp hx) hxE with ⟨q', hq'⟩ | ⟨u, hpu, huA, hju⟩
    · exact .inl ⟨q', (hmem q' x).mpr ⟨hq', fun hh => hxt hh.2⟩⟩
    · exact .inr ⟨u, hp ▸ hpu, (hA u).mpr huA, hj ▸ hju⟩
  · rintro x (rfl | hx)
    · exact (hA x).mpr (h.queued q x ht).1
    · exact (hA x).mpr (h.exempt x hx)
  · intro x hx
    rw [hp]
    exact h.inside x ((hA x).mp hx)

/-- The front of a queue becomes runnable. -/
theorem wakeFront (h : Placed E a) (q : QueueId) : Placed E (a.wakeFront q) := by
  rw [Sched.wakeFront]
  cases hq : a.queue q with
  | nil => exact h
  | cons t l =>
      have ht : t ∉ E := (h.queued q t (hq ▸ List.mem_cons_self)).2
      exact (h.pop hq).arrive ht (.inl rfl)

/-- All threads of a queue become runnable. -/
theorem wakeAll (h : Placed E a) (q : QueueId) : Placed E (a.wakeAll q) := by
  rw [Sched.wakeAll]
  generalize (a.queue q).length = n
  induction n with
  | zero => exact h
  | succ n ih =>
      rw [Function.iterate_succ_apply']
      exact ih.wakeFront q

/-- An unlock makes at most the first waiter runnable. -/
theorem unlock (h : Placed E a) (m : MutexId) : Placed E (a.unlock m) := by
  rw [Sched.unlock]
  cases a.queue (.mutex m) with
  | nil => exact h.congr rfl rfl rfl rfl rfl
  | cons t l => exact (h.log _).wakeFront _

/-- The current thread's code moves while it is in no place. -/
theorem goto {p : Point} (h : Placed E a)
    (hcur : ∀ t, a.Alive t → t ∉ E → t ≠ a.current)
    (hp : a.Alive a.current → p ≠ .exit ∧ ∀ u, p ≠ .join u) : Placed E (a.goto p) := by
  have hpt : ∀ t, t ≠ a.current → (a.goto p).point t = a.point t := fun t ht =>
    Function.update_of_ne ht ..
  have hself : (a.goto p).point a.current = p := Function.update_self ..
  refine ⟨h.nodup, h.disjoint, h.queued, fun q t ht hne => ?_, fun u j hu hj => ?_,
    fun j u hjA hjp => ?_, fun t ht htE => ?_, h.exempt, fun t ht => ?_⟩
  · obtain ⟨hA, hE⟩ := h.queued q t ht
    rw [hpt t (hcur t hA hE)]
    exact h.home q t ht hne
  · obtain ⟨hjA, hjE, hjp, hno⟩ := h.joins u j hu hj
    exact ⟨hjA, hjE, (hpt j (hcur j hjA hjE)).trans hjp, hno⟩
  · by_cases hjc : j = a.current
    · subst hjc
      rw [hself] at hjp
      exact absurd hjp ((hp hjA).2 u)
    · rw [hpt j hjc] at hjp
      exact h.joining j u hjA hjp
  · rcases h.somewhere t ht htE with hq | ⟨u, hpu, huA, hju⟩
    · exact .inl hq
    · exact .inr ⟨u, (hpt t (hcur t ht htE)).trans hpu, huA, hju⟩
  · by_cases htc : t = a.current
    · subst htc
      rw [hself]
      exact (hp ht).1
    · rw [hpt t htc]
      exact h.inside t ht

/-! ### Create, exit and join -/

/-- A new thread is made and becomes runnable. -/
theorem spawn (h : Placed E a) (d : ℤ) : Placed E (a.spawn d) := by
  have hlt : ∀ t, a.Alive t → t ≠ a.nthreads := fun t ht => ht.1.ne
  have hnE : a.nthreads ∉ E := fun hE => hlt _ (h.exempt _ hE) rfl
  let b : Sched := { a with
    nthreads := a.nthreads + 1
    point := Function.update a.point a.nthreads .entry
    result := Function.update a.result a.nthreads none
    joiner := Function.update a.joiner a.nthreads none
    deadline := Function.update a.deadline a.nthreads d }
  have hA : ∀ t, b.Alive t ↔ a.Alive t ∨ t = a.nthreads := by
    intro t
    simp only [Sched.Alive, b]
    by_cases ht : t = a.nthreads
    · simp [ht]
    · rw [Function.update_of_ne ht]
      constructor
      · exact fun hh => .inl ⟨lt_of_le_of_ne (Nat.lt_succ_iff.mp hh.1) ht, hh.2⟩
      · exact fun hh => ⟨Nat.lt_succ_of_lt (hh.resolve_right ht).1, (hh.resolve_right ht).2⟩
  have hpt : ∀ t, t ≠ a.nthreads → b.point t = a.point t := fun t ht =>
    Function.update_of_ne ht ..
  have hself : b.point a.nthreads = .entry := Function.update_self ..
  have key : Placed (insert a.nthreads E) b := by
    refine ⟨h.nodup, h.disjoint, fun q t ht => ?_, fun q t ht hne => ?_, fun u j hu hj => ?_,
      fun j u hjA hjp => ?_, fun t ht htE => ?_, fun t ht => ?_, fun t ht => ?_⟩
    · obtain ⟨htA, htE⟩ := h.queued q t ht
      refine ⟨(hA t).mpr (.inl htA), ?_⟩
      rintro (rfl | hE)
      · exact hlt _ htA rfl
      · exact htE hE
    · rw [hpt t (hlt t (h.queued q t ht).1)]
      exact h.home q t ht hne
    · have hun : u ≠ a.nthreads := by
        rintro rfl
        rw [show b.joiner a.nthreads = none from Function.update_self ..] at hj
        cases hj
      rw [show b.joiner u = a.joiner u from Function.update_of_ne hun ..] at hj
      obtain ⟨hjA, hjE, hjp, hno⟩ := h.joins u j (((hA u).mp hu).resolve_right hun) hj
      refine ⟨(hA j).mpr (.inl hjA), ?_, (hpt j (hlt j hjA)).trans hjp, hno⟩
      rintro (rfl | hE)
      · exact hlt _ hjA rfl
      · exact hjE hE
    · have hjn : j ≠ a.nthreads := by
        rintro rfl
        rw [hself] at hjp
        cases hjp
      rw [hpt j hjn] at hjp
      obtain ⟨hu, hres⟩ := h.joining j u (((hA j).mp hjA).resolve_right hjn) hjp
      refine ⟨Nat.lt_succ_of_lt hu, ?_⟩
      rw [show b.result u = a.result u from Function.update_of_ne hu.ne ..,
        show b.joiner u = a.joiner u from Function.update_of_ne hu.ne ..]
      exact hres
    · obtain ⟨htn, htE⟩ := not_or.mp htE
      rcases h.somewhere t (((hA t).mp ht).resolve_right htn) htE with hq | ⟨u, hpu, huA, hju⟩
      · exact .inl hq
      · refine .inr ⟨u, (hpt t htn).trans hpu, (hA u).mpr (.inl huA), ?_⟩
        rw [show b.joiner u = a.joiner u from Function.update_of_ne (hlt u huA) ..]
        exact hju
    · rcases ht with rfl | ht
      · exact (hA _).mpr (.inr rfl)
      · exact (hA t).mpr (.inl (h.exempt t ht))
    · by_cases htn : t = a.nthreads
      · rw [htn, hself]
        exact Point.noConfusion
      · rw [hpt t htn]
        exact h.inside t (((hA t).mp ht).resolve_right htn)
  exact key.arrive hnE (.inl rfl)

/-- The current thread exits; its joiner, if it has one, becomes runnable. -/
theorem finish (h : Placed {a.current} a) (val : Value) : Placed ∅ (a.finish val) := by
  have hcA : a.Alive a.current := h.exempt _ rfl
  let b : Sched := { a with result := Function.update a.result a.current (some val) }
  have hA : ∀ t, b.Alive t ↔ a.Alive t ∧ t ≠ a.current := by
    intro t
    simp only [Sched.Alive, b]
    by_cases ht : t = a.current
    · simp [ht]
    · rw [Function.update_of_ne ht]
      exact ⟨fun hh => ⟨hh, ht⟩, fun hh => hh.1⟩
  have key : Placed {j | a.joiner a.current = some j} b := by
    refine ⟨h.nodup, h.disjoint, fun q t ht => ?_, h.home, fun u j hu hj => ?_,
      fun j u hjA hjp => ?_, fun t ht htE => ?_, fun t ht => ?_, fun t ht => ?_⟩
    · obtain ⟨htA, htE⟩ := h.queued q t ht
      exact ⟨(hA t).mpr ⟨htA, htE⟩, fun hj => (h.joins _ t hcA hj).2.2.2 q ht⟩
    · obtain ⟨huA, hne⟩ := (hA u).mp hu
      obtain ⟨hjA, hjE, hjp, hno⟩ := h.joins u j huA hj
      refine ⟨(hA j).mpr ⟨hjA, hjE⟩, fun hjc => hne ?_, hjp, hno⟩
      have := (h.joins _ j hcA hjc).2.2.1
      rw [hjp] at this
      exact Point.join.inj this
    · obtain ⟨hu, hres⟩ := h.joining j u ((hA j).mp hjA).1 hjp
      refine ⟨hu, fun hnone => hres ?_⟩
      by_cases huc : u = a.current
      · rw [huc, show b.result a.current = some val from Function.update_self ..] at hnone
        cases hnone
      · rwa [show b.result u = a.result u from Function.update_of_ne huc ..] at hnone
    · obtain ⟨htA, htc⟩ := (hA t).mp ht
      rcases h.somewhere t htA htc with hq | ⟨u, hpu, huA, hju⟩
      · exact .inl hq
      · by_cases huc : u = a.current
        · exact absurd (huc ▸ hju) htE
        · exact .inr ⟨u, hpu, (hA u).mpr ⟨huA, huc⟩, hju⟩
    · exact (hA t).mpr ⟨(h.joins _ t hcA ht).1, (h.joins _ t hcA ht).2.1⟩
    · exact h.inside t ((hA t).mp ht).1
  rw [Sched.finish]
  cases hj : a.joiner a.current with
  | none =>
      rw [hj] at key
      simpa using key
  | some j =>
      have := key.push (q := .runnable) (t := j) hj (.inl rfl)
      have hE : {j' | a.joiner a.current = some j'} \ {j} = (∅ : Set Tid) := by
        ext j'
        simp only [hj, Set.mem_sdiff, Set.mem_ofPred_eq, Option.some.injEq,
          Set.mem_singleton_iff, Set.mem_empty_iff_false, iff_false, not_and, not_not]
        exact fun hjj => hjj.symm
      rwa [hE] at this

/-- Being recorded as the joiner of a thread that is not alive has no effect. -/
theorem setJoiner_dead {t : Tid} (h : Placed E a) (ht : ¬a.Alive t) :
    Placed E (a.setJoiner t) := by
  have hjo : ∀ u, a.Alive u → (a.setJoiner t).joiner u = a.joiner u := fun u hu =>
    Function.update_of_ne (fun hut : u = t => ht (hut ▸ hu)) ..
  refine ⟨h.nodup, h.disjoint, h.queued, h.home, fun u j hu hj => ?_, fun j u hjA hjp => ?_,
    fun x hx hxE => ?_, h.exempt, h.inside⟩
  · rw [hjo u hu] at hj
    exact h.joins u j hu hj
  · obtain ⟨hu, hres⟩ := h.joining j u hjA hjp
    refine ⟨hu, fun hnone => ?_⟩
    rw [hjo u ⟨hu, hnone⟩]
    exact hres hnone
  · rcases h.somewhere x hx hxE with hq | ⟨u, hpu, huA, hju⟩
    · exact .inl hq
    · exact .inr ⟨u, hpu, huA, (hjo u huA).trans hju⟩

/-- The current thread blocks in a join on a live thread that has no joiner. -/
theorem block {t : Tid} (h : Placed {a.current} a) (ht : a.Alive t)
    (hno : a.joiner t = none) : Placed ∅ ((a.setJoiner t).goto (.join t)) := by
  have hcA : a.Alive a.current := h.exempt _ rfl
  have hpt : ∀ x, x ≠ a.current → ((a.setJoiner t).goto (.join t)).point x = a.point x :=
    fun x hx => Function.update_of_ne hx ..
  have hself : ((a.setJoiner t).goto (.join t)).point a.current = .join t :=
    Function.update_self ..
  have hjt : ((a.setJoiner t).goto (.join t)).joiner t = some a.current :=
    Function.update_self ..
  have hju : ∀ u, u ≠ t → ((a.setJoiner t).goto (.join t)).joiner u = a.joiner u :=
    fun u hu => Function.update_of_ne hu ..
  refine ⟨h.nodup, h.disjoint, fun q x hx => ⟨(h.queued q x hx).1, id⟩, fun q x hx hne => ?_,
    fun u j hu hj => ?_, fun j u hjA hjp => ?_, fun x hx _ => ?_, fun x hx => hx.elim,
    fun x hx => ?_⟩
  · rw [hpt x (h.queued q x hx).2]
    exact h.home q x hx hne
  · by_cases hut : u = t
    · subst hut
      rw [hjt] at hj
      obtain rfl := Option.some.inj hj
      exact ⟨hcA, id, hself, fun q hm => (h.queued q _ hm).2 rfl⟩
    · rw [hju u hut] at hj
      obtain ⟨hjA, hjE, hjp, hjq⟩ := h.joins u j hu hj
      exact ⟨hjA, id, (hpt j hjE).trans hjp, hjq⟩
  · by_cases hjc : j = a.current
    · subst hjc
      rw [hself] at hjp
      obtain rfl := Point.join.inj hjp
      exact ⟨ht.1, fun _ => hjt⟩
    · rw [hpt j hjc] at hjp
      obtain ⟨hu, hres⟩ := h.joining j u hjA hjp
      refine ⟨hu, fun hnone => ?_⟩
      have hj := hres hnone
      have hut : u ≠ t := fun hut => by
        rw [hut, hno] at hj
        cases hj
      exact (hju u hut).trans hj
  · by_cases hxc : x = a.current
    · subst hxc
      exact .inr ⟨t, hself, ht, hjt⟩
    · rcases h.somewhere x hx hxc with hq | ⟨u, hpu, huA, hjx⟩
      · exact .inl hq
      · have hut : u ≠ t := fun hut => by
          rw [hut, hno] at hjx
          cases hjx
        exact .inr ⟨u, (hpt x hxc).trans hpu, huA, (hju u hut).trans hjx⟩
  · by_cases hxc : x = a.current
    · subst hxc
      rw [hself]
      exact Point.noConfusion
    · rw [hpt x hxc]
      exact h.inside x hx

end Placed

end SystemsProjects.Qthreads
