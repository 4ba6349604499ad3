import SystemsProjects.Library.Fifo
import SystemsProjects.Qthreads.Refinement

/-!
# The Queues as Lists

Calls of `push_back` and `pop_front` on queues that were created empty, with whatever
`malloc` had left in `front` and `end`, and on the one `next` field of the threads: as long
as a thread is put only where it is in no queue, every queue is a list, first in, first out.
The link that `pop_front` leaves in a thread is in no chain any more.

## Main definitions

* `calls`: a sequence of calls.
* `Refines`: what the queues have in common with lists.

## Main results

* `calls_run`: the calls do what the operations on lists do.
-/

namespace SystemsProjects.Qthreads

open IntrusiveQueue Stateful
open Fifo hiding Op

/-- A call of `push_back` with a thread, or of `pop_front`. -/
abbrev QueueOp := Fifo.Op QueueId Tid

/-- Calls of `push_back` and `pop_front`, with what the latter return. -/
def calls : List QueueOp → Lib (List Ptr)
  | [] => return []
  | .push queue thread :: ops => do
      pushBack queue (some thread)
      calls ops
  | .pop queue :: ops => do
      let head ← popFront queue
      return head :: (← calls ops)

/-- The chain of every queue, from `front` through `size` links, is its list, and `end` is
the last thread of it. The chains stay what they are whatever the links of the threads that
are in no queue. -/
structure Refines (s : St) (L : QueueId → List Tid) : Prop where
  size : ∀ q, (s.queue q).size = (L q).length
  chain : ∀ q, contents s q = L q
  end_ : ∀ q, L q ≠ [] → (s.queue q).end_ = (L q).getLast?
  stale : ∀ next : Tid → Ptr, (∀ q, ∀ t ∈ L q, next t = (s.thread t).next) →
    ∀ q, walk next (s.queue q).front (s.queue q).size = L q

variable {s : St} {L : QueueId → List Tid}

/-- The chains in memory stand for the lists. -/
theorem Queued.refines (h : Queued s L) : Refines s L where
  size q := (h.family.rep q).size_eq
  chain q := congrFun h.contents_eq q
  end_ q := (h.family.rep q).end_eq
  stale _ hnext q := ((h.family.congr hnext).rep q).walk_eq

/-- Queues of size zero stand for empty lists, whatever their pointers and links are. -/
theorem queued_of_size (h : ∀ q, (s.queue q).size = 0) : Queued s fun _ => [] :=
  ⟨⟨fun q => .empty _ (h q), nofun⟩, nofun⟩

/-- The calls return what the operations on lists find, and leave queues that stand for the
lists behind them. -/
theorem calls_run (h : Queued s L) (ops : List QueueOp)
    (hexist : ∀ q t, Fifo.Op.push q t ∈ ops → t < s.nthreads) (hadm : Admissible L ops) :
    ∃ s', calls ops s = .ok (answers L ops) s' ∧ Queued s' (replay L ops) := by
  induction ops generalizing s L with
  | nil => exact ⟨s, rfl, h⟩
  | cons op ops ih =>
      cases op with
      | push q t =>
          obtain ⟨s₁, hrun, hb, -, h₁, -⟩ :=
            pushBack_queued (q := q) h (hexist q t List.mem_cons_self) hadm.1
          obtain ⟨s', hrun', h'⟩ := ih h₁
            (fun q' t' ht' => hb.nthreads ▸ hexist q' t' (List.mem_cons_of_mem _ ht')) hadm.2
          exact ⟨s', (run_bind_ok hrun).trans hrun', h'⟩
      | pop q =>
          -- an empty queue is left as it is, another one loses its front
          obtain ⟨s₁, hrun, hn, h₁⟩ : ∃ s₁, popFront q s = .ok (L q).head? s₁ ∧
              s₁.nthreads = s.nthreads ∧ Queued s₁ ((Fifo.Op.pop q).apply L) := by
            cases hl : L q with
            | nil =>
                refine ⟨s, popFront_nil h hl, rfl, ?_⟩
                rwa [Fifo.Op.apply, hl, List.tail_nil, ← hl, Function.update_eq_self]
            | cons t l =>
                obtain ⟨s₁, hrun, hb, -, -, h₁⟩ := popFront_queued h hl
                refine ⟨s₁, hrun, hb.nthreads, ?_⟩
                rwa [Fifo.Op.apply, hl]
          obtain ⟨s', hrun', h'⟩ := ih h₁
            (fun q' t' ht' => hn ▸ hexist q' t' (List.mem_cons_of_mem _ ht')) hadm.2
          refine ⟨s', ?_, h'⟩
          rw [calls, run_bind_ok hrun, run_bind_ok hrun', answers]
          rfl

end SystemsProjects.Qthreads
