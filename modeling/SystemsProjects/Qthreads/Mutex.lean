import SystemsProjects.Qthreads.Blocking

/-!
# Mutual Exclusion and Hand-Off

A mutex is a flag and a queue. `qthread_mutex_unlock` does not clear the flag while
somebody is queued: it makes the first of the queue runnable, which then holds the mutex,
wherever it is. So who holds a mutex is no part of the state, but of the history, from
which `holders` computes it. The invariant ties the history to the flag and the queue, and
to the program point of every thread inside a lock.

## Main definitions

* `holders`, `attempts`, `acquisitions`: the history of a mutex.
* `HolderUnlocks`, `LockRules`: only the holder of a mutex lets go of it.
* `Sched.Owned`, `Sched.Mutexes`: the invariant.

## Main results

* `mutual_exclusion`: at most one holder, the flag, and the order of acquisitions.
-/

namespace SystemsProjects.Qthreads

open History

/-! ### The history of a mutex -/

/-- The thread whose attempt to lock the mutex is observed. -/
def Event.attempt (m : MutexId) : Event → Option Tid
  | .locks t m' => if m' = m then some t else none
  | _ => none

/-- The thread that is observed to acquire the mutex: on the fast path, or by being removed
from the queue. -/
def Event.acquirer (m : MutexId) : Event → Option Tid
  | .took t m' => if m' = m then some t else none
  | .popped (.mutex m') p => if m' = m then p else none
  | _ => none

/-- The holders of the mutex after an observation. -/
def Event.holders (m : MutexId) (hs : List Tid) : Event → List Tid
  | .unlocks t m' => if m' = m then hs.filter (· ≠ t) else hs
  | e => (e.acquirer m).toList ++ hs

/-- The attempts to lock a mutex, those on the way out of waits included, in their order. -/
abbrev attempts (m : MutexId) (trace : List Event) : List Tid :=
  subjects (Event.attempt m) trace

/-- The threads that acquired a mutex, in their order. -/
abbrev acquisitions (m : MutexId) (trace : List Event) : List Tid :=
  subjects (Event.acquirer m) trace

/-- The threads that hold a mutex: they have acquired it, and have neither called
`qthread_mutex_unlock` nor `qthread_cond_wait` on it since. -/
def holders (m : MutexId) (trace : List Event) : List Tid := trace.foldl (Event.holders m) []

section History

variable {m : MutexId} {e : Event} {tr new : List Event}

/-- An observation about something else is no attempt to lock the mutex. -/
theorem Event.attempt_of_not_concerns (h : ¬e.Concerns (.mutex m)) : e.attempt m = none := by
  cases e with
  | locks t m' =>
      refine if_neg ?_
      rintro rfl
      exact h rfl
  | _ => rfl

/-- Nor does anybody acquire the mutex in it. -/
theorem Event.acquirer_of_not_concerns (h : ¬e.Concerns (.mutex m)) : e.acquirer m = none := by
  cases e with
  | took t m' =>
      refine if_neg ?_
      rintro rfl
      exact h rfl
  | popped q p =>
      cases q with
      | mutex m' =>
          refine if_neg ?_
          rintro rfl
          exact h rfl
      | _ => rfl
  | _ => rfl

/-- So it does not change who holds the mutex. -/
theorem Event.holders_of_not_concerns (h : ¬e.Concerns (.mutex m)) (hs : List Tid) :
    e.holders m hs = hs := by
  have hacq := acquirer_of_not_concerns h
  cases e with
  | unlocks t m' =>
      refine if_neg ?_
      rintro rfl
      exact h rfl
  | _ => simp [holders, hacq]

/-- The holders behind a longer trace are computed from those in front of its end. -/
@[simp] theorem holders_append :
    holders m (tr ++ new) = new.foldl (Event.holders m) (holders m tr) :=
  List.foldl_append ..

/-- What is not about the mutex makes no attempt to lock it. -/
theorem attempts_append_aside (h : ∀ e ∈ new, ¬e.Concerns (.mutex m)) :
    attempts m (tr ++ new) = attempts m tr :=
  subjects_append_of_none fun e he => Event.attempt_of_not_concerns (h e he)

/-- What is not about the mutex does not acquire it. -/
theorem acquisitions_append_aside (h : ∀ e ∈ new, ¬e.Concerns (.mutex m)) :
    acquisitions m (tr ++ new) = acquisitions m tr :=
  subjects_append_of_none fun e he => Event.acquirer_of_not_concerns (h e he)

/-- What is not about the mutex leaves it with its holders. -/
theorem holders_append_aside (h : ∀ e ∈ new, ¬e.Concerns (.mutex m)) :
    holders m (tr ++ new) = holders m tr := by
  rw [holders_append]
  generalize holders m tr = hs
  induction new with
  | nil => rfl
  | cons e new ih =>
      rw [List.foldl_cons, Event.holders_of_not_concerns (h e List.mem_cons_self)]
      exact ih fun e he => h e (List.mem_cons_of_mem _ he)

end History

/-! ### What the two operations do -/

namespace Sched

variable {a : Sched} {m : MutexId} {after : Point}

/-- The queue of a mutex after a lock attempt. -/
theorem queue_lock_self : (a.lock after m).2.queue (.mutex m) =
    a.queue (.mutex m) ++ if a.locked m = 0 then [] else [a.current] := by
  split
  case isTrue h =>
    rw [lock_of_free h, List.append_nil]
    rfl
  case isFalse h =>
    rw [lock_of_held h]
    exact queue_push_self

/-- The flag of a mutex after a lock attempt. -/
theorem locked_lock_self :
    (a.lock after m).2.locked m = if a.locked m = 0 then 1 else a.locked m := by
  split
  case isTrue h =>
    rw [lock_of_free h]
    exact Function.update_self ..
  case isFalse h =>
    rw [lock_of_held h]
    rfl

/-- The history of a mutex after a lock attempt. -/
theorem history_lock : attempts m (a.lock after m).2.trace = attempts m a.trace ++ [a.current] ∧
    acquisitions m (a.lock after m).2.trace =
      acquisitions m a.trace ++ (if a.locked m = 0 then [a.current] else []) ∧
    holders m (a.lock after m).2.trace =
      (if a.locked m = 0 then [a.current] else []) ++ holders m a.trace := by
  rw [trace_lock, lockEvents]
  split <;> simp [Event.attempt, Event.acquirer, Event.holders]

/-- The queue of a mutex after an unlock. -/
theorem queue_unlock_self : (a.unlock m).queue (.mutex m) = (a.queue (.mutex m)).tail := by
  cases hq : a.queue (.mutex m) with
  | nil =>
      rw [unlock_of_nil hq]
      exact hq
  | cons t l =>
      rw [unlock_of_cons hq, wakeFront_of_cons (a := a.log _) hq QueueId.noConfusion]
      simp

/-- The flag of a mutex after an unlock. -/
theorem locked_unlock_self :
    (a.unlock m).locked m = if a.queue (.mutex m) = [] then 0 else a.locked m := by
  cases hq : a.queue (.mutex m) with
  | nil =>
      rw [unlock_of_nil hq, if_pos rfl]
      exact Function.update_self ..
  | cons t l =>
      rw [unlock_of_cons hq, wakeFront_of_cons (a := a.log _) hq QueueId.noConfusion,
        if_neg (List.cons_ne_nil t l)]
      rfl

/-- The history of a mutex after an unlock. -/
theorem history_unlock : attempts m (a.unlock m).trace = attempts m a.trace ∧
    acquisitions m (a.unlock m).trace =
      acquisitions m a.trace ++ (a.queue (.mutex m)).head?.toList ∧
    holders m (a.unlock m).trace =
      (a.queue (.mutex m)).head?.toList ++ (holders m a.trace).filter (· ≠ a.current) := by
  rw [trace_unlock, unlockEvents]
  cases a.queue (.mutex m) <;>
    simp [Event.attempt, Event.acquirer, Event.holders, wakeEvents]

end Sched

/-! ### The invariant of one mutex -/

/-- The history of a mutex, its flag and its queue agree: threads acquire it in the order in
which they try to, those that are queued come next; it is free and nobody is queued, or it
has one holder. -/
structure Sched.Owned (a : Sched) (m : MutexId) : Prop where
  order : attempts m a.trace = acquisitions m a.trace ++ a.queue (.mutex m)
  owner : (a.locked m = 0 ∧ holders m a.trace = [] ∧ a.queue (.mutex m) = []) ∨
    (a.locked m ≠ 0 ∧ ∃ t, holders m a.trace = [t])

/-- The thread is queued at the mutex, or holds it. -/
def Sched.Engaged (a : Sched) (t : Tid) (m : MutexId) : Prop :=
  t ∈ a.queue (.mutex m) ∨ t ∈ holders m a.trace

section Mutex

variable {a b c : Sched} {m : MutexId} {t : Tid} {act : Action} {flow : Flow}

/-- Where a mutex is left aside, its history stays. -/
theorem Aside.history (h : Aside (.mutex m) a b) : attempts m b.trace = attempts m a.trace ∧
    acquisitions m b.trace = acquisitions m a.trace ∧
    holders m b.trace = holders m a.trace := by
  obtain ⟨new, htr, hnew⟩ := h.trace
  rw [htr]
  exact ⟨attempts_append_aside hnew, acquisitions_append_aside hnew, holders_append_aside hnew⟩

/-- The history of a mutex still agrees with its flag and queue behind what leaves the mutex
aside. -/
theorem Sched.Owned.aside (h : a.Owned m) (hab : Aside (.mutex m) a b) : b.Owned m := by
  obtain ⟨hatt, hacq, hhold⟩ := hab.history
  constructor
  · rw [hatt, hacq, hab.queue]
    exact h.order
  · rw [hhold, hab.queue, hab.locked m rfl]
    exact h.owner

/-- A lock attempt takes the free mutex, or queues behind the others. -/
theorem Sched.Owned.lock (h : a.Owned m) (after : Point) : (a.lock after m).2.Owned m := by
  obtain ⟨hatt, hacq, hhold⟩ := @history_lock a m after
  constructor
  · rcases h.owner with ⟨h0, -, hnil⟩ | ⟨h0, -⟩
    · simp [hatt, hacq, queue_lock_self, h.order, h0, hnil]
    · simp [hatt, hacq, queue_lock_self, h.order, h0]
  · rcases h.owner with ⟨h0, hno, -⟩ | ⟨h0, t, ht⟩
    · exact .inr ⟨by simp [locked_lock_self, h0], a.current, by simp [hhold, h0, hno]⟩
    · exact .inr ⟨by simp [locked_lock_self, h0], t, by simp [hhold, h0, ht]⟩

/-- The holder of a mutex is its only one. -/
theorem Sched.Owned.of_mem (h : a.Owned m) (ht : t ∈ holders m a.trace) :
    a.locked m ≠ 0 ∧ holders m a.trace = [t] := by
  rcases h.owner with ⟨-, hno, -⟩ | ⟨h0, u, hu⟩
  · simp [hno] at ht
  · rw [hu, List.mem_singleton] at ht
    exact ⟨h0, ht ▸ hu⟩

/-- An unlock by the holder frees the mutex, or hands it to the first of the queue. -/
theorem Sched.Owned.unlock (h : a.Owned m) (hc : a.current ∈ holders m a.trace) :
    (a.unlock m).Owned m := by
  obtain ⟨hatt, hacq, hhold⟩ := history_unlock (a := a) (m := m)
  obtain ⟨h0, ht⟩ := h.of_mem hc
  constructor
  · rw [hatt, hacq, queue_unlock_self, h.order]
    cases a.queue (.mutex m) <;> simp
  · rw [hhold, queue_unlock_self, locked_unlock_self, ht]
    cases a.queue (.mutex m) <;> simp [h0]

/-- Who is queued or holds stays so while others lock. -/
theorem Sched.Engaged.lock (h : a.Engaged t m) (after : Point) :
    (a.lock after m).2.Engaged t m := by
  rcases h with h | h
  · exact .inl (queue_lock_self ▸ List.mem_append_left _ h)
  · exact .inr (history_lock.2.2 ▸ List.mem_append_right _ h)

/-- Who is queued or holds stays so while others unlock. -/
theorem Sched.Engaged.unlock (h : a.Engaged t m) (hne : t ≠ a.current) :
    (a.unlock m).Engaged t m := by
  rw [Engaged, queue_unlock_self, history_unlock.2.2]
  rcases h with h | h
  · cases hq : a.queue (.mutex m) with
    | nil => simp [hq] at h
    | cons u l =>
        rw [hq, List.mem_cons] at h
        rcases h with rfl | h
        · exact .inr (by simp)
        · exact .inl h
  · exact .inr (List.mem_append_right _ (by simpa using ⟨h, hne⟩))

/-- Who is queued at the mutex or holds it still does behind what leaves the mutex aside. -/
theorem Sched.Engaged.aside (h : a.Engaged t m) (hab : Aside (.mutex m) a b) :
    b.Engaged t m := by
  rw [Engaged, hab.queue, hab.history.2.2]
  exact h

/-- The code of a step of another thread leaves a thread queued, or makes it the holder, or
leaves it that. -/
theorem OnMutex.engaged (h : OnMutex m a act flow b) (he : a.Engaged t m)
    (hne : t ≠ a.current) : b.Engaged t m := by
  cases h with
  | aside hab => exact he.aside hab
  | lock _ _ ha hb => exact ((he.aside ha).lock _).aside hb
  | unlock _ _ ha hb => exact ((he.aside ha).unlock (ha.current ▸ hne)).aside hb

/-! ### The invariant along a run -/

/-- Only the holder of a mutex unlocks it, or waits with it. -/
def HolderUnlocks : Discipline := fun t trace op =>
  match op with
  | .unlock m => t ∈ holders m trace
  | .condWait _ m => t ∈ holders m trace
  | _ => True

/-- The code of a step whose thread unlocks only what it holds keeps the history of a mutex,
its flag and its queue in agreement. -/
theorem OnMutex.owned (h : OnMutex m a act flow b) (ho : a.Owned m)
    (hA : a.Allowed HolderUnlocks act) : b.Owned m := by
  cases h with
  | aside hab => exact ho.aside hab
  | lock _ _ ha hb => exact ((ho.aside ha).lock _).aside hb
  | unlock _ hact ha hb =>
      have hc : a.current ∈ holders m a.trace := by
        rcases hact with rfl | ⟨c, rfl⟩
        · exact hA
        · exact hA
      refine Sched.Owned.aside ((ho.aside ha).unlock ?_) hb
      rw [ha.current, ha.history.2.2]
      exact hc

/-- The mutexes are in order: each agrees with its history, those not made yet are free, and
whoever stands behind a lock attempt is queued or holds the mutex. -/
structure Sched.Mutexes (a : Sched) : Prop where
  owned : ∀ m, a.Owned m
  free : ∀ m, a.nmutexes ≤ m → a.locked m = 0
  engaged : ∀ t m, a.Alive t → (a.point t).home = some (.mutex m) → a.Engaged t m

/-- The code that has its thread wait for a mutex has queued it there. -/
theorem Effect.queues (h : Effect a act flow b) (hp : flow.point.home = some (.mutex m)) :
    a.current ∈ b.queue (.mutex m) := by
  have hlock : ∀ {a : Sched} {m'} {after : Point}, after.home = some (.mutex m') →
      (a.lock after m').1.point.home = some (.mutex m) →
      a.current ∈ (a.lock after m').2.queue (.mutex m) := by
    intro a m' after hafter hp
    rcases eq_or_ne (a.locked m') 0 with h0 | h0
    · rw [Sched.lock_of_free h0] at hp
      cases hp
    · rw [Sched.lock_of_held h0] at hp ⊢
      obtain rfl := QueueId.mutex.inj (Option.some.inj (hafter.symm.trans hp))
      rw [Sched.queue_push_self]
      simp
  have hjoin : ∀ {a : Sched} {t}, (a.joinLoop t).1.point.home = some (.mutex m) → False := by
    intro a t hp
    rw [Sched.joinLoop] at hp
    split at hp <;> cases hp
  cases h with
  | @lock m' _ _ => exact hlock (a := a.log _) rfl hp
  | @signaled c m' _ _ =>
      rcases eq_or_ne (a.locked m') 0 with h0 | h0
      · rw [Sched.relock_of_free h0] at hp
        cases hp
      · rw [Sched.relock_of_held h0, ← Sched.lock_of_held h0] at hp ⊢
        exact hlock rfl hp
  | join _ _ | rejoin _ _ => exact (hjoin hp).elim
  | _ => cases hp

/-- Mutexes are only added. -/
theorem Effect.nmutexes_le (h : Effect a act flow b) : a.nmutexes ≤ b.nmutexes := by
  have hsame := h.sameThreads
  cases h with
  | mutexCreate _ _ => exact Nat.le_succ _
  | exit _ | finish _ _ =>
      rw [Sched.finish]
      split <;> exact le_rfl
  | join _ _ =>
      rw [Sched.joinLoop]
      split <;> exact le_rfl
  | create _ | usleep _ _ | condCreate _ => exact le_rfl
  | _ => exact (hsame id).nmutexes.ge

/-- The code of a step keeps the mutexes in order. -/
theorem Effect.mutexes (h : Effect a act flow b) (hm : a.Mutexes)
    (hA : a.Allowed HolderUnlocks act) : (b.goto flow.point).Mutexes := by
  have hcur := h.later.current
  have hon := h.onMutex hm.free
  refine ⟨fun m => ?_, fun m hmb => ?_, fun t m ht hp => ?_⟩
  · have ho := (hon m).owned (hm.owned m) hA
    exact ⟨ho.order, ho.owner⟩
  · have hma : a.nmutexes ≤ m := h.nmutexes_le.trans hmb
    cases hon m with
    | aside hab => exact (hab.locked m rfl).trans (hm.free m hma)
    | lock hlt _ _ _ | unlock hlt _ _ _ => exact absurd hlt (Nat.not_lt.mpr hma)
  · rcases eq_or_ne t a.current with rfl | hne
    · rw [← hcur] at hp
      change (Function.update b.point b.current flow.point b.current).home = _ at hp
      rw [Function.update_self] at hp
      exact .inl (h.queues hp)
    · have hpt : (b.goto flow.point).point t = b.point t :=
        Function.update_of_ne (hcur ▸ hne) ..
      rw [hpt] at hp
      rcases eq_or_ne t a.nthreads with rfl | hn
      · rw [h.newcomer ht] at hp
        cases hp
      · obtain ⟨hpa, hA'⟩ := h.others hne hn
        exact (hon m).engaged (hm.engaged t m (hA'.mp ht) (hpa ▸ hp)) hne

/-- The scheduler proper leaves the history of a mutex. -/
theorem SchedFrame.history (hf : SchedFrame a b) (m : MutexId) :
    attempts m b.trace = attempts m a.trace ∧
      acquisitions m b.trace = acquisitions m a.trace ∧
      holders m b.trace = holders m a.trace := by
  obtain ⟨new, htr, hint⟩ := hf.trace
  have hnew : ∀ e ∈ new, ¬e.Concerns (.mutex m) := fun e he =>
    (hint e he).not_concerns QueueId.noConfusion QueueId.noConfusion
  rw [htr]
  exact ⟨attempts_append_aside hnew, acquisitions_append_aside hnew, holders_append_aside hnew⟩

/-- The scheduler proper keeps the mutexes in order. -/
theorem SchedFrame.mutexes (hf : SchedFrame a b) (hm : a.Mutexes) : b.Mutexes := by
  have haside := hf.history
  have hq : ∀ m, b.queue (.mutex m) = a.queue (.mutex m) := fun m =>
    hf.queue _ QueueId.noConfusion QueueId.noConfusion
  refine ⟨fun m => ⟨?_, ?_⟩, fun m => ?_, fun t m ht hp => ?_⟩
  · rw [(haside m).1, (haside m).2.1, hq]
    exact (hm.owned m).order
  · rw [(haside m).2.2, hq, hf.locked]
    exact (hm.owned m).owner
  · rw [hf.nmutexes, hf.locked]
    exact hm.free m
  · rw [Sched.Alive, hf.nthreads, hf.result] at ht
    rw [hf.point] at hp
    rw [Sched.Engaged, hq, (haside m).2.2]
    exact hm.engaged t m ht hp

/-- **Every step keeps the mutexes in order**, if only holders unlock. -/
theorem Sched.Step.mutexes {D : Discipline} (h : Sched.Step D a act c)
    (hD : ∀ t tr op, D t tr op → HolderUnlocks t tr op) (hm : a.Mutexes) : c.Mutexes := by
  cases h with
  | mk hA he hs =>
      refine hs.frame.mutexes (he.mutexes hm ?_)
      cases act with
      | call op => exact hD _ _ _ hA
      | resume => exact True.intro

/-- Initially there is no mutex. -/
theorem Sched.mutexes_initial {mem : Qthread} {clock : List ℤ} :
    (Sched.initial mem clock).Mutexes := by
  refine ⟨fun m => ⟨rfl, .inl ⟨rfl, rfl, rfl⟩⟩, fun _ _ => rfl, fun t m ht hp => ?_⟩
  obtain rfl : t = mainThread := Nat.lt_one_iff.mp ht.1
  cases hp

/-- **The mutexes are in order in every reachable state**, if only holders unlock. -/
theorem Sched.Reachable.mutexes {D : Discipline} {mem : Qthread} {clock : List ℤ}
    (h : Sched.Reachable D mem clock a)
    (hD : ∀ t tr op, D t tr op → HolderUnlocks t tr op) : a.Mutexes :=
  Runs.invariant_of_run h Sched.mutexes_initial fun _ _ hm ⟨_, hs⟩ => hs.mutexes hD hm

/-- The rules of the game: no thread is joined by two threads or by itself, only the holder
of a mutex unlocks it or waits with it, and a holder does not lock it again. -/
def LockRules : Discipline := fun t trace op =>
  JoinOnce t trace op ∧ HolderUnlocks t trace op ∧
    match op with
    | .lock m => t ∉ holders m trace
    | _ => True

/-- **Mutual exclusion and hand-off.** In every reachable state a mutex has at most one
holder; its flag is 0 exactly when it has none, and then nobody is queued; and the threads
that have tried to lock it are those that have acquired it, in the same order, and then
those that are queued. -/
theorem mutual_exclusion {mem : Qthread} {clock : List ℤ} {s : St} (hm : Zeroed mem)
    (hs : Reachable LockRules mem clock s) (m : MutexId) :
    (∀ t u, t ∈ holders m s.trace → u ∈ holders m s.trace → t = u) ∧
    (s.locked m = 0 ↔ ∀ t, t ∉ holders m s.trace) ∧
    (s.locked m = 0 → contents s (.mutex m) = []) ∧
    attempts m s.trace = acquisitions m s.trace ++ contents s (.mutex m) := by
  obtain ⟨-, -, hr⟩ := hs.sim (fun _ _ _ hD => hD.1) hm.dead_ne_one hm.waiter
  have ho : (view s).Owned m := (hr.mutexes fun _ _ _ hD => hD.2.1).owned m
  refine ⟨fun t u ht hu => ?_, ⟨fun h0 t ht => (ho.of_mem ht).1 h0, fun hno => ?_⟩,
    fun h0 => ?_, ho.order⟩
  · have hone := (ho.of_mem ht).2
    change holders m s.trace = [t] at hone
    rw [hone, List.mem_singleton] at hu
    exact hu.symm
  · rcases ho.owner with ⟨h0, -, -⟩ | ⟨-, t, ht⟩
    · exact h0
    · refine absurd ?_ (hno t)
      change t ∈ holders m (view s).trace
      rw [ht]
      exact List.mem_singleton_self t
  · rcases ho.owner with ⟨-, -, hnil⟩ | ⟨hne, -⟩
    · exact hnil
    · exact absurd h0 hne

/-- A mutex handed from main to a thread that waits for it. -/
theorem mutual_exclusion_handed : ∃ s, Reachable LockRules zeroMem [] s ∧
    attempts 0 s.trace = [0, 1] ∧ 1 ∈ holders 0 s.trace ∧ 1 ∈ contents s .runnable ∧
    attempts 0 s.trace = acquisitions 0 s.trace ++ contents s (.mutex 0) := by
  let acts : List Action := [.call (.mutexCreate ⟨none, none, 0⟩), .call (.lock 0),
    .call (.create true (some zeroMem)), .call .yield, .resume, .call (.lock 0), .resume,
    .call (.unlock 0)]
  have hs : Reachable LockRules zeroMem [] (acts.foldl St.after (qthreadInit zeroMem [])) :=
    Reachable.actions .refl
      ⟨⟨True.intro, True.intro, True.intro⟩, by decide +kernel,
        ⟨True.intro, True.intro, (by decide +kernel : _ ∉ holders 0 _)⟩, by decide +kernel,
        ⟨True.intro, True.intro, True.intro⟩, by decide +kernel,
        ⟨True.intro, True.intro, True.intro⟩, by decide +kernel,
        True.intro, by decide +kernel,
        ⟨True.intro, True.intro, (by decide +kernel : _ ∉ holders 0 _)⟩, by decide +kernel,
        True.intro, by decide +kernel,
        ⟨True.intro, (by decide +kernel : _ ∈ holders 0 _), True.intro⟩, by decide +kernel,
        True.intro⟩
  exact ⟨_, hs, by decide +kernel, by decide +kernel, by decide +kernel,
    (mutual_exclusion zeroed_zeroMem hs 0).2.2.2⟩

end Mutex

end SystemsProjects.Qthreads
