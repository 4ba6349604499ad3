import SystemsProjects.Qthreads.Mutex

/-!
# Condition Variables

`qthread_cond_wait` unlocks, queues its thread, calls `schedule`, and locks again when it
is dispatched. Until then the thread is in the condition variable's queue, which only a
signal or a broadcast empties; behind it, the thread is on its way back: it may still have
to wait for the mutex. The history of a condition variable says who has called, who has
been woken and who has returned, and the invariant ties it to the queue and to the program
points, so that wake-ups are neither lost nor invented.

## Main definitions

* `waits`, `woken`, `returned`: the history of a condition variable.
* `Sched.Returning`, `Sched.Waited`: who is on the way back, and the invariant.
* `St.Wakes`: threads moved from a queue to the active list.

## Main results

* `Sched.Reachable.waited`: the invariant, in every reachable state.
* `wakeups_exact`: what signals, broadcasts and returns do.
-/

namespace SystemsProjects.Qthreads

open History

/-! ### The history of a condition variable -/

/-- The thread that is observed to call `qthread_cond_wait`. -/
def Event.waiter (c : CondId) : Event → Option Tid
  | .called t (.condWait c' _) => if c' = c then some t else none
  | _ => none

/-- The thread that is observed to be removed from the queue. -/
def Event.wakened (c : CondId) : Event → Option Tid
  | .popped (.cond c') p => if c' = c then p else none
  | _ => none

/-- The thread that is observed to return from `qthread_cond_wait`. -/
def Event.returner (c : CondId) : Event → Option Tid
  | .waited t c' _ => if c' = c then some t else none
  | _ => none

/-- The threads that called `qthread_cond_wait`, in their order. -/
abbrev waits (c : CondId) (trace : List Event) : List Tid := subjects (Event.waiter c) trace

/-- The threads that were woken, in their order. -/
abbrev woken (c : CondId) (trace : List Event) : List Tid := subjects (Event.wakened c) trace

/-- The threads that returned from `qthread_cond_wait`, in their order. -/
abbrev returned (c : CondId) (trace : List Event) : List Tid :=
  subjects (Event.returner c) trace

section History

variable {c : CondId} {e : Event} {tr new : List Event}

/-- An observation about something else is no wait on the condition variable. -/
theorem Event.waiter_of_not_concerns (h : ¬e.Concerns (.cond c)) : e.waiter c = none := by
  cases e with
  | called t op =>
      cases op with
      | condWait c' m =>
          refine if_neg ?_
          rintro rfl
          exact h rfl
      | _ => rfl
  | _ => rfl

/-- Nor does it remove a thread from its queue. -/
theorem Event.wakened_of_not_concerns (h : ¬e.Concerns (.cond c)) : e.wakened c = none := by
  cases e with
  | popped q p =>
      cases q with
      | cond c' =>
          refine if_neg ?_
          rintro rfl
          exact h rfl
      | _ => rfl
  | _ => rfl

/-- Nor is it the return of such a wait. -/
theorem Event.returner_of_not_concerns (h : ¬e.Concerns (.cond c)) : e.returner c = none := by
  cases e with
  | waited t c' m =>
      refine if_neg ?_
      rintro rfl
      exact h rfl
  | _ => rfl

/-- What is not about the condition variable leaves its history. -/
theorem cond_history_append (h : ∀ e ∈ new, ¬e.Concerns (.cond c)) :
    waits c (tr ++ new) = waits c tr ∧ woken c (tr ++ new) = woken c tr ∧
      returned c (tr ++ new) = returned c tr :=
  ⟨subjects_append_of_none fun e he => Event.waiter_of_not_concerns (h e he),
    subjects_append_of_none fun e he => Event.wakened_of_not_concerns (h e he),
    subjects_append_of_none fun e he => Event.returner_of_not_concerns (h e he)⟩

/-- Waking threads is all that is observed of them. -/
theorem cond_history_wakeEvents {l : List Tid} :
    waits c (Sched.wakeEvents (.cond c) l) = [] ∧ woken c (Sched.wakeEvents (.cond c) l) = l ∧
      returned c (Sched.wakeEvents (.cond c) l) = [] := by
  induction l with
  | nil => exact ⟨rfl, rfl, rfl⟩
  | cons t l ih =>
      obtain ⟨h₁, h₂, h₃⟩ := ih
      rw [Sched.wakeEvents, List.flatMap_cons, ← Sched.wakeEvents]
      simp [h₁, h₂, h₃, Event.waiter, Event.wakened, Event.returner]

end History

section Cond

variable {a b : Sched} {c : CondId} {t : Tid} {act : Action} {flow : Flow}

/-- Where a condition variable is left aside, its history stays. -/
theorem Aside.cond_history (h : Aside (.cond c) a b) : waits c b.trace = waits c a.trace ∧
    woken c b.trace = woken c a.trace ∧ returned c b.trace = returned c a.trace := by
  obtain ⟨new, htr, hnew⟩ := h.trace
  rw [htr]
  exact cond_history_append hnew

/-! ### The invariant -/

/-- The thread is inside a wait on the condition variable, and no longer in its queue. -/
def Sched.Returning (a : Sched) (t : Tid) (c : CondId) : Prop :=
  a.Alive t ∧ (a.point t).waitsOn = some c ∧ t ∉ a.queue (.cond c)

/-- Threads are woken in the order in which they called, those that are queued come next;
and a thread has returned as often as it was woken, or once less if it is on its way. -/
structure Sched.Waited (a : Sched) (c : CondId) : Prop where
  order : waits c a.trace = woken c a.trace ++ a.queue (.cond c)
  returning : ∀ t, a.Returning t c →
    (woken c a.trace).count t = (returned c a.trace).count t + 1
  settled : ∀ t, ¬a.Returning t c →
    (woken c a.trace).count t = (returned c a.trace).count t

/-- The current thread is on its way back if it is inside a wait. -/
theorem Sched.Inv.returning_current (hi : a.Inv) :
    a.Returning a.current c ↔ (a.point a.current).waitsOn = some c :=
  ⟨fun h => h.2.1, fun h => ⟨hi.placed.exempt _ rfl, h, fun hm =>
    (hi.placed.queued _ _ hm).2 rfl⟩⟩

/-- Who is on the way back after the code of somebody else's step. -/
theorem Effect.returning_iff (h : Effect a act flow b) (hne : t ≠ a.current) :
    (b.goto flow.point).Returning t c ↔
      a.Alive t ∧ (a.point t).waitsOn = some c ∧ t ∉ b.queue (.cond c) := by
  have hpt : (b.goto flow.point).point t = b.point t :=
    Function.update_of_ne (h.later.current ▸ hne) ..
  have hiff : (b.goto flow.point).Returning t c ↔
      b.Alive t ∧ (b.point t).waitsOn = some c ∧ t ∉ b.queue (.cond c) := by
    rw [Sched.Returning, hpt]
    rfl
  rw [hiff]
  rcases eq_or_ne t a.nthreads with rfl | hn
  · constructor
    · rintro ⟨hA, hw, -⟩
      rw [h.newcomer hA] at hw
      cases hw
    · exact fun hh => absurd hh.1.1 (lt_irrefl _)
  · obtain ⟨hp, hA⟩ := h.others hne hn
    rw [hp, hA]

/-- A thread that goes on inside a wait does not exit. -/
theorem Effect.exitValue_of_waitsOn (h : Effect a act flow b)
    (hw : flow.point.waitsOn = some c) : act.exitValue = none := by
  cases h with
  | exit _ | finish _ _ => cases hw
  | _ => rfl

/-- Whether the current thread is on its way back after its code. -/
theorem Effect.returning_current (h : Effect a act flow b) (hA : a.Alive a.current) :
    (b.goto flow.point).Returning a.current c ↔
      flow.point.waitsOn = some c ∧ a.current ∉ b.queue (.cond c) := by
  have hpt : (b.goto flow.point).point a.current = flow.point := by
    rw [← h.later.current]
    exact Function.update_self ..
  rw [Sched.Returning, hpt]
  exact ⟨fun hh => hh.2, fun hh => ⟨h.alive_current hA (h.exitValue_of_waitsOn hh.1), hh⟩⟩

/-- Waking some of the waiters, from the front of the queue, puts them on their way. -/
theorem Sched.Waited.wakes {l : List Tid} (hw : a.Waited c) (hi : a.Inv)
    (h : Effect a act .returns b) (hu : a.point a.current = .user)
    (hq : a.queue (.cond c) = l ++ b.queue (.cond c))
    (hwaits : waits c b.trace = waits c a.trace) (hwoken : woken c b.trace = woken c a.trace ++ l)
    (hret : returned c b.trace = returned c a.trace) : (b.goto Flow.returns.point).Waited c := by
  have hcur := hi.placed.exempt a.current rfl
  have hnd := hi.placed.nodup (.cond c)
  rw [hq] at hnd
  -- Whoever is woken was inside the wait and in the queue.
  have hl : ∀ t ∈ l,
      t ≠ a.current ∧ (b.goto Flow.returns.point).Returning t c ∧ ¬a.Returning t c := by
    intro t ht
    have hmem : t ∈ a.queue (.cond c) := hq ▸ List.mem_append_left _ ht
    obtain ⟨hA, hne⟩ := hi.placed.queued _ t hmem
    have hhome := hi.placed.home _ t hmem QueueId.noConfusion
    refine ⟨hne, (h.returning_iff hne).mpr ⟨hA, ?_, ?_⟩, fun hr => hr.2.2 hmem⟩
    · cases hp : a.point t with
      | condWait c' m =>
          rw [hp] at hhome
          obtain rfl := QueueId.cond.inj (Option.some.inj hhome)
          rfl
      | _ =>
          rw [hp] at hhome
          cases hhome
    · exact fun hm => (List.nodup_append.mp hnd).2.2 t ht t hm rfl
  have hrest : ∀ t, t ∉ l → ((b.goto Flow.returns.point).Returning t c ↔ a.Returning t c) := by
    intro t ht
    rcases eq_or_ne t a.current with rfl | hne
    · rw [h.returning_current hcur, hi.returning_current, hu]
      simp [Flow.point, Point.waitsOn]
    · rw [h.returning_iff hne, Returning, hq]
      simp [ht]
  constructor
  · change waits c b.trace = woken c b.trace ++ b.queue (.cond c)
    rw [hwaits, hwoken, hw.order, hq, List.append_assoc]
  · intro t ht
    change (woken c b.trace).count t = (returned c b.trace).count t + 1
    rw [hwoken, hret, List.count_append]
    by_cases htl : t ∈ l
    · have hone : l.count t = 1 :=
        List.count_eq_one_of_mem (List.nodup_append.mp hnd).1 htl
      have hold := hw.settled t (hl t htl).2.2
      omega
    · have hold := hw.returning t ((hrest t htl).mp ht)
      have hzero := List.count_eq_zero_of_not_mem htl
      omega
  · intro t ht
    change (woken c b.trace).count t = (returned c b.trace).count t
    rw [hwoken, hret, List.count_append]
    by_cases htl : t ∈ l
    · exact absurd (hl t htl).2.1 ht
    · have hold := hw.settled t fun hr => ht ((hrest t htl).mpr hr)
      have hzero := List.count_eq_zero_of_not_mem htl
      omega

/-- The queue after its front was woken. -/
theorem Sched.queue_wakeFront_self {q : QueueId} (hr : q ≠ .runnable) :
    a.queue q = (a.queue q).take 1 ++ (a.wakeFront q).queue q := by
  cases hq : a.queue q with
  | nil =>
      rw [wakeFront_of_nil hq, hq]
      rfl
  | cons t l =>
      rw [wakeFront_of_cons hq hr]
      simp [Function.update_of_ne hr]

/-- The queue after all of it was woken. -/
theorem Sched.queue_wakeAll_self {q : QueueId} (hr : q ≠ .runnable) :
    (a.wakeAll q).queue q = [] := by
  rw [wakeAll_eq hr]
  simp [Function.update_of_ne hr]

/-- Where nobody is woken and nobody returns, nobody has to be accounted for. -/
theorem Sched.Waited.keep (hw : a.Waited c)
    (horder : waits c b.trace = woken c b.trace ++ b.queue (.cond c))
    (hsame : ∀ t, b.Returning t c ↔ a.Returning t c)
    (hwoken : woken c b.trace = woken c a.trace)
    (hret : returned c b.trace = returned c a.trace) : b.Waited c := by
  refine ⟨horder, fun t ht => ?_, fun t ht => ?_⟩
  · rw [hwoken, hret]
    exact hw.returning t ((hsame t).mp ht)
  · rw [hwoken, hret]
    exact hw.settled t fun hr => ht ((hsame t).mpr hr)

/-- The code of a step that leaves the condition variable aside. -/
theorem Effect.waited_aside (h : Effect a act flow b) (hi : a.Inv) (hw : a.Waited c)
    (hiff : (a.point a.current).waitsOn = some c ↔ flow.point.waitsOn = some c)
    (hab : Aside (.cond c) a b) : (b.goto flow.point).Waited c := by
  have hcur := hi.placed.exempt a.current rfl
  have hfree : a.current ∉ a.queue (.cond c) := fun hm => (hi.placed.queued _ _ hm).2 rfl
  obtain ⟨hwaits, hwoken, hret⟩ := hab.cond_history
  refine hw.keep ?_ (fun t => ?_) hwoken hret
  · rw [show (b.goto flow.point).queue (.cond c) = b.queue (.cond c) from rfl, hab.queue]
    exact hwaits.trans (hw.order.trans (congrArg (· ++ _) hwoken.symm))
  · rcases eq_or_ne t a.current with rfl | hne
    · rw [h.returning_current hcur, hi.returning_current, hab.queue, hiff]
      simp [hfree]
    · rw [h.returning_iff hne, hab.queue]
      rfl

/-- The code of a wait: the current thread is queued behind the waiters. -/
theorem Effect.waited_wait {a' : Sched} {m : MutexId}
    (h : Effect a act (.schedules (.condWait c m) 2) (a'.push (.cond c) a.current)) (hi : a.Inv)
    (hw : a.Waited c) (hu : a.point a.current = .user)
    (hab : Aside (.cond c) (a.log (.called a.current (.condWait c m))) a') :
    ((a'.push (.cond c) a.current).goto (.condWait c m)).Waited c := by
  have hcur := hi.placed.exempt a.current rfl
  have hback := h.returning_current (c := c) hcur
  have hothers (t : Tid) (hne : t ≠ a.current) := h.returning_iff (c := c) hne
  obtain ⟨hwaits, hwoken, hret⟩ := hab.cond_history
  have hqueue : (a'.push (.cond c) a.current).queue (.cond c) =
      a.queue (.cond c) ++ [a.current] := by
    rw [Sched.queue_push_self, hab.queue]
    rfl
  have hwaits' : waits c (a'.push (.cond c) a.current).trace =
      waits c a.trace ++ [a.current] := by
    simp [hwaits, Event.waiter]
  have hwoken' : woken c (a'.push (.cond c) a.current).trace = woken c a.trace := by
    simp [hwoken, Event.wakened]
  have hret' : returned c (a'.push (.cond c) a.current).trace = returned c a.trace := by
    simp [hret, Event.returner]
  rw [hqueue] at hback hothers
  refine hw.keep ?_ (fun t => ?_) hwoken' hret'
  · change waits c (a'.push (.cond c) a.current).trace =
      woken c (a'.push (.cond c) a.current).trace ++ (a'.push (.cond c) a.current).queue _
    rw [hwaits', hwoken', hqueue, hw.order, List.append_assoc]
  · rcases eq_or_ne t a.current with rfl | hne
    · refine hback.trans ?_
      rw [hi.returning_current, hu]
      simp [Point.waitsOn]
    · refine (hothers t hne).trans ?_
      rw [Sched.Returning]
      simp [hne]

/-- The code that returns from a wait. -/
theorem Effect.waited_back {a' : Sched} {m : MutexId}
    (h : Effect a act .returns (a'.log (.waited a.current c m))) (hi : a.Inv) (hw : a.Waited c)
    (hp : (a.point a.current).waitsOn = some c) (hab : Aside (.cond c) a a') :
    ((a'.log (.waited a.current c m)).goto .user).Waited c := by
  have hcur := hi.placed.exempt a.current rfl
  have hback := h.returning_current (c := c) hcur
  have hothers (t : Tid) (hne : t ≠ a.current) := h.returning_iff (c := c) hne
  obtain ⟨hwaits, hwoken, hret⟩ := hab.cond_history
  have hold : a.Returning a.current c := hi.returning_current.mpr hp
  have hqueue : (a'.log (.waited a.current c m)).queue (.cond c) = a.queue (.cond c) :=
    hab.queue
  have hwaits' : waits c (a'.log (.waited a.current c m)).trace = waits c a.trace := by
    simp [hwaits, Event.waiter]
  have hwoken' : woken c (a'.log (.waited a.current c m)).trace = woken c a.trace := by
    simp [hwoken, Event.wakened]
  have hret' : returned c (a'.log (.waited a.current c m)).trace =
      returned c a.trace ++ [a.current] := by
    simp [hret, Event.returner]
  rw [hqueue] at hback hothers
  refine ⟨?_, fun t ht => ?_, fun t ht => ?_⟩
  · refine hwaits'.trans (hw.order.trans ?_)
    rw [← hwoken', ← hqueue]
    rfl
  · refine (congrArg (List.count t) hwoken').trans ?_
    refine Eq.trans ?_ (congrArg (fun l => l.count t + 1) hret').symm
    simp only [List.count_append]
    rcases eq_or_ne t a.current with rfl | hne
    · cases (hback.mp ht).1
    · have hone := hw.returning t ((hothers t hne).mp ht)
      have hzero := List.count_eq_zero_of_not_mem (List.not_mem_cons_of_ne_of_not_mem hne
        List.not_mem_nil)
      omega
  · refine (congrArg (List.count t) hwoken').trans ?_
    refine Eq.trans ?_ (congrArg (List.count t) hret').symm
    rw [List.count_append]
    rcases eq_or_ne t a.current with rfl | hne
    · rw [hw.returning _ hold, List.count_singleton_self]
    · have hsame := hw.settled t fun hr => ht ((hothers t hne).mpr hr)
      have hzero := List.count_eq_zero_of_not_mem (List.not_mem_cons_of_ne_of_not_mem hne
        List.not_mem_nil)
      omega

/-- The code of a step keeps the account of the waits. -/
theorem Effect.waited (h : Effect a act flow b) (hi : a.Inv) (hw : a.Waited c) :
    (b.goto flow.point).Waited c := by
  have hcond : QueueId.cond c ≠ .runnable := QueueId.noConfusion
  cases h.onCond c with
  | aside hiff hab => exact h.waited_aside hi hw hiff hab
  | wait hu hab => exact h.waited_wait hi hw hu hab
  | @signal a' hu hab =>
      obtain ⟨hwaits, hwoken, hret⟩ := hab.cond_history
      obtain ⟨h₁, h₂, h₃⟩ := cond_history_wakeEvents (c := c) (l := (a.queue (.cond c)).take 1)
      have htr := Sched.trace_wakeFront (a := a') hcond
      rw [hab.queue] at htr
      refine hw.wakes (l := (a.queue (.cond c)).take 1) hi h hu ?_ ?_ ?_ ?_
      · rw [← hab.queue]
        exact Sched.queue_wakeFront_self hcond
      · simp only [htr, subjects_append, hwaits, h₁, List.append_nil]
      · simp only [htr, subjects_append, hwoken, h₂]
      · simp only [htr, subjects_append, hret, h₃, List.append_nil]
  | @broadcast a' hu hab =>
      obtain ⟨hwaits, hwoken, hret⟩ := hab.cond_history
      obtain ⟨h₁, h₂, h₃⟩ := cond_history_wakeEvents (c := c) (l := a.queue (.cond c))
      have htr := Sched.trace_wakeAll (a := a') hcond
      rw [hab.queue] at htr
      refine hw.wakes (l := a.queue (.cond c)) hi h hu ?_ ?_ ?_ ?_
      · rw [Sched.queue_wakeAll_self hcond, List.append_nil]
      · simp only [htr, subjects_append, hwaits, h₁, List.append_nil]
      · simp only [htr, subjects_append, hwoken, h₂]
      · simp only [htr, subjects_append, hret, h₃, List.append_nil]
  | back hp hab =>
      have hwait : (a.point a.current).waitsOn = some c := by
        rcases hp with hp | ⟨hp, -⟩ <;> rw [hp] <;> rfl
      exact h.waited_back hi hw hwait hab

/-- The scheduler proper keeps the account of the waits. -/
theorem SchedFrame.waited (hf : SchedFrame a b) (hw : a.Waited c) : b.Waited c := by
  obtain ⟨new, htr, hint⟩ := hf.trace
  have hnew : ∀ e ∈ new, ¬e.Concerns (.cond c) := fun e he =>
    (hint e he).not_concerns QueueId.noConfusion QueueId.noConfusion
  obtain ⟨hwaits, hwoken, hret⟩ := @cond_history_append c a.trace new hnew
  have hqueue : b.queue (.cond c) = a.queue (.cond c) :=
    hf.queue _ QueueId.noConfusion QueueId.noConfusion
  rw [← htr] at hwaits hwoken hret
  refine hw.keep ?_ (fun t => ?_) hwoken hret
  · rw [hwaits, hwoken, hqueue]
    exact hw.order
  · rw [Sched.Returning, Sched.Alive, hf.nthreads, hf.result, hf.point, hqueue]
    rfl

/-- **Every step keeps the account of the waits.** -/
theorem Sched.Step.waited {D : Discipline} (h : Sched.Step D a act b) (hi : a.Inv)
    (hw : a.Waited c) : b.Waited c := by
  cases h with
  | mk _ he hs => exact hs.frame.waited (he.waited hi hw)

/-! ### The calls and returns -/

/-- A thread that calls `qthread_cond_wait` has been woken from its earlier waits; one that
returns holds the mutex and has been woken once more than it has returned. -/
def WaitJustified (p : List Event) : Event → Prop
  | .called t (.condWait c _) => (waits c p).count t = (woken c p).count t
  | .waited t c m => t ∈ holders m p ∧ (woken c p).count t = (returned c p).count t + 1
  | _ => True

/-- The code of a call makes no further call. -/
theorem Sched.called_notMem_callEvents {op op' : Op} : .called t op' ∉ a.callEvents op := by
  have hwake : ∀ q l, .called t op' ∉ wakeEvents q l := fun q l hm => by
    simp [wakeEvents] at hm
  cases op with
  | lock m =>
      rw [callEvents, lockEvents]
      split <;> simp
  | unlock m => simp [callEvents, unlockEvents, hwake]
  | condWait c m => simp [callEvents, unlockEvents, hwake]
  | signal c | broadcast c => exact hwake _ _
  | join u => simp [callEvents, joinEvents]
  | create _ _ | yield | exit _ | finish _ | usleep _ | mutexCreate _ | condCreate _ =>
      simp [callEvents]

/-- A call of `qthread_cond_wait` is made by a thread that is not queued. -/
theorem Sched.Waited.calls (hw : a.Waited c) (hi : a.Inv) :
    (waits c a.trace).count a.current = (woken c a.trace).count a.current := by
  have hfree : a.current ∉ a.queue (.cond c) := fun hm => (hi.placed.queued _ _ hm).2 rfl
  rw [hw.order, List.count_append, List.count_eq_zero_of_not_mem hfree, Nat.add_zero]

/-- The code of a step justifies the calls and returns it shows. -/
theorem Sched.Waited.justified (hw : ∀ c, a.Waited c) (hi : a.Inv) (hm : a.Mutexes)
    {p q : List Event} {e : Event} (hobs : a.observes act = p ++ e :: q) :
    WaitJustified (a.trace ++ p) e := by
  have hmem : e ∈ a.observes act := by simp [hobs]
  cases e with
  | called t op =>
      obtain ⟨rfl, rfl⟩ := explains_of_mem hmem
      rcases p with _ | ⟨x, p⟩
      · rw [List.append_nil]
        cases op with
        | condWait c m => exact (hw c).calls hi
        | _ => exact True.intro
      · have htail : a.callEvents op = p ++ .called a.current op :: q := (List.cons.inj hobs).2
        have hmem' : .called a.current op ∈ a.callEvents op := by simp [htail]
        exact absurd hmem' called_notMem_callEvents
  | waited t c m =>
      obtain ⟨rfl, rfl, hp⟩ := explains_of_mem hmem
      have hback := ((hw c).returning a.current)
      rcases hp with hp | ⟨hp, h0⟩
      · -- The mutex was handed over while the thread was queued.
        have hone : a.observes .resume = [.waited a.current c m] := by rw [observes, hp]; rfl
        rw [hone] at hobs
        rcases p with _ | ⟨x, p⟩
        · rw [List.append_nil]
          have hcur := hi.placed.exempt a.current rfl
          refine ⟨?_, hback (hi.returning_current.mpr (by rw [hp]; rfl))⟩
          refine (hm.engaged a.current m hcur (by rw [hp]; rfl)).resolve_left fun hq => ?_
          exact (hi.placed.queued _ _ hq).2 rfl
        · simp at hobs
      · -- The mutex was free and has just been taken.
        have hthree : a.observes .resume =
            [.locks a.current m, .took a.current m, .waited a.current c m] := by
          rw [observes, hp, resumeEvents, lockEvents, if_pos h0, if_pos h0]
          rfl
        rw [hthree] at hobs
        obtain rfl : p = [.locks a.current m, .took a.current m] := by
          rcases p with _ | ⟨x, _ | ⟨y, _ | ⟨z, p⟩⟩⟩ <;> simp at hobs
          simp [hobs.1, hobs.2]
        have hcount := hback (hi.returning_current.mpr (by rw [hp]; rfl))
        constructor
        · simp [Event.holders, Event.acquirer]
        · simpa [Event.wakened, Event.returner] using hcount
  | _ => exact True.intro

/-- Every step justifies the calls and returns it shows. -/
theorem Sched.Step.waitJustified {D : Discipline} (h : Sched.Step D a act b) (hi : a.Inv)
    (hw : ∀ c, a.Waited c) (hm : a.Mutexes) (hj : Justified WaitJustified a.trace) :
    Justified WaitJustified b.trace := by
  obtain ⟨new, hnew, hint⟩ := h.ran.trace_eq
  rw [hnew, List.append_assoc]
  refine hj.append fun p e q hsplit => ?_
  rcases split_of_append_eq hsplit with ⟨q₀, hobs, -⟩ | ⟨p', -, hn⟩
  · exact Sched.Waited.justified hw hi hm hobs
  · have hi' := hint e (by simp [hn])
    cases e with
    | called _ _ | waited _ _ _ => exact hi'.elim
    | _ => exact True.intro

/-- **The waits are accounted for in every reachable state**, if only holders unlock or
wait. -/
theorem Sched.Reachable.waited {D : Discipline} {mem : Qthread} {clock : List ℤ}
    (h : Sched.Reachable D mem clock a)
    (hD : ∀ t tr op, D t tr op → JoinOnce t tr op ∧ HolderUnlocks t tr op)
    (hd : mem.dead ≠ 1) (hj : mem.waiter = none) :
    (∀ c, a.Waited c) ∧ a.Mutexes ∧ Justified WaitJustified a.trace := by
  refine h.invariant
    (I := fun a => (∀ c, a.Waited c) ∧ a.Mutexes ∧ Justified WaitJustified a.trace)
    (fun _ _ _ hh => (hD _ _ _ hh).1) hd hj ⟨fun c => ⟨rfl, fun t ht => ?_, fun _ _ => rfl⟩,
      mutexes_initial, .nil _⟩ fun a act b hi _ hI hs => ?_
  · obtain rfl : t = mainThread := Nat.lt_one_iff.mp ht.1.1
    cases ht.2.1
  · exact ⟨fun c => hs.waited hi (hI.1 c), hs.mutexes (fun _ _ _ hh => (hD _ _ _ hh).2) hI.2.1,
      hs.waitJustified hi hI.1 hI.2.1 hI.2.2⟩

end Cond

/-! ### Signals, broadcasts and returns of the program -/

section Wakeups

variable {mem : Qthread} {clock : List ℤ} {s s' : St} {c : CondId} {flow : Flow} {act : Action}

/-- The threads `l` have been taken from the front of a queue and appended to the active
list, in their order; the other queues are as before. -/
structure St.Wakes (q : QueueId) (l : List Tid) (s s' : St) : Prop where
  taken : contents s q = l ++ contents s' q
  awake : contents s' .runnable = contents s .runnable ++ l
  others : ∀ q', q' ≠ q → q' ≠ .runnable → contents s' q' = contents s q'

/-- A signal wakes the first of the queue. -/
theorem St.Good.signal_wakes (h : s.Good)
    (hrun : perform (.call (.signal c)) s = .ok flow s') :
    s.Wakes (.cond c) ((contents s (.cond c)).take 1) s' := by
  obtain ⟨-, he⟩ := (perform_spec h.wf h.inv.placed _).ok hrun
  have hr : QueueId.cond c ≠ .runnable := QueueId.noConfusion
  generalize hv' : view s' = v' at he
  have hq : contents s' = v'.queue := congrArg Sched.queue hv'
  constructor
  · rw [hq]
    cases he with
    | signal _ _ => exact Sched.queue_wakeFront_self (a := (view s).log _) hr
  · rw [hq]
    cases he with
    | signal _ _ =>
        cases hl : contents s (.cond c) with
        | nil =>
            rw [Sched.wakeFront_of_nil (by exact hl), List.take_nil, List.append_nil]
            rfl
        | cons t l =>
            rw [Sched.wakeFront_of_cons (a := (view s).log _) hl hr]
            simp
            rfl
  · rw [hq]
    cases he with
    | signal _ _ => exact fun q' h₁ h₂ => Sched.queue_wakeFront_of_ne h₁ h₂

/-- A broadcast wakes the whole queue. -/
theorem St.Good.broadcast_wakes (h : s.Good)
    (hrun : perform (.call (.broadcast c)) s = .ok flow s') :
    s.Wakes (.cond c) (contents s (.cond c)) s' := by
  obtain ⟨-, he⟩ := (perform_spec h.wf h.inv.placed _).ok hrun
  have hr : QueueId.cond c ≠ .runnable := QueueId.noConfusion
  generalize hv' : view s' = v' at he
  have hq : contents s' = v'.queue := congrArg Sched.queue hv'
  constructor
  · rw [hq]
    cases he with
    | broadcast _ _ => rw [Sched.queue_wakeAll_self hr, List.append_nil]
  · rw [hq]
    cases he with
    | broadcast _ _ =>
        rw [Sched.wakeAll_eq hr]
        simp
        rfl
  · rw [hq]
    cases he with
    | broadcast _ _ => exact fun q' h₁ h₂ => Sched.queue_wakeAll_of_ne hr h₁ h₂

/-- A signal of a condition variable nobody waits on changes nothing. -/
theorem St.Good.signal_empty (h : s.Good) (hnil : contents s (.cond c) = [])
    (hrun : perform (.call (.signal c)) s = .ok flow s') :
    s' = { s with trace := s.trace ++ [.called s.running.stack (.signal c)] } := by
  let s₁ : St := { s with trace := s.trace ++ [.called s.running.stack (.signal c)] }
  obtain ⟨-, he⟩ := (perform_spec h.wf h.inv.placed _).ok hrun
  have hfacts : s.running.point = .user ∧ c < s.nconds := by
    generalize view s' = v' at he
    cases he with
    | signal hp hc => exact ⟨(if_pos rfl : (view s).point s.running.stack = _).symm.trans hp, hc⟩
  have hsize : (s.queue (.cond c)).size = 0 := (h.wf.size_eq_zero_iff _).mpr hnil
  have hcq : condQueue c s₁ = .ok (.cond c) s₁ := if_pos hfacts.2
  have hhead : header (.cond c) s₁ = .ok (s.queue (.cond c)) s₁ := rfl
  have hdone : call (.signal c) s₁ = .ok .returns s₁ := by
    rw [call, qthreadCondSignal, Stateful.run_bind_ok hcq, Stateful.run_bind_ok hhead, hsize]
    rfl
  rw [perform_call hfacts.1, hdone] at hrun
  exact (EStateM.Result.ok.inj hrun).2.symm

/-- A waiter leaves the queue by a signal that finds it first, or by a broadcast. -/
theorem St.Good.waiter_leaves (h : s.Good) (hA : Allowed JoinOnce s act)
    (hrun : step act s = .ok () s') {t : Tid} (ht : t ∈ contents s (.cond c)) :
    t ∈ contents s' (.cond c) ∨
      (act = .call (.signal c) ∧ (contents s (.cond c)).head? = some t) ∨
      act = .call (.broadcast c) := by
  obtain ⟨-, flow, b, he, hset⟩ := (step_spec h.wf h.inv hA).ok hrun
  have hq : contents s' (.cond c) = b.queue (.cond c) :=
    hset.frame.queue _ QueueId.noConfusion QueueId.noConfusion
  have ht' : t ∈ (view s).queue (.cond c) := ht
  rw [hq]
  cases he.onCond c with
  | aside _ hab => exact .inl (hab.queue ▸ ht')
  | wait _ hab =>
      refine .inl (Sched.mem_push.mpr (.inl ?_))
      rw [hab.queue]
      exact ht
  | @signal a' _ hab =>
      have hsplit := Sched.queue_wakeFront_self (a := a') (q := .cond c) QueueId.noConfusion
      rw [hab.queue] at hsplit
      rw [hsplit, List.mem_append] at ht'
      rcases ht' with ht' | ht'
      · refine .inr (.inl ⟨rfl, ?_⟩)
        change (List.head? ((view s).queue (.cond c))) = some t
        cases hl : (view s).queue (.cond c) with
        | nil => simp [hl] at ht'
        | cons u l =>
            rw [hl, List.take_succ_cons, List.take_zero, List.mem_singleton] at ht'
            rw [ht', List.head?_cons]
      · exact .inl ht'
  | broadcast _ _ => exact .inr (.inr rfl)
  | back _ hab => exact .inl (hab.queue ▸ ht')

/-- The rules for waiting: no thread is joined by two threads or by itself, and only the
holder of a mutex unlocks it or waits with it. -/
def WaitRules : Discipline := fun t trace op =>
  JoinOnce t trace op ∧ HolderUnlocks t trace op

/-- **Wake-ups are neither lost nor invented.** In every reachable state, of any condition
variable: threads are woken in the order in which they began to wait, and those in the queue
are next; a signal makes the first of them runnable, and changes nothing where there is
none; a broadcast makes all of them runnable, in their order; by these alone a waiter leaves
the queue; a thread that has called `qthread_cond_wait` and has not been woken since is in
the queue; and a thread returns holding the mutex, having been woken once more than it has
returned, so that when it is in no wait it has returned as often as it was woken. -/
theorem wakeups_exact (hm : Zeroed mem) (hs : Reachable WaitRules mem clock s) (c : CondId) :
    waits c s.trace = woken c s.trace ++ contents s (.cond c) ∧
    (∀ flow s', perform (.call (.signal c)) s = .ok flow s' →
      s.Wakes (.cond c) ((contents s (.cond c)).take 1) s' ∧
      (contents s (.cond c) = [] →
        s' = { s with trace := s.trace ++ [.called s.running.stack (.signal c)] })) ∧
    (∀ flow s', perform (.call (.broadcast c)) s = .ok flow s' →
      s.Wakes (.cond c) (contents s (.cond c)) s') ∧
    (∀ act s', Allowed WaitRules s act → step act s = .ok () s' →
      ∀ t ∈ contents s (.cond c), t ∈ contents s' (.cond c) ∨
        (act = .call (.signal c) ∧ (contents s (.cond c)).head? = some t) ∨
        act = .call (.broadcast c)) ∧
    (∀ p t m q, s.trace = p ++ .called t (.condWait c m) :: q →
      .popped (.cond c) (some t) ∉ q → t ∈ contents s (.cond c)) ∧
    (∀ p t m q, s.trace = p ++ .waited t c m :: q →
      t ∈ holders m p ∧ (woken c p).count t = (returned c p).count t + 1) ∧
    ∀ t, (s.point t).waitsOn ≠ some c →
      (woken c s.trace).count t = (returned c s.trace).count t := by
  have h := hs.good (fun _ _ _ hD => hD.1) hm
  obtain ⟨-, -, hr⟩ := hs.sim (fun _ _ _ hD => hD.1) hm.dead_ne_one hm.waiter
  obtain ⟨hw, -, hj⟩ := hr.waited (fun _ _ _ hD => hD) hm.dead_ne_one hm.waiter
  have horder : waits c s.trace = woken c s.trace ++ contents s (.cond c) := (hw c).order
  refine ⟨horder, fun flow s' hrun => ⟨h.signal_wakes hrun, fun hnil => h.signal_empty hnil hrun⟩,
    fun flow s' hrun => h.broadcast_wakes hrun, fun act s' hA hrun t ht => ?_,
    fun p t m q htr hq => ?_, fun p t m q htr => hj p _ q htr, fun t ht => ?_⟩
  · refine h.waiter_leaves ?_ hrun ht
    cases act with
    | call op => exact hA.1
    | resume => exact True.intro
  · -- Each of its earlier calls has been answered by a wake-up, this one by none.
    have hbefore : (subjects (Event.waiter c) p).count t =
        (subjects (Event.wakened c) p).count t := hj p _ q htr
    have hnone : (subjects (Event.wakened c) q).count t = 0 := by
      refine List.count_eq_zero_of_not_mem fun hmem => hq ?_
      obtain ⟨e, he, hwake⟩ := mem_subjects.mp hmem
      cases e with
      | popped q' p' =>
          cases q' with
          | cond c' =>
              rw [Event.wakened] at hwake
              split at hwake
              case isTrue heq => rwa [← heq, ← hwake]
              case isFalse => cases hwake
          | _ => cases hwake
      | _ => cases hwake
    have hcount := congrArg (List.count t) horder
    rw [htr] at hcount
    simp only [subjects_append, subjects_cons, Event.waiter, Event.wakened, if_true,
      Option.toList_some, Option.toList_none, List.count_append, List.nil_append,
      List.count_singleton_self, hnone] at hcount
    exact List.count_pos_iff.mp (by omega)
  · exact (hw c).settled t fun hret => ht hret.2.1

/-- Main waits, is signaled by a thread it made, and returns with the mutex. -/
theorem wakeups_exact_signaled : ∃ s p, Reachable WaitRules zeroMem [] s ∧
    s.trace = p ++ [.waited 0 0 0] ∧ 0 ∈ holders 0 p ∧
    (woken 0 p).count 0 = (returned 0 p).count 0 + 1 := by
  let acts : List Action := [.call (.mutexCreate ⟨none, none, 0⟩),
    .call (.condCreate ⟨none, none, 0⟩), .call (.create true (some zeroMem)), .call (.lock 0),
    .call (.condWait 0 0), .resume, .call (.signal 0), .call .yield, .resume]
  let s := acts.foldl St.after (qthreadInit zeroMem [])
  have hs : Reachable WaitRules zeroMem [] s :=
    Reachable.actions .refl
      ⟨⟨True.intro, True.intro⟩, by decide +kernel, ⟨True.intro, True.intro⟩,
        by decide +kernel, ⟨True.intro, True.intro⟩, by decide +kernel,
        ⟨True.intro, True.intro⟩, by decide +kernel,
        ⟨True.intro, (by decide +kernel : _ ∈ holders 0 _)⟩, by decide +kernel,
        True.intro, by decide +kernel, ⟨True.intro, True.intro⟩, by decide +kernel,
        ⟨True.intro, True.intro⟩, by decide +kernel, True.intro, by decide +kernel, True.intro⟩
  have htr : s.trace = s.trace.dropLast ++ [.waited 0 0 0] := by decide +kernel
  exact ⟨s, s.trace.dropLast, hs, htr,
    (wakeups_exact zeroed_zeroMem hs 0).2.2.2.2.2.1 _ 0 0 [] htr⟩

end Wakeups

end SystemsProjects.Qthreads
