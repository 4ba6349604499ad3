import SystemsProjects.Qthreads.Mutex

/-!
# Freedom from Deadlock

The library does not look for deadlocks: where nobody is runnable and nobody sleeps,
`switch_runnable` takes a `NULL` thread from the active list and reads its `dead` field.
Programs that keep a lock discipline never come there. Who waits for a mutex holds none, and
who holds one waits neither for a mutex nor in a join, so a mutex is never waited for unless
its holder can run; and joins follow the order of creation.

## Main definitions

* `LockDiscipline`: the programs.
* `Sched.Family`, `Sched.Tidy`: what holds along their runs.

## Main results

* `Sched.Tidy.someone`: somebody is runnable or asleep.
* `no_deadlock`: `schedule` always finds a thread.
-/

namespace SystemsProjects.Qthreads

/-- The thread holds no mutex, as the trace tells. -/
def HoldsNone (t : Tid) (trace : List Event) : Prop := ∀ m, t ∉ holders m trace

/-- A thread locks a mutex only while it holds none, unlocks only what it holds, joins only
threads it created, and neither joins nor exits while it holds a mutex; condition variables
are not used, and the main thread does not call `qthread_exit`. -/
def LockDiscipline : Discipline := fun t trace op =>
  match op with
  | .lock _ => HoldsNone t trace
  | .unlock m => t ∈ holders m trace
  | .join u => HoldsNone t trace ∧ .created t u ∈ trace
  | .exit _ => HoldsNone t trace ∧ t ≠ mainThread
  | .finish _ => HoldsNone t trace
  | .condCreate _ => False
  | .condWait _ _ => False
  | .signal _ => False
  | .broadcast _ => False
  | _ => True

/-- The discipline lets only holders unlock. -/
theorem LockDiscipline.holderUnlocks {t : Tid} {trace : List Event} {op : Op}
    (h : LockDiscipline t trace op) : HolderUnlocks t trace op := by
  cases op with
  | unlock m => exact h
  | condWait c m => exact h.elim
  | _ => exact True.intro

section Deadlock

variable {a b : Sched} {act : Action} {flow : Flow} {t : Tid} {m : MutexId}

/-! ### Families -/

/-- Threads are created once, by threads created before them, and joined by those alone. So a
chain of joiners leads to older threads, and ends. -/
structure Sched.Family (a : Sched) : Prop where
  created : ∀ t u, Event.created t u ∈ a.trace → t < u ∧ u < a.nthreads
  unique : ∀ t t' u, Event.created t u ∈ a.trace → Event.created t' u ∈ a.trace → t = t'
  joined : ∀ t u, Event.called t (.join u) ∈ a.trace → Event.created t u ∈ a.trace

/-- Every step keeps the families, if only created threads are joined. -/
theorem Sched.Ran.family {c : Sched} (h : a.Ran act c) (hi : a.Inv) (hf : a.Family)
    (hA : a.Allowed LockDiscipline act) : c.Family := by
  have hcur := hi.placed.exempt a.current rfl
  -- A creation is an old one, or that of the next thread by the current one.
  have hnew : ∀ {t u}, Event.created t u ∈ c.trace →
      Event.created t u ∈ a.trace ∨ (t = a.current ∧ u = a.nthreads ∧ u < c.nthreads) := by
    intro t u ht
    rcases (h.mem_trace_iff id).mp ht with ht | ht
    · exact .inl ht
    · obtain ⟨rfl, rfl, stack, mem, rfl⟩ := explains_of_mem ht
      obtain ⟨flow, b, he, hfr⟩ := h
      refine .inr ⟨rfl, rfl, ?_⟩
      rw [hfr.nthreads]
      cases he with
      | create _ => exact Nat.lt_succ_self _
  have hle : a.nthreads ≤ c.nthreads := by
    obtain ⟨flow, b, he, hfr⟩ := h
    rw [hfr.nthreads]
    change a.nthreads ≤ b.nthreads
    rcases he.threads with ⟨hn, -⟩ | ⟨hn, -⟩
    · exact hn.ge
    · omega
  refine ⟨fun t u ht => ?_, fun t t' u ht ht' => ?_, fun t u ht => ?_⟩
  · rcases hnew ht with ht | ⟨rfl, rfl, hlt⟩
    · obtain ⟨h₁, h₂⟩ := hf.created t u ht
      exact ⟨h₁, h₂.trans_le hle⟩
    · exact ⟨hcur.1, hlt⟩
  · rcases hnew ht with ht | ⟨rfl, rfl, -⟩
    · rcases hnew ht' with ht' | ⟨-, rfl, -⟩
      · exact hf.unique t t' u ht ht'
      · exact absurd (hf.created t _ ht).2 (lt_irrefl _)
    · rcases hnew ht' with ht' | ⟨rfl, -, -⟩
      · exact absurd (hf.created t' _ ht').2 (lt_irrefl _)
      · rfl
  · refine (h.mem_trace_iff id).mpr (.inl ?_)
    rcases h.called_mem_iff.mp ht with ht | ⟨rfl, rfl⟩
    · exact hf.joined t u ht
    · exact hA.2

/-- In a family, a thread joined by its creator is joined by nobody else. -/
theorem Sched.Family.joinOnce (hf : a.Family) {op : Op}
    (hD : LockDiscipline a.current a.trace op) : JoinOnce a.current a.trace op := by
  cases op with
  | join u =>
      refine ⟨(hf.created _ u hD.2).1.ne', fun j hj => ?_⟩
      exact hf.unique j a.current u (hf.joined j u hj) hD.2
  | _ => exact True.intro

/-! ### Tidy states -/

/-- The main thread has not exited; who holds a mutex is alive, and is neither queued at one
nor in a join; joins follow the order of creation; and nobody waits on a condition
variable. -/
structure Sched.Tidy (a : Sched) : Prop where
  main : a.Alive mainThread
  holder : ∀ t m, t ∈ holders m a.trace → a.Alive t
  queued : ∀ t m, t ∈ a.queue (.mutex m) → HoldsNone t a.trace
  joining : ∀ t u, a.Alive t → a.point t = .join u → t < u ∧ HoldsNone t a.trace
  noWait : ∀ t, a.Alive t → (a.point t).waitsOn = none

/-- **Somebody is runnable or asleep** in a tidy state in which everybody is in place. -/
theorem Sched.Tidy.someone (h : a.Tidy) (hp : Placed ∅ a) (hm : a.Mutexes) :
    a.queue .runnable ≠ [] ∨ a.queue .sleeping ≠ [] := by
  by_contra hno
  push Not at hno
  obtain ⟨hr, hs⟩ := hno
  -- Everybody is queued at a mutex or in a join.
  have hwhere : ∀ t, a.Alive t → (∃ m, t ∈ a.queue (.mutex m)) ∨
      ∃ u, a.point t = .join u ∧ a.Alive u := by
    intro t ht
    rcases hp.somewhere t ht id with ⟨q, hq⟩ | ⟨u, hpt, hu, -⟩
    · cases q with
      | runnable => simp [hr] at hq
      | sleeping => simp [hs] at hq
      | mutex m => exact .inl ⟨m, hq⟩
      | cond c =>
          have hhome := hp.home _ t hq QueueId.noConfusion
          have hwait := h.noWait t ht
          cases hpt : a.point t with
          | condWait c' m =>
              rw [hpt] at hwait
              cases hwait
          | _ =>
              rw [hpt] at hhome
              cases hhome
    · exact .inr ⟨u, hpt, hu⟩
  -- Nobody is queued: the holder of the mutex would be neither.
  have hjoin : ∀ t, a.Alive t → ∃ u, a.point t = .join u ∧ a.Alive u := by
    intro t ht
    refine (hwhere t ht).resolve_left ?_
    rintro ⟨m, hq⟩
    rcases (hm.owned m).owner with ⟨-, -, hnil⟩ | ⟨-, o, ho⟩
    · simp [hnil] at hq
    · have hmem : o ∈ holders m a.trace := by simp [ho]
      rcases hwhere o (h.holder o m hmem) with ⟨m', hq'⟩ | ⟨u, hpo, -⟩
      · exact h.queued o m' hq' m hmem
      · exact (h.joining o u (h.holder o m hmem) hpo).2 m hmem
  -- So joins would go on beyond the last thread.
  have hchain : ∀ n, ∃ t, n ≤ t ∧ a.Alive t := by
    intro n
    induction n with
    | zero => exact ⟨mainThread, le_rfl, h.main⟩
    | succ n ih =>
        obtain ⟨t, hnt, ht⟩ := ih
        obtain ⟨u, hpt, hu⟩ := hjoin t ht
        exact ⟨u, hnt.trans_lt (h.joining t u ht hpt).1, hu⟩
  obtain ⟨t, hle, ht⟩ := hchain a.nthreads
  exact absurd ht.1 (Nat.not_lt.mpr hle)

/-! ### Tidy states along a run -/

/-- The code of the step tries to lock the mutex. -/
def Sched.Attempts (a : Sched) (act : Action) (m : MutexId) : Prop :=
  act = .call (.lock m) ∨ (act = .resume ∧ ∃ c, a.point a.current = .condWait c m)

/-- Who holds a mutex after the code of a step held it before, is the current thread that
has just taken it, or was the first of the queue. -/
theorem OnMutex.mem_holders (h : OnMutex m a act flow b) (ht : t ∈ holders m b.trace) :
    t ∈ holders m a.trace ∨ (t = a.current ∧ a.locked m = 0 ∧ a.Attempts act m) ∨
      ∃ l, a.queue (.mutex m) = t :: l ∧ b.queue (.mutex m) = l := by
  cases h with
  | aside hab => exact .inl (hab.history.2.2 ▸ ht)
  | lock hlt hact ha hb =>
      rw [hb.history.2.2, Sched.history_lock.2.2, List.mem_append, ha.history.2.2,
        ha.locked m rfl, ha.current] at ht
      refine ht.symm.imp id fun ht => .inl ?_
      split at ht
      case isTrue h0 =>
        exact ⟨List.mem_singleton.mp ht, h0, hact.imp And.left fun ⟨h, c, hp, _⟩ => ⟨h, c, hp⟩⟩
      case isFalse => cases ht
  | unlock hlt hact ha hb =>
      rw [hb.history.2.2, Sched.history_unlock.2.2, List.mem_append, ha.history.2.2,
        ha.queue] at ht
      rcases ht with ht | ht
      · refine .inr (.inr ⟨(a.queue (.mutex m)).tail, ?_, ?_⟩)
        · cases hq : a.queue (.mutex m) with
          | nil => simp [hq] at ht
          | cons u l =>
              have htu : t = u := by simpa [hq] using ht
              rw [htu, List.tail_cons]
        · rw [hb.queue, Sched.queue_unlock_self, ha.queue]
      · exact .inl (List.mem_of_mem_filter ht)

/-- Who is queued at a mutex after the code of a step was so before, or is the current
thread that has found the mutex taken. -/
theorem OnMutex.mem_queue (h : OnMutex m a act flow b) (ht : t ∈ b.queue (.mutex m)) :
    t ∈ a.queue (.mutex m) ∨ (t = a.current ∧ a.locked m ≠ 0 ∧ a.Attempts act m) := by
  cases h with
  | aside hab => exact .inl (hab.queue ▸ ht)
  | lock hlt hact ha hb =>
      rw [hb.queue, Sched.queue_lock_self, List.mem_append, ha.queue, ha.locked m rfl,
        ha.current] at ht
      refine ht.imp id fun ht => ?_
      split at ht
      case isTrue => cases ht
      case isFalse h0 =>
        exact ⟨List.mem_singleton.mp ht, h0, hact.imp And.left fun ⟨h, c, hp, _⟩ => ⟨h, c, hp⟩⟩
  | unlock hlt hact ha hb =>
      rw [hb.queue, Sched.queue_unlock_self, ha.queue] at ht
      exact .inl (List.mem_of_mem_tail ht)

/-- The code that has its thread wait in a join is a call of it, or its loop. -/
theorem Effect.joins {u : Tid} (h : Effect a act flow b) (hp : flow.point = .join u) :
    act = .call (.join u) ∨ (act = .resume ∧ a.point a.current = .join u) := by
  have hjoin : ∀ {a : Sched} {t}, (a.joinLoop t).1.point = .join u → t = u := by
    intro a t hp
    rw [Sched.joinLoop] at hp
    split at hp
    · exact Point.join.inj hp
    · cases hp
  have hlock : ∀ {a : Sched} {m}, (a.lock (.lock m) m).1.point ≠ .join u := by
    intro a m hp
    rw [Sched.lock] at hp
    split at hp <;> cases hp
  cases h with
  | join _ _ =>
      obtain rfl := hjoin hp
      exact .inl rfl
  | rejoin hpt _ =>
      obtain rfl := hjoin hp
      exact .inr ⟨rfl, hpt⟩
  | lock _ _ => exact absurd hp hlock
  | @signaled c m _ _ =>
      rcases eq_or_ne (a.locked m) 0 with h0 | h0
      · rw [Sched.relock_of_free h0] at hp
        cases hp
      · rw [Sched.relock_of_held h0] at hp
        cases hp
  | _ => cases hp

/-- Nobody comes out of a wait, so only calls try to lock. -/
theorem Sched.Tidy.attempts (ht : a.Tidy) (hi : a.Inv) (hatt : a.Attempts act m) :
    act = .call (.lock m) := by
  rcases hatt with hact | ⟨-, c, hp⟩
  · exact hact
  · have hwait := ht.noWait _ (hi.placed.exempt a.current rfl)
    rw [hp] at hwait
    cases hwait

/-- Who holds a mutex after the code of a step: who held it before, who has just locked it, or
who has been taken from its queue. -/
theorem Effect.mem_holders (h : Effect a act flow b) (hi : a.Inv) (hm : a.Mutexes) (ht : a.Tidy)
    (hmem : t ∈ holders m b.trace) :
    t ∈ holders m a.trace ∨ (t = a.current ∧ a.locked m = 0 ∧ act = .call (.lock m)) ∨
      (t ∈ a.queue (.mutex m) ∧ t ∉ b.queue (.mutex m)) := by
  refine ((h.onMutex hm.free m).mem_holders hmem).imp id
    (Or.imp (fun hh => ⟨hh.1, hh.2.1, ht.attempts hi hh.2.2⟩) ?_)
  rintro ⟨l, hq, hb⟩
  have hnd := hi.placed.nodup (.mutex m)
  rw [hq] at hnd
  exact ⟨hq ▸ List.mem_cons_self, hb ▸ (List.nodup_cons.mp hnd).1⟩

/-- Nobody has exited but the current thread, where the action is an exit. -/
theorem Effect.alive_of_alive (h : Effect a act flow b) (hi : a.Inv) (hA : a.Alive t)
    (hexit : t = a.current → act.exitValue = none) : b.Alive t := by
  have hcur := hi.placed.exempt a.current rfl
  rcases eq_or_ne t a.current with rfl | hne
  · exact h.alive_current hcur (hexit rfl)
  · exact (h.others hne hA.1.ne).2.mpr hA

/-- The current thread stands where its part has ended. -/
theorem Effect.point_current (h : Effect a act flow b) :
    (b.goto flow.point).point a.current = flow.point := by
  rw [← h.later.current]
  exact Function.update_self ..

/-- The other threads stand where they stood, unless they are new. -/
theorem Effect.point_other (h : Effect a act flow b) (hA : b.Alive t) (hne : t ≠ a.current)
    (hent : (b.goto flow.point).point t ≠ .entry) :
    a.Alive t ∧ a.point t = (b.goto flow.point).point t := by
  have hpb : (b.goto flow.point).point t = b.point t :=
    Function.update_of_ne (h.later.current ▸ hne) ..
  rcases eq_or_ne t a.nthreads with rfl | hn
  · exact absurd (hpb.trans (h.newcomer hA)) hent
  · obtain ⟨hpa, hA'⟩ := h.others hne hn
    exact ⟨hA'.mp hA, (hpb.trans hpa).symm⟩

/-- Whoever exits holds nothing. -/
theorem Effect.holdsNone_of_exit (h : Effect a act flow b) (hA : a.Allowed LockDiscipline act)
    {v : Value} (hv : act.exitValue = some v) : HoldsNone a.current a.trace := by
  cases h with
  | exit _ => exact hA.1
  | finish _ _ => exact hA
  | _ => cases hv

/-- The main thread does not exit. -/
theorem Effect.alive_main (h : Effect a act flow b) (hi : a.Inv) (ht : a.Tidy)
    (hA : a.Allowed LockDiscipline act) : b.Alive mainThread := by
  refine h.alive_of_alive hi ht.main fun hmain => ?_
  cases h with
  | exit _ => exact absurd hmain.symm hA.2
  | finish _ hne => exact absurd hmain.symm hne
  | _ => rfl

/-- Who holds a mutex after the step is alive. -/
theorem Effect.alive_holder (h : Effect a act flow b) (hi : a.Inv) (hm : a.Mutexes)
    (ht : a.Tidy) (hA : a.Allowed LockDiscipline act) (hmem : t ∈ holders m b.trace) :
    b.Alive t := by
  have hcur := hi.placed.exempt a.current rfl
  have hnotq : a.current ∉ a.queue (.mutex m) := fun hq => (hi.placed.queued _ _ hq).2 rfl
  have htA : a.Alive t := by
    rcases h.mem_holders hi hm ht hmem with hold | ⟨rfl, -⟩ | ⟨hq, -⟩
    · exact ht.holder t m hold
    · exact hcur
    · exact (hi.placed.queued _ t hq).1
  refine h.alive_of_alive hi htA fun htc => ?_
  subst htc
  cases hv : act.exitValue with
  | none => rfl
  | some v =>
      rcases h.mem_holders hi hm ht hmem with hold | ⟨-, -, rfl⟩ | ⟨hq, -⟩
      · exact absurd hold (h.holdsNone_of_exit hA hv m)
      · cases hv
      · exact absurd hq hnotq

/-- Who is queued at a mutex after the step holds none. -/
theorem Effect.holdsNone_queued (h : Effect a act flow b) (hi : a.Inv) (hm : a.Mutexes)
    (ht : a.Tidy) (hA : a.Allowed LockDiscipline act) (hq : t ∈ b.queue (.mutex m)) :
    HoldsNone t b.trace := by
  have hnotq : ∀ q, a.current ∉ a.queue q := fun q hq => (hi.placed.queued q _ hq).2 rfl
  intro m' hmem
  rcases (h.onMutex hm.free m).mem_queue hq with hqa | ⟨rfl, hne0, hatt⟩
  · rcases h.mem_holders hi hm ht hmem with hold | ⟨rfl, -⟩ | ⟨hq', hnq⟩
    · exact ht.queued t m hqa m' hold
    · exact hnotq _ hqa
    · have hmm := hi.placed.disjoint _ _ t hqa hq'
      exact hnq (hmm ▸ hq)
  · obtain rfl := ht.attempts hi hatt
    rcases h.mem_holders hi hm ht hmem with hold | ⟨-, h0, hlock⟩ | ⟨hq', -⟩
    · exact hA m' hold
    · obtain rfl := Op.lock.inj (Action.call.inj hlock)
      exact hne0 h0
    · exact hnotq _ hq'

/-- The current thread goes into a join of a thread it has created, and holds nothing. -/
theorem Effect.joining_current (h : Effect a act flow b) (hi : a.Inv) (hm : a.Mutexes)
    (hf : a.Family) (ht : a.Tidy) (hA : a.Allowed LockDiscipline act) {u : Tid}
    (hp : flow.point = .join u) : a.current < u ∧ HoldsNone a.current b.trace := by
  have hcur := hi.placed.exempt a.current rfl
  have hjoins := h.joins hp
  have hbefore : a.current < u ∧ HoldsNone a.current a.trace := by
    rcases hjoins with rfl | ⟨-, hpa⟩
    · exact ⟨(hf.created _ u hA.2).1, hA.1⟩
    · exact ht.joining _ u hcur hpa
  refine ⟨hbefore.1, fun m hmem => ?_⟩
  rcases h.mem_holders hi hm ht hmem with hold | ⟨-, -, rfl⟩ | ⟨hq, -⟩
  · exact hbefore.2 m hold
  · rcases hjoins with hact | ⟨hact, -⟩ <;> cases hact
  · exact (hi.placed.queued _ _ hq).2 rfl

/-- The others that are in a join were in it before. -/
theorem Effect.joining_other (h : Effect a act flow b) (hi : a.Inv) (hm : a.Mutexes)
    (ht : a.Tidy) {u : Tid} (htA : b.Alive t) (hne : t ≠ a.current)
    (hp : (b.goto flow.point).point t = .join u) : t < u ∧ HoldsNone t b.trace := by
  obtain ⟨htA', hpa⟩ := h.point_other htA hne (hp ▸ Point.noConfusion)
  rw [hp] at hpa
  obtain ⟨hlt, hnone⟩ := ht.joining t u htA' hpa
  refine ⟨hlt, fun m hmem => ?_⟩
  rcases h.mem_holders hi hm ht hmem with hold | ⟨rfl, -⟩ | ⟨hq, -⟩
  · exact hnone m hold
  · exact hne rfl
  · have hhome := hi.placed.home _ t hq QueueId.noConfusion
    rw [hpa] at hhome
    cases hhome

/-- Nobody waits on a condition variable. -/
theorem Effect.waitsOn_eq_none (h : Effect a act flow b) (hi : a.Inv) (ht : a.Tidy)
    (hA : a.Allowed LockDiscipline act) (htA : b.Alive t) :
    ((b.goto flow.point).point t).waitsOn = none := by
  rw [Option.eq_none_iff_forall_ne_some]
  intro c hw
  rcases eq_or_ne t a.current with rfl | hne
  · rw [h.point_current] at hw
    cases h.onCond c with
    | aside hiff _ =>
        have hnone := ht.noWait _ (hi.placed.exempt a.current rfl)
        rw [hiff.mpr hw] at hnone
        cases hnone
    | wait _ _ => exact hA
    | signal _ _ | broadcast _ _ | back _ _ => cases hw
  · have hent : (b.goto flow.point).point t ≠ .entry := fun hp => by
      rw [hp] at hw
      cases hw
    obtain ⟨htA', hpa⟩ := h.point_other htA hne hent
    have hnone := ht.noWait t htA'
    rw [hpa, hw] at hnone
    cases hnone

/-- **The code of a disciplined step keeps the state tidy.** -/
theorem Effect.tidy (h : Effect a act flow b) (hi : a.Inv) (hm : a.Mutexes) (hf : a.Family)
    (ht : a.Tidy) (hA : a.Allowed LockDiscipline act) : (b.goto flow.point).Tidy where
  main := h.alive_main hi ht hA
  holder _ _ hmem := h.alive_holder hi hm ht hA hmem
  queued _ _ hq := h.holdsNone_queued hi hm ht hA hq
  joining t u htA hp := by
    rcases eq_or_ne t a.current with rfl | hne
    · exact h.joining_current hi hm hf ht hA (h.point_current.symm.trans hp)
    · exact h.joining_other hi hm ht htA hne hp
  noWait _ htA := h.waitsOn_eq_none hi ht hA htA

/-- The scheduler proper keeps the state tidy. -/
theorem SchedFrame.tidy (hf : SchedFrame a b) (ht : a.Tidy) : b.Tidy := by
  have hA : ∀ t, b.Alive t ↔ a.Alive t := fun t => by
    rw [Sched.Alive, Sched.Alive, hf.nthreads, hf.result]
  have hnone : ∀ t, HoldsNone t b.trace ↔ HoldsNone t a.trace := fun t => by
    simp only [HoldsNone, (hf.history _).2.2]
  refine ⟨(hA _).mpr ht.main, fun t m hmem => ?_, fun t m hq => ?_, fun t u htA hp => ?_,
    fun t htA => ?_⟩
  · rw [(hf.history m).2.2] at hmem
    exact (hA t).mpr (ht.holder t m hmem)
  · rw [hf.queue _ QueueId.noConfusion QueueId.noConfusion] at hq
    exact (hnone t).mpr (ht.queued t m hq)
  · rw [hf.point] at hp
    obtain ⟨hlt, hn⟩ := ht.joining t u ((hA t).mp htA) hp
    exact ⟨hlt, (hnone t).mpr hn⟩
  · rw [hf.point]
    exact ht.noWait t ((hA t).mp htA)

/-- Initially the state is tidy. -/
theorem Sched.tidy_initial {mem : Qthread} {clock : List ℤ} (hd : mem.dead ≠ 1) :
    (Sched.initial mem clock).Tidy := by
  have hA : ∀ t, (Sched.initial mem clock).Alive t → t = mainThread := fun t ht =>
    Nat.lt_one_iff.mp ht.1
  refine ⟨⟨Nat.one_pos, if_neg hd⟩, fun t m hm => absurd hm List.not_mem_nil,
    fun t m hq => absurd hq List.not_mem_nil, fun t u ht hp => ?_, fun t ht => ?_⟩
  · rw [hA t ht] at hp
    cases hp
  · rw [hA t ht]
    rfl

/-- Where the calling thread of a disciplined step has been filed, `schedule` finds somebody
runnable or asleep. -/
theorem Effect.someone {after : Point} {exit : ℤ} (h : Effect a act (.schedules after exit) b)
    (hi : a.Inv) (hm : a.Mutexes) (hf : a.Family) (ht : a.Tidy)
    (hA : a.Allowed LockDiscipline act) (hp : Placed ∅ ((b.goto after).file exit)) :
    ((b.goto after).file exit).queue .runnable ≠ [] ∨
      ((b.goto after).file exit).queue .sleeping ≠ [] := by
  have hAm : a.Allowed HolderUnlocks act := by
    cases act with
    | call op => exact hA.holderUnlocks
    | resume => exact True.intro
  have hfile := Sched.file_frame (b.goto after) exit
  exact (hfile.tidy (h.tidy hi hm hf ht hA)).someone hp (hfile.mutexes (h.mutexes hm hAm))

end Deadlock

section Runs

variable {mem : Qthread} {clock : List ℤ} {s : St} {act : Action}

/-- The discipline, and that nobody is joined by two threads or by itself. In a run the second
follows from the first, since a child has one parent. -/
def LockJoinDiscipline : Discipline := fun t trace op =>
  LockDiscipline t trace op ∧ JoinOnce t trace op

/-- What holds in every state that disciplined programs reach. -/
theorem Sched.Reachable.tidy {a : Sched} (h : Sched.Reachable LockJoinDiscipline mem clock a)
    (hd : mem.dead ≠ 1) (hj : mem.waiter = none) : a.Mutexes ∧ a.Family ∧ a.Tidy := by
  refine h.invariant (I := fun a => a.Mutexes ∧ a.Family ∧ a.Tidy) (fun _ _ _ hD => hD.2) hd hj
    ⟨Sched.mutexes_initial, ⟨fun t u hm => absurd hm List.not_mem_nil,
      fun t t' u hm => absurd hm List.not_mem_nil, fun t u hm => absurd hm List.not_mem_nil⟩,
      Sched.tidy_initial hd⟩ ?_
  rintro a act c hi - ⟨hm, hf, ht⟩ hs
  have hran := hs.ran
  have hmc := hs.mutexes (fun _ _ _ hD => hD.1.holderUnlocks) hm
  cases hs with
  | mk hA he hset =>
      have hA' : a.Allowed LockDiscipline act := by
        cases act with
        | call op => exact hA.1
        | resume => exact True.intro
      exact ⟨hmc, hran.family hi hf hA', hset.frame.tidy (he.tidy hi hm hf ht hA')⟩

/-- **In disciplined programs nobody is joined by two threads** or by itself, since nobody
is created twice. -/
theorem Reachable.joinOnce (hm : Zeroed mem) (hs : Reachable LockDiscipline mem clock s) :
    Reachable LockJoinDiscipline mem clock s := by
  induction hs with
  | refl => exact .refl
  | @tail s s' _ hstep ih =>
      obtain ⟨act, hA, hrun⟩ := hstep
      obtain ⟨-, -, hr⟩ := Reachable.sim (fun _ _ _ hD => hD.2) hm.dead_ne_one hm.waiter ih
      refine Reachable.step ih act ?_ hrun
      cases act with
      | call op => exact ⟨hA, (hr.tidy hm.dead_ne_one hm.waiter).2.1.joinOnce hA⟩
      | resume => exact True.intro

/-- **No deadlock.** In every state that disciplined programs reach, whatever the running
thread does within the discipline: when a call of `schedule` has filed its caller, the
active list or the sleeping set is not empty; when it reaches `switch_runnable`, the active
list is not; and the step dereferences no `NULL` pointer. -/
theorem no_deadlock (hm : Zeroed mem) (hs : Reachable LockDiscipline mem clock s)
    (hA : Allowed LockDiscipline s act) :
    (∀ after exit s₁ s₂ s₃, perform act s = .ok (.schedules after exit) s₁ →
      goto after s₁ = .ok () s₂ → scheduleFile exit s₂.currentThread s₂ = .ok () s₃ →
      (s₃.queue .runnable).size ≠ 0 ∨ (s₃.queue .sleeping).size ≠ 0) ∧
    (∀ s', ReachesSwitch act s s' → contents s' .runnable ≠ []) ∧
    ∀ e s', step act s = .error e s' → e ≠ .null := by
  have hs' := Reachable.joinOnce hm hs
  have h := Reachable.good (fun _ _ _ hD => hD.2) hm hs'
  obtain ⟨-, -, hr⟩ := Reachable.sim (fun _ _ _ hD => hD.2) hm.dead_ne_one hm.waiter hs'
  obtain ⟨hmu, hf, ht⟩ := hr.tidy hm.dead_ne_one hm.waiter
  have hAv : (view s).Allowed LockDiscipline act := by
    cases act with
    | call op => exact hA
    | resume => exact True.intro
  have hAj : Allowed JoinOnce s act := by
    cases act with
    | call op => exact hf.joinOnce hA
    | resume => exact True.intro
  have hswitch : ∀ s', ReachesSwitch act s s' → contents s' .runnable ≠ [] := by
    intro s' hsw hnil
    obtain ⟨-, hp, after, exit, b, he, hidle⟩ := reachesSwitch_spec h.wf h.inv hAj hsw
    obtain ⟨heq, hsl⟩ := hidle.of_runnable_eq_nil hnil
    have hsome := he.someone h.inv hmu hf ht hAv (heq ▸ hp)
    rw [← heq] at hsome
    exact hsome.elim (fun hne => hne hnil) fun hne => hne hsl
  refine ⟨fun after exit s₁ s₂ s₃ h₁ h₂ h₃ => ?_, hswitch, fun e s' hrun he => ?_⟩
  · by_contra hno
    push Not at hno
    -- With both empty the test does nothing, and `switch_runnable` finds nobody.
    have hidle : wakeIfIdle s₃ = .ok () s₃ := by
      have hhead : ∀ q, header q s₃ = .ok (s₃.queue q) s₃ := fun _ => rfl
      rw [wakeIfIdle, Stateful.run_bind_ok (hhead _), if_pos hno.1,
        Stateful.run_bind_ok (hhead _), hno.2]
      rfl
    have hsw : ReachesSwitch act s s₃ := ⟨after, exit, s₁, s₂, s₃, h₁, h₂, h₃, hidle⟩
    obtain ⟨hw₃, -⟩ := reachesSwitch_spec h.wf h.inv hAj hsw
    exact hswitch s₃ hsw ((hw₃.size_eq_zero_iff _).mp hno.1)
  · obtain ⟨after, exit, b, heff, hv, hp, hnil, hsl⟩ := (step_spec h.wf h.inv hAj).error hrun he
    have hsome := heff.someone h.inv hmu hf ht hAv (hv ▸ hp)
    rw [← hv] at hsome
    exact hsome.elim (fun hne => hne hnil) fun hne => hne hsl

/-- A thread about to wait for the mutex that main holds while it yields. -/
theorem no_deadlock_contended : ∃ s, Reachable LockDiscipline zeroMem [] s ∧
    s.running.stack = 1 ∧ 0 ∈ holders 0 s.trace ∧
    ∀ e s', step (.call (.lock 0)) s = .error e s' → e ≠ .null := by
  let acts : List Action := [.call (.mutexCreate ⟨none, none, 0⟩),
    .call (.create true (some zeroMem)), .call (.lock 0), .call .yield, .resume]
  let s := acts.foldl St.after (qthreadInit zeroMem [])
  have hbefore : ((acts.take 2).foldl St.after (qthreadInit zeroMem [])).trace =
      [.called 0 (.mutexCreate ⟨none, none, 0⟩), .called 0 (.create true (some zeroMem)),
        .pushed .runnable (some 1), .created 0 1] := by
    decide +kernel
  have htr : s.trace =
      [.called 0 (.mutexCreate ⟨none, none, 0⟩), .called 0 (.create true (some zeroMem)),
        .pushed .runnable (some 1), .created 0 1, .called 0 (.lock 0), .locks 0 0, .took 0 0,
        .called 0 .yield, .pushed .runnable (some 0), .popped .runnable (some 1)] := by
    decide +kernel
  have hmain : HoldsNone 0 ((acts.take 2).foldl St.after (qthreadInit zeroMem [])).trace := by
    intro m
    simp [hbefore, holders, Event.holders, Event.acquirer]
  have hstack : s.running.stack = 1 := by decide +kernel
  have hlock : Allowed LockDiscipline s (.call (.lock 0)) := by
    intro m
    rw [hstack, htr]
    rcases eq_or_ne 0 m with rfl | hm
    · simp [holders, Event.holders, Event.acquirer]
    · simp [holders, Event.holders, Event.acquirer, hm]
  have hs : Reachable LockDiscipline zeroMem [] s :=
    Reachable.actions .refl ⟨True.intro, by decide +kernel, True.intro, by decide +kernel,
      hmain, by decide +kernel, True.intro, by decide +kernel, True.intro, by decide +kernel,
      True.intro⟩
  refine ⟨s, hs, hstack, ?_, (no_deadlock zeroed_zeroMem hs hlock).2.2⟩
  rw [htr]
  decide

end Runs

end SystemsProjects.Qthreads
