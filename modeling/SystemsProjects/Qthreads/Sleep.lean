import SystemsProjects.Qthreads.Locations

/-!
# Sleeping

`qthread_usleep` notes a deadline and has its thread filed in the sleeping set; the loop of
`wake_sleeping_threads` rotates that set, reading the clock once a round, until it holds a
thread whose deadline has passed, and that thread alone becomes runnable. Nothing else
takes a thread out of the sleeping set, so whoever sleeps on has either been left there or
been seen out by a reading that had reached its deadline.

## Main definitions

* `Sched.Shows`: what has been observed between two states.
* `Sched.Sleeps`: the sleeps a trace has begun, and where they stand.

## Main results

* `Waking.perm`, `Waking.due_reading`: the wake loop keeps the other sleepers, and a
  reading has reached the deadline of the one it wakes.
* `Sched.Step.sleeper`: a sleeper stays, or such a reading is made.
* `no_early_wake`: no sleep returns before its time.
-/

namespace SystemsProjects.Qthreads

open History

namespace Sched

variable {a b c : Sched} {e : Event}

/-- The event was observed on the way from `a` to `b`. -/
def Shows (a b : Sched) (e : Event) : Prop :=
  ∃ new, b.trace = a.trace ++ new ∧ e ∈ new

/-- What was seen on the way from a later state was seen on the way from an earlier one. -/
theorem Shows.after (h : b.Shows c e) (hab : a.trace <+: b.trace) : a.Shows c e := by
  obtain ⟨new, htr, he⟩ := h
  obtain ⟨old, hold⟩ := hab
  exact ⟨old ++ new, by rw [htr, ← hold, List.append_assoc], List.mem_append_right old he⟩

/-- What was seen on the way to an earlier state was seen on the way to a later one. -/
theorem Shows.before (h : a.Shows b e) (hbc : b.trace <+: c.trace) : a.Shows c e := by
  obtain ⟨new, htr, he⟩ := h
  obtain ⟨more, hmore⟩ := hbc
  exact ⟨new ++ more, by rw [← hmore, htr, List.append_assoc], List.mem_append_left more he⟩

/-- What has been observed is in every account of what has been observed. -/
theorem Shows.mem {new : List Event} (h : a.Shows b e) (htr : b.trace = a.trace ++ new) :
    e ∈ new := by
  obtain ⟨new', htr', he⟩ := h
  rw [htr, List.append_cancel_left_eq] at htr'
  exact htr' ▸ he

/-- A reading of the clock is seen. -/
theorem shows_reading {now : ℤ} {rest : List ℤ} : a.Shows (a.read now rest) (.reading now) :=
  ⟨[.reading now], rfl, List.mem_singleton_self _⟩

end Sched

/-- The scheduler proper only extends the trace. -/
theorem SchedFrame.older {a b : Sched} (h : SchedFrame a b) : a.trace <+: b.trace := by
  obtain ⟨new, htr, -⟩ := h.trace
  exact ⟨new, htr.symm⟩

/-! ### The wake loop -/

/-- The wake loop takes one sleeper out and keeps the others. -/
theorem Waking.perm {a b : Sched} {h w : Tid} {linked : Bool} (hw : Waking a h linked b w) :
    (w :: b.queue .sleeping).Perm (h :: a.queue .sleeping) := by
  induction hw with
  | due _ _ => exact .refl _
  | spin _ _ _ ih => exact ih
  | @rotate a b h h' w l now rest _ _ hq _ ih =>
      have hread : (a.read now rest).queue .sleeping = h' :: l := hq
      rw [Sched.queue_push_self, Sched.queue_pop_self hread] at ih
      rw [hq]
      have hback : (l ++ [h]).Perm (h :: l) := List.perm_append_singleton h l
      exact ih.trans ((hback.cons h').trans (.swap h h' l))

/-- The wake loop ends with a reading that has reached the deadline of the sleeper it
wakes. -/
theorem Waking.due_reading {a b : Sched} {h w : Tid} {linked : Bool}
    (hw : Waking a h linked b w) : ∃ now, a.Shows b (.reading now) ∧ a.deadline w ≤ now := by
  induction hw with
  | @due a h _ now rest _ hd => exact ⟨now, Sched.shows_reading, hd⟩
  | spin _ _ _ ih =>
      obtain ⟨now, hs, hd⟩ := ih
      exact ⟨now, hs.after (List.prefix_append ..), hd⟩
  | @rotate a b h h' w l now rest _ _ hq _ ih =>
      have hread : (a.read now rest).queue .sleeping = h' :: l := hq
      have hf : SchedFrame a (((a.read now rest).pop .sleeping).push .sleeping h) :=
        (SchedFrame.read a now rest).trans ((SchedFrame.pop (.inr rfl)).trans
          (.push (.inr rfl) h))
      obtain ⟨r, hs, hd⟩ := ih
      exact ⟨r, hs.after hf.older, hf.deadline ▸ hd⟩

/-- The idle test leaves a sleeper asleep, or a reading has reached its deadline. -/
theorem Idle.sleeper {a b : Sched} (h : Idle a b) {t : Tid} (ht : t ∈ a.queue .sleeping) :
    t ∈ b.queue .sleeping ∨ ∃ now, a.Shows b (.reading now) ∧ a.deadline t ≤ now := by
  cases h with
  | busy _ => exact .inl ht
  | @wakes b h w l _ hs hw =>
      have hperm := hw.perm
      rw [Sched.queue_pop_self hs, ← hs] at hperm
      rcases List.mem_cons.mp (hperm.mem_iff.mpr ht) with rfl | ht'
      · have hpop : SchedFrame a (a.pop .sleeping) := .pop (.inr rfl)
        obtain ⟨now, hshow, hd⟩ := hw.due_reading
        refine .inr ⟨now, (hshow.after hpop.older).before (List.prefix_append ..), ?_⟩
        exact hpop.deadline ▸ hd
      · exact .inl (Sched.mem_push.mpr (.inl ht'))

/-- The choice of the next thread leaves a sleeper asleep, or a reading has reached its
deadline. -/
theorem Dispatch.sleeper {a b : Sched} (h : Dispatch a b) {t : Tid}
    (ht : t ∈ a.queue .sleeping) :
    t ∈ b.queue .sleeping ∨ ∃ now, a.Shows b (.reading now) ∧ a.deadline t ≤ now := by
  cases h with
  | @mk b x l hi _ =>
      have hpop : SchedFrame b (b.pop .runnable) := .pop (.inl rfl)
      rcases hi.sleeper ht with ht' | ⟨now, hs, hd⟩
      · refine .inl ?_
        rwa [Sched.queue_take_of_ne QueueId.noConfusion]
      · exact .inr ⟨now, hs.before hpop.older, hd⟩

/-- Filing the current thread takes nobody out of the sleeping set. -/
theorem Sched.mem_file {a : Sched} {exit : ℤ} {t : Tid} (ht : t ∈ a.queue .sleeping) :
    t ∈ (a.file exit).queue .sleeping := by
  rw [file]
  split
  · exact ht
  · split
    · exact mem_push.mpr (.inl ht)
    · exact mem_push.mpr (.inl ht)

/-- A step's end leaves a sleeper asleep, or a reading has reached its deadline. -/
theorem Settles.sleeper {flow : Flow} {b c : Sched} (h : Settles flow b c) {t : Tid}
    (ht : t ∈ b.queue .sleeping) :
    t ∈ c.queue .sleeping ∨ ∃ now, b.Shows c (.reading now) ∧ b.deadline t ≤ now := by
  cases h with
  | returns => exact .inl ht
  | @schedules _ _ after exit hd =>
      have hf : SchedFrame (b.goto after) ((b.goto after).file exit) := Sched.file_frame _ exit
      rcases hd.sleeper (Sched.mem_file ht) with ht' | ⟨now, hs, hdl⟩
      · exact .inl ht'
      · exact .inr ⟨now, hs.after hf.older, hf.deadline ▸ hdl⟩

/-! ### Steps -/

/-- The code of a step neither puts anybody into the sleeping set nor takes anybody out. -/
theorem Effect.sleeping_eq {a b : Sched} {act : Action} {flow : Flow}
    (h : Effect a act flow b) : b.queue .sleeping = a.queue .sleeping := by
  cases h with
  | create _ =>
      have hq : QueueId.sleeping ≠ .runnable := QueueId.noConfusion
      exact Function.update_of_ne hq (a.queue .runnable ++ [a.nthreads]) a.queue
  | exit _ | finish _ _ => exact Sched.queue_finish_of_ne QueueId.noConfusion
  | join _ _ | rejoin _ _ => exact congrFun Sched.queue_joinLoop .sleeping
  | lock _ _ => exact Sched.queue_lock_of_ne QueueId.noConfusion
  | unlock _ _ => exact Sched.queue_unlock_of_ne QueueId.noConfusion QueueId.noConfusion
  | condWait _ _ _ =>
      rw [Sched.queue_push_of_ne QueueId.noConfusion]
      exact Sched.queue_unlock_of_ne QueueId.noConfusion QueueId.noConfusion
  | signal _ _ => exact Sched.queue_wakeFront_of_ne QueueId.noConfusion QueueId.noConfusion
  | broadcast _ _ =>
      exact Sched.queue_wakeAll_of_ne QueueId.noConfusion QueueId.noConfusion
        QueueId.noConfusion
  | signaled _ _ => exact Sched.queue_relock_of_ne QueueId.noConfusion
  | yield _ | usleep _ _ | mutexCreate _ _ | condCreate _ | goOn _ | awake _ | handed _ => rfl

/-- The code of a step sets no deadline but that of the current thread or of a new one. -/
theorem Effect.deadline_eq {a b : Sched} {act : Action} {flow : Flow}
    (h : Effect a act flow b) {t : Tid} (ht : t < a.nthreads) (hc : t ≠ a.current) :
    b.deadline t = a.deadline t := by
  have hsame := h.sameThreads
  cases h with
  | create _ => exact Function.update_of_ne ht.ne ..
  | usleep _ _ => exact Function.update_of_ne hc ..
  | exit _ | finish _ _ =>
      rw [Sched.finish]
      split <;> rfl
  | join _ _ => exact congrFun (SameThreads.joinLoop _ _).deadline t
  | mutexCreate _ _ | condCreate _ => rfl
  | _ => exact congrFun (hsame id).deadline t

/-- **A step leaves a sleeper asleep** and its deadline as it is, or makes a reading that
has reached its deadline. -/
theorem Sched.Step.sleeper {D : Discipline} {a c : Sched} {act : Action}
    (h : Sched.Step D a act c) (hi : a.Inv) {t : Tid} (ht : t ∈ a.queue .sleeping) :
    (t ∈ c.queue .sleeping ∧ c.deadline t = a.deadline t) ∨
      ∃ now, a.Shows c (.reading now) ∧ a.deadline t ≤ now := by
  cases h with
  | @mk flow b _ _ he hs =>
      obtain ⟨hA, hne⟩ := hi.placed.queued .sleeping t ht
      have hdl : b.deadline t = a.deadline t := he.deadline_eq hA.1 hne
      rw [← he.sleeping_eq] at ht
      rw [← hdl]
      rcases hs.sleeper ht with ht' | ⟨now, hshow, hd⟩
      · exact .inl ⟨ht', congrFun hs.frame.deadline t⟩
      · exact .inr ⟨now, hshow.after he.later.trace, hd⟩

/-! ### Sleeps along a run -/

/-- The value fits in a C `long`. -/
def FitsLong (x : ℤ) : Prop := -2 ^ 63 ≤ x ∧ x < 2 ^ 63

/-- A value that fits is stored as it is. -/
theorem FitsLong.toLong_eq {x : ℤ} (h : FitsLong x) : toLong x = x := by
  obtain ⟨hl, hu⟩ := h
  exact Int.bmod_eq_of_le (by omega) (by omega)

/-- Every sleep began with a reading, its start time. If the end of the sleep fits in a
`long`, a later reading has reached it, or the thread is asleep and due then. -/
def Sched.Sleeps (a : Sched) : Prop :=
  ∀ p t u q, a.trace = p ++ .called t (.usleep u) :: q →
    ∃ start q', q = .reading start :: q' ∧ (FitsLong (start + u) →
      (∃ now, .reading now ∈ q' ∧ start + u ≤ now) ∨
        (t ∈ a.queue .sleeping ∧ a.deadline t = start + u))

/-- The step of a `qthread_usleep` reads its start time and files the thread. -/
theorem Sched.Step.begins {D : Discipline} {a c : Sched} {u : ℤ}
    (h : Sched.Step D a (.call (.usleep u)) c) {new : List Event}
    (hnew : c.trace = a.trace ++ a.observes (.call (.usleep u)) ++ new) :
    ∃ start, a.observes (.call (.usleep u)) =
        [.called a.current (.usleep u), .reading start] ∧
      (FitsLong (start + u) → (∃ now, .reading now ∈ new ∧ start + u ≤ now) ∨
        (a.current ∈ c.queue .sleeping ∧ c.deadline a.current = start + u)) := by
  cases h with
  | mk _ he hs =>
      have htr := he.trace_eq
      cases he with
      | @usleep _ start rest _ hclock =>
          refine ⟨start, by rw [observes, callEvents, hclock]; rfl, fun hfit => ?_⟩
          rw [← htr] at hnew
          cases hs with
          | schedules hd =>
              have hdl := congrFun hd.frame.deadline a.current
              have hend : toLong (start + u) = start + u := hfit.toLong_eq
              have hself : Function.update a.deadline a.current (toLong (start + u)) a.current =
                  start + u := by rw [Function.update_self, hend]
              rcases hd.sleeper (mem_push.mpr (.inr ⟨rfl, rfl⟩)) with ht | ⟨now, hshow, hle⟩
              · exact .inr ⟨ht, hdl.trans hself⟩
              · refine .inl ⟨now, ?_, hself.symm.trans_le hle⟩
                exact (hshow.after (List.prefix_append ..)).mem hnew

/-- Every step keeps account of the sleeps. -/
theorem Sched.Step.sleeps {D : Discipline} {a c : Sched} {act : Action}
    (h : Sched.Step D a act c) (hi : a.Inv) (hs : a.Sleeps) : c.Sleeps := by
  intro p t u q htr
  obtain ⟨new, hnew, hint⟩ := h.ran.trace_eq
  rw [hnew, List.append_assoc] at htr
  rcases split_of_append_eq htr with ⟨q₀, hold, rfl⟩ | ⟨p', -, hnow⟩
  · obtain ⟨start, q', rfl, hfit⟩ := hs p t u q₀ hold
    refine ⟨start, q' ++ (a.observes act ++ new), rfl, fun hf => ?_⟩
    rcases hfit hf with ⟨now, hm, hle⟩ | ⟨hm, hd⟩
    · exact .inl ⟨now, List.mem_append_left _ hm, hle⟩
    · rcases h.sleeper hi hm with ⟨hm', hd'⟩ | ⟨now, hshow, hle⟩
      · exact .inr ⟨hm', hd'.trans hd⟩
      · rw [List.append_assoc] at hnew
        exact .inl ⟨now, List.mem_append_right _ (hshow.mem hnew), hd ▸ hle⟩
  · rcases split_of_append_eq hnow with ⟨q₀, hobs, rfl⟩ | ⟨p'', -, hn⟩
    · have hmem : .called t (.usleep u) ∈ a.observes act := by rw [hobs]; simp
      obtain ⟨rfl, rfl⟩ := called_mem_observes.mp hmem
      obtain ⟨start, heq, hfit⟩ := h.begins hnew
      rw [heq] at hobs
      rcases p' with _ | ⟨x, p'⟩
      · obtain ⟨-, rfl⟩ := List.cons.inj hobs
        exact ⟨start, new, rfl, hfit⟩
      · have htail := (List.cons.inj hobs).2
        rcases p' with _ | ⟨y, p'⟩ <;> simp at htail
    · exact absurd (hint (.called t (.usleep u)) (by rw [hn]; simp)) id

/-- A sleep may return if a reading has reached its end. -/
def SleepOver (p : List Event) : Event → Prop
  | .slept t => ∀ p' u q, p = p' ++ .called t (.usleep u) :: q →
      ∃ start q', q = .reading start :: q' ∧
        (FitsLong (start + u) → ∃ now, .reading now ∈ q' ∧ start + u ≤ now)
  | _ => True

/-- A step returns from a sleep only when it is over. -/
theorem Sched.Step.sleepOver {D : Discipline} {a c : Sched} {act : Action}
    (h : Sched.Step D a act c) (hi : a.Inv) (hs : a.Sleeps) (hj : Justified SleepOver a.trace) :
    Justified SleepOver c.trace := by
  obtain ⟨new, hnew, hint⟩ := h.ran.trace_eq
  rw [hnew, List.append_assoc]
  refine hj.append fun p e q hsplit => ?_
  cases e with
  | slept t =>
      rcases split_of_append_eq hsplit with ⟨q₀, hobs, -⟩ | ⟨p', -, hn⟩
      · have hmem : .slept t ∈ a.observes act := by rw [hobs]; simp
        obtain ⟨rfl, rfl, hpt⟩ := explains_of_mem hmem
        have hone : a.observes .resume = [.slept a.current] := by rw [observes, hpt]; rfl
        rw [hone] at hobs
        rcases p with _ | ⟨x, p⟩
        · intro p' u q' htr
          rw [List.append_nil] at htr
          obtain ⟨start, q'', rfl, hfit⟩ := hs p' a.current u q' htr
          refine ⟨start, q'', rfl, fun hf => (hfit hf).resolve_right fun hm => ?_⟩
          exact (hi.placed.queued _ _ hm.1).2 rfl
        · simp at hobs
      · exact absurd (hint (.slept t) (by rw [hn]; simp)) id
  | _ => exact True.intro

/-- **Sleeps return when they are over**, in every run. -/
theorem Sched.Reachable.sleepOver {D : Discipline} {mem : Qthread} {clock : List ℤ} {a : Sched}
    (h : Sched.Reachable D mem clock a) (hD : ∀ t tr op, D t tr op → JoinOnce t tr op)
    (hd : mem.dead ≠ 1) (hj : mem.waiter = none) :
    a.Sleeps ∧ Justified SleepOver a.trace :=
  h.invariant (I := fun a => a.Sleeps ∧ Justified SleepOver a.trace) hD hd hj
    ⟨fun _ _ _ _ htr => by simp [Sched.initial] at htr, .nil _⟩
    fun _ _ _ hi _ hI hs => ⟨hs.sleeps hi hI.1, hs.sleepOver hi hI.1 hI.2⟩

/-- **No sleeper wakes early.** Every call `qthread_usleep(u)` first reads its start time;
and where the start time plus `u` fits in a `long`, the call has returned only after some
later reading had reached it. -/
theorem no_early_wake {mem : Qthread} {clock : List ℤ} {s : St} (hm : Zeroed mem)
    (hs : Reachable JoinOnce mem clock s) :
    (∀ p t u q, s.trace = p ++ .called t (.usleep u) :: q →
      ∃ start q', q = .reading start :: q') ∧
    ∀ p t u start q r,
      s.trace = p ++ .called t (.usleep u) :: .reading start :: (q ++ .slept t :: r) →
      FitsLong (start + u) → ∃ now, .reading now ∈ q ∧ start + u ≤ now := by
  obtain ⟨-, -, hr⟩ := hs.sim (fun _ _ _ hD => hD) hm.dead_ne_one hm.waiter
  obtain ⟨hsl, hov⟩ := hr.sleepOver (fun _ _ _ hD => hD) hm.dead_ne_one hm.waiter
  refine ⟨fun p t u q htr => ?_, fun p t u start q r htr hfit => ?_⟩
  · obtain ⟨start, q', hq, -⟩ := hsl p t u q htr
    exact ⟨start, q', hq⟩
  · have hsplit : s.trace =
        (p ++ .called t (.usleep u) :: .reading start :: q) ++ .slept t :: r := by
      rw [htr]
      simp
    obtain ⟨start', q', hq, hover⟩ := hov _ _ _ hsplit p u (.reading start :: q) rfl
    obtain ⟨hstart, rfl⟩ := List.cons.inj hq
    obtain rfl := Event.reading.inj hstart
    exact hover hfit

/-- The main thread sleeps for ten microseconds, alone. -/
theorem no_early_wake_alone : ∃ s p q, Reachable JoinOnce zeroMem [5, 8, 20] s ∧
    s.trace = p ++ .called 0 (.usleep 10) :: .reading 5 :: (q ++ [.slept 0]) ∧
    ∃ now, .reading now ∈ q ∧ 5 + 10 ≤ now := by
  let acts : List Action := [.call (.usleep 10), .resume]
  have hs : Reachable JoinOnce zeroMem [5, 8, 20]
      (acts.foldl St.after (qthreadInit zeroMem [5, 8, 20])) :=
    Reachable.actions .refl
      ⟨True.intro, by decide +kernel, True.intro, by decide +kernel, True.intro⟩
  have htr : (acts.foldl St.after (qthreadInit zeroMem [5, 8, 20])).trace =
      [] ++ .called 0 (.usleep 10) :: .reading 5 :: ([.pushed .sleeping (some 0),
        .popped .sleeping (some 0), .reading 8, .reading 20, .pushed .runnable (some 0),
        .popped .runnable (some 0)] ++ [.slept 0]) := by
    decide +kernel
  exact ⟨_, [], _, hs, htr, (no_early_wake zeroed_zeroMem hs).2 [] 0 10 5 _ [] htr
    ⟨by omega, by omega⟩⟩

end SystemsProjects.Qthreads
