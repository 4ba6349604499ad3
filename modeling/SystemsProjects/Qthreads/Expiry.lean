import SystemsProjects.Qthreads.Sleep

/-!
# Sleepers Whose Time Is Up

`schedule` looks at the sleeping set only when nobody is runnable, and then
`wake_sleeping_threads` makes the first sleeper it finds due runnable, and nobody else. So
a call of `schedule` leaves no sleeper behind whose time is up only where there was none,
or where there was one, nobody was runnable, and no reading made on the way to it had
reached another's deadline first.

## Main definitions

* `FoundFirst`: one sleeper is due, and the search finds it first.
* `St.NoneExpired`: no sleeper's time is up.

## Main results

* `Waking.search`: the wake loop takes the first sleeper it finds due.
* `expired_awake_iff`: when a call of `schedule` leaves no such sleeper behind.
-/

namespace SystemsProjects.Qthreads

/-! ### The search -/

section Search

variable {deadline : Tid → ℤ} {readings : List ℤ} {now : ℤ} {sleepers : List Tid} {w : Tid}

/-- A search that asks the sleepers in their order, one reading each, and stops with `w`,
whose deadline the last reading has reached. It may go on behind the last sleeper. -/
def Finds (deadline : Tid → ℤ) (readings : List ℤ) (sleepers : List Tid) (w : Tid) : Prop :=
  ∃ (k : ℕ) (r : ℤ), readings[k]? = some r ∧ deadline w ≤ r ∧
    ∀ (i : ℕ) (x : Tid), sleepers[i]? = some x →
      (i < k → ∃ r', readings[i]? = some r' ∧ r' < deadline x) ∧ (i = k → x = w)

/-- One sleeper of the set is due, and no reading made on the way to it has reached the
deadline of the sleeper it was made for. -/
def FoundFirst (deadline : Tid → ℤ) (readings : List ℤ) (now : ℤ) (sleepers : List Tid) :
    Prop :=
  ∃ (j : ℕ) (t : Tid), sleepers[j]? = some t ∧ deadline t ≤ now ∧
    (∀ x ∈ sleepers, x ≠ t → now < deadline x) ∧
    ∀ (i : ℕ) (x : Tid) (r : ℤ),
      i < j → sleepers[i]? = some x → readings[i]? = some r → r < deadline x

/-- Where the sleeper found was the only one that was due, it was found first. -/
theorem Finds.foundFirst (h : Finds deadline readings sleepers w) (hn : sleepers.Nodup)
    (hw : w ∈ sleepers) (hd : deadline w ≤ now)
    (hothers : ∀ x ∈ sleepers, x ≠ w → now < deadline x) :
    FoundFirst deadline readings now sleepers := by
  obtain ⟨k, r, -, -, hasked⟩ := h
  obtain ⟨j, hj⟩ := List.mem_iff_getElem?.mp hw
  have hjk : j ≤ k := by
    by_contra hlt
    have hjl : j < sleepers.length := (List.getElem?_eq_some_iff.mp hj).1
    have hkl : k < sleepers.length := by omega
    have hy := List.getElem?_eq_getElem hkl
    have hkw := (hasked k _ hy).2 rfl
    rw [hkw, ← hj] at hy
    have := (List.getElem?_inj hkl hn).mp hy
    omega
  refine ⟨j, w, hj, hd, hothers, fun i x r' hi hx hr' => ?_⟩
  obtain ⟨r'', hr'', hlt⟩ := (hasked i x hx).1 (by omega)
  rw [hr'] at hr''
  obtain rfl := Option.some.inj hr''
  exact hlt

/-- The sleeper that is to be found first is found. -/
theorem Finds.eq_of_first (h : Finds deadline readings sleepers w)
    (hnow : ∀ r ∈ readings, now ≤ r) {j : ℕ} {t : Tid} (hj : sleepers[j]? = some t)
    (hd : deadline t ≤ now)
    (hfirst : ∀ (i : ℕ) (x : Tid) (r : ℤ), i < j → sleepers[i]? = some x → readings[i]? = some r →
      r < deadline x) : t = w := by
  obtain ⟨k, r, hk, hdue, hasked⟩ := h
  rcases lt_trichotomy j k with hlt | rfl | hgt
  · -- Asked earlier, it would have been found due.
    obtain ⟨r', hr', hlt'⟩ := (hasked j t hj).1 hlt
    have := hnow r' (List.mem_of_getElem? hr')
    omega
  · exact (hasked j t hj).2 rfl
  · have hjl : j < sleepers.length := (List.getElem?_eq_some_iff.mp hj).1
    have hkl : k < sleepers.length := by omega
    have hy := List.getElem?_eq_getElem hkl
    have hkw := (hasked k _ hy).2 rfl
    have := hfirst k _ r hgt hy hk
    rw [hkw] at this
    omega

end Search

/-- **The wake loop takes the first sleeper it finds due.** It asks the sleepers in the
order of the set, the head first, one reading each, until the `k`-th reading is late
enough. Where the head's link is not set, only the head is known to be asked. -/
theorem Waking.search {a b : Sched} {h w : Tid} {linked : Bool} (hw : Waking a h linked b w) :
    ∃ (k : ℕ) (r : ℤ), a.clock[k]? = some r ∧ a.deadline w ≤ r ∧
      ∀ (i : ℕ) (x : Tid), (i = 0 ∨ linked = true) → (h :: a.queue .sleeping)[i]? = some x →
        (i < k → ∃ r', a.clock[i]? = some r' ∧ r' < a.deadline x) ∧ (i = k → x = w) := by
  induction hw with
  | @due a h linked now rest hc hd =>
      refine ⟨0, now, by simp [hc], hd, fun i x _ hx => ⟨fun hi => by omega, ?_⟩⟩
      rintro rfl
      simpa using hx.symm
  | @spin a b h w now rest hc hlt _ ih =>
      obtain ⟨k, r, hr, hd, -⟩ := ih
      have hr' : rest[k]? = some r := hr
      refine ⟨k + 1, r, by simpa [hc] using hr', hd, fun i x hi hx => ?_⟩
      obtain rfl : i = 0 := by simpa using hi
      obtain rfl : h = x := by simpa using hx
      exact ⟨fun _ => ⟨now, by simp [hc], hlt⟩, by omega⟩
  | @rotate a b h h' w l now rest hc hlt hq _ ih =>
      have hread : (a.read now rest).queue .sleeping = h' :: l := hq
      rw [Sched.queue_push_self, Sched.queue_pop_self hread, Sched.pop_of_cons hread] at ih
      obtain ⟨k, r, hr, hd, hasked⟩ := ih
      have hr' : rest[k]? = some r := hr
      refine ⟨k + 1, r, by simpa [hc] using hr', hd, fun i x _ hx => ?_⟩
      rcases i with _ | i
      · obtain rfl : h = x := by simpa using hx
        exact ⟨fun _ => ⟨now, by simp [hc], hlt⟩, by omega⟩
      · rw [hq, List.getElem?_cons_succ] at hx
        have hi : i = 0 ∨ (!l.isEmpty) = true := by
          rcases i with _ | i
          · exact .inl rfl
          · rcases l with _ | ⟨y, l⟩
            · simp at hx
            · exact .inr rfl
        have hx' : (h' :: (l ++ [h]))[i]? = some x := by
          rw [← List.cons_append, List.getElem?_append_left]
          · exact hx
          · exact (List.getElem?_eq_some_iff.mp hx).1
        obtain ⟨hbefore, hat⟩ := hasked i x hi hx'
        refine ⟨fun hik => ?_, fun hik => hat (by omega)⟩
        obtain ⟨r', hr₁, hlt'⟩ := hbefore (by omega)
        have hr₂ : rest[i]? = some r' := hr₁
        exact ⟨r', by simpa [hc] using hr₂, hlt'⟩

/-- From a set with a head removed as `wake_sleeping_threads` removes it, the search asks
every sleeper. -/
theorem Waking.finds {a b : Sched} {h w : Tid} {l : List Tid} (hs : a.queue .sleeping = h :: l)
    (hw : Waking (a.pop .sleeping) h (!l.isEmpty) b w) :
    Finds a.deadline a.clock (a.queue .sleeping) w := by
  obtain ⟨k, r, hk, hd, hasked⟩ := hw.search
  rw [Sched.queue_pop_self hs, ← hs] at hasked
  rw [Sched.pop_of_cons hs] at hk hd hasked
  refine ⟨k, r, hk, hd, fun i x hx => hasked i x ?_ hx⟩
  rcases i with _ | i
  · exact .inl rfl
  · rcases l with _ | ⟨y, l⟩
    · simp [hs] at hx
    · exact .inr rfl

/-- The idle test leaves nobody behind who is due if nobody was, or if the only one was
found first. -/
theorem Idle.noneExpired_iff {a b : Sched} (h : Idle a b) (hn : (a.queue .sleeping).Nodup)
    {now : ℤ} (hnow : ∀ r ∈ a.clock, now ≤ r) :
    (∀ t ∈ b.queue .sleeping, now < a.deadline t) ↔
      (∀ t ∈ a.queue .sleeping, now < a.deadline t) ∨
        (a.queue .runnable = [] ∧ FoundFirst a.deadline a.clock now (a.queue .sleeping)) := by
  cases h with
  | busy hb =>
      refine ⟨.inl, fun hor => hor.resolve_right ?_⟩
      rintro ⟨hr, j, t, hj, -⟩
      rw [hb.resolve_left fun hne => hne hr] at hj
      simp at hj
  | @wakes b h w l hr hs hw =>
      have hfinds := hw.finds hs
      have hperm := hw.perm
      rw [Sched.queue_pop_self hs, ← hs] at hperm
      have hw' : w ∈ a.queue .sleeping := hperm.mem_iff.mp List.mem_cons_self
      have hnot : w ∉ b.queue .sleeping := (List.nodup_cons.mp (hperm.nodup_iff.mpr hn)).1
      have hmem : ∀ x, x ∈ b.queue .sleeping ↔ x ∈ a.queue .sleeping ∧ x ≠ w := fun x => by
        rw [← hperm.mem_iff, List.mem_cons]
        constructor
        · exact fun hx => ⟨.inr hx, fun hxw => hnot (hxw ▸ hx)⟩
        · exact fun hx => hx.1.resolve_left hx.2
      rw [Sched.queue_push_of_ne QueueId.noConfusion]
      constructor
      · intro hrest
        have hothers : ∀ x ∈ a.queue .sleeping, x ≠ w → now < a.deadline x :=
          fun x hx hne => hrest x ((hmem x).mpr ⟨hx, hne⟩)
        rcases lt_or_ge now (a.deadline w) with hlt | hge
        · refine .inl fun x hx => ?_
          rcases eq_or_ne x w with rfl | hne
          · exact hlt
          · exact hothers x hx hne
        · exact .inr ⟨hr, hfinds.foundFirst hn hw' hge hothers⟩
      · rintro (hall | ⟨-, j, t, hj, hd, hothers, hfirst⟩) x hx
        · exact hall x ((hmem x).mp hx).1
        · obtain rfl := hfinds.eq_of_first hnow hj hd hfirst
          exact hothers x ((hmem x).mp hx).1 ((hmem x).mp hx).2

/-- The choice of the next thread leaves nobody behind who is due if nobody was, or if the
only one was found first. -/
theorem Dispatch.noneExpired_iff {a b : Sched} (h : Dispatch a b)
    (hn : (a.queue .sleeping).Nodup) {now : ℤ} (hnow : ∀ r ∈ a.clock, now ≤ r) :
    (∀ t ∈ b.queue .sleeping, now < b.deadline t) ↔
      (∀ t ∈ a.queue .sleeping, now < a.deadline t) ∨
        (a.queue .runnable = [] ∧ FoundFirst a.deadline a.clock now (a.queue .sleeping)) := by
  rw [h.frame.deadline]
  cases h with
  | mk hi _ =>
      rw [Sched.queue_take_of_ne QueueId.noConfusion]
      exact hi.noneExpired_iff hn hnow

/-! ### The call of `schedule` -/

section Schedule

variable {mem : Qthread} {clock : List ℤ} {s s₁ s' : St} {act : Action} {after : Point}
  {exit now : ℤ}

/-- Nobody in the sleeping set is due. -/
def St.NoneExpired (s : St) (now : ℤ) : Prop :=
  ∀ t ∈ contents s .sleeping, now < (s.thread t).timingInformation

/-- The sleepers `schedule` finds: those in the set, and behind them its caller if that goes
to sleep. -/
def St.sleepers (s : St) (exit : ℤ) : List Tid :=
  contents s .sleeping ++ if exit = 3 then [s.running.stack] else []

/-- The sleeping set as `schedule` finds it. -/
theorem Sched.sleeping_file {a : Sched} :
    (a.file exit).queue .sleeping =
      a.queue .sleeping ++ if exit = 3 then [a.current] else [] := by
  rw [file]
  split
  case isTrue h =>
    have h3 : exit ≠ 3 := by omega
    simp [h3]
  case isFalse h =>
    split
    case isTrue h3 => exact queue_push_self
    case isFalse h3 =>
      rw [queue_push_of_ne QueueId.noConfusion, List.append_nil]

/-- Nobody is runnable when `schedule` looks, if nobody was and the caller does not
yield. -/
theorem Sched.runnable_file {a : Sched} :
    (a.file exit).queue .runnable = [] ↔
      a.queue .runnable = [] ∧ (exit = 1 ∨ exit = 2 ∨ exit = 3) := by
  rw [file]
  split
  case isTrue h =>
    exact ⟨fun hq => ⟨hq, by omega⟩, fun hq => hq.1⟩
  case isFalse h =>
    split
    case isTrue h3 => simp [queue_push_of_ne, h3]
    case isFalse h3 =>
      rw [queue_push_self]
      simp only [List.append_eq_nil_iff, List.cons_ne_nil, and_false, false_iff]
      omega

/-- The clock as `schedule` finds it. -/
theorem Sched.clock_file {a : Sched} : (a.file exit).clock = a.clock := by
  rw [file]
  split
  · rfl
  · split <;> rfl

/-- **Where a call of `schedule` leaves no expired sleeper behind.** It is made at a time
`now` that no reading from then on is below. It leaves nobody asleep whose deadline is at
most `now` if and only if nobody was due, or nobody was runnable and the caller did not
yield, one sleeper only was due, and the readings made on the way to it were below the
deadlines of those before it. -/
theorem expired_awake_iff (hm : Zeroed mem) (hs : Reachable JoinOnce mem clock s)
    (hA : Allowed JoinOnce s act) (hp : perform act s = .ok (.schedules after exit) s₁)
    (hstep : step act s = .ok () s') (hnow : ∀ r ∈ s₁.clock, now ≤ r) :
    s'.NoneExpired now ↔
      (∀ t ∈ s₁.sleepers exit, now < (s₁.thread t).timingInformation) ∨
        (contents s₁ .runnable = [] ∧ (exit = 1 ∨ exit = 2 ∨ exit = 3) ∧
          FoundFirst (fun t => (s₁.thread t).timingInformation) s₁.clock now
            (s₁.sleepers exit)) := by
  have h := hs.good (fun _ _ _ hD => hD) hm
  have hA' : (view s).Allowed JoinOnce act := by
    cases act with
    | call op => exact hA
    | resume => exact True.intro
  obtain ⟨hw₁, he⟩ := (perform_spec h.wf h.inv.placed act).ok hp
  obtain ⟨s₂, hrun₂, hw₂, hv₂⟩ := goto_spec hw₁ after
  have hpl : Placed ∅ ((view s₂).file exit) := hv₂ ▸ he.leaves h.inv hA'
  rw [step, Stateful.run_bind_ok hp] at hstep
  change (goto after >>= fun _ => schedule exit) s₁ = _ at hstep
  rw [Stateful.run_bind_ok hrun₂] at hstep
  obtain ⟨hw', hd⟩ := (schedule_spec hw₂ hpl).ok hstep
  rw [hv₂] at hd hpl
  have hiff := hd.noneExpired_iff (hpl.nodup .sleeping) (by rw [Sched.clock_file]; exact hnow)
  have hdl : ((view s₁).goto after |>.file exit).deadline = (view s₁).deadline :=
    (Sched.file_frame _ exit).deadline
  rw [Sched.runnable_file, Sched.sleeping_file, Sched.clock_file, hdl, and_assoc] at hiff
  exact hiff

/-- The main thread sleeps alone, till 10, and is found at 12. -/
theorem expired_awake_iff_alone : ∃ s', step (.call (.usleep 10)) (qthreadInit zeroMem [0, 12]) =
    .ok () s' ∧ s'.NoneExpired 12 := by
  let s := qthreadInit zeroMem [0, 12]
  have hstep : step (.call (.usleep 10)) s = .ok () (s.after (.call (.usleep 10))) :=
    St.step_after (by decide +kernel)
  let s₁ : St := { s with
    thread := Function.update s.thread 0 { zeroMem with timingInformation := 10 }
    clock := [12]
    trace := [.called 0 (.usleep 10), .reading 0] }
  have hp : perform (.call (.usleep 10)) s = .ok (.schedules .usleep 3) s₁ := rfl
  have hs : Reachable JoinOnce zeroMem [0, 12] s := .refl
  have hA : Allowed JoinOnce s (.call (.usleep 10)) := True.intro
  have hnow : ∀ r ∈ s₁.clock, 12 ≤ r := by simp [s₁]
  have hsl : s₁.sleepers 3 = [0] := rfl
  refine ⟨_, hstep, (expired_awake_iff zeroed_zeroMem hs hA hp hstep hnow).mpr
    (.inr ⟨rfl, .inr (.inr rfl), 0, 0, rfl, ?_, ?_, fun i _ _ hi => by omega⟩)⟩
  · simp [s₁]
  · simp [hsl]

/-- Main yields at 100 and leaves a thread asleep that was due at 10. -/
theorem not_expired_awake : ¬∀ (mem : Qthread) (clock : List ℤ) (s s₁ s' : St) (act : Action)
    (after : Point) (exit now : ℤ), Zeroed mem → Reachable JoinOnce mem clock s →
    Allowed JoinOnce s act → perform act s = .ok (.schedules after exit) s₁ →
    step act s = .ok () s' → (∀ r ∈ s₁.clock, now ≤ r) → s'.NoneExpired now := by
  intro hall
  let acts : List Action := [.call (.create true (some zeroMem)), .call .yield, .resume,
    .call (.usleep 10), .resume]
  let s := acts.foldl St.after (qthreadInit zeroMem [0, 100])
  have hs : Reachable JoinOnce zeroMem [0, 100] s :=
    Reachable.actions .refl ⟨True.intro, by decide +kernel, True.intro,
      by decide +kernel, True.intro, by decide +kernel, True.intro, by decide +kernel,
      True.intro, by decide +kernel, True.intro⟩
  have hu : s.running.point = .user := by decide +kernel
  have hclock : s.clock = [100] := by decide +kernel
  have hstep : step (.call .yield) s = .ok () (s.after (.call .yield)) :=
    St.step_after (by decide +kernel)
  have hnone := hall zeroMem [0, 100] s _ _ (.call .yield) .yield 0 100 zeroed_zeroMem hs
    True.intro (perform_call hu) hstep fun r hr => by
      rw [show _ = s.clock from rfl, hclock, List.mem_singleton] at hr
      exact hr.ge
  have hasleep : 1 ∈ contents (s.after (.call .yield)) .sleeping := by decide +kernel
  have hdue : ((s.after (.call .yield)).thread 1).timingInformation = 10 := by decide +kernel
  have := hnone 1 hasleep
  omega

end Schedule

end SystemsProjects.Qthreads
