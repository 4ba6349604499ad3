import Mathlib.Data.List.Rotate
import Mathlib.Order.Bounds.Basic
import SystemsProjects.Qthreads.Sleep

/-!
# Whom the Wake Loop Asks

Each turn of the loop of `wake_sleeping_threads` reads the clock for one sleeper. The loop
is meant to go round the sleeping set, and then every sleeper is asked within as many turns
as there are sleepers. It decides from the link of the sleeper it holds whether there is
anyone else to ask. That link was set when the sleeper was removed, so it is `NULL` for the
one that was at the end of the set: with two sleepers the second is held from the second
turn on, and the first is not asked again.

## Main definitions

* `asked`: the sleeper a turn of the loop asks.
* `St.WakesWithin`: the loop has woken one sleeper, with a bounded number of readings.

## Main results

* `asked_within`: in a set of any size but two, everyone is asked in turn.
* `wakes_iff`: when `wake_sleeping_threads` does not oversleep.
-/

namespace SystemsProjects.Qthreads

/-- The sleeper the loop asks at a turn: it holds `h`, of which `linked` tells whether its
link is set, and the sleeping set is as given. -/
def asked (h : Tid) (linked : Bool) : List Tid → ℕ → Tid
  | _, 0 => h
  | [], _ + 1 => h
  | h' :: l, n + 1 =>
      if linked then asked h' (!l.isEmpty) (l ++ [h]) n else asked h false (h' :: l) n

section Turns

variable {h h' : Tid} {l : List Tid} {n : ℕ}

/-- At its first turn the loop asks the sleeper it holds. -/
@[simp] theorem asked_zero {linked : Bool} : asked h linked l 0 = h := by
  cases l <;> rfl

/-- A sleeper whose link is not set is held for ever. -/
@[simp] theorem asked_unlinked : asked h false l n = h := by
  induction n with
  | zero => exact asked_zero
  | succ n ih =>
      cases l with
      | nil => rfl
      | cons h' l => exact ih

/-- Otherwise the set is rotated. -/
@[simp] theorem asked_linked :
    asked h true (h' :: l) (n + 1) = asked h' (!l.isEmpty) (l ++ [h]) n := rfl

/-- Among three or more sleepers, each is linked to the next when it is removed. -/
theorem asked_rotate (hl : l ≠ []) :
    ((h :: h' :: l).rotate n)[0]? = some (asked h true (h' :: l) n) := by
  induction n generalizing h h' l with
  | zero => simp
  | succ n ih =>
      obtain ⟨x, l, rfl⟩ := List.exists_cons_of_ne_nil hl
      rw [List.rotate_cons_succ, asked_linked]
      exact ih (List.append_ne_nil_of_right_ne_nil l (List.cons_ne_nil h []))

/-- Any turns in a row, as many as a list has entries, bring each entry to the front. -/
theorem exists_rotate {α : Type} {l : List α} {x : α} (hx : x ∈ l) (f : ℕ) :
    ∃ i, f ≤ i ∧ i < f + l.length ∧ (l.rotate i)[0]? = some x := by
  induction f with
  | zero =>
      obtain ⟨i, hi, rfl⟩ := List.mem_iff_getElem.mp hx
      refine ⟨i, i.zero_le, by omega, ?_⟩
      rw [List.getElem?_rotate (by omega), Nat.zero_add, Nat.mod_eq_of_lt hi,
        List.getElem?_eq_getElem hi]
  | succ f ih =>
      obtain ⟨i, hfi, hi, hix⟩ := ih
      rcases hfi.lt_or_eq with hlt | rfl
      · exact ⟨i, hlt, by omega, hix⟩
      · -- The entry comes back after a whole round.
        refine ⟨f + l.length, by have := List.length_pos_of_mem hx; omega, by omega, ?_⟩
        rw [← List.rotate_mod, Nat.add_mod_right, List.rotate_mod]
        exact hix

/-- **Everyone is asked in turn**, unless there are two sleepers. -/
theorem asked_within (h2 : l.length ≠ 1) {t : Tid} (ht : t ∈ h :: l) (f : ℕ) :
    ∃ i, f ≤ i ∧ i < f + (l.length + 1) ∧ asked h (!l.isEmpty) l i = t := by
  rcases l with _ | ⟨h', l⟩
  · obtain rfl := List.mem_singleton.mp ht
    exact ⟨f, le_rfl, Nat.lt_succ_self f, asked_unlinked⟩
  · have hl : l ≠ [] := by
      rintro rfl
      exact h2 rfl
    obtain ⟨i, hfi, hi, hix⟩ := exists_rotate ht f
    rw [asked_rotate hl] at hix
    exact ⟨i, hfi, hi, Option.some.inj hix⟩

/-- Of two sleepers, the second is asked at every turn but the first. -/
theorem asked_pair : asked h true [h'] (n + 1) = h' := by
  rw [asked_linked]
  exact asked_unlinked

end Turns

/-! ### The loop -/

/-- The first turns of the loop have asked sleepers that were not due. -/
def Sched.InVain (a : Sched) (h : Tid) (linked : Bool) (k : ℕ) : Prop :=
  ∀ (i : ℕ) (now : ℤ), i < k → a.clock[i]? = some now →
    now < a.deadline (asked h linked (a.queue .sleeping) i)

section InVain

variable {a b : Sched} {h h' w : Tid} {l : List Tid} {linked : Bool} {now : ℤ} {rest : List ℤ}
  {k : ℕ}

/-- The state after a turn that rotates the set. -/
theorem Sched.clock_rotate (hq : a.queue .sleeping = h' :: l) :
    (((a.read now rest).pop .sleeping).push .sleeping h).clock = rest := by
  rw [Sched.pop_of_cons (a := a.read now rest) hq]
  rfl

/-- A turn of the loop in vain changes no deadline. -/
theorem Sched.deadline_rotate (hq : a.queue .sleeping = h' :: l) :
    (((a.read now rest).pop .sleeping).push .sleeping h).deadline = a.deadline := by
  rw [Sched.pop_of_cons (a := a.read now rest) hq]
  rfl

/-- It takes the next sleeper from the front and puts the one it held at the end. -/
theorem Sched.sleeping_rotate (hq : a.queue .sleeping = h' :: l) :
    (((a.read now rest).pop .sleeping).push .sleeping h).queue .sleeping = l ++ [h] := by
  rw [Sched.queue_push_self, Sched.queue_pop_self (a := a.read now rest) hq]

/-- Before the first turn nobody has been asked in vain. -/
theorem Sched.inVain_zero : a.InVain h linked 0 :=
  fun i _ hi _ => absurd hi i.not_lt_zero

/-- A turn in vain that keeps the sleeper. -/
theorem Sched.InVain.spin (hc : a.clock = now :: rest) (hlt : now < a.deadline h)
    (ih : (a.read now rest).InVain h false k) : a.InVain h false (k + 1) := by
  intro i r hi hr
  rw [asked_unlinked]
  rw [hc] at hr
  rcases i with _ | i
  · obtain rfl := Option.some.inj hr
    exact hlt
  · have := ih i r (Nat.lt_of_succ_lt_succ hi) hr
    rwa [asked_unlinked] at this

/-- A turn in vain that rotates the set. -/
theorem Sched.InVain.rotate (hc : a.clock = now :: rest) (hlt : now < a.deadline h)
    (hq : a.queue .sleeping = h' :: l)
    (ih : (((a.read now rest).pop .sleeping).push .sleeping h).InVain h' (!l.isEmpty) k) :
    a.InVain h true (k + 1) := by
  intro i r hi hr
  rw [hc] at hr
  rcases i with _ | i
  · obtain rfl := Option.some.inj hr
    rw [asked_zero]
    exact hlt
  · have := ih i r (Nat.lt_of_succ_lt_succ hi) (by rw [clock_rotate hq]; exact hr)
    rw [deadline_rotate hq, sleeping_rotate hq] at this
    rwa [hq, asked_linked]

/-- **Where the wake loop ends**, the last turn has asked the sleeper that is woken, and
the turns before it were in vain. -/
theorem Waking.turns (hw : Waking a h linked b w) : ∃ k now,
    a.clock[k]? = some now ∧ b.clock = a.clock.drop (k + 1) ∧ a.deadline w ≤ now ∧
      asked h linked (a.queue .sleeping) k = w ∧ a.InVain h linked k := by
  induction hw with
  | @due a h linked now rest hc hd =>
      refine ⟨0, now, ?_, ?_, hd, asked_zero, Sched.inVain_zero⟩
      · rw [hc]
        rfl
      · rw [hc]
        rfl
  | @spin a b h w now rest hc hlt _ ih =>
      obtain ⟨k, r, hr, hdrop, hd, hat, hvain⟩ := ih
      refine ⟨k + 1, r, ?_, ?_, hd, ?_, hvain.spin hc hlt⟩
      · rw [hc]
        exact hr
      · rw [hc]
        exact hdrop
      · rw [asked_unlinked] at hat ⊢
        exact hat
  | @rotate a b h h' w l now rest hc hlt hq _ ih =>
      obtain ⟨k, r, hr, hdrop, hd, hat, hvain⟩ := ih
      refine ⟨k + 1, r, ?_, ?_, ?_, ?_, hvain.rotate hc hlt hq⟩
      · rw [Sched.clock_rotate hq] at hr
        rw [hc]
        exact hr
      · rw [Sched.clock_rotate hq] at hdrop
        rw [hc]
        exact hdrop
      · rwa [Sched.deadline_rotate hq] at hd
      · rw [Sched.sleeping_rotate hq] at hat
        rw [hq]
        exact hat

/-- **Where the clock ends first**, all turns were in vain. -/
theorem Late.turns (hl : Late a h linked) (k : ℕ) : a.InVain h linked k := by
  induction hl generalizing k with
  | @out a h linked hc =>
      intro i r _ hr
      rw [hc] at hr
      cases hr
  | spin hc hlt _ ih =>
      rcases k with _ | k
      · exact Sched.inVain_zero
      · exact (ih k).spin hc hlt
  | rotate hc hlt hq _ ih =>
      rcases k with _ | k
      · exact Sched.inVain_zero
      · exact (ih k).rotate hc hlt hq

end InVain

section Wakes

variable {s : St} {h : Tid} {l : List Tid} {limit : ℕ}

/-- The call returns after at most `limit` readings. It has appended one sleeper to the
active list, whose deadline the last reading has reached, and the sleeping set is left with
the others, each once. -/
def St.WakesWithin (s : St) (limit : ℕ) : Prop :=
  ∃ (s' : St) (w : Tid) (before : List ℤ) (now : ℤ), wakeSleepingThreads s = .ok 1 s' ∧
    s.clock = before ++ now :: s'.clock ∧ before.length + 1 ≤ limit ∧
    (s.thread w).timingInformation ≤ now ∧
    contents s' .runnable = contents s .runnable ++ [w] ∧
    (w :: contents s' .sleeping).Perm (contents s .sleeping) ∧
    (contents s' .sleeping).Nodup

/-- **`wake_sleeping_threads` ends in time** if and only if one of the turns there is time
for asks a sleeper that is due. -/
theorem wakes_iff_asked (hw : WF s) (hs : contents s .sleeping = h :: l) :
    s.WakesWithin limit ↔ ∃ (k : ℕ) (now : ℤ), k < limit ∧ s.clock[k]? = some now ∧
      (s.thread (asked h (!l.isEmpty) l k)).timingInformation ≤ now := by
  have hspec := wakeSleepingThreads_spec hw hs
  have hpop : (view s).pop .sleeping = _ := Sched.pop_of_cons hs
  have hclock : ((view s).pop .sleeping).clock = s.clock := by
    rw [hpop]
    rfl
  have hdl : ((view s).pop .sleeping).deadline = fun t => (s.thread t).timingInformation := by
    rw [hpop]
    rfl
  have hq : ((view s).pop .sleeping).queue .sleeping = l := Sched.queue_pop_self hs
  constructor
  · rintro ⟨s', w, before, now, hrun, hsplit, hlen, -⟩
    obtain ⟨-, -, b, w', hwk, hv⟩ := hspec.ok hrun
    obtain ⟨k, now', hk, hdrop, hd, hat, -⟩ := hwk.turns
    rw [hq] at hat
    rw [hclock] at hk hdrop
    rw [hdl, ← hat] at hd
    refine ⟨k, now', ?_, hk, hd⟩
    have hkl : k < s.clock.length := (List.getElem?_eq_some_iff.mp hk).1
    have hc' : s'.clock = s.clock.drop (k + 1) := (congrArg Sched.clock hv).trans hdrop
    have hlen' := congrArg List.length hsplit
    rw [List.length_append, List.length_cons, hc', List.length_drop] at hlen'
    omega
  · rintro ⟨k, now, hk, hnow, hd⟩
    have hdue : ¬((view s).pop .sleeping).InVain h (!l.isEmpty) (k + 1) := fun hvain => by
      have := hvain k now k.lt_succ_self (hclock ▸ hnow)
      rw [hdl, hq] at this
      exact absurd this (not_lt.mpr hd)
    cases hrun : wakeSleepingThreads s with
    | error e s' => exact absurd ((hspec.error hrun).2.turns (k + 1)) hdue
    | ok n s' =>
        obtain ⟨rfl, -, b, w, hwk, hv⟩ := hspec.ok hrun
        obtain ⟨k', now', hk', hdrop, hd', -, hvain⟩ := hwk.turns
        obtain ⟨hf, -, hrunnable⟩ := hwk.frame
        have hperm := hwk.perm
        rw [hclock] at hk' hdrop
        rw [hdl] at hd'
        rw [hq, ← hs] at hperm
        have hle : k' ≤ k := by
          by_contra hlt
          exact hdue fun i r hi hr => hvain i r (by omega) hr
        have hc' : s'.clock = s.clock.drop (k' + 1) := (congrArg Sched.clock hv).trans hdrop
        obtain ⟨hkl, hget⟩ := List.getElem?_eq_some_iff.mp hk'
        have hqueue : ∀ q, contents s' q = (b.push .runnable w).queue q :=
          fun q => congrFun (congrArg Sched.queue hv) q
        have hsleep : contents s' .sleeping = b.queue .sleeping :=
          (hqueue .sleeping).trans (Sched.queue_push_of_ne QueueId.noConfusion)
        refine ⟨s', w, s.clock.take k', now', hrun, ?_, ?_, hd', ?_, hsleep ▸ hperm, ?_⟩
        · rw [hc', ← hget, List.cons_getElem_drop_succ, List.take_append_drop]
        · rw [List.length_take]
          omega
        · rw [hqueue, Sched.queue_push_self, hrunnable,
            Sched.queue_pop_of_ne QueueId.noConfusion]
          rfl
        · have hnd : (contents s .sleeping).Nodup := (hw.family.rep _).nodup
          rw [hsleep]
          exact (List.nodup_cons.mp (hperm.nodup_iff.mpr hnd)).2

/-- **When the wake loop does not oversleep.** The clock goes on as `r`, whose reading `f`
is the first to reach the deadline of a sleeper. With one more reading for each sleeper the
loop has woken one that is due, unless there are two sleepers, the first is not due at the
first reading, and the second not even at reading `f + 2`. -/
theorem wakes_iff {r : ℕ → ℤ} {f : ℕ} (hw : WF s) (hr : ∀ i j, i ≤ j → r i ≤ r j)
    (hf : IsLeast {i | ∃ t ∈ contents s .sleeping, (s.thread t).timingInformation ≤ r i} f)
    (hclock : ∀ i ≤ f + (contents s .sleeping).length, s.clock[i]? = some (r i)) :
    s.WakesWithin (f + 1 + (contents s .sleeping).length) ↔
      ∀ t u, contents s .sleeping = [t, u] →
        (s.thread t).timingInformation ≤ r 0 ∨ (s.thread u).timingInformation ≤ r (f + 2) := by
  obtain ⟨t, ht, hdue⟩ := hf.1
  obtain ⟨h, l, hs⟩ := List.exists_cons_of_ne_nil (List.ne_nil_of_mem ht)
  have hlen : (contents s .sleeping).length = l.length + 1 := by rw [hs, List.length_cons]
  rw [wakes_iff_asked hw hs, hlen]
  constructor
  · rintro ⟨k, now, hk, hnow, hd⟩ t u htu
    rw [hs] at htu
    obtain ⟨rfl, rfl⟩ := List.cons.inj htu
    rw [hclock k (by omega)] at hnow
    obtain rfl := Option.some.inj hnow
    rcases k with _ | k
    · rw [asked_zero] at hd
      exact .inl hd
    · have hat : asked h (!List.isEmpty [u]) [u] (k + 1) = u := asked_pair
      rw [hat] at hd
      rw [List.length_singleton] at hk
      exact .inr (hd.trans (hr _ _ (by omega)))
  · intro hcond
    rcases eq_or_ne l.length 1 with h1 | h1
    · obtain ⟨u, rfl⟩ := List.length_eq_one_iff.mp h1
      rcases hcond h u hs with hd | hd
      · exact ⟨0, r 0, by omega, hclock 0 (Nat.zero_le _), asked_zero ▸ hd⟩
      · refine ⟨f + 2, r (f + 2), by omega, hclock _ (by omega), ?_⟩
        have hat : asked h (!List.isEmpty [u]) [u] (f + 2) = u := asked_pair
        rwa [hat]
    · rw [hs] at ht
      obtain ⟨i, hfi, hi, hat⟩ := asked_within h1 ht f
      refine ⟨i, r i, by omega, hclock i (by omega), ?_⟩
      rw [hat]
      exact hdue.trans (hr _ _ hfi)

/-- A clock that shows 5, and then 20 for ever. -/
def stepClock (i : ℕ) : ℤ := if i = 0 then 5 else 20

/-- This clock never goes back. -/
theorem stepClock_le (i j : ℕ) (h : i ≤ j) : stepClock i ≤ stepClock j := by
  rcases i with _ | i
  · rcases j with _ | j <;> simp [stepClock]
  · have hj : j ≠ 0 := by omega
    simp [stepClock, hj]

/-- A list of readings of that clock. -/
theorem getElem?_stepClock {n i : ℕ} (h : i < n) :
    ((List.range n).map stepClock)[i]? = some (stepClock i) := by
  simp [h]

/-- The first reading of that clock to reach a deadline is the second. -/
theorem isLeast_stepClock {sleepers : List Tid} {deadline : Tid → ℤ}
    (hearly : ∀ t ∈ sleepers, 5 < deadline t) (hdue : ∃ t ∈ sleepers, deadline t ≤ 20) :
    IsLeast {i | ∃ t ∈ sleepers, deadline t ≤ stepClock i} 1 := by
  refine ⟨hdue, fun i hi => ?_⟩
  obtain ⟨t, ht, hle⟩ := hi
  rcases i with _ | i
  · exact absurd hle (not_le.mpr (hearly t ht))
  · exact Nat.le_add_left 1 i

/-- Three threads sleep, the last of them till 10, and that one is found. -/
theorem wakes_iff_three : ∃ s, Reachable JoinOnce zeroMem [0, 0, 0, 5, 20, 20, 20, 20] s ∧
    contents s .sleeping = [1, 2, 3] ∧ s.WakesWithin 5 := by
  let acts : List Action := [.call (.create true (some zeroMem)),
    .call (.create true (some zeroMem)), .call (.create true (some zeroMem)), .call .yield,
    .resume, .call (.usleep 1000), .resume, .call (.usleep 2000), .resume, .call (.usleep 10),
    .resume]
  obtain ⟨s, hs, hsleep, hclock, hdl⟩ :
      ∃ s, Reachable JoinOnce zeroMem [0, 0, 0, 5, 20, 20, 20, 20] s ∧
        contents s .sleeping = [1, 2, 3] ∧ s.clock = (List.range 5).map stepClock ∧
        (5 < (s.thread 1).timingInformation ∧ 5 < (s.thread 2).timingInformation) ∧
          (s.thread 3).timingInformation = 10 := by
    refine ⟨acts.foldl St.after (qthreadInit zeroMem [0, 0, 0, 5, 20, 20, 20, 20]),
      Reachable.actions .refl ?_, by decide +kernel, by decide +kernel, by decide +kernel⟩
    simp only [acts, Permits, Allowed, JoinOnce, true_and, and_true]
    decide +kernel
  have hearly : ∀ t ∈ [1, 2, 3], 5 < (s.thread t).timingInformation := by
    simp [hdl]
  have hwakes := wakes_iff (hs.good (fun _ _ _ hD => hD) zeroed_zeroMem).wf
    stepClock_le
    (by rw [hsleep]; exact isLeast_stepClock hearly ⟨3, by decide, by omega⟩)
    (by rw [hsleep, hclock]; exact fun i hi => getElem?_stepClock (Nat.lt_succ_of_le hi))
  rw [hsleep] at hwakes
  exact ⟨s, hs, hsleep, hwakes.mpr fun t u htu => by cases htu⟩

/-- Two threads sleep, the first till 10, and at 20 the loop asks only the other. -/
theorem not_wakes_pair : ¬∀ (clock : List ℤ) (s : St) (r : ℕ → ℤ) (f : ℕ),
    Reachable JoinOnce zeroMem clock s → (∀ i j, i ≤ j → r i ≤ r j) →
    IsLeast {i | ∃ t ∈ contents s .sleeping, (s.thread t).timingInformation ≤ r i} f →
    (∀ i ≤ f + (contents s .sleeping).length, s.clock[i]? = some (r i)) →
    s.WakesWithin (f + 1 + (contents s .sleeping).length) := by
  intro hall
  let acts : List Action := [.call (.create true (some zeroMem)),
    .call (.create true (some zeroMem)), .call .yield, .resume, .call (.usleep 10), .resume,
    .call (.usleep 1000), .resume]
  obtain ⟨s, hs, hsleep, hclock, hfirst, hsecond⟩ :
      ∃ s, Reachable JoinOnce zeroMem [0, 0, 5, 20, 20, 20] s ∧
        contents s .sleeping = [1, 2] ∧ s.clock = (List.range 4).map stepClock ∧
        (s.thread 1).timingInformation = 10 ∧ (s.thread 2).timingInformation = 1000 := by
    refine ⟨acts.foldl St.after (qthreadInit zeroMem [0, 0, 5, 20, 20, 20]),
      Reachable.actions .refl ?_, by decide +kernel, by decide +kernel, by decide +kernel,
      by decide +kernel⟩
    simp only [acts, Permits, Allowed, JoinOnce, true_and, and_true]
    decide +kernel
  have hearly : ∀ t ∈ [1, 2], 5 < (s.thread t).timingInformation := by
    simp [hfirst, hsecond]
  have hwakes := hall _ s stepClock 1 hs stepClock_le
    (by rw [hsleep]; exact isLeast_stepClock hearly ⟨1, by decide, by omega⟩)
    (by rw [hsleep, hclock]; exact fun i hi => getElem?_stepClock (Nat.lt_succ_of_le hi))
  have hwf := (hs.good (fun _ _ _ hD => hD) zeroed_zeroMem).wf
  obtain ⟨k, now, -, hnow, hd⟩ := (wakes_iff_asked hwf hsleep).mp hwakes
  have hmem := List.mem_of_getElem? hnow
  rw [hclock] at hnow hmem
  rcases k with _ | k
  · obtain rfl := Option.some.inj hnow
    exact absurd hd (not_le.mpr (hearly 1 (by decide)))
  · -- From the second turn on the loop holds the second sleeper.
    have hat : asked 1 (!List.isEmpty [2]) [2] (k + 1) = 2 := asked_pair
    have hbound : ∀ now ∈ (List.range 4).map stepClock, now ≤ 20 := by decide
    rw [hat, hsecond] at hd
    have := hbound now hmem
    omega

end Wakes

end SystemsProjects.Qthreads
