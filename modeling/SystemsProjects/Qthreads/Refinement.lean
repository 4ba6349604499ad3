import SystemsProjects.Library.Stateful
import SystemsProjects.Qthreads.Invariant

/-!
# The C Code Refines the Scheduler

`view` reads the abstract scheduler off a state of the C program: the lists are the chains
through the `next` fields, the current thread is the one whose stack is running, and the
point of any other thread is the one its saved stack pointer restores. `WF` is what the
representation has to satisfy for this to make sense: the global `current_thread` names
the running stack, the queues form a family over the shared links, and every saved stack
pointer belongs to its own thread.

Every function of the library is run forwards on a well-formed state and shown to do to
the view what the abstract model says.

## Main results

* `pushBack_spec`, `popFront_spec`: the queue operations.
* `schedule_spec`: `schedule` chooses as `Dispatch` does, or stops for a stated reason.
-/

namespace SystemsProjects.Qthreads

open IntrusiveQueue Stateful

/-- The abstract scheduler a state of the program stands for. -/
def view (s : St) : Sched where
  current := s.running.stack
  point := s.point
  result := fun t => if (s.thread t).dead = 1 then some (s.thread t).returnVal else none
  joiner := fun t => (s.thread t).waiter
  deadline := fun t => (s.thread t).timingInformation
  queue := contents s
  locked := s.locked
  nthreads := s.nthreads
  nmutexes := s.nmutexes
  nconds := s.nconds
  clock := s.clock
  trace := s.trace

/-- The queue has been made. -/
def St.Has (s : St) : QueueId → Prop
  | .mutex m => m < s.nmutexes
  | .cond c => c < s.nconds
  | _ => True

/-- The representation is intact. -/
structure WF (s : St) : Prop where
  current : s.currentThread = some s.running.stack
  family : Family (fun t => (s.thread t).next) s.queue (contents s)
  saved : ∀ t, t < s.nthreads → t ≠ s.running.stack →
    (s.thread t).savedStackPointer.stack = t
  bound : ∀ q t, t ∈ contents s q → t < s.nthreads
  running : s.running.stack < s.nthreads
  fresh : ∀ q, ¬s.Has q → (s.queue q).size = 0

/-! ### Memory accesses -/

section Access

variable {s : St} {t : Tid}

/-- Reading the structure of a thread that has been made does not fault. -/
theorem load_ok (ht : t < s.nthreads) : load (some t) s = .ok (s.thread t) s := by
  simp only [load, if_pos ht]

/-- Nor does writing to it. -/
theorem store_ok (ht : t < s.nthreads) (f : Qthread → Qthread) :
    store (some t) f s =
      .ok () { s with thread := Function.update s.thread t (f (s.thread t)) } := by
  simp only [store, if_pos ht]

/-- Rewriting fields of one structure that the chains do not run through. -/
theorem next_update {f : Qthread → Qthread} (hf : (f (s.thread t)).next = (s.thread t).next) :
    (fun x => (Function.update s.thread t (f (s.thread t)) x).next) =
      fun x => (s.thread x).next := by
  funext x
  by_cases hx : x = t
  · subst hx
    rw [Function.update_self, hf]
  · rw [Function.update_of_ne hx]

/-- Writing one link. -/
theorem next_update_next (v : Ptr) (thread : Tid → Qthread) :
    (fun x => (Function.update thread t { thread t with next := v } x).next) =
      Function.update (fun x => (thread x).next) t v := by
  funext x
  by_cases hx : x = t
  · subst hx
    rw [Function.update_self, Function.update_self]
  · rw [Function.update_of_ne hx, Function.update_of_ne hx]

end Access

/-! ### Changes of links -/

/-- The two states differ in links, queue headers and the trace only. -/
structure SameButLinks (s s' : St) : Prop where
  info : ∀ x, s'.thread x = { s.thread x with next := (s'.thread x).next }
  nthreads : s'.nthreads = s.nthreads
  locked : s'.locked = s.locked
  nmutexes : s'.nmutexes = s.nmutexes
  nconds : s'.nconds = s.nconds
  currentThread : s'.currentThread = s.currentThread
  running : s'.running = s.running
  clock : s'.clock = s.clock

namespace SameButLinks

variable {s s' : St}

/-- Only the queues and the trace of the view change. -/
theorem view_eq (h : SameButLinks s s') :
    view s' = { view s with queue := contents s', trace := s'.trace } := by
  have hsp : ∀ x, (s'.thread x).savedStackPointer = (s.thread x).savedStackPointer :=
    fun x => by
    rw [h.info x]
  have hdead : ∀ x, (s'.thread x).dead = (s.thread x).dead := fun x => by
    rw [h.info x]
  have hret : ∀ x, (s'.thread x).returnVal = (s.thread x).returnVal := fun x => by
    rw [h.info x]
  have htime : ∀ x, (s'.thread x).timingInformation = (s.thread x).timingInformation :=
    fun x => by
    rw [h.info x]
  have hwait : ∀ x, (s'.thread x).waiter = (s.thread x).waiter := fun x => by
    rw [h.info x]
  have hpoint : s'.point = s.point := by
    funext x
    rw [St.point, St.point, h.running, hsp x]
  simp only [view, hpoint, hdead, hret, htime, hwait, h.running, h.locked, h.nthreads,
    h.nmutexes, h.nconds, h.clock]

/-- The representation stays intact if the links still form a family. -/
theorem wf (h : SameButLinks s s') (hw : WF s)
    (hf : Family (fun t => (s'.thread t).next) s'.queue (contents s'))
    (hb : ∀ q t, t ∈ contents s' q → t < s.nthreads)
    (hz : ∀ q, ¬s.Has q → contents s' q = contents s q) : WF s' := by
  have hhas : ∀ q, s'.Has q ↔ s.Has q := fun q => by
    cases q with
    | mutex m => rw [St.Has, St.Has, h.nmutexes]
    | cond c => rw [St.Has, St.Has, h.nconds]
    | runnable | sleeping => exact Iff.rfl
  refine ⟨?_, hf, fun t ht hr => ?_, fun q t ht => ?_, ?_, fun q hq => ?_⟩
  · rw [h.currentThread, h.running, hw.current]
  · rw [h.info t]
    exact hw.saved t (h.nthreads ▸ ht) (h.running ▸ hr)
  · rw [h.nthreads]
    exact hb q t ht
  · rw [h.running, h.nthreads]
    exact hw.running
  · have hq' := fun h' => hq ((hhas q).mpr h')
    refine (hf.rep q).size_eq_zero_iff.mpr ?_
    rw [hz q hq']
    exact (hw.family.rep q).size_eq_zero_iff.mp (hw.fresh q hq')

end SameButLinks

/-! ### Queue operations -/

section Queues

variable {s : St} {q : QueueId} {t : Tid} {L : QueueId → List Tid}

/-- The queues stand for the lists `L` of threads that exist. -/
structure Queued (s : St) (L : QueueId → List Tid) : Prop where
  family : Family (fun t => (s.thread t).next) s.queue L
  bound : ∀ q t, t ∈ L q → t < s.nthreads

/-- The lists are what the links lead to. -/
theorem Queued.contents_eq (h : Queued s L) : contents s = L := h.family.lists_eq_walk.symm

/-- `push_back` on a queue that is empty makes the thread its front and its end. -/
private theorem pushBack_empty (ht : t < s.nthreads) (hq : (s.queue q).size = 0) :
    pushBack q (some t) s = .ok () { s with
      thread := Function.update s.thread t { s.thread t with next := none }
      queue := Function.update s.queue q ⟨some t, some t, (s.queue q).size + 1⟩
      trace := s.trace ++ [.pushed q (some t)] } := by
  rw [pushBack, run_bind_ok (store_ok ht _)]
  simp only [header, bind, EStateM.bind, hq, if_true, setHeader, log]

/-- `push_back` on another queue links the thread behind the one at the end. -/
private theorem pushBack_nonempty {r : Tid} (ht : t < s.nthreads) (hr : r < s.nthreads)
    (hrt : r ≠ t) (hq : (s.queue q).size ≠ 0) (he : (s.queue q).end_ = some r) :
    pushBack q (some t) s = .ok () { s with
      thread := Function.update
        (Function.update s.thread t { s.thread t with next := none }) r
        { s.thread r with next := some t }
      queue := Function.update s.queue q ⟨(s.queue q).front, some t, (s.queue q).size + 1⟩
      trace := s.trace ++ [.pushed q (some t)] } := by
  rw [pushBack, run_bind_ok (store_ok ht _)]
  simp only [header, bind, EStateM.bind, hq, if_false, he, store, hr, if_true, setHeader, log,
    Function.update_of_ne hrt]

/-- `push_back` puts a thread that is in no list at the end of one. The links of other
threads outside the queues are not written. -/
theorem pushBack_queued (h : Queued s L) (ht : t < s.nthreads) (hfree : ∀ q, t ∉ L q) :
    ∃ s', pushBack q (some t) s = .ok () s' ∧ SameButLinks s s' ∧
      s'.trace = s.trace ++ [.pushed q (some t)] ∧
      Queued s' (Function.update L q (L q ++ [t])) ∧
      ∀ x, x ≠ t → (∀ q, x ∉ L q) → (s'.thread x).next = (s.thread x).next := by
  have hbound : ∀ q' x, x ∈ Function.update L q (L q ++ [t]) q' → x < s.nthreads := by
    intro q' x hx
    by_cases hq' : q' = q
    · subst hq'
      rw [Function.update_self] at hx
      rcases List.mem_append.mp hx with hx | hx
      · exact h.bound q' x hx
      · rwa [List.mem_singleton.mp hx]
    · rw [Function.update_of_ne hq'] at hx
      exact h.bound q' x hx
  by_cases hs : (s.queue q).size = 0
  · have hF := h.family.push_empty hs hfree
    rw [← next_update_next] at hF
    refine ⟨_, pushBack_empty ht hs, ⟨fun x => ?_, rfl, rfl, rfl, rfl, rfl, rfl, rfl⟩, rfl,
      ⟨hF, hbound⟩, fun x hx _ => ?_⟩
    · by_cases hx : x = t
      · subst hx
        simp only [Function.update_self]
      · simp only [Function.update_of_ne hx]
    · simp only [Function.update_of_ne hx]
  · obtain ⟨r, he, hlast⟩ := h.family.end_of_size_ne_zero hs
    have hrq : r ∈ L q := List.mem_of_getLast? hlast
    have hrt : r ≠ t := fun h => hfree q (h ▸ hrq)
    have hF := h.family.push_nonempty hlast hfree
    rw [← next_update_next, ← next_update_next, Function.update_of_ne hrt] at hF
    refine ⟨_, pushBack_nonempty ht (h.bound q r hrq) hrt hs he,
      ⟨fun x => ?_, rfl, rfl, rfl, rfl, rfl, rfl, rfl⟩, rfl, ⟨hF, hbound⟩, fun x hx hxq => ?_⟩
    · by_cases hxr : x = r
      · subst hxr
        simp only [Function.update_self]
      · by_cases hx : x = t
        · subst hx
          simp only [Function.update_of_ne hxr, Function.update_self]
        · simp only [Function.update_of_ne hxr, Function.update_of_ne hx]
    · have hxr : x ≠ r := fun h => hxq q (h ▸ hrq)
      simp only [Function.update_of_ne hxr, Function.update_of_ne hx]

/-- `pop_front` finds nothing in an empty list and changes nothing. -/
theorem popFront_nil (h : Queued s L) (hl : L q = []) : popFront q s = .ok none s := by
  have hs := (h.family.rep q).size_eq_zero_iff.mpr hl
  simp only [popFront, header, bind, EStateM.bind, hs, if_true, pure, EStateM.pure]

/-- `pop_front` takes the front of a list away. No link is written. -/
theorem popFront_queued (h : Queued s L) {l : List Tid} (hl : L q = t :: l) :
    ∃ s', popFront q s = .ok (some t) s' ∧ SameButLinks s s' ∧ s'.thread = s.thread ∧
      s'.trace = s.trace ++ [.popped q (some t)] ∧ Queued s' (Function.update L q l) := by
  obtain ⟨hfront, hsize, -⟩ := h.family.head hl
  have ht : t < s.nthreads := h.bound q t (hl ▸ List.mem_cons_self)
  let s' : St := { s with
    queue := Function.update s.queue q
      ⟨(s.thread t).next, if l.length = 0 then none else (s.queue q).end_, l.length⟩
    trace := s.trace ++ [.popped q (some t)] }
  have hrun : popFront q s = .ok (some t) s' := by
    have hne : (s.queue q).size ≠ 0 := by omega
    have hpred : (s.queue q).size - 1 = l.length := by omega
    simp only [popFront, header, bind, EStateM.bind, hne, if_false, hfront, load, ht, if_true,
      setHeader, log, pure, EStateM.pure, hpred, s']
  refine ⟨s', hrun, ⟨fun _ => rfl, rfl, rfl, rfl, rfl, rfl, rfl, rfl⟩, rfl, rfl,
    h.family.pop hl, fun q' x hx => h.bound q' x ?_⟩
  by_cases hq' : q' = q
  · subst hq'
    rw [Function.update_self] at hx
    exact hl ▸ List.mem_cons_of_mem t hx
  · rwa [Function.update_of_ne hq'] at hx

/-- The size field of a queue counts its threads. -/
theorem WF.size_eq (hw : WF s) (q : QueueId) : (s.queue q).size = (contents s q).length :=
  (hw.family.rep q).size_eq

/-- The size field of a queue tells whether it is empty. -/
theorem WF.size_eq_zero_iff (hw : WF s) (q : QueueId) :
    (s.queue q).size = 0 ↔ contents s q = [] :=
  (hw.family.rep q).size_eq_zero_iff

/-- In a well-formed state the queues are the lists that their chains read as. -/
theorem WF.queued (hw : WF s) : Queued s (contents s) := ⟨hw.family, hw.bound⟩

/-- **`push_back` appends**, if the thread is in no queue yet. The links of other threads
outside the queues are not written. -/
theorem pushBack_spec (hw : WF s) (hq : s.Has q) (ht : t < s.nthreads)
    (hfree : ∀ q, t ∉ contents s q) :
    ∃ s', pushBack q (some t) s = .ok () s' ∧ WF s' ∧ view s' = (view s).push q t ∧
      ∀ x, x ≠ t → (∀ q, x ∉ contents s q) → (s'.thread x).next = (s.thread x).next := by
  obtain ⟨s', hrun, hb, htr, hqueued, hlinks⟩ := pushBack_queued (q := q) hw.queued ht hfree
  have hc := hqueued.contents_eq
  refine ⟨s', hrun, hb.wf hw (hc ▸ hqueued.family) (fun q' x hx => ?_) (fun q' hq' => ?_), ?_,
    hlinks⟩
  · exact hb.nthreads ▸ hqueued.bound q' x (hc ▸ hx)
  · rw [hc, Function.update_of_ne]
    rintro rfl
    exact hq' hq
  · rw [hb.view_eq, hc, htr]
    rfl

/-- `pop_front` on an empty queue finds nothing and changes nothing. -/
theorem popFront_empty (hw : WF s) (hq : contents s q = []) : popFront q s = .ok none s :=
  popFront_nil hw.queued hq

/-- **`pop_front` removes the front**, whose own link stays behind and tells whether the
queue had more threads. -/
theorem popFront_spec (hw : WF s) {l : List Tid} (hl : contents s q = t :: l) :
    ∃ s', popFront q s = .ok (some t) s' ∧ WF s' ∧ view s' = (view s).pop q ∧
      (∀ q', t ∉ contents s' q') ∧ ((s'.thread t).next = none ↔ l = []) := by
  obtain ⟨s', hrun, hb, hthread, htr, hqueued⟩ := popFront_queued hw.queued hl
  have hc := hqueued.contents_eq
  have hsub : ∀ q' x, x ∈ contents s' q' → x ∈ contents s q' := by
    intro q' x hx
    rw [hc] at hx
    by_cases hqq : q' = q
    · subst hqq
      rw [Function.update_self] at hx
      exact hl ▸ List.mem_cons_of_mem t hx
    · rwa [Function.update_of_ne hqq] at hx
  have hw' : WF s' := by
    refine hb.wf hw (hc ▸ hqueued.family) (fun q' x hx => hw.bound q' x (hsub q' x hx))
      fun q' hq' => ?_
    have hnil := (hw.size_eq_zero_iff q').mp (hw.fresh q' hq')
    rw [hnil]
    exact List.eq_nil_iff_forall_not_mem.mpr fun x hx => by
      have := hsub q' x hx
      rw [hnil] at this
      cases this
  refine ⟨s', hrun, hw', ?_, fun q' hx => ?_, ?_⟩
  · have hl' : (view s).queue q = t :: l := hl
    rw [hb.view_eq, hc, htr, Sched.pop_of_cons hl']
    rfl
  · obtain rfl := hw.family.disjoint q' q t (hsub q' t hx) (hl ▸ List.mem_cons_self)
    rw [hc, Function.update_self] at hx
    exact (List.nodup_cons.mp (hl ▸ (hw.family.rep q').nodup)).1 hx
  · rw [hthread]
    exact (hw.family.head hl).2.2

end Queues

/-! ### The clock and the wake loop -/

section Waking

variable {s : St}

/-- The representation does not depend on the clock, the flags and the trace. -/
theorem WF.congr {s' : St} (hw : WF s) (ht : s'.thread = s.thread)
    (hn : s'.nthreads = s.nthreads) (hq : s'.queue = s.queue)
    (hm : s'.nmutexes = s.nmutexes) (hc : s'.nconds = s.nconds)
    (hcur : s'.currentThread = s.currentThread)
    (hr : s'.running.stack = s.running.stack) : WF s' := by
  have hcon : contents s' = contents s := by
    funext q
    rw [contents, contents, ht, hq]
  have hhas : ∀ q, s'.Has q ↔ s.Has q := fun q => by
    cases q with
    | mutex m => rw [St.Has, St.Has, hm]
    | cond c => rw [St.Has, St.Has, hc]
    | runnable | sleeping => exact Iff.rfl
  constructor
  · rw [hcur, hr, hw.current]
  · rw [ht, hq, hcon]
    exact hw.family
  · rw [ht, hn, hr]
    exact hw.saved
  · rw [hcon, hn]
    exact hw.bound
  · rw [hr, hn]
    exact hw.running
  · intro q hq'
    rw [hq]
    exact hw.fresh q (mt (hhas q).mpr hq')

/-- `get_usecs` takes the next reading. -/
theorem getUsecs_ok {now : ℤ} {rest : List ℤ} (hc : s.clock = now :: rest) :
    getUsecs s =
      .ok now { s with clock := rest, trace := s.trace ++ [.reading now] } := by
  simp only [getUsecs, hc]

/-- **The wake loop** holds one thread outside the queues, and ends with one whose time is
up or at the end of the clock. -/
theorem wakeLoop_spec (readings : List ℤ) : ∀ {s : St} {h : Tid} (linked : Bool),
    WF s → s.clock = readings → h < s.nthreads → (∀ q, h ∉ contents s q) →
    ((s.thread h).next = none ↔ linked = false) →
    (linked = true → contents s .sleeping ≠ []) →
    Ends (wakeLoop readings (some h)) s
      (fun p s' => ∃ w, p = some w ∧ WF s' ∧ Waking (view s) h linked (view s') w ∧
        w < s'.nthreads ∧ ∀ q, w ∉ contents s' q)
      (fun e _ => e = .clock ∧ Late (view s) h linked) := by
  induction readings with
  | nil => exact fun _ _ hc _ _ _ _ => Ends.of_error rfl ⟨rfl, .out hc⟩
  | cons now rest ih =>
      intro s h linked hw hc hh hfree hnext hlinked
      let s₁ : St := { s with clock := rest, trace := s.trace ++ [.reading now] }
      have hw₁ : WF s₁ := hw.congr rfl rfl rfl rfl rfl rfl rfl
      have hv₁ : view s₁ = (view s).read now rest := rfl
      rw [wakeLoop]
      refine Ends.step (getUsecs_ok hc) (Ends.step (load_ok hh) ?_)
      split
      case isFalse hdue =>
        exact Ends.pure ⟨h, rfl, hw₁, .due hc (not_lt.mp hdue), hh, hfree⟩
      case isTrue hlate =>
        split
        case isFalse hnone =>
          have hl : linked = false := hnext.mp (not_not.mp hnone)
          subst hl
          refine (ih false hw₁ rfl hh hfree hnext Bool.noConfusion).mono ?_
            fun _ _ he => ⟨he.1, .spin hc hlate he.2⟩
          rintro p s' ⟨w, rfl, hw', hwk, hrest⟩
          exact ⟨w, rfl, hw', .spin hc hlate hwk, hrest⟩
        case isTrue hsome =>
          have hl : linked = true := by
            cases linked with
            | false => exact absurd (hnext.mpr rfl) hsome
            | true => rfl
          subst hl
          obtain ⟨h', l, hq⟩ := List.exists_cons_of_ne_nil (hlinked rfl)
          obtain ⟨s₂, hrun₂, hw₂, hv₂, hfree₂, hnext₂⟩ := popFront_spec (s := s₁) hw₁ hq
          have hmem : ∀ q x, x ∈ contents s₂ q → x ∈ contents s q := by
            intro q x hx
            have hx' : x ∈ ((view s₁).pop .sleeping).queue q := hv₂ ▸ hx
            exact ((Sched.mem_pop hq (hw.family.rep _).nodup).mp hx').1
          have hh' : h' < s.nthreads := hw.bound _ h' (hq ▸ List.mem_cons_self)
          have hn₂ : s₂.nthreads = s.nthreads := by
            change (view s₂).nthreads = _
            rw [hv₂, Sched.pop_of_cons (a := view s₁) hq]
            rfl
          have hne : h' ≠ h := fun he => hfree .sleeping (he ▸ hq ▸ List.mem_cons_self)
          obtain ⟨s₃, hrun₃, hw₃, hv₃, hnext₃⟩ := pushBack_spec (q := .sleeping) (t := h) hw₂
            True.intro (hn₂ ▸ hh) fun q hx => hfree q (hmem q h hx)
          have hc₃ : s₃.clock = rest := by
            change (view s₃).clock = _
            rw [hv₃, hv₂, Sched.pop_of_cons (a := view s₁) hq]
            rfl
          have hn₃ : s₃.nthreads = s.nthreads := by
            change (view s₃).nthreads = _
            rw [hv₃]
            exact hn₂
          have hcon₃ : ∀ q x, x ∈ contents s₃ q ↔
              x ∈ contents s₂ q ∨ (q = .sleeping ∧ x = h) := by
            intro q x
            change x ∈ (view s₃).queue q ↔ x ∈ (view s₂).queue q ∨ _
            rw [hv₃]
            exact Sched.mem_push
          refine Ends.step hrun₂ (Ends.step hrun₃ ?_)
          refine (ih (!l.isEmpty) hw₃ hc₃ (hn₃ ▸ hh') (fun q hx => ?_) ?_
            fun _ hnil => ?_).mono ?_ fun _ _ he => ?_
          · rcases (hcon₃ q h').mp hx with hx | ⟨-, hx⟩
            · exact hfree₂ q hx
            · exact hne hx
          · rw [hnext₃ h' hne hfree₂, hnext₂]
            simp
          · have hx := (hcon₃ .sleeping h).mpr (.inr ⟨rfl, rfl⟩)
            rw [hnil] at hx
            cases hx
          · rintro p s' ⟨w, rfl, hw', hwk, hrest⟩
            rw [hv₃, hv₂] at hwk
            exact ⟨w, rfl, hw', .rotate hc hlate hq hwk, hrest⟩
          · rw [hv₃, hv₂] at he
            exact ⟨he.1, .rotate hc hlate hq he.2⟩

end Waking

/-! ### The scheduler -/

section Schedule

variable {s : St}

/-- **`wake_sleeping_threads`**, when somebody sleeps. -/
theorem wakeSleepingThreads_spec (hw : WF s) {h : Tid} {l : List Tid}
    (hs : contents s .sleeping = h :: l) :
    Ends wakeSleepingThreads s
      (fun n s' => n = 1 ∧ WF s' ∧ ∃ b w,
        Waking ((view s).pop .sleeping) h (!l.isEmpty) b w ∧ view s' = b.push .runnable w)
      (fun e _ => e = .clock ∧ Late ((view s).pop .sleeping) h (!l.isEmpty)) := by
  have hne : (s.queue .sleeping).size ≠ 0 := fun h0 => by
    rw [(hw.size_eq_zero_iff _).mp h0] at hs
    cases hs
  obtain ⟨s₁, hrun₁, hw₁, hv₁, hfree₁, hnext₁⟩ := popFront_spec hw hs
  have hh : h < s₁.nthreads := by
    change h < (view s₁).nthreads
    rw [hv₁, Sched.pop_of_cons (a := view s) hs]
    exact hw.bound _ h (hs ▸ List.mem_cons_self)
  have hq₁ : contents s₁ .sleeping = l := by
    change (view s₁).queue .sleeping = l
    rw [hv₁]
    exact Sched.queue_pop_self hs
  rw [wakeSleepingThreads]
  refine Ends.step (u := s) rfl ?_
  rw [if_neg hne]
  refine Ends.step hrun₁ (Ends.step (u := s₁) rfl ?_)
  rw [← hv₁]
  refine (wakeLoop_spec s₁.clock (!l.isEmpty) hw₁ rfl hh hfree₁ ?_ fun hl => ?_).bind ?_
  · rw [hnext₁]
    simp
  · rw [hq₁]
    rintro rfl
    cases hl
  · rintro p s₂ ⟨w, rfl, hw₂, hwk, hwn, hwfree⟩
    obtain ⟨s₃, hrun₃, hw₃, hv₃, -⟩ := pushBack_spec (q := .runnable) hw₂ True.intro hwn hwfree
    exact Ends.step hrun₃ (Ends.pure ⟨rfl, hw₃, view s₂, w, hwk, hv₃⟩)

/-- **The test of `schedule`** does nothing when somebody is runnable. -/
theorem wakeIfIdle_busy (hw : WF s) (hr : contents s .runnable ≠ []) :
    wakeIfIdle s = .ok () s := by
  have hhead : header .runnable s = .ok (s.queue .runnable) s := rfl
  rw [wakeIfIdle, run_bind_ok hhead, if_neg (mt (hw.size_eq_zero_iff _).mp hr)]
  rfl

/-- **The test of `schedule`** does what `Idle` says. -/
theorem wakeIfIdle_spec (hw : WF s) :
    Ends wakeIfIdle s (fun _ s' => WF s' ∧ Idle (view s) (view s')) (fun e _ => e = .clock) := by
  rw [wakeIfIdle]
  refine Ends.step (u := s) rfl ?_
  split
  case isFalse hr =>
    exact Ends.pure ⟨hw, .busy (.inl fun h => hr ((hw.size_eq_zero_iff _).mpr h))⟩
  case isTrue hr =>
    refine Ends.step (u := s) rfl ?_
    split
    case isFalse hs =>
      exact Ends.pure ⟨hw, .busy (.inr ((hw.size_eq_zero_iff _).mp (by omega)))⟩
    case isTrue hs =>
      have hne : contents s .sleeping ≠ [] := fun h => by
        have := (hw.size_eq_zero_iff _).mpr h
        omega
      obtain ⟨h, l, hq⟩ := List.exists_cons_of_ne_nil hne
      refine Ends.bind ((wakeSleepingThreads_spec hw hq).mono (fun _ _ h => h)
        fun _ _ he => he.1) ?_
      rintro _ s' ⟨-, hw', b, w, hwk, hv⟩
      exact Ends.pure ⟨hw', hv ▸ .wakes ((hw.size_eq_zero_iff _).mp hr) hq hwk⟩

/-- The test of `schedule` made twice is the test made once. -/
theorem Idle.again {a b c : Sched} (h : Idle a b) (h' : Idle b c) : Idle a c := by
  cases h with
  | busy _ => exact h'
  | @wakes b h w l hr hs hw =>
      cases h' with
      | busy _ => exact .wakes hr hs hw
      | wakes hr' _ _ =>
          rw [Sched.queue_push_self] at hr'
          exact absurd hr' (List.append_ne_nil_of_right_ne_nil _ (List.cons_ne_nil w []))

/-- When the test leaves nobody runnable, it found nobody at all. -/
theorem Idle.of_runnable_eq_nil {a b : Sched} (h : Idle a b) (hr : b.queue .runnable = []) :
    b = a ∧ b.queue .sleeping = [] := by
  cases h with
  | busy hb => exact ⟨rfl, hb.resolve_left fun h => h hr⟩
  | @wakes b h w l _ _ _ =>
      rw [Sched.queue_push_self] at hr
      exact absurd hr (List.append_ne_nil_of_right_ne_nil _ (List.cons_ne_nil w []))

/-- A thread that a push leaves in place was in no queue before. -/
theorem Placed.notMem_of_push {E : Set Tid} {a : Sched} {q : QueueId} {t : Tid}
    (hp : Placed E (a.push q t)) (q' : QueueId) : t ∉ a.queue q' := by
  intro ht
  obtain rfl := hp.disjoint q' q t (Sched.mem_push.mpr (.inl ht))
    (Sched.mem_push.mpr (.inr ⟨rfl, rfl⟩))
  have hnd := hp.nodup q'
  rw [Sched.queue_push_self] at hnd
  exact (List.nodup_append.mp hnd).2.2 t ht t (List.mem_singleton.mpr rfl) rfl

/-- **The first half of `schedule`** files the calling thread; on an exit it makes the test
as well. -/
theorem scheduleFile_spec (hw : WF s) {exit : ℤ} (hp : Placed ∅ ((view s).file exit)) :
    Ends (scheduleFile exit s.currentThread) s
      (fun _ s' => WF s' ∧ (view s' = (view s).file exit ∨ Idle ((view s).file exit) (view s')))
      (fun e _ => e = .clock) := by
  have hcur : s.currentThread = some s.running.stack := hw.current
  rw [scheduleFile]
  by_cases h1 : exit = 1
  · subst h1
    rw [if_pos rfl, if_pos rfl]
    refine (wakeIfIdle_spec hw).bind ?_
    rintro _ s' ⟨hw', hi⟩
    exact Ends.pure ⟨hw', .inr hi⟩
  · rw [if_neg h1, if_neg h1]
    by_cases h2 : exit = 2
    · rw [if_pos h2]
      refine Ends.pure ⟨hw, .inl ?_⟩
      rw [Sched.file, if_pos (.inr h2)]
    · rw [if_neg h2, hcur]
      rw [Sched.file, if_neg (not_or.mpr ⟨h1, h2⟩)] at hp ⊢
      split
      case isTrue h3 =>
        rw [if_pos h3] at hp
        obtain ⟨s', hrun, hw', hv, -⟩ := pushBack_spec (q := .sleeping) hw True.intro
          hw.running hp.notMem_of_push
        exact Ends.of_ok hrun ⟨hw', .inl hv⟩
      case isFalse h3 =>
        rw [if_neg h3] at hp
        obtain ⟨s', hrun, hw', hv, -⟩ := pushBack_spec (q := .runnable) hw True.intro
          hw.running hp.notMem_of_push
        exact Ends.of_ok hrun ⟨hw', .inl hv⟩

/-- A switch to a thread whose saved stack pointer is its own. -/
private theorem switchThread_spec (hw : WF s) {p : Ptr} {t : Tid} (ht : t < s.nthreads)
    (htr : t ≠ s.running.stack) :
    ∃ s', switchThread (some s.running.stack) (s.thread t).savedStackPointer
        { s with currentThread := p } = .ok () s' ∧
      (p = some t → WF s') ∧ view s' = { view s with current := t } := by
  have hsp := hw.saved t ht htr
  let s' : St := { s with
    currentThread := p
    thread := Function.update s.thread s.running.stack
      { s.thread s.running.stack with savedStackPointer := s.running }
    running := (s.thread t).savedStackPointer }
  have hnext : (fun x => (s'.thread x).next) = fun x => (s.thread x).next :=
    next_update (f := fun th => { th with savedStackPointer := s.running }) rfl
  have hcon : contents s' = contents s := by
    funext q
    rw [contents, contents, hnext]
  refine ⟨s', ?_, fun hpt => ⟨?_, ?_, fun x hx hxr => ?_, ?_, ?_, hw.fresh⟩, ?_⟩
  · rw [switchThread]
    simp only [bind, EStateM.bind, store, hw.running, if_true, s']
  · change p = some (s.thread t).savedStackPointer.stack
    rw [hsp, hpt]
  · rw [hnext, hcon]
    exact hw.family
  · by_cases hxo : x = s.running.stack
    · subst hxo
      simp only [s', Function.update_self]
    · simp only [s', Function.update_of_ne hxo]
      exact hw.saved x hx hxo
  · rw [hcon]
    exact hw.bound
  · change (s.thread t).savedStackPointer.stack < s.nthreads
    rw [hsp]
    exact ht
  · have hpoint : s'.point = s.point := by
      funext x
      rw [St.point, St.point]
      change (if x = (s.thread t).savedStackPointer.stack then _ else _) = _
      rw [hsp]
      by_cases hxt : x = t
      · rw [if_pos hxt, if_neg (hxt ▸ htr), hxt]
      · rw [if_neg hxt]
        by_cases hxo : x = s.running.stack
        · subst hxo
          simp only [s', Function.update_self, if_true]
        · simp only [s', Function.update_of_ne hxo, if_neg hxo]
    have hres : ∀ x, (s'.thread x).dead = (s.thread x).dead ∧
        (s'.thread x).returnVal = (s.thread x).returnVal ∧
        (s'.thread x).waiter = (s.thread x).waiter ∧
        (s'.thread x).timingInformation = (s.thread x).timingInformation := fun x => by
      by_cases hxo : x = s.running.stack
      · subst hxo
        simp only [s', Function.update_self, and_self]
      · simp only [s', Function.update_of_ne hxo, and_self]
    simp only [view, hpoint, hcon, hres]
    rw [show s'.running.stack = t from hsp]

/-- `switch_runnable`, behind the removal of the next thread. -/
theorem switchRunnable_eq {s₁ : St} {old p : Ptr} (h : popFront .runnable s = .ok p s₁) :
    switchRunnable old s =
      (if p = old then return ()
      else do
        let th ← load p
        if th.dead ≠ 1 then switchThread old th.savedStackPointer)
        { s₁ with currentThread := p } := by
  have hset : setCurrentThread p s₁ = .ok () { s₁ with currentThread := p } := rfl
  have hget : currentThread { s₁ with currentThread := p } =
      .ok p { s₁ with currentThread := p } := rfl
  rw [switchRunnable, run_bind_ok h, run_bind_ok hset, run_bind_ok hget]

/-- The thread at the front of the active list is removed, by the thread that is running. -/
theorem popFront_runnable (hw : WF s) {t : Tid} {l : List Tid}
    (hr : contents s .runnable = t :: l) :
    ∃ s₁, popFront .runnable s = .ok (some t) s₁ ∧ WF s₁ ∧ view s₁ = (view s).pop .runnable ∧
      s₁.running = s.running ∧ t < s₁.nthreads ∧ (view s₁).result t = (view s).result t := by
  obtain ⟨s₁, hrun₁, hw₁, hv₁, -⟩ := popFront_spec hw hr
  have hr' : (view s).queue .runnable = t :: l := hr
  have hpop := Sched.pop_of_cons hr'
  have hstack : s₁.running.stack = s.running.stack := by
    change (view s₁).current = _
    rw [hv₁, hpop]
    rfl
  refine ⟨s₁, hrun₁, hw₁, hv₁, ?_, ?_, ?_⟩
  · have hpoint : s₁.point = s.point := by
      change (view s₁).point = _
      rw [hv₁, hpop]
      rfl
    have hp := congrFun hpoint s.running.stack
    rw [St.point, St.point, hstack, if_pos rfl, if_pos rfl] at hp
    calc s₁.running = ⟨s₁.running.stack, s₁.running.point⟩ := rfl
      _ = ⟨s.running.stack, s.running.point⟩ := by rw [hstack, hp]
  · change t < (view s₁).nthreads
    rw [hv₁, hpop]
    exact hw.bound _ t (hr ▸ List.mem_cons_self)
  · rw [hv₁, hpop]

/-- **`switch_runnable`** takes the front of the active list, if that thread has not
exited. -/
theorem switchRunnable_take (hw : WF s) {t : Tid} {l : List Tid}
    (hr : contents s .runnable = t :: l) (hlive : (view s).result t = none) :
    ∃ s', switchRunnable s.currentThread s = .ok () s' ∧ WF s' ∧
      view s' = (view s).take t := by
  obtain ⟨s₁, hrun₁, hw₁, hv₁, hrunning, ht, hresult⟩ := popFront_runnable hw hr
  rw [switchRunnable_eq hrun₁, hw.current]
  by_cases hself : t = s.running.stack
  · subst hself
    rw [if_pos rfl]
    refine ⟨{ s₁ with currentThread := some s.running.stack }, rfl,
      hw₁.congr rfl rfl rfl rfl rfl ?_ rfl, ?_⟩
    · exact (hw₁.current.trans (by rw [hrunning])).symm
    · change view s₁ = _
      rw [hv₁, Sched.take, Sched.pop_of_cons (a := view s) hr]
      rfl
  · have hdead : (s₁.thread t).dead ≠ 1 := fun hd => by
      have hres : (view s₁).result t = some (s₁.thread t).returnVal := if_pos hd
      rw [hresult, hlive] at hres
      cases hres
    have hstack : s₁.running.stack = s.running.stack := by rw [hrunning]
    obtain ⟨s₂, hrun₂, hw₂, hv₂⟩ := switchThread_spec hw₁ (p := some t) ht
      fun h => hself (h.trans hstack)
    rw [hstack] at hrun₂
    refine ⟨s₂, ?_, hw₂ rfl, ?_⟩
    · rw [if_neg fun he => hself (Option.some.inj he),
        run_bind_ok (load_ok (s := { s₁ with currentThread := some t }) ht), if_pos hdead, hrun₂]
    · rw [hv₂, hv₁, Sched.take]

/-- **`switch_runnable`** dereferences `NULL` when the active list is empty. -/
theorem switchRunnable_null (hw : WF s) (hr : contents s .runnable = []) :
    switchRunnable s.currentThread s = .error .null { s with currentThread := none } := by
  rw [switchRunnable_eq (popFront_empty hw hr), hw.current, if_neg nofun]
  rfl

/-- **`schedule`** chooses as `Dispatch` says. It stops only at the end of the clock, or
where nobody is runnable and nobody sleeps. -/
theorem schedule_spec (hw : WF s) {exit : ℤ} (hp : Placed ∅ ((view s).file exit)) :
    Ends (schedule exit) s
      (fun _ s' => WF s' ∧ Dispatch ((view s).file exit) (view s'))
      (fun e s' => e = .clock ∨ (e = .null ∧ view s' = (view s).file exit ∧
        contents s' .runnable = [] ∧ contents s' .sleeping = [])) := by
  rw [schedule]
  refine Ends.step (u := s) rfl (((scheduleFile_spec hw hp).mono (fun _ _ h => h)
    fun _ _ he => .inl he).bind ?_)
  rintro _ s₁ ⟨hw₁, hfiled⟩
  refine ((wakeIfIdle_spec hw₁).mono (fun _ _ h => h) fun _ _ he => .inl he).bind ?_
  rintro _ s₂ ⟨hw₂, hi₂⟩
  have hi : Idle ((view s).file exit) (view s₂) := by
    rcases hfiled with hv | hi
    · exact hv ▸ hi₂
    · exact hi.again hi₂
  have hcur : s.currentThread = s₂.currentThread := by
    have hc : (view s₂).current = s.running.stack := by
      rw [hi.frame.2, Sched.file]
      split
      · rfl
      · split <;> rfl
    rw [hw.current, hw₂.current]
    exact hc ▸ rfl
  rw [hcur]
  cases hr : contents s₂ .runnable with
  | nil =>
      obtain ⟨hidle, hs⟩ := hi.of_runnable_eq_nil hr
      exact Ends.of_error (switchRunnable_null hw₂ hr) (.inr ⟨rfl, hidle, hr, hs⟩)
  | cons t l =>
      have hr' : (view s₂).queue .runnable = t :: l := hr
      have hlive := ((hi.placed hp).queued .runnable t (hr' ▸ List.mem_cons_self)).1.2
      obtain ⟨s', hrun, hw', hv⟩ := switchRunnable_take hw₂ hr hlive
      exact Ends.of_ok hrun ⟨hw', hv ▸ .mk hi hr⟩

end Schedule

end SystemsProjects.Qthreads
