import SystemsProjects.Library.Processes
import SystemsProjects.Qthreads.Locations

/-!
# Programs That Come to an End

A program for the library says what each of its threads does between two calls. Here it is
one whose threads all come to an end when they are served: every thread makes calls one
after the other, it may let each depend on all that has been observed, and on every path it
returns from its start function. The steps of the program are then determined: the running
context makes the call its program has next, or goes on in the library.

Such a program stops, whatever mutexes, condition variables, joins and sleeps it uses. The
library itself never turns in circles: a thread that has called it is resumed at most twice
before it is back in its own code, and then its program is shorter.

## Main definitions

* `Program`, `Running`: a program, and a program under way.
* `Running.step`, `Running.Follows`: its steps and its runs.

## Main results

* `Effect.left_lt`: a resumption brings its thread nearer to its own code.
* `run_ends`: every program stops.
* `Running.obeys_of_obeysFor`: whether a program keeps to a discipline can be computed.
-/

namespace SystemsProjects.Qthreads

open Relation Processes

/-! ### Programs -/

/-- The calls that neither make a thread nor return from a start function. -/
def Op.Plain : Op → Prop
  | .create _ _ => False
  | .finish _ => False
  | _ => True

/-- What is left of a thread's code. A call that makes a thread carries what `malloc` hands
out. -/
abbrev ThreadCode := Process {op : Op // op.Plain} (Bool × Option Qthread) Value (List Event)

/-- What a thread does once control is back in its code, given the trace. The tree is finite: a
thread makes finitely many calls, which may depend on everything that has been observed, and
hands code to the threads it makes. -/
abbrev Program := Code {op : Op // op.Plain} (Bool × Option Qthread) Value (List Event)

/-- The call a thread's code makes next. -/
def nextCall : ThreadCode → Op
  | .done val => .finish val
  | .ask op _ => op.1
  | .spawn creation _ _ => .create creation.1 creation.2

/-- A program under way: the state of the library, and what is left of the code of every thread. -/
structure Running where
  state : St
  code : Tid → Program

namespace Running

/-- What is left of the code of the running thread. -/
def thread (c : Running) : ThreadCode := c.code c.state.running.stack c.state.trace

/-- What the running context does: its own code makes its next call in user code; elsewhere the
library goes on. -/
def action (c : Running) : Action :=
  if c.state.running.point = .user then .call (nextCall c.thread) else .resume

/-- What is left of the code of every thread once the running one has called. -/
def called (c : Running) : Tid → Program :=
  match c.thread with
  | .done _ => c.code
  | .ask _ next => Function.update c.code c.state.running.stack next
  | .spawn _ child next =>
      Function.update (Function.update c.code c.state.running.stack next) c.state.nthreads child

/-- One step of the program. It has no choice: the trace decides what the code calls. -/
def step (c : Running) : Except Stop Running :=
  match Qthreads.step c.action c.state with
  | .ok _ s => .ok ⟨s, if c.state.running.point = .user then c.called else c.code⟩
  | .error e _ => .error e

/-- The program at its start; the code of threads not yet made does not matter. -/
def start (main : Program) (mem : Qthread) (clock : List ℤ) : Running :=
  ⟨qthreadInit mem clock, fun _ => main⟩

/-- The program comes to the state, from its start. -/
def Follows (main : Program) (mem : Qthread) (clock : List ℤ) : Running → Prop :=
  ReflTransGen (fun c c' => c.step = .ok c') (start main mem clock)

/-- Along its run the program keeps to the discipline. Nothing is asked of what it would do in
other runs. -/
def Obeys (D : Discipline) (main : Program) (mem : Qthread) (clock : List ℤ) : Prop :=
  ∀ c, Follows main mem clock c → Allowed D c.state c.action

section Steps

variable {D : Discipline} {main : Program} {mem : Qthread} {clock : List ℤ} {c c' : Running}

/-- A program that keeps to a discipline keeps to a weaker one. -/
theorem Obeys.mono {D' : Discipline} (hO : Obeys D main mem clock)
    (hD : ∀ t trace op, D t trace op → D' t trace op) : Obeys D' main mem clock := by
  intro c hc
  have hA := hO c hc
  cases hact : c.action with
  | call op =>
      rw [hact] at hA
      exact hD _ _ _ hA
  | resume => exact True.intro

/-- A step of a program is a step of the library. -/
theorem step_ok (h : c.step = .ok c') :
    Qthreads.step c.action c.state = .ok () c'.state ∧
      c'.code = if c.state.running.point = .user then c.called else c.code := by
  rw [step] at h
  split at h
  case h_1 u s hrun =>
    cases h
    exact ⟨hrun, rfl⟩
  case h_2 => cases h

/-- A program stops where the library does. -/
theorem step_error {e : Stop} (h : c.step = .error e) :
    ∃ s, Qthreads.step c.action c.state = .error e s := by
  rw [step] at h
  split at h
  case h_1 => cases h
  case h_2 e s hrun =>
    cases h
    exact ⟨s, hrun⟩

/-- The states of a program that keeps to a discipline are among those the discipline
reaches. -/
theorem Follows.reachable (h : Follows main mem clock c) (hO : Obeys D main mem clock) :
    Reachable D mem clock c.state := by
  induction h with
  | refl => exact .refl
  | @tail c c' hrun hs ih => exact ih.step c.action (hO c hrun) (step_ok hs).1

end Steps

end Running

/-! ### The way back to user code -/

/-- How often code that stands at the point is resumed at most, before it is back in user
code. -/
def Point.left : Point → ℕ
  | .user => 0
  | .exit => 0
  | .condWait _ _ => 2
  | _ => 1

/-- **A resumption brings its thread nearer to its own code**: only on the way out of a wait
on a condition variable is it parked once more. -/
theorem Effect.left_lt {a b : Sched} {flow : Flow} (h : Effect a .resume flow b) (hi : a.Inv) :
    flow.point.left < (a.point a.current).left := by
  cases h with
  | goOn hp => rcases hp with hp | hp | ⟨m, hp⟩ <;> rw [hp] <;> exact Nat.one_pos
  | awake hp | handed hp =>
      rw [hp]
      exact Nat.one_pos
  | @rejoin t hp ht =>
      -- Whoever is recorded at a live thread is blocked, so the awaited one has exited.
      have hres : a.result t ≠ none := by
        intro hr
        have hjo := (hi.placed.joining _ t (hi.placed.exempt _ rfl) hp).2 hr
        exact (hi.placed.joins t _ ⟨ht, hr⟩ hjo).2.1 rfl
      obtain ⟨v, hv⟩ := Option.ne_none_iff_exists'.mp hres
      rw [Sched.joinLoop_of_some hv, hp]
      exact Nat.one_pos
  | @signaled c m hp hm =>
      rw [hp]
      rcases eq_or_ne (a.locked m) 0 with h0 | h0
      · rw [Sched.relock_of_free h0]
        exact Nat.two_pos
      · rw [Sched.relock_of_held h0]
        exact Nat.one_lt_two

/-! ### Programs end -/

namespace Running

variable {main : Program} {mem : Qthread} {clock : List ℤ} {c c' : Running}

/-- What a thread still has to do: its code, and before that its way back to it. A thread
that has exited has nothing to do. -/
def label (c : Running) (t : Tid) : Multiset (Program × ℕ) :=
  if (view c.state).result t = none then {(c.code t, (c.state.point t).left)} else 0

/-- What all threads still have to do, as a multiset with one entry for each. A step makes it
smaller. -/
def remaining (c : Running) : Multiset (Program × ℕ) := heads c.label c.state.nthreads

/-- Less is to be done: the code is shorter, or it is the same and the way back to it is. -/
def Less : Program × ℕ → Program × ℕ → Prop := Prod.Lex Below (· < ·)

/-- Nobody can go on having less to do for ever. -/
theorem wellFounded_less : WellFounded Less :=
  WellFounded.prod_lex wellFounded_below Nat.lt_wfRel.wf

/-- The labels of threads that a step leaves alone. -/
theorem label_congr {t : Tid} (hcode : c'.code t = c.code t)
    (hres : (view c'.state).result t = (view c.state).result t)
    (hpt : c'.state.point t = c.state.point t) : c'.label t = c.label t := by
  rw [label, label, hcode, hres, hpt]

/-- What is left of a thread that has not exited. -/
theorem eq_of_mem_label {t : Tid} {x : Program × ℕ} (h : x ∈ c.label t) :
    (view c.state).result t = none ∧ x = (c.code t, (c.state.point t).left) := by
  rw [label] at h
  split at h
  case isTrue hr => exact ⟨hr, Multiset.mem_singleton.mp h⟩
  case isFalse => cases h

/-- What the running thread's code leaves for it to do is below it, or there is nothing and
the thread returns from its start function. -/
theorem called_self (hcur : c.state.running.stack < c.state.nthreads) :
    (∃ v, nextCall c.thread = .finish v) ∨
      Below (c.called c.state.running.stack) (c.code c.state.running.stack) := by
  cases hth : c.thread with
  | done v => exact .inl ⟨v, rfl⟩
  | ask op next =>
      refine .inr ⟨c.state.trace, ?_⟩
      rw [show c.code _ c.state.trace = _ from hth]
      have hcalled : c.called c.state.running.stack = next := by
        simp only [called, hth, Function.update_self]
      exact hcalled ▸ .asked
  | spawn creation child next =>
      refine .inr ⟨c.state.trace, ?_⟩
      rw [show c.code _ c.state.trace = _ from hth]
      have hcalled : c.called c.state.running.stack = next := by
        simp only [called, hth, Function.update_of_ne hcur.ne, Function.update_self]
      exact hcalled ▸ .parent

/-- The code of a new thread is below that of the thread that made it. -/
theorem called_new {stack : Bool} {content : Option Qthread}
    (hcall : nextCall c.thread = .create stack content) :
    Below (c.called c.state.nthreads) (c.code c.state.running.stack) := by
  cases hth : c.thread with
  | done v =>
      rw [hth] at hcall
      cases hcall
  | ask op next =>
      rw [hth] at hcall
      have hplain := op.2
      rw [show op.1 = _ from hcall] at hplain
      exact hplain.elim
  | spawn creation child next =>
      refine ⟨c.state.trace, ?_⟩
      rw [show c.code _ c.state.trace = _ from hth]
      have hcalled : c.called c.state.nthreads = child := by
        simp only [called, hth, Function.update_self]
      exact hcalled ▸ .child

/-- The code of all others is not touched. -/
theorem called_of_ne {t : Tid} (hc : t ≠ c.state.running.stack) (hn : t ≠ c.state.nthreads) :
    c.called t = c.code t := by
  cases hth : c.thread with
  | done v => simp only [called, hth]
  | ask op next => simp only [called, hth, Function.update_of_ne hc]
  | spawn creation child next =>
      simp only [called, hth, Function.update_of_ne hn, Function.update_of_ne hc]

/-- The running thread is brought nearer to its end. -/
theorem less_of_ran {flow : Flow} {b : Sched} (he : Effect (view c.state) c.action flow b)
    (hi : (view c.state).Inv) (hres : b.result c.state.running.stack = none)
    (hcode : c'.code = if c.state.running.point = .user then c.called else c.code) :
    Less (c'.code c.state.running.stack, flow.point.left)
      (c.code c.state.running.stack, (c.state.point c.state.running.stack).left) := by
  have hcur := (hi.placed.exempt c.state.running.stack rfl).1
  have hpt : c.state.point c.state.running.stack = c.state.running.point := if_pos rfl
  rw [action] at he
  by_cases hu : c.state.running.point = .user
  · rw [if_pos hu] at he hcode
    rw [hcode]
    refine .left _ _ ((called_self hcur).resolve_left ?_)
    rintro ⟨v, hv⟩
    rw [hv] at he
    have hb : b.result (view c.state).current = _ :=
      he.result_eq fun hn => absurd hcur hn.not_lt
    rw [if_pos rfl, show b.result (view c.state).current = none from hres] at hb
    cases hb
  · rw [if_neg hu] at he hcode
    rw [hcode]
    exact .right _ (he.left_lt hi)

/-- **Every step of a program leaves less to be done**: it cuts one head off, and what grows
back is smaller. -/
theorem step_remaining (hg : c.state.Good) (hA : Allowed JoinOnce c.state c.action)
    (h : c.step = .ok c') : CutExpand Less c'.remaining c.remaining := by
  obtain ⟨hrun, hcode⟩ := step_ok h
  obtain ⟨-, flow, b, he, hs⟩ := (step_spec hg.wf hg.inv hA).ok hrun
  have hf := hs.frame
  have hcurA := hg.inv.placed.exempt c.state.running.stack rfl
  have hcur : b.current = c.state.running.stack := he.later.current
  have hres : (view c'.state).result = b.result := hf.result
  have hpt : c'.state.point = Function.update b.point c.state.running.stack flow.point := by
    rw [← hcur]
    exact hf.point
  have hn : c'.state.nthreads = b.nthreads := hf.nthreads
  refine cutExpand_heads hcurA.1 ?_ (if_pos hcurA.2) (fun t ht hne => ?_) (fun x hx => ?_)
    fun t hle hlt x hx => ?_
  · rcases he.threads with ⟨hb, -⟩ | ⟨hb, -⟩ <;> rw [hn, hb]
    · exact le_rfl
    · exact Nat.le_succ _
  · refine label_congr ?_ ?_ ?_
    · rw [hcode]
      split
      · exact called_of_ne hne ht.ne
      · rfl
    · have hrest := he.result_eq fun htn => absurd ht htn.not_lt
      rw [if_neg (show ¬t = (view c.state).current from hne)] at hrest
      rw [hres, hrest]
    · rw [hpt, Function.update_of_ne hne]
      exact (he.others hne ht.ne).1
  · obtain ⟨hr, rfl⟩ := eq_of_mem_label hx
    rw [hpt, Function.update_self]
    exact less_of_ran he hg.inv (hres ▸ hr) hcode
  · obtain ⟨hr, rfl⟩ := eq_of_mem_label hx
    rcases he.threads with ⟨hb, -⟩ | ⟨hb, hbp, content, hact⟩
    · exact absurd (hlt.trans_eq (hn.trans hb)) (Nat.not_lt.mpr hle)
    · -- The new thread is the one that a `qthread_create` has made.
      have htn : t = c.state.nthreads := by
        have hlt' : t < c.state.nthreads + 1 := hlt.trans_eq (hn.trans hb)
        omega
      rw [action] at hact
      by_cases hu : c.state.running.point = .user
      · rw [if_pos hu] at hact hcode
        rw [hcode, htn]
        exact .left _ _ (called_new (Action.call.inj hact))
      · rw [if_neg hu] at hact
        cases hact

end Running

/-- **Every program stops.** Whatever the program does with threads, mutexes, condition
variables, joins and sleeps, its run comes to a step that stops, if no thread is joined by two
threads or by itself. A reading of the clock behind the last one counts as a stop, so that
nothing is said here of how long the library waits for sleepers. -/
theorem run_ends {main : Program} {mem : Qthread} {clock : List ℤ} (hm : Zeroed mem)
    (hO : Running.Obeys JoinOnce main mem clock) :
    ∃ c e, Running.Follows main mem clock c ∧ c.step = .error e := by
  have hacc : Acc (fun c' c : Running => c.step = .ok c') (Running.start main mem clock) := by
    refine Runs.acc_of_run (I := Running.Follows main mem clock) (m := Running.remaining)
      Running.wellFounded_less.cutExpand .refl fun c c' hc hs => ⟨hc.tail hs, ?_⟩
    exact Running.step_remaining (Reachable.good (fun _ _ _ hD => hD) hm (hc.reachable hO))
      (hO c hc) hs
  obtain ⟨c, hc, hlast⟩ := Runs.exists_last hacc
  cases hs : c.step with
  | ok c' => exact absurd hs (hlast c')
  | error e => exact ⟨c, e, hc, hs⟩

/-! ### Programs that can be run -/

/-- The thread that calls `qthread_join` on the given one. -/
def Event.joins (u : Tid) : Event → Option Tid
  | .called j (.join v) => if v = u then some j else none
  | _ => none

/-- Whether a join obeys `JoinOnce` can be read off the trace. -/
theorem joinOnce_join_iff {t u : Tid} {trace : List Event} : JoinOnce t trace (.join u) ↔
    u ≠ t ∧ ∀ e ∈ trace, e.joins u = none ∨ e.joins u = some t := by
  refine and_congr_right fun _ => ⟨fun h e he => ?_, fun h j hj => ?_⟩
  · rw [Event.joins.eq_def]
    split
    · split
      case isTrue hv =>
        subst hv
        rw [h _ he]
        exact .inr rfl
      case isFalse => exact .inl rfl
    · exact .inl rfl
  · have hself : (Event.called j (.join u)).joins u = some j := if_pos rfl
    rcases h _ hj with hn | hs
    · rw [hself] at hn
      cases hn
    · exact Option.some.inj (hself.symm.trans hs)

/-- Whether a join keeps to the rule can be computed from the trace. -/
instance (t : Tid) (trace : List Event) (op : Op) : Decidable (JoinOnce t trace op) :=
  match op with
  | .join _ => decidable_of_iff _ joinOnce_join_iff.symm
  | .create _ _ | .yield | .exit _ | .finish _ | .usleep _ | .mutexCreate _ | .lock _
  | .unlock _ | .condCreate _ | .condWait _ _ | .signal _ | .broadcast _ => isTrue True.intro

namespace Running

variable {D : Discipline} [∀ t trace op, Decidable (D t trace op)]

/-- So can whether an action is allowed, for a discipline that can be computed. -/
instance (s : St) (act : Action) : Decidable (Allowed D s act) :=
  match act with
  | .call _ => inferInstanceAs (Decidable (D _ _ _))
  | .resume => isTrue True.intro

/-- The program keeps to the discipline from here on, and stops within the number of steps. -/
def obeysFor (D : Discipline) [∀ t trace op, Decidable (D t trace op)] : ℕ → Running → Bool
  | 0, _ => false
  | n + 1, c => decide (Allowed D c.state c.action) &&
      match c.step with
      | .ok c' => obeysFor D n c'
      | .error _ => true

/-- What a run checks of its steps holds all along it. -/
theorem obeys_of_obeysFor {n : ℕ} {main : Program} {mem : Qthread} {clock : List ℤ}
    (h : obeysFor D n (start main mem clock) = true) : Obeys D main mem clock := by
  intro c hc
  have hall : ∃ n, obeysFor D n c = true := by
    induction hc with
    | refl => exact ⟨n, h⟩
    | @tail c c' _ hs ih =>
        obtain ⟨n, hn⟩ := ih
        cases n with
        | zero => cases hn
        | succ n =>
            rw [obeysFor, hs, Bool.and_eq_true] at hn
            exact ⟨n, hn.2⟩
  obtain ⟨n, hn⟩ := hall
  cases n with
  | zero => cases hn
  | succ n =>
      rw [obeysFor, Bool.and_eq_true] at hn
      exact of_decide_eq_true hn.1

end Running

/-- A thread waits for the signal of another. -/
def signalOnce : Program := fun _ =>
  .ask ⟨.mutexCreate ⟨none, none, 0⟩, True.intro⟩ fun _ =>
  .ask ⟨.condCreate ⟨none, none, 0⟩, True.intro⟩ fun _ =>
  .spawn (true, some zeroMem)
    (fun _ => .ask ⟨.lock 0, True.intro⟩ fun _ => .ask ⟨.signal 0, True.intro⟩ fun _ =>
      .ask ⟨.unlock 0, True.intro⟩ fun _ => .done 1)
    fun _ => .ask ⟨.lock 0, True.intro⟩ fun _ => .ask ⟨.condWait 0 0, True.intro⟩ fun _ =>
      .ask ⟨.unlock 0, True.intro⟩ fun _ => .done 0

/-- The main thread waits, is signalled, and returns. -/
theorem run_ends_signalOnce : ∃ c e, Running.Follows signalOnce zeroMem [] c ∧
    c.step = .error e :=
  run_ends zeroed_zeroMem (Running.obeys_of_obeysFor (n := 20) (by decide +kernel))

end SystemsProjects.Qthreads
