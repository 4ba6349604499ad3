import Mathlib.Logic.Relation
import SystemsProjects.Library.Runs
import SystemsProjects.Shell.Stages

/-!
# Who Runs the Loop of `main`

A session: the processes that run the loop of `main`, and the children that have been forked
and not come to an end yet. Any of the processes in the loop may read a line, of any tokens,
or find the input at its end; any child may run its branch, under any failures of its calls.
A child that returns from the function that forked it is one more process in the loop.

Only the branch in `runRedirectExternal` can return, and it does when one of its four calls
fails.

## Main definitions

* `Session`, `Session.Step`.
* `Launch.Sound`: the child's calls go well as far as its branch depends on it.

## Main results

* `ends_iff`: when a child ends by running a program or by `exit`.
* `one_shell`: who runs the loop.
-/

namespace SystemsProjects.Shell

open Stateful Relation

/-! ### How a child ends -/

variable {p : Proc}

/-- A process that exits does not come back to the loop of the shell. -/
theorem exit_not_returns {α : Type} (status : ℤ) : ¬ Returns (exit status : Code α) p :=
  Returns.not_of_error rfl

/-- A branch that ends with a program or with `exit`. -/
theorem execvp_not_returns {command : Option Str} {args : Option (List (Option Str))}
    {f : ℤ → Code ℤ} (hf : ∀ p, ¬ Returns (f (-1)) p) :
    ¬ Returns (execvp command args >>= f) p := by
  cases h : p.failing .execvp with
  | true =>
      rw [Returns.bind_of_ok (execvp_fails h)]
      exact hf _
  | false => exact Returns.not_bind_of_error (execvp_run h)

/-- The child of `runExternal` exits where its `execvp` fails. -/
theorem externalChild_not_returns (cmd : Command Str) : ¬ Returns (externalChild cmd) p :=
  execvp_not_returns fun _ => exit_not_returns _

/-- So does the child of `runPipe`, on every path. -/
theorem pipeChild_not_returns (pipeInput pipeOutput : ℤ) (head : Command Str) :
    ¬ Returns (pipeChild pipeInput pipeOutput head) p := by
  rintro ⟨_, _, h⟩
  obtain ⟨_, _, -, h⟩ := bind_eq_ok.mp h
  obtain ⟨_, _, -, h⟩ := bind_eq_ok.mp h
  refine execvp_not_returns (fun _ => ?_) (.of_ok h)
  exact exit_not_returns _

/-- The four calls of the branch in `runRedirectExternal` go well: the file is opened, its
mode is set, the descriptor is copied, and the program runs. -/
structure CallsSucceed (p : Proc) (filename : Str) (redirect : Redirect) : Prop where
  openFile : p.fails .openFile p.calls = false
  found : redirect = .input → p.files filename ≠ none
  chmod : p.fails .chmod (p.calls + 1) = false
  dup2 : p.fails .dup2 (p.calls + 2) = false
  execvp : p.fails .execvp (p.calls + 3) = false

/-- Behind `open`, with a descriptor on the file. -/
theorem redirectRest_returns_iff {cmd : Command Str} {filename : Str} {fd : ℕ} (newfd : ℕ)
    {o : Open} {f : File} (hfd : p.fds.get fd = some o) (hf : p.files filename = some f) :
    Returns (redirectRest cmd filename fd newfd) p ↔
      p.fails .chmod p.calls ∨ p.fails .dup2 (p.calls + 1) ∨ p.fails .execvp (p.calls + 2) := by
  have hne : ¬ (fd : ℤ) = -1 := by omega
  have hne' : ¬ (newfd : ℤ) = -1 := by omega
  rw [redirectRest]
  by_cases hc : p.fails .chmod p.calls
  · rw [Returns.bind_of_ok (chmod_fails (.inl hc) _), if_pos rfl]
    exact iff_of_true .pure (.inl hc)
  · rw [Returns.bind_of_ok (chmod_run (eq_false_of_ne_true hc) hf _), if_neg (by decide),
      if_neg hne]
    by_cases hd : p.fails .dup2 (p.calls + 1)
    · rw [Returns.bind_of_ok (dup2_fails (by exact hd) _ _), if_pos rfl,
        Returns.bind_of_ok (close_run _)]
      exact iff_of_true .pure (.inr (.inl hd))
    · rw [Returns.bind_of_ok (dup2_run (by exact eq_false_of_ne_true hd)
          (by rwa [Proc.at_natCast]) _), if_neg hne', Returns.bind_of_ok (close_run _)]
      by_cases he : p.fails .execvp (p.calls + 2)
      · rw [Returns.bind_of_ok (execvp_fails (by exact he)), if_pos rfl]
        exact iff_of_true .pure (.inr (.inr he))
      · refine iff_of_false
          (Returns.not_bind_of_error (execvp_run (by exact eq_false_of_ne_true he))) ?_
        simp [hc, hd, he]

/-- Behind an `open` that failed. -/
theorem redirectRest_returns (cmd : Command Str) (filename : Str) (newfd : ℤ) :
    Returns (redirectRest cmd filename (-1) newfd) p := by
  rw [redirectRest]
  cases hrun : chmod filename mode0644 p with
  | ok r p' =>
      rw [Returns.bind_of_ok hrun]
      split
      · exact .pure
      · exact .pure
  | error e p' =>
      simp only [chmod] at hrun
      split at hrun
      · cases hrun
      · split at hrun <;> cases hrun

/-- With the file open, the other three calls are left. -/
theorem not_callsSucceed_iff {filename : Str} {redirect : Redirect}
    (ho : ¬ p.fails .openFile p.calls) (hf : redirect = .input → p.files filename ≠ none) :
    p.fails .chmod (p.calls + 1) ∨ p.fails .dup2 (p.calls + 2) ∨ p.fails .execvp (p.calls + 3) ↔
      ¬ CallsSucceed p filename redirect := by
  rw [← not_iff_not, not_not]
  constructor
  · intro h
    obtain ⟨hc, h⟩ := not_or.mp h
    obtain ⟨hd, he⟩ := not_or.mp h
    exact ⟨eq_false_of_ne_true ho, hf, eq_false_of_ne_true hc, eq_false_of_ne_true hd,
      eq_false_of_ne_true he⟩
  · intro h
    simp [h.chmod, h.dup2, h.execvp]

/-- A child of `runRedirectExternal` returns exactly when one of its calls fails. -/
theorem redirectChild_returns_iff (cmd : Command Str) (filename : Str) (redirect : Redirect) :
    Returns (redirectChild cmd filename redirect) p ↔ ¬ CallsSucceed p filename redirect := by
  cases redirect with
  | input =>
      rw [redirectChild]
      by_cases ho : p.fails .openFile p.calls ∨ p.files filename = none
      · rw [Returns.bind_of_ok (openRead_fails ho)]
        refine iff_of_true (redirectRest_returns _ _ _) fun h => ?_
        rcases ho with ho | ho
        · simp [h.openFile] at ho
        · exact h.found rfl ho
      · obtain ⟨ho, hf⟩ := not_or.mp ho
        obtain ⟨f, hf'⟩ := Option.ne_none_iff_exists'.mp hf
        rw [Returns.bind_of_ok (openRead_run (eq_false_of_ne_true ho) hf)]
        exact (redirectRest_returns_iff (p := p.called.newFd (.reading filename)) 0
          (Slots.get_set_self _ _) hf').trans (not_callsSucceed_iff ho fun _ => hf)
  | output =>
      rw [redirectChild]
      by_cases ho : p.fails .openFile p.calls
      · rw [Returns.bind_of_ok (openWrite_fails ho)]
        refine iff_of_true (redirectRest_returns _ _ _) fun h => ?_
        simp [h.openFile] at ho
      · rw [Returns.bind_of_ok (openWrite_run (eq_false_of_ne_true ho))]
        exact (redirectRest_returns_iff
          (p := { p.called.newFd (.writing filename) with
            files := fun q => if q = filename then
              some ⟨((p.files filename).map File.mode).getD p.created, []⟩ else p.files q })
          1 (Slots.get_set_self _ _) (if_pos rfl)).trans (not_callsSucceed_iff ho nofun)

/-- The calls of a child go well as far as how it ends depends on them. Only the branch of
`runRedirectExternal` comes back behind a call that has failed. -/
def Launch.Sound (l : Launch) (p : Proc) : Prop :=
  match l with
  | .redirect _ filename r => CallsSucceed p filename r
  | .external _ | .pipe .. => True

/-- A child ends by running a program or by `exit` exactly when its calls go well. -/
theorem ends_iff (l : Launch) (p : Proc) :
    (∃ e p', l.code p = .error e p') ↔ l.Sound p := by
  have hend : (∃ e p', l.code p = .error e p') ↔ ¬ Returns l.code p := by
    cases h : l.code p with
    | ok x p' => simp [Returns, h]
    | error e p' => simp [Returns, h]
  rw [hend]
  cases l with
  | external cmd => exact iff_of_true (externalChild_not_returns cmd) trivial
  | pipe pipeInput pipeOutput cmd =>
      exact iff_of_true (pipeChild_not_returns pipeInput pipeOutput cmd) trivial
  | redirect cmd filename redirect =>
      rw [Launch.code, redirectChild_returns_iff, not_not]
      rfl

/-! ### The session -/

/-- The processes in the loop of `main`, the children that have not ended, and how many
processes have left the loop. -/
structure Session where
  shells : List ShellState
  running : List Child
  left : ℕ

/-- What happens next: a process in the loop reads a line, or finds the input at its end; a
child runs its branch, as a process with the given files and failures. -/
inductive Event
  | line (tokens : List Str)
  | eof
  | child (l : Launch) (p : Proc)

/-- One event. A child that returns goes on in the loop, with the descriptors it has and
what it has in memory from its parent, which is left open here. -/
inductive Session.Step : Session → Event → Session → Prop
  | line {l l' : List ShellState} {s s' : ShellState} {r : List Child} {n : ℕ}
      {tokens : List Str} {pipeFD : ℤ × ℤ} (h : runTokens tokens pipeFD s = .ok () s') :
      Step ⟨l ++ s :: l', r, n⟩ (.line tokens)
        ⟨l ++ s' :: l', r ++ s'.children.drop s.children.length, n⟩
  | halt {l l' : List ShellState} {s s' : ShellState} {r : List Child} {n : ℕ}
      {tokens : List Str} {pipeFD : ℤ × ℤ} {e : Halt}
      (h : runTokens tokens pipeFD s = .error e s') :
      Step ⟨l ++ s :: l', r, n⟩ (.line tokens)
        ⟨l ++ l', r ++ s'.children.drop s.children.length, n + 1⟩
  | eof {l l' : List ShellState} {s : ShellState} {r : List Child} {n : ℕ} :
      Step ⟨l ++ s :: l', r, n⟩ .eof ⟨l ++ l', r, n + 1⟩
  | ends {l : List ShellState} {r r' : List Child} {c : Child} {p p' : Proc} {n : ℕ} {e : End}
      (hp : p.fds = c.fds) (h : c.launch.code p = .error e p') :
      Step ⟨l, r ++ c :: r', n⟩ (.child c.launch p) ⟨l, r ++ r', n⟩
  | returns {l : List ShellState} {r r' : List Child} {c : Child} {p p' : Proc} {n : ℕ} {x : ℤ}
      {t : ShellState} (hp : p.fds = c.fds) (h : c.launch.code p = .ok x p')
      (ht : t.fds = p'.fds) :
      Step ⟨l, r ++ c :: r', n⟩ (.child c.launch p) ⟨l ++ [t], r ++ r', n⟩

/-- In this event the calls of the child that runs go well. -/
def Event.Sound : Event → Prop
  | child l p => l.Sound p
  | line _ | eof => True

/-- An event in which the calls of the child go well. -/
def Session.SoundStep (S S' : Session) : Prop := ∃ e : Event, e.Sound ∧ Step S e S'

/-- Such an event leaves the number of processes that are or were in the loop as it is. -/
theorem Session.SoundStep.count {S S' : Session} (h : SoundStep S S') :
    S'.shells.length + S'.left = S.shells.length + S.left := by
  obtain ⟨e, hsound, hstep⟩ := h
  cases hstep with
  | line => simp
  | halt =>
      simp only [List.length_append, List.length_cons]
      omega
  | eof =>
      simp only [List.length_append, List.length_cons]
      omega
  | ends => rfl
  | returns _ hcode _ =>
      obtain ⟨_, _, herr⟩ := (ends_iff _ _).mpr hsound
      cases hcode.symm.trans herr

/-- A child ends by running a program or by `exit` exactly when its calls go well; and in a
session in which they do, one process runs the loop, up to the end of the session. -/
theorem one_shell (s : ShellState) :
    (∀ l p, (∃ e p', Launch.code l p = .error e p') ↔ l.Sound p) ∧
      ∀ S, ReflTransGen Session.SoundStep ⟨[s], [], 0⟩ S → S.shells.length + S.left = 1 := by
  refine ⟨ends_iff, fun S h => ?_⟩
  exact Runs.invariant_of_run (I := fun S => S.shells.length + S.left = 1) h rfl
    fun S S' hS hstep => hstep.count.trans hS

/-- The line `cat <f`, where there is no file `f`: the child comes back, and two processes
run the loop. -/
theorem stray_shell :
    ∃ S, ReflTransGen (fun S S' => ∃ e, Session.Step S e S') ⟨[started], [], 0⟩ S ∧
      S.shells.length + S.left = 2 := by
  let cat : Command Str :=
    ⟨some ['c', 'a', 't'], some [some ['c', 'a', 't'], none], some ['f'], none, 0, none, none,
      0, 1⟩
  have hc : commandsOf id started.heap.cells started.heap.size [['c', 'a', 't'], ['<'], ['f']] =
      [cat] := by
    simp [commandsOf, fill, splitter, setter, isOperator, Command.init, started, cat]
  obtain ⟨h, -, -, hrun⟩ := runCommands_single hc (0, 0)
  have hcalm : Calm { started with heap := h } := ⟨fun _ => rfl, fun _ => rfl⟩
  rw [runStages_single rfl rfl (by simp) (by decide), standaloneCommand_external rfl (by decide),
    if_pos (by simp), run_bind_ok (runRedirectExternal_run hcalm.fork rfl)] at hrun
  have hline : runTokens [['c', 'a', 't'], ['<'], ['f']] (0, 0) started = .ok () _ :=
    run_bind_ok hrun
  let p : Proc := ⟨standard, fun _ => none, 0, fun _ _ => false, 0⟩
  have hchild : (Launch.redirect cat ['f'] .input).code p = .ok 1 { p with calls := 2 } := rfl
  have hstep := @Session.Step.line [] [] started _ [] 0 _ _ hline
  have hend (s : ShellState) := @Session.Step.returns [s] [] []
    ⟨1, .redirect cat ['f'] .input, standard⟩ p _ 0 1 started rfl hchild rfl
  exact ⟨_, .tail (.tail .refl ⟨_, hstep⟩) ⟨_, hend _⟩, rfl⟩

end SystemsProjects.Shell
