import SystemsProjects.Shell.Stages

/-!
# A Line with One Command

A list of one command never comes to the branches with pipes. A built-in is run in the shell
itself; another command gets one child, of the kind its redirections and the field
`redirect` ask for, or none.

## Main definitions

* `launchOf`: the child that a command alone gets.

## Main results

* `runCommands_one`: what becomes of the line.
* `standaloneCommand_builtin`, `standaloneCommand_launch`: the command is run.
-/

namespace SystemsProjects.Shell

open Stateful

variable {s s' : ShellState} {c : Command Str} {w : Str}

/-! ### The loop over one command -/

/-- A command that is marked with `&&` and has nothing behind it comes to no branch. -/
theorem runStage_marked (hp : c.prev = none) (hn : c.next = none) (hm : c.nextPipe = 1)
    (v : Locals) : runStage c v = pure v := by
  have h₁ : ¬ (c.next = none ∧ c.prev = none ∧ c.nextPipe ≠ 1) := fun h => h.2.2 hm
  have h₂ : ¬ (c.next ≠ none ∧ c.prev = none) := fun h => h.1 hn
  have h₃ : ¬ (c.next ≠ none ∧ c.prev ≠ none) := fun h => h.1 hn
  have h₄ : ¬ (c.next = none ∧ c.prev ≠ none) := fun h => h.2 hp
  rw [runStage, if_neg h₁, if_neg h₂, if_neg h₃, if_neg h₄]

/-- A command that is linked to no other is the command without its links. -/
theorem Command.unlinked_eq (hn : c.next = none) (hp : c.prev = none) : c.unlinked = c := by
  cases c
  simp only at hn hp
  rw [Command.unlinked, hn, hp]

/-- A line with one command. -/
theorem runCommands_one {tokens : List Str}
    (hcs : commandsOf id s.heap.cells s.heap.size tokens = [c]) (pipeFD : ℤ × ℤ) :
    ∃ mem, runCommands tokens pipeFD s =
      (if c.command = none then pure 1
        else if c.nextPipe = 1 then pure 0
        else standaloneCommand c) { s with heap := mem } := by
  obtain ⟨mem, hn, hp, hrun⟩ := runCommands_single hcs pipeFD
  refine ⟨mem, hrun.trans ?_⟩
  by_cases hc : c.command = none
  · rw [if_pos hc, runStages, if_pos hc]
    rfl
  · rw [if_neg hc]
    by_cases hm : c.nextPipe = 1
    · rw [if_pos hm, runStages, if_neg hc, runStage_marked hp hn hm]
      rfl
    · rw [if_neg hm]
      exact runStages_single hn hp hc hm pipeFD

/-! ### Built-ins -/

/-- A built-in leaves descriptors and children alone. -/
structure RanBuiltin (w : Str) (s s' : ShellState) : Prop where
  fds : s'.fds = s.fds
  children : s'.children = s.children
  waited : s'.waited = s.waited
  builtins : s'.builtins = s.builtins ++ [w]

/-- What `runcd` returns. -/
def cdStatus (c : Command Str) (s : ShellState) : ℤ :=
  if (arguments c).length ≥ 2 ∨ s.failing .chdir then 1 else 0

/-- `runcd` always returns its status, and all it changes is where the shell is. -/
theorem runcd_run (c : Command Str) (s : ShellState) :
    ∃ n, runcd c s = .ok (cdStatus c s)
      { s with builtins := s.builtins ++ [['c', 'd']], calls := n } := by
  have hran : ran ['c', 'd'] s = .ok () { s with builtins := s.builtins ++ [['c', 'd']] } := rfl
  by_cases ha : (arguments c).length ≥ 2
  · refine ⟨s.calls, (run_bind_ok hran).trans ((congrFun (if_pos ha) _).trans ?_)⟩
    rw [cdStatus, if_pos (.inl ha)]
    rfl
  · refine ⟨s.calls + 1, (run_bind_ok hran).trans ((congrFun (if_neg ha) _).trans ?_)⟩
    have hiff : (arguments c).length ≥ 2 ∨ s.failing .chdir ↔ s.failing .chdir :=
      or_iff_right ha
    simp only [cdStatus, hiff]
    rfl

/-- A built-in is run in the shell, and only `exit` stops it. -/
theorem standaloneCommand_builtin (hc : c.command = some w) (hw : isBuiltin w = true) :
    Ends (standaloneCommand c) s (fun _ s' => RanBuiltin w s s')
      (fun e s' => RanBuiltin w s s' ∧ ∃ n, e = .exit n) := by
  simp only [isBuiltin, Bool.or_eq_true, decide_eq_true_eq] at hw
  rw [standaloneCommand, hc]
  rcases hw with (rfl | rfl) | rfl
  · exact .of_ok rfl ⟨rfl, rfl, rfl, rfl⟩
  · obtain ⟨n, hcd⟩ := runcd_run c s
    rw [if_neg (by decide), if_pos rfl]
    exact .step hcd (.of_ok rfl ⟨rfl, rfl, rfl, rfl⟩)
  · rw [if_neg (by decide), if_neg (by decide), if_pos rfl, runexit]
    rcases arguments c with _ | ⟨_, _ | ⟨_, _⟩⟩
    · exact .of_error rfl ⟨⟨rfl, rfl, rfl, rfl⟩, _, rfl⟩
    · exact .of_error rfl ⟨⟨rfl, rfl, rfl, rfl⟩, _, rfl⟩
    · exact .of_ok rfl ⟨rfl, rfl, rfl, rfl⟩

/-! ### Programs -/

/-- The child that a command alone gets, if it gets one. -/
def launchOf (c : Command Str) : Option Launch :=
  if c.output ≠ none ∨ c.input ≠ none then
    (redirection c).map fun fr => .redirect c fr.1 fr.2
  else if c.redirect = 0 then none
  else some (.external c)

/-- The child runs the command. -/
theorem cmd_launchOf {l : Launch} (h : launchOf c = some l) : l.cmd = c := by
  rw [launchOf] at h
  split at h
  · obtain ⟨_, _, rfl⟩ := Option.map_eq_some_iff.mp h
    rfl
  · split at h
    · cases h
    · cases h
      rfl

/-- The text in `qbuf` behind a child: `runRedirectExternal` leaves it as it is. -/
def Launch.qbuf (l : Launch) (status : ℕ) (qbuf : Str) : Str :=
  match l with
  | external _ => if wifexited status then decimal (wexitstatus status) else qbuf
  | _ => qbuf

/-- The state behind a command alone: its child has been forked and waited for. -/
def ShellState.launched (s : ShellState) : Option Launch → ShellState
  | none => s
  | some l =>
      { s.called.forked l with
        waited := s.waited ++ [s.children.length + 1]
        qbuf := l.qbuf (s.status (s.children.length + 1)) s.qbuf }

/-- A command that is not built in. -/
theorem standaloneCommand_launch (h : s.Forks) (hc : c.command = some w)
    (hw : isBuiltin w = false) :
    ∃ x, standaloneCommand c s = .ok x (s.launched (launchOf c)) := by
  rw [standaloneCommand_external hc hw, launchOf]
  split
  · cases hr : redirection c with
    | none =>
        refine ⟨0, run_bind_ok (a := 1) ?_⟩
        rw [runRedirectExternal, hr]
        rfl
    | some fr => exact ⟨0, run_bind_ok (runRedirectExternal_run h hr)⟩
  · split
    · rename_i hr
      refine ⟨1, ?_⟩
      rw [runExternal, if_pos hr]
      rfl
    · rename_i hr
      exact ⟨_, runExternal_run h hr⟩

end SystemsProjects.Shell
