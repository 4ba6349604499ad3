import SystemsProjects.Shell.Alone
import SystemsProjects.Shell.Children

/-!
# What a Line Leaves Behind in the Shell

The descriptors that the shell has behind a line, and the children that it has not waited
for. Of the pipes of a line the shell gives up the read end of the last one only, and of the
children of a line that is left early it waits for none.

## Main definitions

* `CleanedUp`: the shell is left with the descriptors it had, and has waited for its children.
* `ClosesEnds`: the lists of commands behind which it is.

## Main results

* `cleans_up_iff`: when the shell cleans up.
-/

namespace SystemsProjects.Shell

open Stateful

variable {s s' t : ShellState} {c d : Command Str} {cs : List (Command Str)}

/-- The shell has the descriptors it had, and every child it forked has been waited for
once. -/
structure CleanedUp (s s' : ShellState) : Prop where
  fds : ∀ k, s'.fds.get k = s.fds.get k
  waited : ∃ l, s'.children = s.children ++ l ∧ s'.waited = s.waited ++ l.map Child.pid ∧
    (l.map Child.pid).Nodup

/-- No child has been forked. -/
theorem CleanedUp.of_no_child (hf : s'.fds = s.fds) (hc : s'.children = s.children)
    (hw : s'.waited = s.waited) : CleanedUp s s' :=
  ⟨fun _ => by rw [hf], [], by simpa using hc, by simpa using hw, List.nodup_nil⟩

/-- A command alone leaves nothing behind. -/
theorem cleanedUp_launched (s : ShellState) (l : Option Launch) : CleanedUp s (s.launched l) := by
  cases l with
  | none => exact .of_no_child rfl rfl rfl
  | some l => exact ⟨fun _ => rfl, [s.child l], rfl, rfl, List.pairwise_singleton _ _⟩

/-- A line with one command leaves nothing behind. -/
theorem one_cleans_up (h : Calm s) {tokens : List Str}
    (hcs : commandsOf id s.heap.cells s.heap.size tokens = [c]) (pipeFD : ℤ × ℤ) :
    Ends (runCommands tokens pipeFD) s (fun _ s' => CleanedUp s s')
      (fun e _ => ∃ n, e = .exit n) := by
  obtain ⟨mem, hrun⟩ := runCommands_one hcs pipeFD
  rw [Ends, hrun]
  change Ends _ { s with heap := mem } _ _
  cases hc : c.command with
  | none =>
      rw [if_pos rfl]
      exact .pure (.of_no_child rfl rfl rfl)
  | some w =>
      rw [if_neg (Option.some_ne_none w)]
      split
      · exact .pure (.of_no_child rfl rfl rfl)
      cases hw : isBuiltin w with
      | true =>
          refine (standaloneCommand_builtin hc hw).mono (fun _ t ht => ?_) fun _ _ ht => ht.2
          exact .of_no_child ht.fds ht.children ht.waited
      | false =>
          have hcalm : Calm { s with heap := mem } := h.of_fails rfl
          obtain ⟨x, hx⟩ := standaloneCommand_launch hcalm.fork hc hw
          have hclean := cleanedUp_launched { s with heap := mem } (launchOf c)
          exact .of_ok hx ⟨hclean.fds, hclean.waited⟩

/-- The lists of commands behind which the shell cleans up. -/
def ClosesEnds : List (Command Str) → Prop
  | [] | [_] => True
  | [c, d] => c.command = none ∨ d.command ≠ none
  | c :: _ => c.command = none

/-- A read end that is left over. -/
theorem not_cleanedUp {r : ℕ} (hr : s.fds.get r = none) (h : s'.fds.get r ≠ none) :
    ¬ CleanedUp s s' :=
  fun hclean => h ((hclean.fds r).trans hr)

/-- The first read end is left over, unless the second command is the last one and is run. -/
theorem kept_readEnd {l : Launch} (h : Staged s.readEnd cs (s.spawned l) t)
    (hl : cs.length ≠ 1 ∨ ∃ c ∈ cs, c.command = none) : t.fds.get s.readEnd ≠ none := by
  have hget : (s.spawned l).fds.get s.readEnd = some (.pipeRead s.pipes) := by
    rw [ShellState.get_spawned, if_pos rfl]
  rw [h.kept s.readEnd (by rw [hget]; exact Option.some_ne_none _) (.inr hl), hget]
  exact Option.some_ne_none _

/-- Behind a pipeline that returns. -/
theorem pipeline_cleans_up_iff {pipeFD : ℤ × ℤ} {l : Launch}
    (hst : Staged s.readEnd (d :: cs) (s.spawned l) t)
    (hret : Returned (c :: d :: cs) s t s' pipeFD) (hc : c.command ≠ none) :
    CleanedUp s s' ↔ cs = [] ∧ d.command ≠ none := by
  rcases hret with ⟨⟨e, he, hnone⟩, rfl⟩ | ⟨v', hcomp, rfl⟩
  · have he : e ∈ d :: cs := (List.mem_cons.mp he).resolve_left (by rintro rfl; exact hc hnone)
    refine iff_of_false (not_cleanedUp s.get_readEnd (kept_readEnd hst (.inr ⟨e, he, hnone⟩))) ?_
    rintro ⟨rfl, hd⟩
    rw [List.mem_singleton.mp he] at hnone
    exact hd hnone
  · by_cases hcs : cs = []
    · subst hcs
      refine iff_of_true ⟨hcomp.restored rfl, _, hcomp.children, ?_, ?_⟩
        ⟨rfl, hcomp.nonempty d (by simp)⟩
      · exact congrArg (· ++ _) hst.untouched.waited
      · rw [pid_stageChildren]
        exact List.nodup_range'
    · have hlen : (d :: cs).length ≠ 1 := by
        rwa [Ne, List.length_cons, Nat.succ_inj, List.length_eq_zero_iff]
      have hkept : t.fds.get s.readEnd ≠ none := kept_readEnd hst (.inl hlen)
      exact iff_of_false (not_cleanedUp s.get_readEnd (by exact hkept)) fun h => hcs h.1

/-- A line with two or more commands, of which the first is run. -/
theorem pipeline_ends_iff (h : Calm s) {tokens : List Str}
    (hcs : commandsOf id s.heap.cells s.heap.size tokens = c :: d :: cs) (hc : c.command ≠ none)
    (pipeFD : ℤ × ℤ) :
    Ends (runCommands tokens pipeFD) s (fun _ s' => CleanedUp s s')
        (fun e _ => ∃ n, e = .exit n) ↔ cs = [] ∧ d.command ≠ none := by
  obtain ⟨c', d', cs', mem, hmap, hends⟩ := runCommands_pipeline h hcs hc pipeFD
  simp only [List.map_cons, List.cons.injEq] at hmap
  obtain ⟨rfl, rfl, rfl⟩ := hmap
  rw [List.map_eq_nil_iff]
  cases hrun : runCommands tokens pipeFD s with
  | ok x s' =>
      obtain ⟨t, hst, hret⟩ := hends.ok hrun
      have hiff := pipeline_cleans_up_iff (s := { s with heap := mem }) hst hret hc
      rw [Ends, hrun]
      exact ⟨fun h => hiff.mp ⟨h.fds, h.waited⟩, fun h => ⟨(hiff.mpr h).fds, (hiff.mpr h).waited⟩⟩
  | error e s' =>
      obtain ⟨-, rfl, hfull⟩ := hends.error hrun
      rw [Ends, hrun]
      refine iff_of_false (by rintro ⟨n, ⟨⟩⟩) ?_
      rintro ⟨rfl, -⟩
      simp at hfull

/-- The shell cleans up behind a line exactly when there is at most one command, or the first
one is empty, or there are two that are run. -/
theorem cleans_up_iff (h : Calm s) (tokens : List Str) (pipeFD : ℤ × ℤ) :
    Ends (runCommands tokens pipeFD) s (fun _ s' => CleanedUp s s')
        (fun e _ => ∃ n, e = .exit n) ↔
      ClosesEnds (commandsOf id s.heap.cells s.heap.size tokens) := by
  match hcs : commandsOf id s.heap.cells s.heap.size tokens with
  | [] =>
      obtain ⟨x, mem, hrun⟩ := runCommands_empty (by rw [hcs]; exact fun c hc => by cases hc) pipeFD
      exact iff_of_true (.of_ok hrun (.of_no_child rfl rfl rfl)) trivial
  | [c] => exact iff_of_true (one_cleans_up h hcs pipeFD) trivial
  | c :: d :: cs =>
      by_cases hc : c.command = none
      · obtain ⟨x, mem, hrun⟩ := runCommands_empty (by rw [hcs]; rintro e ⟨⟩; exact hc) pipeFD
        refine iff_of_true (.of_ok hrun (.of_no_child rfl rfl rfl)) ?_
        cases cs with
        | nil => exact .inl hc
        | cons e cs => exact hc
      · rw [pipeline_ends_iff h hcs hc]
        cases cs <;> simp [ClosesEnds, hc]

/-- The line `a | b`, in a shell that has just been started. -/
theorem cleans_up_two :
    Ends (runCommands [['a'], ['|'], ['b']] (0, 0)) started (fun _ s' => CleanedUp started s')
      (fun e _ => ∃ n, e = .exit n) := by
  refine (cleans_up_iff calm_started _ _).mpr ?_
  simp [commandsOf, fill, splitter, setter, isOperator, Command.init, ClosesEnds]

/-- The line `a | b | c`: the read end of the first pipe is left over. -/
theorem not_cleans_up : ¬ ∀ (s : ShellState) (tokens : List Str) (pipeFD : ℤ × ℤ), Calm s →
    Ends (runCommands tokens pipeFD) s (fun _ s' => CleanedUp s s')
      (fun e _ => ∃ n, e = .exit n) := by
  intro h
  have hends := h started [['a'], ['|'], ['b'], ['|'], ['c']] (0, 0) calm_started
  have hcs : commandsOf id started.heap.cells started.heap.size
      [['a'], ['|'], ['b'], ['|'], ['c']] = [bare ['a'], bare ['b'], bare ['c']] := by
    simp [commandsOf, fill, splitter, setter, isOperator, Command.init, started, bare]
  cases ((pipeline_ends_iff calm_started hcs (Option.some_ne_none _) _).mp hends).1

end SystemsProjects.Shell
