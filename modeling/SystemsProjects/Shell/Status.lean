import Mathlib.Logic.Relation
import SystemsProjects.Library.Runs
import SystemsProjects.Shell.Execution

/-!
# The Status of a Line

What is in `qbuf` behind a line, and what the line has exited with. `runExternal`, the loop
of `runPipeline` over its children, and `standaloneCommand` for `cd` and `exit` write the
status there; `pwd` and a command with a redirection leave what was there before.

Pipes may fail here: the status of a pipeline does not depend on them.

## Main definitions

* `lineStatus`: what a line has exited with.
* `Reports`: the lines behind which `qbuf` has that status.
* `Prompt.Step`: a line is read and run.

## Main results

* `runStages_forks`: the children of a pipeline.
* `status_shown`: when `qbuf` has the status of the last line.
-/

namespace SystemsProjects.Shell

open Stateful Relation

variable {s s' s'' : ShellState} {c d : Command Str} {cs : List (Command Str)} {w : Str}
variable {v v' : Locals}

/-! ### The children of a pipeline, whatever becomes of the pipes -/

/-- Children have been forked, and their numbers are in `childPids`. -/
structure Forked (l : List Child) (s s' : ShellState) (v v' : Locals) : Prop where
  children : s'.children = s.children ++ l
  status : s'.status = s.status
  fails : s'.fails = s.fails
  childPids : v'.childPids = v.childPids ++ pidsOf l
  fits : v'.childPids.length ≤ 32

/-- Nothing has been forked. -/
structure Quiet (s s' : ShellState) : Prop where
  children : s'.children = s.children
  status : s'.status = s.status
  fails : s'.fails = s.fails

/-- `pipe` may fail here, and in either case forks nothing. -/
theorem pipe_quiet (pipeFD : ℤ × ℤ) (s : ShellState) :
    ∃ x s', pipe pipeFD s = .ok x s' ∧ Quiet s s' := by
  rw [pipe]
  split
  · exact ⟨_, _, rfl, rfl, rfl, rfl⟩
  · exact ⟨_, _, rfl, rfl, rfl, rfl⟩

/-- Nor does `close`, whatever the number. -/
theorem closeFd_quiet (fd : ℤ) (s : ShellState) :
    ∃ s', closeFd fd s = .ok () s' ∧ Quiet s s' := by
  rw [closeFd]
  split
  · exact ⟨_, rfl, rfl, rfl, rfl⟩
  · exact ⟨_, rfl, rfl, rfl, rfl⟩

/-- A fork between calls that fork nothing. -/
theorem Forked.of_quiet {t u : ShellState} {l : Launch} {u' : Locals} (h : Quiet s t)
    (h' : Quiet (t.called.forked l) u) (hv : v.childPids.length < 32)
    (hpid : u'.childPids = v.childPids ++ [((t.children.length + 1 : ℕ) : ℤ)]) :
    Forked [t.child l] s u v u' where
  children := by
    rw [h'.children, ← h.children]
    rfl
  status := h'.status.trans h.status
  fails := h'.fails.trans h.fails
  childPids := hpid
  fits := by
    rw [hpid, List.length_append]
    exact hv

/-- A stage of a pipeline forks one child. -/
theorem runStage_forks (h : s.Forks) (hpos : c.next ≠ none ∨ c.prev ≠ none) :
    Ends (runStage c v) s (fun v' s' => ∃ a, Forked [a] s s' v v')
      (fun e _ => e = .childPids ∧ 32 ≤ v.childPids.length) := by
  have h₁ : ¬ (c.next = none ∧ c.prev = none ∧ c.nextPipe ≠ 1) :=
    fun h => hpos.elim (· h.1) (· h.2.1)
  rw [runStage, if_neg h₁]
  obtain ⟨pipeFD, t, hpipe, ht⟩ := pipe_quiet v.pipeFD s
  have hforks : t.Forks := by
    rw [ShellState.Forks, ht.fails]
    exact h
  split
  · refine .step hpipe (.step (runPipe_run hforks _ _) ?_)
    obtain ⟨u, hclose, hu⟩ := closeFd_quiet pipeFD.2
      (t.called.forked (.pipe (-1) pipeFD.2 c))
    refine .step hclose ?_
    by_cases hlt : v.childPids.length < 32
    · exact .of_ok (addChild_run (by exact hlt) _) ⟨_, .of_quiet ht hu hlt rfl⟩
    · exact .of_error (addChild_full (by exact hlt) _) ⟨rfl, Nat.not_lt.mp hlt⟩
  split
  · refine .step hpipe (.step (runPipe_run hforks _ _) ?_)
    by_cases hlt : v.childPids.length < 32
    · refine .step (addChild_run (by exact hlt) _) ?_
      obtain ⟨u, hclose, hu⟩ := closeFd_quiet pipeFD.2
        (t.called.forked (.pipe v.previousPipeReadEnd pipeFD.2 c))
      exact .step hclose (.of_ok rfl ⟨_, .of_quiet ht hu hlt rfl⟩)
    · exact .of_error (run_bind_error (addChild_full (by exact hlt) _))
        ⟨rfl, Nat.not_lt.mp hlt⟩
  split
  · refine .step (runPipe_run h _ _) ?_
    by_cases hlt : v.childPids.length < 32
    · refine .step (addChild_run hlt _) ?_
      obtain ⟨u, hclose, hu⟩ := closeFd_quiet v.previousPipeReadEnd
        (s.called.forked (.pipe v.previousPipeReadEnd (-1) c))
      exact .step hclose (.of_ok rfl ⟨_, .of_quiet ⟨rfl, rfl, rfl⟩ hu hlt rfl⟩)
    · exact .of_error (run_bind_error (addChild_full hlt _)) ⟨rfl, Nat.not_lt.mp hlt⟩
  · tauto

/-- Children forked in two stretches are forked one after the other. -/
theorem Forked.append {l m : List Child} {v'' : Locals} (h : Forked l s s' v v')
    (h' : Forked m s' s'' v' v'') : Forked (l ++ m) s s'' v v'' where
  children := by rw [h'.children, h.children, List.append_assoc]
  status := h'.status.trans h.status
  fails := h'.fails.trans h.fails
  childPids := by
    rw [h'.childPids, h.childPids, List.append_assoc, pidsOf, pidsOf, pidsOf, List.map_append]
  fits := h'.fits

/-- The loop forks a child for every command. -/
theorem runStages_forks (h : s.Forks) {first : Bool} (hpos : Positioned first cs)
    (hlen : first = true → cs.length ≠ 1) (hne : ∀ c ∈ cs, c.command ≠ none)
    (hv : v.childPids.length ≤ 32) :
    Ends (runStages cs v) s
      (fun o s' => ∃ v' l, o = some v' ∧ l.length = cs.length ∧ Forked l s s' v v')
      (fun e _ => e = .childPids ∧ 32 < v.childPids.length + cs.length) := by
  induction cs generalizing s v first with
  | nil => exact .of_ok rfl ⟨v, [], rfl, rfl, by simp, rfl, rfl, by simp [pidsOf], hv⟩
  | cons c rest ih =>
      obtain ⟨hprev, hnext, hrest⟩ := hpos
      have hbranch : c.next ≠ none ∨ c.prev ≠ none := by
        cases first with
        | true =>
            refine .inl fun h => hlen rfl ?_
            rw [hnext.mp h]
            rfl
        | false => exact .inr fun h => absurd (hprev.mp h) Bool.false_ne_true
      rw [runStages, if_neg (hne c List.mem_cons_self)]
      refine Ends.bind ((runStage_forks h hbranch).mono (fun _ _ h => h) ?_) ?_
      · rintro e _ ⟨he, hfull⟩
        exact ⟨he, by rw [List.length_cons]; omega⟩
      · rintro v' t ⟨a, hforked⟩
        have hforks : t.Forks := by
          rw [ShellState.Forks, hforked.fails]
          exact h
        have hlen' : v'.childPids.length = v.childPids.length + 1 := by
          rw [hforked.childPids, List.length_append]
          rfl
        have hne' : ∀ c ∈ rest, c.command ≠ none :=
          fun c hc => hne c (List.mem_cons_of_mem _ hc)
        refine (ih hforks hrest (absurd · Bool.false_ne_true) hne' hforked.fits).mono ?_ ?_
        · rintro o u ⟨v'', l, ho, hl, hforked'⟩
          exact ⟨v'', a :: l, ho, by rw [List.length_cons, hl]; rfl, hforked.append hforked'⟩
        · rintro e _ ⟨he, hfull⟩
          exact ⟨he, by rw [List.length_cons]; omega⟩

/-- What a line of two or more commands has done: each of them has a child, and `qbuf` has the
status of the last one. -/
structure ReportsLast (n : ℕ) (s s' : ShellState) : Prop where
  last : ∃ l a, s'.children = s.children ++ l ∧ l.length = n ∧ l.getLast? = some a ∧
    s'.qbuf = decimal (wexitstatus (s.status a.pid))
  status : s'.status = s.status
  fails : s'.fails = s.fails

/-- A line of two or more commands, none of them empty. -/
theorem runCommands_reports (h : s.Forks) {tokens : List Str}
    (hcs : commandsOf id s.heap.cells s.heap.size tokens = cs) (hlen : 2 ≤ cs.length)
    (hne : ∀ c ∈ cs, c.command ≠ none) (pipeFD : ℤ × ℤ) :
    Ends (runCommands tokens pipeFD) s (fun _ s' => ReportsLast cs.length s s' ∧ cs.length ≤ 32)
      (fun e _ => e = .childPids ∧ 32 < cs.length) := by
  obtain ⟨cs', mem, hpos, hmap, hrun⟩ := runCommands_eq tokens pipeFD s
  rw [hcs] at hmap
  have hsame : cs'.length = cs.length := by rw [← hmap, List.length_map]
  have hne' : ∀ c ∈ cs', c.command ≠ none := fun c hc =>
    hne c.unlinked (by rw [← hmap]; exact List.mem_map_of_mem hc)
  have hforks : ShellState.Forks { s with heap := mem } := h
  rw [Ends, hrun]
  refine Ends.bind ((runStages_forks (v := ⟨-1, pipeFD, [], 0⟩) hforks hpos (by omega) hne'
    (Nat.zero_le 32)).mono (fun _ _ h => h) ?_) ?_
  · rintro e _ ⟨he, hfull⟩
    simp only [List.length_nil, hsame, Nat.zero_add] at hfull
    exact ⟨he, hfull⟩
  · rintro o t ⟨v', l, rfl, hl, hforked⟩
    have hpids : v'.childPids = pidsOf l := hforked.childPids
    obtain ⟨x, hx⟩ := waitAll_run l v'.exitCode t
    rw [← hpids] at hx
    have hfits := hforked.fits
    rw [hpids, pidsOf, List.length_map, hl, hsame] at hfits
    have hnil : l ≠ [] := by
      rintro rfl
      rw [List.length_nil] at hl
      omega
    obtain ⟨a, ha⟩ : ∃ a, l.getLast? = some a := ⟨_, List.getLast?_eq_some_getLast hnil⟩
    refine .of_ok hx ⟨⟨⟨l, a, hforked.children, hl.trans hsame, ha, ?_⟩, hforked.status,
      hforked.fails⟩, hfits⟩
    simp only [ha, Option.map_some, Option.getD_some, hforked.status]

/-! ### The status of a line -/

/-- What a built-in that has been run exits with; `exit` comes back only when it fails. It is 1
or 0. -/
def builtinStatus (w : Str) (c : Command Str) (s : ShellState) : ℤ :=
  if w = ['p', 'w', 'd'] then if s.failing .getcwd then 1 else 0
  else if w = ['c', 'd'] then cdStatus c s
  else 1

/-- What the last of `n` new children has exited with. Where there are fewer of them, the line
has no status. -/
def childStatus (n : ℕ) (s s' : ShellState) : Option ℤ :=
  let l := s'.children.drop s.children.length
  if l.length = n then l.getLast?.map fun a => (wexitstatus (s.status a.pid) : ℤ) else none

/-- What a line of `cs` has exited with: the built-in, or the last of its children. A line
that has not been run has no status. -/
def lineStatus (cs : List (Command Str)) (s s' : ShellState) : Option ℤ :=
  match cs with
  | [c] =>
      match c.command.filter isBuiltin with
      | some w => if s'.builtins = s.builtins ++ [w] then some (builtinStatus w c s) else none
      | none => childStatus 1 s s'
  | cs => childStatus cs.length s s'

/-- The text in `qbuf` is the status of the line, as a decimal number. -/
def Shows (cs : List (Command Str)) (s s' : ShellState) : Prop :=
  (lineStatus cs s s').map decimal = some s'.qbuf

/-- The lines behind which `qbuf` has their status. Of two commands or more, there is room
for all of them; a command alone is run, and where its status is not written to `qbuf`, which
are `pwd` and the commands with a redirection, it is there already. -/
def Reports (s : ShellState) (tokens : List Str) : List (Command Str) → Prop
  | [c] => c.nextPipe ≠ 1 ∧
      match c.command.filter isBuiltin with
      | some w => w = ['p', 'w', 'd'] → s.qbuf = decimal (builtinStatus w c s)
      | none =>
          if c.output ≠ none ∨ c.input ≠ none then
            (∃ f, (c.input = some f ∨ c.output = some f) ∧ f ≠ ['<'] ∧ f ≠ ['>']) ∧
              s.qbuf = decimal (wexitstatus (s.status (s.children.length + 1)))
          else (s.heap.cells s.heap.size).redirect ≠ 0 ∧ ['<'] ∉ tokens ∧ ['>'] ∉ tokens
  | cs => cs.length ≤ 32

/-- The new children of a line. -/
theorem childStatus_append {n : ℕ} {l : List Child} (h : s'.children = s.children ++ l) :
    childStatus n s s' = if l.length = n then
      l.getLast?.map fun a => (wexitstatus (s.status a.pid) : ℤ) else none := by
  rw [childStatus, h, List.drop_left]

/-- Built-ins write their status to `qbuf`, but for `pwd`. -/
theorem standaloneCommand_qbuf (hc : c.command = some w) (hw : isBuiltin w = true) :
    Ends (standaloneCommand c) s
      (fun _ s' => s'.qbuf =
        if w = ['p', 'w', 'd'] then s.qbuf else decimal (builtinStatus w c s))
      (fun _ _ => w ≠ ['p', 'w', 'd']) := by
  simp only [isBuiltin, Bool.or_eq_true, decide_eq_true_eq] at hw
  rw [standaloneCommand, hc]
  rcases hw with (rfl | rfl) | rfl
  · exact .of_ok rfl rfl
  · obtain ⟨n, hcd⟩ := runcd_run c s
    rw [if_neg (by decide), if_pos rfl]
    exact .step hcd (.of_ok rfl rfl)
  · rw [if_neg (by decide), if_neg (by decide), if_pos rfl, runexit]
    rcases arguments c with _ | ⟨_, _ | ⟨_, _⟩⟩
    · exact .of_error rfl (by decide)
    · exact .of_error rfl (by decide)
    · exact .of_ok rfl rfl

/-- The status of a command alone that is not run is not there. -/
theorem not_shows_one (hb : s'.builtins = s.builtins) (hch : s'.children = s.children) :
    ¬ Shows [c] s s' := by
  have hdrop : childStatus 1 s s' = none := by
    rw [childStatus_append (by rw [hch, List.append_nil])]
    rfl
  rw [Shows, lineStatus]
  split
  · rw [if_neg]
    · exact fun h => by cases h
    · rw [hb]
      intro h
      have := congrArg List.length h
      simp at this
  · rw [hdrop]
    exact fun h => by cases h

/-- The status of a built-in that has been run. -/
theorem shows_builtin_iff (h : RanBuiltin w s s') (hc : c.command = some w)
    (hw : isBuiltin w = true)
    (hq : s'.qbuf = if w = ['p', 'w', 'd'] then s.qbuf else decimal (builtinStatus w c s)) :
    Shows [c] s s' ↔ (w = ['p', 'w', 'd'] → s.qbuf = decimal (builtinStatus w c s)) := by
  simp only [Shows, lineStatus, hc, Option.filter_some, hw, if_true, h.builtins, Option.map_some,
    Option.some.injEq, hq]
  by_cases hpwd : w = ['p', 'w', 'd']
  · rw [if_pos hpwd]
    exact ⟨fun h _ => h.symm, fun h => (h hpwd).symm⟩
  · rw [if_neg hpwd]
    exact iff_of_true rfl fun h => absurd h hpwd

/-- The status of a command alone that a child has run. -/
theorem shows_launched_iff {l : Launch} (hc : c.command = some w) (hw : isBuiltin w = false) :
    Shows [c] s (s.launched (some l)) ↔
      l.qbuf (s.status (s.children.length + 1)) s.qbuf =
        decimal (wexitstatus (s.status (s.children.length + 1))) := by
  have hchild : (s.launched (some l)).children = s.children ++ [s.child l] := rfl
  simp only [Shows, lineStatus, hc, Option.filter_some, hw, Bool.false_eq_true, if_false,
    childStatus_append hchild]
  exact ⟨fun h => (Option.some.inj h).symm, fun h => congrArg some h.symm⟩

/-- A line with one command. -/
theorem one_shows_iff (h : s.Forks) (hexit : ∀ pid, wifexited (s.status pid) = true)
    {tokens : List Str} (hcs : commandsOf id s.heap.cells s.heap.size tokens = [c])
    (hc : c.command = some w) (pipeFD : ℤ × ℤ) :
    Ends (runCommands tokens pipeFD) s (fun _ s' => Shows [c] s s')
        (fun e _ => ∃ n, e = .exit n) ↔ Reports s tokens [c] := by
  obtain ⟨mem, hrun⟩ := runCommands_one hcs pipeFD
  rw [Ends, hrun, hc, if_neg (Option.some_ne_none w)]
  change Ends _ { s with heap := mem } _ _ ↔ _
  by_cases hm : c.nextPipe = 1
  · rw [if_pos hm]
    have hnot : ¬ Shows [c] s { s with heap := mem } := not_shows_one rfl rfl
    exact iff_of_false hnot fun h => h.1 hm
  rw [if_neg hm, Reports, and_iff_right hm, hc, Option.filter_some]
  cases hw : isBuiltin w with
  | true =>
      simp only [if_true]
      have hran := standaloneCommand_builtin (s := { s with heap := mem }) hc hw
      have hqbuf := standaloneCommand_qbuf (s := { s with heap := mem }) hc hw
      cases hx : standaloneCommand c { s with heap := mem } with
      | ok x t =>
          have ht := hran.ok hx
          rw [Ends, hx]
          exact shows_builtin_iff ⟨ht.fds, ht.children, ht.waited, ht.builtins⟩ hc hw
            (hqbuf.ok hx)
      | error e t =>
          rw [Ends, hx]
          exact iff_of_true (hran.error hx).2 fun hpwd => absurd hpwd (hqbuf.error hx)
  | false =>
      simp only [Bool.false_eq_true, if_false]
      obtain ⟨x, hx⟩ := standaloneCommand_launch (s := { s with heap := mem }) h hc hw
      rw [Ends, hx]
      have hlaunch := launchOf_ne_none_iff_tokens hcs
      by_cases hf : c.output ≠ none ∨ c.input ≠ none
      · rw [if_pos hf] at hlaunch ⊢
        cases hl : launchOf c with
        | none => exact iff_of_false (not_shows_one rfl rfl) fun h => hlaunch.mpr h.1 hl
        | some l =>
            rw [and_iff_right (hlaunch.mp (by rw [hl]; exact Option.some_ne_none l))]
            rw [launchOf, if_pos hf] at hl
            obtain ⟨_, -, rfl⟩ := Option.map_eq_some_iff.mp hl
            exact shows_launched_iff (s := { s with heap := mem }) hc hw
      · rw [if_neg hf] at hlaunch ⊢
        rw [← hlaunch]
        cases hl : launchOf c with
        | none => exact iff_of_false (not_shows_one rfl rfl) fun h => h rfl
        | some l =>
            refine iff_of_true ((shows_launched_iff (s := { s with heap := mem }) hc hw).mpr ?_)
              (Option.some_ne_none l)
            rw [launchOf, if_neg hf] at hl
            split at hl
            · cases hl
            · cases hl
              exact if_pos (hexit _)

/-- What a line is promised: forks succeed, processes end by `exit`, and there is no empty
command. -/
structure Ordinary (s : ShellState) (cs : List (Command Str)) : Prop where
  forks : s.Forks
  exits : ∀ pid, wifexited (s.status pid) = true
  nonempty : ∀ c ∈ cs, c.command ≠ none

/-- The command lists of lines that are not empty. -/
theorem commandsOf_ne_nil {mem : ℕ → Command Str} {n : ℕ} {tokens : List Str}
    (h : tokens ≠ []) : commandsOf id mem n tokens ≠ [] := by
  cases tokens with
  | nil => exact absurd rfl h
  | cons t rest =>
      rw [commandsOf]
      exact List.cons_ne_nil _ _

/-- A line that is not empty shows its status exactly where `Reports` says so. -/
theorem shows_iff {tokens : List Str}
    (hcs : commandsOf id s.heap.cells s.heap.size tokens = cs) (h : Ordinary s cs)
    (ht : tokens ≠ []) (pipeFD : ℤ × ℤ) :
    Ends (runCommands tokens pipeFD) s (fun _ s' => Shows cs s s')
        (fun e _ => ∃ n, e = .exit n) ↔ Reports s tokens cs := by
  match cs with
  | [] => exact absurd hcs (commandsOf_ne_nil ht)
  | [c] =>
      obtain ⟨w, hc⟩ := Option.ne_none_iff_exists'.mp (h.nonempty c List.mem_cons_self)
      exact one_shows_iff h.forks h.exits hcs hc pipeFD
  | c :: d :: cs =>
      have hends := runCommands_reports h.forks hcs (by simp) h.nonempty pipeFD
      have hreports : Reports s tokens (c :: d :: cs) ↔ (c :: d :: cs).length ≤ 32 := Iff.rfl
      rw [hreports]
      cases hrun : runCommands tokens pipeFD s with
      | error e s' =>
          obtain ⟨rfl, hfull⟩ := hends.error hrun
          rw [Ends, hrun]
          exact iff_of_false (by rintro ⟨n, ⟨⟩⟩) (Nat.not_le_of_lt hfull)
      | ok x s' =>
          obtain ⟨hline, hfits⟩ := hends.ok hrun
          obtain ⟨l, a, hl, hlen, hlast, hqbuf⟩ := hline.last
          rw [Ends, hrun]
          refine iff_of_true ?_ hfits
          change Shows (c :: d :: cs) s s'
          have hstatus : lineStatus (c :: d :: cs) s s' =
              childStatus (c :: d :: cs).length s s' := rfl
          rw [Shows, hstatus, childStatus_append hl, if_pos hlen, hlast, hqbuf]
          rfl

/-! ### The session -/

/-- A shell that waits for a line, and what the last line that was not empty has exited with,
if there was one. -/
structure Prompt where
  shell : ShellState
  status : Option (Option ℤ)

/-- The commands of a line, as the shell builds them. -/
def Prompt.commands (P : Prompt) (tokens : List Str) : List (Command Str) :=
  commandsOf id P.shell.heap.cells P.shell.heap.size (substitute P.shell.qbuf tokens)

/-- A line is read and run. -/
inductive Prompt.Step : Prompt → List Str → Prompt → Prop
  | empty {P : Prompt} {s' : ShellState} {pipeFD : ℤ × ℤ}
      (h : runTokens [] pipeFD P.shell = .ok () s') : Step P [] ⟨s', P.status⟩
  | line {P : Prompt} {s' : ShellState} {pipeFD : ℤ × ℤ} {tokens : List Str} (ht : tokens ≠ [])
      (h : runTokens tokens pipeFD P.shell = .ok () s') :
      Step P tokens ⟨s', some (lineStatus (P.commands tokens) P.shell s')⟩

/-- The text that replaces `$?` is the status of the last line that was not empty. -/
def Prompt.Shown (P : Prompt) : Prop := ∀ st ∈ P.status, st.map decimal = some P.shell.qbuf

/-- A line behind which `qbuf` has its status. -/
def Prompt.SoundStep (P P' : Prompt) : Prop :=
  ∃ tokens, Step P tokens P' ∧ (tokens ≠ [] → Ordinary P.shell (P.commands tokens) ∧
    Reports P.shell (substitute P.shell.qbuf tokens) (P.commands tokens))

/-- What `main` does with a line. -/
theorem runTokens_eq_ok {tokens : List Str} {pipeFD : ℤ × ℤ}
    (h : runTokens tokens pipeFD s = .ok () s') :
    ∃ x, runCommands (substitute s.qbuf tokens) pipeFD s = .ok x s' := by
  have hbind : (do
      let _ ← runCommands (substitute s.qbuf tokens) pipeFD
      pure () : Sh Unit) s = .ok () s' := h
  obtain ⟨x, t, hrun, hpure⟩ := bind_eq_ok.mp hbind
  cases hpure
  exact ⟨x, hrun⟩

/-- Such a line shows its status. -/
theorem Prompt.SoundStep.shown {P P' : Prompt} (hP : P.Shown) (h : SoundStep P P') :
    P'.Shown := by
  obtain ⟨tokens, hstep, hsound⟩ := h
  cases hstep with
  | @empty s' pipeFD hrun =>
      obtain ⟨x, hx⟩ := runTokens_eq_ok hrun
      have hnone : ∀ c ∈ (commandsOf id P.shell.heap.cells P.shell.heap.size []).head?,
          c.command = none := by
        rw [commandsOf]
        exact fun c hc => by cases hc
      obtain ⟨y, mem, hy⟩ := runCommands_empty hnone pipeFD
      cases hx.symm.trans hy
      exact hP
  | @line s' pipeFD _ ht hrun =>
      obtain ⟨hord, hreports⟩ := hsound ht
      obtain ⟨x, hx⟩ := runTokens_eq_ok hrun
      have ht' : substitute P.shell.qbuf tokens ≠ [] := by
        rwa [substitute, Ne, List.map_eq_nil_iff]
      have hshows := ((shows_iff rfl hord ht' pipeFD).mpr hreports).ok hx
      intro st hst
      cases hst
      exact hshows

/-- A shell that has just been started, all of whose children exit with 1. -/
def failing : ShellState := { started with status := fun _ => 256 }

/-- The line `a` is one command, alone. -/
theorem commandsOf_failing :
    commandsOf id failing.heap.cells failing.heap.size [['a']] = [bare ['a']] := by
  simp [commandsOf, fill, splitter, setter, isOperator, Command.init, failing, started, bare]

/-- Its children end by `exit`. -/
theorem wifexited_failing (pid : ℕ) : wifexited (failing.status pid) = true :=
  show wifexited 256 = true by decide

/-- The line `a` is one it can be given. -/
theorem ordinary_failing :
    Ordinary failing (commandsOf id failing.heap.cells failing.heap.size [['a']]) := by
  refine ⟨calm_started.fork, wifexited_failing, ?_⟩
  rw [commandsOf_failing]
  decide

/-- The line `a` is run by a child. -/
theorem runTokens_failing : ∃ mem, runTokens [['a']] (0, 0) failing =
    .ok () ({ failing with heap := mem }.launched (some (.external (bare ['a'])))) := by
  obtain ⟨mem, hrun⟩ := runCommands_one commandsOf_failing (0, 0)
  obtain ⟨x, hx⟩ := standaloneCommand_launch (s := { failing with heap := mem })
    (c := bare ['a']) calm_started.fork rfl (by decide)
  have hcmd : (bare ['a']).command ≠ none := Option.some_ne_none _
  rw [if_neg hcmd, if_neg (by decide)] at hrun
  have hlaunch : launchOf (bare ['a']) = some (.external (bare ['a'])) := by
    simp [launchOf, bare]
  rw [hlaunch] at hx
  exact ⟨mem, run_bind_ok (hrun.trans hx)⟩

/-- A line that is not empty shows its status exactly where `Reports` says so; and in a
session of such lines the text that replaces `$?` is always the status of the last of them. -/
theorem status_shown (s : ShellState) :
    (∀ tokens pipeFD, tokens ≠ [] →
      Ordinary s (commandsOf id s.heap.cells s.heap.size tokens) →
      (Ends (runCommands tokens pipeFD) s
          (fun _ s' => Shows (commandsOf id s.heap.cells s.heap.size tokens) s s')
          (fun e _ => ∃ n, e = .exit n) ↔
        Reports s tokens (commandsOf id s.heap.cells s.heap.size tokens))) ∧
      ∀ P, ReflTransGen Prompt.SoundStep ⟨s, none⟩ P → P.Shown := by
  refine ⟨fun tokens pipeFD ht h => shows_iff rfl h ht pipeFD, fun P h => ?_⟩
  exact Runs.invariant_of_run h nofun fun _ _ hP hstep => hstep.shown hP

/-- The line `a`, which exits with 1: that is in `qbuf` behind it. -/
theorem status_shown_one : ∃ s', runTokens [['a']] (0, 0) failing = .ok () s' ∧
    Shows [bare ['a']] failing s' ∧ Prompt.Shown ⟨s', some (some 1)⟩ := by
  obtain ⟨hiff, hsession⟩ := status_shown failing
  obtain ⟨mem, hrun⟩ := runTokens_failing
  obtain ⟨x, hx⟩ := runTokens_eq_ok hrun
  have hreports : Reports failing [['a']]
      (commandsOf id failing.heap.cells failing.heap.size [['a']]) := by
    rw [commandsOf_failing]
    exact ⟨by decide, by decide, by decide, by decide⟩
  have hshows := ((hiff [['a']] (0, 0) (List.cons_ne_nil _ _) ordinary_failing).mpr hreports).ok hx
  have hshown := hsession _ (.single ⟨[['a']], .line (List.cons_ne_nil _ _) hrun,
    fun _ => ⟨ordinary_failing, hreports⟩⟩)
  rw [commandsOf_failing] at hshows
  refine ⟨_, hrun, hshows, ?_⟩
  have hstatus : lineStatus (commandsOf id failing.heap.cells failing.heap.size [['a']]) failing
      ({ failing with heap := mem }.launched (some (.external (bare ['a'])))) = some 1 := by
    have hchild : ({ failing with heap := mem }.launched (some (.external (bare ['a'])))).children =
        failing.children ++ [{ failing with heap := mem }.child (.external (bare ['a']))] := rfl
    rw [commandsOf_failing]
    refine (childStatus_append (n := 1) hchild).trans ?_
    exact congrArg some (show ((wexitstatus 256 : ℕ) : ℤ) = 1 by decide)
  change Prompt.Shown ⟨_, some (lineStatus (commandsOf id failing.heap.cells failing.heap.size
    [['a']]) failing _)⟩ at hshown
  rw [hstatus] at hshown
  exact hshown

/-- The name of the built-in. -/
def pwdName : Str := ['p', 'w', 'd']

/-- The lines `a`, which exits with 1, and `pwd`: behind the second one `qbuf` still has the
status of the first. -/
theorem not_always_shown : ¬ ∀ s P, ReflTransGen (fun P P' => ∃ tokens, Prompt.Step P tokens P' ∧
    (tokens ≠ [] → Ordinary P.shell (P.commands tokens))) ⟨s, none⟩ P → P.Shown := by
  intro h
  obtain ⟨mem, hfirst⟩ := runTokens_failing
  let next := { failing with heap := mem }.launched (some (.external (bare ['a'])))
  let pwd : Command Str := { bare pwdName with redirect := (mem.cells mem.size).redirect }
  have hcs' : commandsOf id next.heap.cells next.heap.size [pwdName] = [pwd] := by
    have hheap : next.heap = mem := rfl
    rw [hheap]
    simp [commandsOf, fill, splitter, setter, isOperator, Command.init, bare, pwdName, pwd]
  obtain ⟨mem', hrun'⟩ := runCommands_one hcs' (0, 0)
  have hunmarked : ¬ pwd.nextPipe = 1 := fun h => absurd h (by decide : ¬ (0 : ℤ) = 1)
  have hcmd' : pwd.command ≠ none := Option.some_ne_none _
  rw [if_neg hcmd', if_neg hunmarked] at hrun'
  let last : ShellState := { next with
    heap := mem', builtins := [pwdName], calls := next.calls + 1 }
  have hsecond : runTokens [pwdName] (0, 0) next = .ok () last := run_bind_ok hrun'
  have hshown := h failing _ (.tail (.tail .refl
    ⟨[['a']], .line (List.cons_ne_nil _ _) hfirst, fun _ => ordinary_failing⟩)
    ⟨[pwdName], .line (List.cons_ne_nil _ _) hsecond,
      fun _ => ⟨calm_started.fork, wifexited_failing, ?_⟩⟩)
  · have hstatus : (lineStatus (commandsOf id next.heap.cells next.heap.size [pwdName])
        next last).map decimal = some last.qbuf := hshown _ rfl
    rw [hcs'] at hstatus
    have hzero : lineStatus [pwd] next last = some 0 := by
      rw [lineStatus]
      change (if last.builtins = next.builtins ++ [pwdName] then _ else _) = _
      exact (if_pos (show last.builtins = next.builtins ++ [pwdName] from rfl)).trans rfl
    have hqbuf : last.qbuf = decimal (wexitstatus 256) := if_pos (wifexited_failing 0)
    have hone : wexitstatus 256 = 1 := by decide
    rw [hzero, hqbuf, hone] at hstatus
    revert hstatus
    decide
  · change ∀ c ∈ commandsOf id next.heap.cells next.heap.size [pwdName], c.command ≠ none
    rw [hcs']
    intro c hc
    rw [List.mem_singleton.mp hc]
    exact Option.some_ne_none _

end SystemsProjects.Shell
