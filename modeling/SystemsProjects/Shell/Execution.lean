import SystemsProjects.Shell.Redirection

/-!
# Which Commands Are Run

Whether all commands of a line are run, each of them once. A command alone may come to no
branch that runs it, and whether it does depends on the field `redirect`, which
`createCommand` leaves as the memory had it.

## Main definitions

* `RunsAll`: every command has been run once, in order.
* `Starts`: the lines all of whose commands are run.

## Main results

* `redirect_ne_zero_iff`: what is in the field `redirect` of a command alone.
* `runs_all_iff`: when all commands are run.
-/

namespace SystemsProjects.Shell

open Stateful

variable {s : ShellState} {c d : Command Str} {cs : List (Command Str)} {w : Str}

/-! ### The field `redirect` -/

/-- A file stays with its command. -/
theorem setter_keeps_files (c : Command Str) (tokens : List Str) :
    ((setter id c tokens).1.input = none → c.input = none) ∧
      ((setter id c tokens).1.output = none → c.output = none) := by
  fun_induction setter id c tokens with
  | case2 c t ht f rest ih => exact ⟨fun h => absurd (ih.1 h) (Option.some_ne_none _), ih.2⟩
  | case4 c t ht ht' f rest ih => exact ⟨ih.1, fun h => absurd (ih.2 h) (Option.some_ne_none _)⟩
  | _ => exact ⟨id, id⟩

/-- An operator of redirection that is among the tokens sets the field to zero. -/
theorem setter_redirect (c : Command Str) (tokens : List Str)
    (hall : (setter id c tokens).2 = []) (hin : (setter id c tokens).1.input = none)
    (hout : (setter id c tokens).1.output = none) :
    (setter id c tokens).1.redirect ≠ 0 ↔
      c.redirect ≠ 0 ∧ ['<'] ∉ tokens ∧ ['>'] ∉ tokens := by
  fun_induction setter id c tokens with
  | case1 c => simp
  | case2 c t ht f rest ih => cases (setter_keeps_files _ _).1 hin
  | case3 c t ht => exact iff_of_false (fun h => h rfl) fun h => h.2.1 (by simp [← ht])
  | case4 c t ht ht' f rest ih => cases (setter_keeps_files _ _).2 hout
  | case5 c t ht ht' => exact iff_of_false (fun h => h rfl) fun h => h.2.2 (by simp [← ht'])
  | case6 c t rest ht ht' hp =>
      obtain rfl : rest = [] := hall
      exact (and_iff_left (by simp_all)).symm
  | case7 c t rest ht ht' hp ha =>
      obtain rfl : rest = [] := hall
      exact (and_iff_left (by simp_all)).symm
  | case8 c t rest ht ht' hp ha hn =>
      obtain rfl : rest = [] := hall
      exact (and_iff_left (by simp_all)).symm
  | case9 c t rest => cases hall

/-- The operators are behind the words of a command. -/
theorem mem_dropWhile_iff {op : Str} (hop : isOperator op = true) (tokens : List Str) :
    op ∈ tokens.dropWhile (fun t => !isOperator (id t)) ↔ op ∈ tokens := by
  refine ⟨fun h => (List.dropWhile_suffix _).mem h, fun h => ?_⟩
  rw [← List.takeWhile_append_dropWhile (p := fun t => !isOperator (id t)) (l := tokens)] at h
  refine (List.mem_append.mp h).resolve_left fun h => ?_
  have hword := List.all_eq_true.mp List.all_takeWhile op h
  simp [hop] at hword

/-- The field `redirect` of a command alone without a file: it is what the memory had in it,
unless there is an operator of redirection. -/
theorem redirect_ne_zero_iff {mem : ℕ → Command Str} {n : ℕ} {tokens : List Str}
    (hcs : commandsOf id mem n tokens = [c]) (hin : c.input = none) (hout : c.output = none) :
    c.redirect ≠ 0 ↔ (mem n).redirect ≠ 0 ∧ ['<'] ∉ tokens ∧ ['>'] ∉ tokens := by
  cases tokens with
  | nil =>
      rw [commandsOf] at hcs
      cases hcs
  | cons t rest =>
      rw [commandsOf] at hcs
      obtain ⟨rfl, hrest⟩ := List.cons.inj hcs
      have hall : (fill id (mem n).init (t :: rest)).2 = [] := by
        generalize (fill id (mem n).init (t :: rest)).2 = l at hrest
        cases l with
        | nil => rfl
        | cons u l =>
            rw [commandsOf] at hrest
            cases hrest
      have hred := setter_redirect _ _ hall hin hout
      rwa [mem_dropWhile_iff (by decide), mem_dropWhile_iff (by decide)] at hred

/-! ### The commands of a line -/

/-- The commands of a line that the shell runs itself: a built-in that is alone. In a pipeline
there is none. -/
def inShell : List (Command Str) → List Str
  | [c] => (c.command.filter isBuiltin).toList
  | _ => []

/-- The commands of a line that children run: one for each child, in the order of the forks. -/
def inChildren : List (Command Str) → List (Command Str)
  | [c] => if c.command.any isBuiltin then [] else [c]
  | cs => cs

/-- Every command of the line has been run once, in order: by the shell, or by one child that
comes to the program of the command, with its arguments, when its calls succeed. -/
structure RunsAll (cs : List (Command Str)) (s s' : ShellState) : Prop where
  builtins : s'.builtins = s.builtins ++ inShell cs
  children : ∃ l, s'.children = s.children ++ l ∧
    l.map (fun a => a.launch.cmd.unlinked) = inChildren cs ∧
    ∀ a ∈ l, ∀ p, a.Willing p → p.Succeeds .chmod →
      ∃ p', a.launch.code p = .error (.exec a.launch.cmd.command a.launch.cmd.args) p'

/-- The lines all of whose commands are run, where the first command is made of the memory
`mem`. A command alone is not marked with `&&`, and it is built in, or has a file whose name
is no operator of redirection, or has no file, in which case no such operator may be there
and the field `redirect` of the memory must not be zero. -/
def Starts (mem : Command Str) (tokens : List Str) : List (Command Str) → Prop
  | [c] => c.nextPipe ≠ 1 ∧ (c.command.any isBuiltin ∨
      if c.output ≠ none ∨ c.input ≠ none then
        ∃ f, (c.input = some f ∨ c.output = some f) ∧ f ≠ ['<'] ∧ f ≠ ['>']
      else mem.redirect ≠ 0 ∧ ['<'] ∉ tokens ∧ ['>'] ∉ tokens)
  | cs => cs.length ≤ 32

/-- When a command alone gets a child. -/
theorem launchOf_ne_none_iff : launchOf c ≠ none ↔
    if c.output ≠ none ∨ c.input ≠ none then
      ∃ f, (c.input = some f ∨ c.output = some f) ∧ f ≠ ['<'] ∧ f ≠ ['>']
    else c.redirect ≠ 0 := by
  rw [launchOf]
  split
  · rw [Ne, Option.map_eq_none_iff, redirection]
    constructor
    · intro h
      split at h
      · rename_i f hf
        obtain ⟨hin, hok⟩ := Option.filter_eq_some_iff.mp hf
        exact ⟨f, .inl hin, by simpa using hok⟩
      · obtain ⟨f, hf⟩ := Option.ne_none_iff_exists'.mp (Option.map_eq_none_iff.not.mp h)
        obtain ⟨hout, hok⟩ := Option.filter_eq_some_iff.mp hf
        exact ⟨f, .inr hout, by simpa using hok⟩
    · rintro ⟨f, hf, hok⟩
      split
      · exact Option.some_ne_none _
      · rename_i hnone
        rcases hf with hin | hout
        · rw [hin, Option.filter_some, if_pos (by simpa using hok)] at hnone
          cases hnone
        · rw [hout, Option.filter_some, if_pos (by simpa using hok)]
          exact Option.some_ne_none _
  · split
    · rename_i h
      exact iff_of_false (fun h => h rfl) (not_not.mpr h)
    · rename_i h
      exact iff_of_true (Option.some_ne_none _) h

/-- When a command alone gets a child, from the tokens and the memory it was made of. -/
theorem launchOf_ne_none_iff_tokens {mem : ℕ → Command Str} {n : ℕ} {tokens : List Str}
    (hcs : commandsOf id mem n tokens = [c]) : launchOf c ≠ none ↔
      if c.output ≠ none ∨ c.input ≠ none then
        ∃ f, (c.input = some f ∨ c.output = some f) ∧ f ≠ ['<'] ∧ f ≠ ['>']
      else (mem n).redirect ≠ 0 ∧ ['<'] ∉ tokens ∧ ['>'] ∉ tokens := by
  rw [launchOf_ne_none_iff]
  split
  · exact Iff.rfl
  · rename_i hno
    obtain ⟨hout, hin⟩ := not_or.mp hno
    exact redirect_ne_zero_iff hcs (not_not.mp hin) (not_not.mp hout)

/-- The child of a command alone comes to its program. -/
theorem launchOf_program {l : Launch} (hl : launchOf c = some l) {p : Proc}
    (hp : (s.child l).Willing p) (hchmod : p.Succeeds .chmod) :
    ∃ p', l.code p = .error (.exec l.cmd.command l.cmd.args) p' := by
  rw [launchOf] at hl
  split at hl
  · obtain ⟨⟨f, t⟩, -, rfl⟩ := Option.map_eq_some_iff.mp hl
    have hfound : t = .input → p.files f ≠ none := by
      rintro rfl
      exact hp.found f rfl
    obtain ⟨p', hrun, -⟩ := redirectChild_run (c := c) hp.openFile hchmod hp.dup2 hp.execvp hfound
    exact ⟨p', hrun⟩
  · split at hl
    · cases hl
    · cases hl
      exact ⟨p, run_bind_error (execvp_run (hp.execvp _))⟩

/-- A line without a trace has run no command. -/
theorem not_runsAll {s' : ShellState} (hb : s'.builtins = s.builtins)
    (hch : s'.children = s.children) (hc : c.command = some w) : ¬ RunsAll [c] s s' := by
  rintro ⟨hbuiltins, l, hl, hmap, -⟩
  rw [hch] at hl
  obtain rfl : l = [] := List.append_cancel_left (hl.symm.trans (List.append_nil _).symm)
  rw [hb] at hbuiltins
  have hnone := List.append_cancel_left (hbuiltins.symm.trans (List.append_nil _).symm)
  cases hw : isBuiltin w with
  | true => simp [inShell, hc, hw] at hnone
  | false => simp [inChildren, hc, hw] at hmap

/-- A command alone whose child is forked. -/
theorem runsAll_launched {l : Launch} (hl : launchOf c = some l) (hc : c.command = some w)
    (hw : isBuiltin w = false) (hlinks : c.unlinked = c) :
    RunsAll [c] s (s.launched (some l)) where
  builtins := by
    simp only [inShell, hc, Option.filter_some, hw, ShellState.launched]
    exact (List.append_nil _).symm
  children := by
    refine ⟨[s.child l], rfl, ?_, ?_⟩
    · simp only [inChildren, hc, Option.any_some, hw, List.map_cons, List.map_nil]
      rw [← hlinks, ← cmd_launchOf hl]
      rfl
    · intro a ha p hp hchmod
      obtain rfl := List.mem_singleton.mp ha
      exact launchOf_program hl hp hchmod

/-- A built-in alone. -/
theorem runsAll_builtin {s' : ShellState} (h : RanBuiltin w s s') (hc : c.command = some w)
    (hw : isBuiltin w = true) : RunsAll [c] s s' where
  builtins := by
    rw [h.builtins, inShell, hc, Option.filter_some, if_pos hw]
    rfl
  children := by
    refine ⟨[], ?_, ?_, fun a ha => absurd ha List.not_mem_nil⟩
    · rw [h.children, List.append_nil]
    · simp [inChildren, hc, hw]

/-- A line with one command. -/
theorem one_runs_all_iff (h : Calm s) {tokens : List Str}
    (hcs : commandsOf id s.heap.cells s.heap.size tokens = [c]) (hc : c.command = some w)
    (pipeFD : ℤ × ℤ) :
    Ends (runCommands tokens pipeFD) s (fun _ s' => RunsAll [c] s s')
        (fun e s' => (∃ n, e = .exit n) ∧ RunsAll [c] s s') ↔
      Starts (s.heap.cells s.heap.size) tokens [c] := by
  obtain ⟨-, hn, hp, -⟩ := runCommands_single hcs pipeFD
  obtain ⟨mem, hrun⟩ := runCommands_one hcs pipeFD
  rw [Ends, hrun, hc, if_neg (Option.some_ne_none w)]
  change Ends _ { s with heap := mem } _ _ ↔ _
  by_cases hm : c.nextPipe = 1
  · rw [if_pos hm]
    have hnot : ¬ RunsAll [c] s { s with heap := mem } := not_runsAll rfl rfl hc
    exact iff_of_false hnot fun h => h.1 hm
  rw [if_neg hm, Starts, and_iff_right hm, hc, Option.any_some]
  cases hw : isBuiltin w with
  | true =>
      refine iff_of_true ?_ (.inl rfl)
      refine (standaloneCommand_builtin hc hw).mono (fun _ t ht => ?_) fun _ t ht => ⟨ht.2, ?_⟩
      · exact runsAll_builtin ⟨ht.fds, ht.children, ht.waited, ht.builtins⟩ hc hw
      · exact runsAll_builtin ⟨ht.1.fds, ht.1.children, ht.1.waited, ht.1.builtins⟩ hc hw
  | false =>
      rw [or_iff_right Bool.false_ne_true]
      obtain ⟨x, hx⟩ := standaloneCommand_launch (s := { s with heap := mem }) h.fork hc hw
      rw [Ends, hx]
      rw [← launchOf_ne_none_iff_tokens hcs]
      cases hl : launchOf c with
      | none => exact iff_of_false (not_runsAll rfl rfl hc) fun h => h rfl
      | some l =>
          have hall := runsAll_launched (s := { s with heap := mem }) hl hc hw
            (Command.unlinked_eq hn hp)
          exact iff_of_true ⟨hall.builtins, hall.children⟩ (Option.some_ne_none l)

/-- Every command of a line without empty ones is run once and in order exactly where
`Starts` says so. -/
theorem runs_all_iff (h : Calm s) (tokens : List Str) (pipeFD : ℤ × ℤ)
    (hcs : commandsOf id s.heap.cells s.heap.size tokens = cs)
    (hne : ∀ c ∈ cs, c.command ≠ none) :
    Ends (runCommands tokens pipeFD) s (fun _ s' => RunsAll cs s s')
        (fun e s' => (∃ n, e = .exit n) ∧ RunsAll cs s s') ↔
      Starts (s.heap.cells s.heap.size) tokens cs := by
  match cs with
  | [] =>
      obtain ⟨x, mem, hrun⟩ := runCommands_empty (by rw [hcs]; exact fun c hc => by cases hc) pipeFD
      have hstarts : Starts (s.heap.cells s.heap.size) tokens [] := by simp [Starts]
      refine iff_of_true (.of_ok hrun ⟨?_, [], ?_, rfl, fun a ha => absurd ha List.not_mem_nil⟩)
        hstarts
      · exact (List.append_nil _).symm
      · exact (List.append_nil _).symm
  | [c] =>
      obtain ⟨w, hc⟩ := Option.ne_none_iff_exists'.mp (hne c List.mem_cons_self)
      exact one_runs_all_iff h hcs hc pipeFD
  | c :: d :: cs =>
      have hends := runCommands_ends h hcs (by simp) hne pipeFD
      have hstarts : Starts (s.heap.cells s.heap.size) tokens (c :: d :: cs) ↔
          (c :: d :: cs).length ≤ 32 := Iff.rfl
      rw [hstarts]
      cases hrun : runCommands tokens pipeFD s with
      | error e s' =>
          obtain ⟨rfl, hfull⟩ := hends.error hrun
          rw [Ends, hrun]
          exact iff_of_false (by rintro ⟨⟨n, ⟨⟩⟩, -⟩) (Nat.not_le_of_lt hfull)
      | ok x s' =>
          obtain ⟨hline, hfits⟩ := hends.ok hrun
          obtain ⟨mem, cs', hmap, hchildren⟩ := hline.children
          rw [Ends, hrun]
          refine iff_of_true ⟨?_, _, hchildren, ?_, ?_⟩ hfits
          · rw [hline.builtins]
            exact (List.append_nil _).symm
          · rw [unlinked_stageChildren, hmap]
            rfl
          · intro a ha p hp _
            obtain ⟨j, hj⟩ := List.mem_iff_getElem?.mp ha
            have hlen : 2 ≤ cs'.length := by
              rw [← List.length_map (f := Command.unlinked), hmap]
              simp
            obtain ⟨p', hcode, -⟩ := honoured_of_line hlen hj hp
            exact ⟨p', hcode⟩

/-- The line `a`, in a shell that has just been started. -/
theorem runs_all_one :
    Ends (runCommands [['a']] (0, 0)) started (fun _ s' => RunsAll [bare ['a']] started s')
        (fun e s' => (∃ n, e = .exit n) ∧ RunsAll [bare ['a']] started s') ↔
      Starts (started.heap.cells started.heap.size) [['a']] [bare ['a']] :=
  runs_all_iff calm_started _ _
    (by simp [commandsOf, fill, splitter, setter, isOperator, Command.init, started, bare])
    (by decide)

/-- The line `a`, where the memory has a zero in the field `redirect`: it is not run. -/
theorem not_runs_all : ¬ ∀ (s : ShellState) (tokens : List Str) (pipeFD : ℤ × ℤ), Calm s →
    (∀ c ∈ commandsOf id s.heap.cells s.heap.size tokens, c.command ≠ none) →
    Ends (runCommands tokens pipeFD) s
      (fun _ s' => RunsAll (commandsOf id s.heap.cells s.heap.size tokens) s s')
      (fun e s' => (∃ n, e = .exit n) ∧
        RunsAll (commandsOf id s.heap.cells s.heap.size tokens) s s') := by
  intro h
  let zeroed : ShellState := { started with
    heap := ⟨fun _ => ⟨none, none, none, none, 0, none, none, 0, 0⟩, 0⟩ }
  have hcs : commandsOf id zeroed.heap.cells zeroed.heap.size [['a']] =
      [{ bare ['a'] with redirect := 0 }] := by
    simp [commandsOf, fill, splitter, setter, isOperator, Command.init, zeroed, bare]
  have hcalm : Calm zeroed := calm_started.of_fails rfl
  have hends := h zeroed [['a']] (0, 0) hcalm (by rw [hcs]; decide)
  rw [hcs] at hends
  have hstarts := (one_runs_all_iff hcalm hcs rfl (0, 0)).mp hends
  simp [Starts, bare, isBuiltin, zeroed] at hstarts

end SystemsProjects.Shell
