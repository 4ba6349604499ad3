import SystemsProjects.Shell.Alone

/-!
# The Words of a Line

Every word of a line is an argument of exactly one of the commands that
`buildCommandList` makes of it, unless a redirection takes it. The inner loop hands on the
words it does not take, and a turn of the outer loop takes at least one token.

## Main definitions

* `wordsOf`: the tokens that are no operators and no targets of redirections.
* `targetsOf`: the tokens that a redirection takes as its target.
* `Command.Holds`: the arguments of a command.
* `Command.MadeOf`: what a command has from its part of the line.
* `Accounted`: every token of the line is accounted for in the list of commands.

## Main results

* `buildCommandList_words`: no word of a line is lost, and the commands are no more than
  the tokens, for which `childPids` has room.
-/

namespace SystemsProjects.Shell

open DoublyLinked Stateful

section Words

variable {α : Type} (str : α → Str)

/-- The tokens that are no operators and are not behind a `<` or `>` that takes them as its
target. -/
def wordsOf : List α → List α
  | [] => []
  | t :: rest =>
      if str t = ['<'] ∨ str t = ['>'] then
        match rest with
        | _ :: rest => wordsOf rest
        | [] => []
      else if isOperator (str t) then wordsOf rest
      else t :: wordsOf rest

/-- The targets that the redirections `op` take, which are `<` or `>`: whatever stands behind
them, unless a redirection before it has taken the operator itself. -/
def targetsOf (op : Str) : List α → List α
  | [] => []
  | t :: rest =>
      if str t = ['<'] ∨ str t = ['>'] then
        match rest with
        | f :: rest => if str t = op then f :: targetsOf op rest else targetsOf op rest
        | [] => []
      else targetsOf op rest

/-- The arguments of a command are the words `ws`, with `NULL` behind them, and its name is
the first of them. -/
structure Command.Holds (c : Command α) (ws : List α) : Prop where
  args : c.args = some (ws.map some ++ [none])
  command : c.command = ws.head?

/-- The command is made of a part of the line: it holds the words of the part, and of the
targets of its redirections in either direction it has the last one. -/
structure Command.MadeOf (c : Command α) (part : List α) : Prop where
  holds : c.Holds (wordsOf str part)
  input : c.input = (targetsOf str ['<'] part).getLast?
  output : c.output = (targetsOf str ['>'] part).getLast?

/-- An operator that takes no target is no word. -/
theorem wordsOf_operator {t : α} (h : isOperator (str t) = true) (hlt : str t ≠ ['<'])
    (hgt : str t ≠ ['>']) (rest : List α) : wordsOf str (t :: rest) = wordsOf str rest := by
  rw [wordsOf.eq_def]
  simp only [hlt, hgt, or_self, if_false, h, if_true]

/-- A word is neither `<` nor `>`. -/
theorem ne_redirect_of_word {w : Str} (h : isOperator w = false) : w ≠ ['<'] ∧ w ≠ ['>'] := by
  constructor <;> rintro rfl <;> cases h

/-- A token that is no operator, and stands where no redirection takes it, is a word. -/
theorem wordsOf_word {t : α} (h : isOperator (str t) = false) (rest : List α) :
    wordsOf str (t :: rest) = t :: wordsOf str rest := by
  obtain ⟨hlt, hgt⟩ := ne_redirect_of_word h
  rw [wordsOf.eq_def]
  simp only [hlt, hgt, or_self, if_false, h, Bool.false_eq_true]

/-- What is behind an operator that takes a target. -/
theorem wordsOf_target {t : α} (h : str t = ['<'] ∨ str t = ['>']) (f : α) (rest : List α) :
    wordsOf str (t :: f :: rest) = wordsOf str rest := by
  rw [wordsOf.eq_def]
  simp only [h, if_true]

/-- Words are kept. -/
theorem wordsOf_append {ws : List α} (hws : ∀ t ∈ ws, isOperator (str t) = false)
    (rest : List α) : wordsOf str (ws ++ rest) = ws ++ wordsOf str rest := by
  induction ws with
  | nil => rfl
  | cons t ws ih =>
      obtain ⟨ht, hws⟩ := List.forall_mem_cons.mp hws
      rw [List.cons_append, wordsOf_word str ht, ih hws, List.cons_append]

/-- Words are no targets. -/
theorem targetsOf_append {op : Str} {ws : List α} (hws : ∀ t ∈ ws, isOperator (str t) = false)
    (rest : List α) : targetsOf str op (ws ++ rest) = targetsOf str op rest := by
  induction ws with
  | nil => rfl
  | cons t ws ih =>
      obtain ⟨ht, hws⟩ := List.forall_mem_cons.mp hws
      obtain ⟨hlt, hgt⟩ := ne_redirect_of_word ht
      rw [List.cons_append, targetsOf.eq_def]
      simp only [hlt, hgt, or_self, if_false]
      exact ih hws

/-- What is behind an operator that takes a target. -/
theorem targetsOf_target {op : Str} {t : α} (h : str t = ['<'] ∨ str t = ['>']) (f : α)
    (rest : List α) : targetsOf str op (t :: f :: rest) =
      if str t = op then f :: targetsOf str op rest else targetsOf str op rest := by
  rw [targetsOf.eq_def]
  simp only [h, if_true]

/-- A lone token is nobody's target. -/
theorem targetsOf_singleton (op : Str) (t : α) : targetsOf str op [t] = [] := by
  simp [targetsOf]

/-- Of more targets behind one, the last is the last of all. -/
theorem getLast?_cons_or (f : α) (fs : List α) (o : Option α) :
    (f :: fs).getLast?.or o = fs.getLast?.or (some f) := by
  rw [List.getLast?_cons, Option.or_some]
  rfl

/-- What the inner loop takes has no words, and the last targets in it are those of the command;
where it has none, the command keeps what it had. -/
theorem setter_takes (c : Command α) (tokens : List α) : ∃ taken,
    tokens = taken ++ (setter str c tokens).2 ∧ wordsOf str taken = [] ∧
      (setter str c tokens).1.input = (targetsOf str ['<'] taken).getLast?.or c.input ∧
      (setter str c tokens).1.output = (targetsOf str ['>'] taken).getLast?.or c.output := by
  have hnone {t : α} (h : isOperator (str t)) (hlt : str t ≠ ['<']) (hgt : str t ≠ ['>']) :
      wordsOf str [t] = [] := wordsOf_operator str h hlt hgt []
  fun_induction setter str c tokens with
  | case1 | case9 => exact ⟨[], rfl, rfl, rfl, rfl⟩
  | case2 c t ht f rest ih =>
      obtain ⟨taken, hrest, hwords, hin, hout⟩ := ih
      refine ⟨t :: f :: taken, by rw [List.cons_append, List.cons_append, ← hrest], ?_, ?_, ?_⟩
      · rw [wordsOf_target str (.inl ht), hwords]
      · rw [hin, targetsOf_target str (.inl ht), if_pos ht, getLast?_cons_or]
      · rw [hout, targetsOf_target str (.inl ht), if_neg (by rw [ht]; decide)]
  | case4 c t _ ht f rest ih =>
      obtain ⟨taken, hrest, hwords, hin, hout⟩ := ih
      refine ⟨t :: f :: taken, by rw [List.cons_append, List.cons_append, ← hrest], ?_, ?_, ?_⟩
      · rw [wordsOf_target str (.inr ht), hwords]
      · rw [hin, targetsOf_target str (.inr ht), if_neg (by rw [ht]; decide)]
      · rw [hout, targetsOf_target str (.inr ht), if_pos ht, getLast?_cons_or]
  | case3 c t ht =>
      refine ⟨[t], rfl, ?_, ?_, ?_⟩
      · simp only [wordsOf, ht, true_or, if_true]
      all_goals rw [targetsOf_singleton]; rfl
  | case5 c t _ ht =>
      refine ⟨[t], rfl, ?_, ?_, ?_⟩
      · simp only [wordsOf, ht, or_true, if_true]
      all_goals rw [targetsOf_singleton]; rfl
  | case6 c t rest hlt hgt h | case7 c t rest hlt hgt _ h | case8 c t rest hlt hgt _ _ h =>
      refine ⟨[t], rfl, hnone (by simp [isOperator, h]) hlt hgt, ?_, ?_⟩
      all_goals rw [targetsOf_singleton]; rfl

/-- The inner loop takes no words but targets. -/
theorem wordsOf_setter (c : Command α) (tokens : List α) :
    wordsOf str (setter str c tokens).2 = wordsOf str tokens := by
  fun_induction setter str c tokens with
  | case1 => rfl
  | case2 c t ht f rest ih => rw [ih, wordsOf_target str (.inl ht)]
  | case3 c t ht =>
      rw [wordsOf.eq_def str [t]]
      simp only [ht, true_or, if_true, wordsOf]
  | case4 c t _ ht f rest ih => rw [ih, wordsOf_target str (.inr ht)]
  | case5 c t _ ht =>
      rw [wordsOf.eq_def str [t]]
      simp only [ht, or_true, if_true, wordsOf]
  | case6 c t rest hlt hgt h =>
      exact (wordsOf_operator str (by simp [isOperator, h]) hlt hgt rest).symm
  | case7 c t rest hlt hgt _ h =>
      exact (wordsOf_operator str (by simp [isOperator, h]) hlt hgt rest).symm
  | case8 c t rest hlt hgt _ _ h =>
      exact (wordsOf_operator str (by simp [isOperator, h]) hlt hgt rest).symm
  | case9 => rfl

/-- What stands in front of the first operator are words. -/
theorem word_of_mem_takeWhile {tokens : List α} :
    ∀ t ∈ tokens.takeWhile fun t => !isOperator (str t), isOperator (str t) = false :=
  fun t ht => by simpa using List.all_eq_true.mp List.all_takeWhile t ht

/-- Filling in a command takes its words, and no others but targets. -/
theorem wordsOf_fill (c : Command α) (tokens : List α) :
    wordsOf str tokens =
      (tokens.takeWhile fun t => !isOperator (str t)) ++ wordsOf str (fill str c tokens).2 := by
  rw [fill, splitter, wordsOf_setter, ← wordsOf_append str (word_of_mem_takeWhile str),
    List.takeWhile_append_dropWhile]

/-- The inner loop leaves the arguments and the name of a command as they are. -/
theorem setter_args (c : Command α) (tokens : List α) :
    (setter str c tokens).1.args = c.args ∧ (setter str c tokens).1.command = c.command := by
  fun_induction setter str c tokens with
  | case2 c t _ f rest ih => exact ih
  | case4 c t _ _ f rest ih => exact ih
  | _ => exact ⟨rfl, rfl⟩

/-- A command holds the words before the first operator. -/
theorem fill_holds (c : Command α) (tokens : List α) :
    (fill str c.init tokens).1.Holds (tokens.takeWhile fun t => !isOperator (str t)) := by
  obtain ⟨hargs, hcommand⟩ := setter_args str (splitter str c.init tokens).1
    (splitter str c.init tokens).2
  refine ⟨hargs, hcommand.trans ?_⟩
  simp only [splitter]
  cases tokens.takeWhile fun t => !isOperator (str t) with
  | nil => rfl
  | cons w ws => rfl

/-- Filling in a command takes a part of the line, of which the command is made. -/
theorem fill_madeOf (c : Command α) (tokens : List α) : ∃ part,
    tokens = part ++ (fill str c.init tokens).2 ∧ (fill str c.init tokens).1.MadeOf str part := by
  obtain ⟨taken, htaken, hwords, hin, hout⟩ := setter_takes str (splitter str c.init tokens).1
    (splitter str c.init tokens).2
  have hws : ∀ t ∈ tokens.takeWhile fun t => !isOperator (str t), isOperator (str t) = false :=
    word_of_mem_takeWhile str
  refine ⟨(tokens.takeWhile fun t => !isOperator (str t)) ++ taken, ?_, ?_, ?_, ?_⟩
  · rw [fill, List.append_assoc, ← htaken]
    exact List.takeWhile_append_dropWhile.symm
  · rw [wordsOf_append str hws, hwords, List.append_nil]
    exact fill_holds str c tokens
  · rw [targetsOf_append str hws, fill, hin]
    exact Option.or_none
  · rw [targetsOf_append str hws, fill, hout]
    exact Option.or_none

/-- The commands of a line are made of its parts, which follow one another without a gap. -/
theorem commandsOf_madeOf (mem : ℕ → Command α) (n : ℕ) (tokens : List α) :
    ∃ parts, List.Forall₂ (Command.MadeOf str) (commandsOf str mem n tokens) parts ∧
      parts.flatten = tokens := by
  fun_induction commandsOf str mem n tokens with
  | case1 => exact ⟨[], .nil, rfl⟩
  | case2 n t rest filled ih =>
      obtain ⟨part, hpart, hmade⟩ := fill_madeOf str (mem n) (t :: rest)
      obtain ⟨parts, hparts, hflat⟩ := ih
      refine ⟨part :: parts, .cons hmade hparts, ?_⟩
      rw [List.flatten_cons, hflat]
      exact hpart.symm

/-- The commands of a line hold its words, one after the other. -/
theorem commandsOf_words (mem : ℕ → Command α) (n : ℕ) (tokens : List α) :
    ∃ ws, List.Forall₂ Command.Holds (commandsOf str mem n tokens) ws ∧
      ws.flatten = wordsOf str tokens := by
  fun_induction commandsOf str mem n tokens with
  | case1 => exact ⟨[], .nil, rfl⟩
  | case2 n t rest filled ih =>
      obtain ⟨ws, hws, hflat⟩ := ih
      refine ⟨_ :: ws, .cons (fill_holds str (mem n) (t :: rest)) hws, ?_⟩
      rw [List.flatten_cons, hflat]
      exact (wordsOf_fill str (mem n).init (t :: rest)).symm

/-- A turn of the outer loop makes a command, of one token at least. -/
theorem length_commandsOf_le (mem : ℕ → Command α) (n : ℕ) (tokens : List α) :
    (commandsOf str mem n tokens).length ≤ tokens.length := by
  fun_induction commandsOf str mem n tokens with
  | case1 => exact Nat.le_refl 0
  | case2 n t rest filled ih =>
      have hlt : filled.2.length < (t :: rest).length := length_fill_lt str _ t rest
      rw [List.length_cons]
      omega

/-- What `buildCommandList` makes of the tokens: the cells `l`, linked both ways from `head`
on, hold the words of the tokens, each once and in order. Each is made of a part of the line, so
that every other token is an operator or the target of one. -/
structure Accounted (tokens : List α) (h : Heap α) (head : Option ℕ) (l : List ℕ) : Prop where
  linked : Doubly (fun p => (h.cells p).next) (fun p => (h.cells p).prev) none head l
  inverse : ∀ p ∈ l, ∀ q ∈ l, (h.cells p).next = some q ↔ (h.cells q).prev = some p
  words : ∃ ws, List.Forall₂ Command.Holds (l.map h.cells) ws ∧ ws.flatten = wordsOf str tokens
  parts : ∃ parts, List.Forall₂ (Command.MadeOf str) (l.map h.cells) parts ∧
    parts.flatten = tokens
  length_le : l.length ≤ tokens.length

/-- The links of a command are no part of what it holds. -/
theorem Command.Holds.of_unlinked {c : Command α} {ws : List α} (h : c.unlinked.Holds ws) :
    c.Holds ws := ⟨h.args, h.command⟩

/-- Nor of what it is made of. -/
theorem Command.MadeOf.of_unlinked {c : Command α} {part : List α}
    (h : c.unlinked.MadeOf str part) : c.MadeOf str part :=
  ⟨h.holds.of_unlinked, h.input, h.output⟩

/-- The list that `buildCommandList` returns accounts for the tokens. -/
theorem accounted (tokens : List α) (h : Heap α) :
    ∃ l, Accounted str tokens (buildCommandList str tokens h).2
      (buildCommandList str tokens h).1 l := by
  obtain ⟨tail, l, hb⟩ := buildCommandList_spec str tokens h
  obtain ⟨ws, hws, hflat⟩ := commandsOf_words str h.cells h.size tokens
  obtain ⟨parts, hparts, htokens⟩ := commandsOf_madeOf str h.cells h.size tokens
  refine ⟨l, hb.linked, hb.linked.inverse, ⟨ws, ?_, hflat⟩, ⟨parts, ?_, htokens⟩, ?_⟩
  · rw [← hb.commands, List.forall₂_map_left_iff] at hws
    rw [List.forall₂_map_left_iff]
    exact hws.imp fun _ _ h => h.of_unlinked
  · rw [← hb.commands, List.forall₂_map_left_iff] at hparts
    rw [List.forall₂_map_left_iff]
    exact hparts.imp fun _ _ h => h.of_unlinked
  · have hlen := length_commandsOf_le str h.cells h.size tokens
    rwa [← hb.commands, List.length_map] at hlen

end Words

/-! ### The array `childPids` -/

section ChildPids

variable {α : Type} {x : Sh α} {s : ShellState} {v : Locals}

/-- The computation does not write behind `childPids`, whatever else becomes of it. -/
def Inside (x : Sh α) : Prop := ∀ s, Ends x s (fun _ _ => True) fun e _ => e ≠ .childPids

/-- A sequence stays inside the array where both its parts do. -/
theorem Inside.bind {β : Type} {f : α → Sh β} (hx : Inside x) (hf : ∀ a, Inside (f a)) :
    Inside (x >>= f) :=
  fun s => (hx s).bind fun a s' _ => hf a s'

/-- What always returns a value does not write behind the array. -/
theorem inside_of_ok (h : ∀ s, ∃ a s', x s = .ok a s') : Inside x := by
  intro s
  obtain ⟨a, s', hx⟩ := h s
  exact .of_ok hx trivial

/-- Neither does a value by itself. -/
theorem inside_pure (a : α) : Inside (pure a) := fun _ => .pure trivial

/-- The shell that exits does so for another reason. -/
theorem inside_exitShell (status : ℤ) : Inside (exitShell status : Sh α) :=
  fun _ => .of_error rfl Halt.noConfusion

/-- `pipe` writes into `pipeFD` only. -/
theorem inside_pipe (pipeFD : ℤ × ℤ) : Inside (pipe pipeFD) :=
  inside_of_ok fun s => by
    unfold pipe
    split <;> exact ⟨_, _, rfl⟩

/-- `close` writes to no array. -/
theorem inside_closeFd (fd : ℤ) : Inside (closeFd fd) := inside_of_ok fun _ => ⟨_, _, rfl⟩

/-- `fork` returns the number of the child, which its caller may put into the array. -/
theorem inside_procFork (l : Launch) : Inside (procFork l) :=
  inside_of_ok fun s => by
    unfold procFork
    split <;> exact ⟨_, _, rfl⟩

/-- `waitpid` only reads the array's entries. -/
theorem inside_waitpid (pid : ℤ) : Inside (waitpid pid) := inside_of_ok fun _ => ⟨_, _, rfl⟩

/-- The status goes to `qbuf`. -/
theorem inside_setQbuf (n : ℤ) : Inside (setQbuf n) := inside_of_ok fun _ => ⟨_, _, rfl⟩

/-- That a built-in has been run is observed, and nothing else. -/
theorem inside_ran (name : Str) : Inside (ran name) := inside_of_ok fun _ => ⟨_, _, rfl⟩

/-- `runPipe` forks, or exits where that fails. -/
theorem inside_runPipe (r w : ℤ) (c : Command Str) : Inside (runPipe r w c) := by
  refine (inside_procFork _).bind fun pid => ?_
  split
  · exact inside_exitShell _
  · exact inside_pure _

/-- `runExternal` has its own variable for the one child it forks. -/
theorem inside_runExternal (c : Command Str) : Inside (runExternal c) := by
  unfold runExternal
  split
  · exact inside_pure _
  · refine (inside_procFork _).bind fun pid => ?_
    split
    · exact inside_pure _
    · refine (inside_waitpid _).bind fun status => ?_
      split
      · exact (inside_setQbuf _).bind fun _ => inside_pure _
      · exact inside_pure _

/-- So does `runRedirectExternal`: its array `pids` is not written to. -/
theorem inside_runRedirectExternal (c : Command Str) : Inside (runRedirectExternal c) := by
  unfold runRedirectExternal
  split
  · exact inside_pure _
  · refine (inside_procFork _).bind fun pid => ?_
    split
    · exact inside_pure _
    · exact (inside_waitpid _).bind fun _ => inside_pure _

/-- `exit` exits or complains. -/
theorem inside_runexit (c : Command Str) : Inside (runexit c) := by
  refine (inside_ran _).bind fun _ => ?_
  split
  · exact inside_exitShell _
  · exact inside_exitShell _
  · exact inside_pure _

/-- `cd` always returns. -/
theorem inside_runcd (c : Command Str) : Inside (runcd c) :=
  inside_of_ok fun s => (runcd_run c s).elim fun _ h => ⟨_, _, h⟩

/-- A command alone is run without the array. -/
theorem inside_standaloneCommand (c : Command Str) : Inside (standaloneCommand c) := by
  unfold standaloneCommand
  split_ifs
  · exact (inside_ran _).bind fun _ => inside_of_ok fun _ => ⟨_, _, rfl⟩
  · exact (inside_runcd c).bind fun _ => (inside_setQbuf _).bind fun _ => inside_pure _
  · exact (inside_runexit c).bind fun _ => (inside_setQbuf _).bind fun _ => inside_pure _
  · exact (inside_runRedirectExternal c).bind fun _ => inside_pure _
  · exact inside_runExternal c

/-- The loop over the children reads the array as far as it has been written. -/
theorem inside_waitAll (pids : List ℤ) (exitCode : ℤ) : Inside (waitAll pids exitCode) := by
  induction pids generalizing exitCode with
  | nil => exact inside_pure _
  | cons pid rest ih =>
      exact (inside_waitpid pid).bind fun status => (inside_setQbuf _).bind fun _ => ih _

/-- The loop for one command takes one entry at most. -/
theorem runStage_inside (c : Command Str) (hv : v.childPids.length < 32) (s : ShellState) :
    Ends (runStage c v) s (fun v' _ => v'.childPids.length ≤ v.childPids.length + 1)
      fun e _ => e ≠ .childPids := by
  have hadd {u : Locals} (hu : u.childPids.length = v.childPids.length) (pid : ℤ)
      (s : ShellState) : Ends (addChild u pid) s
        (fun v' _ => v'.childPids.length ≤ v.childPids.length + 1)
        fun e _ => e ≠ .childPids := by
    refine .of_ok (addChild_run (hu ▸ hv) pid) ?_
    simp only [List.length_append, List.length_singleton, hu, Nat.le_refl]
  unfold runStage
  split_ifs
  · exact (inside_standaloneCommand c s).bind fun n _ _ => .pure (Nat.le_succ _)
  · refine (inside_pipe _ s).bind fun fd s _ => (inside_runPipe _ _ c s).bind fun pid s _ => ?_
    exact (inside_closeFd _ s).bind fun _ s _ => hadd (by rfl) pid s
  · refine (inside_pipe _ s).bind fun fd s _ => (inside_runPipe _ _ c s).bind fun pid s _ => ?_
    refine (hadd (by rfl) pid s).bind fun v' s h => ?_
    exact (inside_closeFd _ s).bind fun _ s _ => .pure h
  · refine (inside_runPipe _ _ c s).bind fun pid s _ => ?_
    refine (hadd (by rfl) pid s).bind fun v' s h => ?_
    exact (inside_closeFd _ s).bind fun _ s _ => .pure h
  · exact .pure (Nat.le_succ _)

/-- A loop for which there is room does not write behind the array. -/
theorem inside_runStages {cs : List (Command Str)} (hv : v.childPids.length + cs.length ≤ 32) :
    Inside (runStages cs v) := by
  induction cs generalizing v with
  | nil => exact inside_pure _
  | cons c cs ih =>
      intro s
      rw [List.length_cons] at hv
      unfold runStages
      split
      · exact .pure trivial
      · refine (runStage_inside c (by omega) s).bind fun v' s' h => ih ?_ s'
        omega

/-- A list of as many tokens as there are entries. -/
theorem inside_runCommands {tokens : List Str} (h : tokens.length ≤ 32) (pipeFD : ℤ × ℤ) :
    Inside (runCommands tokens pipeFD) := by
  intro s
  obtain ⟨cs, mem, -, hcs, hrun⟩ := runCommands_eq tokens pipeFD s
  have hlen : cs.length ≤ 32 := by
    rw [← List.length_map (f := Command.unlinked), hcs]
    exact Nat.le_trans (length_commandsOf_le id _ _ tokens) h
  have hin : Inside (do finish (← runStages cs ⟨-1, pipeFD, [], 0⟩)) :=
    (inside_runStages (by simpa using hlen)).bind fun o => by
      cases o with
      | none => exact inside_pure _
      | some v => exact inside_waitAll _ _
  rw [Ends, hrun]
  exact hin _

end ChildPids

/-- `buildCommandList` loses no word of a line: its commands are made of consecutive parts of
the line, hold the words of it in order, and are linked both ways. And `runPipeline` has room in
`childPids` for what it makes of 32 tokens. -/
theorem buildCommandList_words :
    (∀ {α : Type} (str : α → Str) (tokens : List α) (h : Heap α),
      ∃ l, Accounted str tokens (buildCommandList str tokens h).2
        (buildCommandList str tokens h).1 l) ∧
    ∀ (tokens : List Str) (pipeFD : ℤ × ℤ) (s s' : ShellState), tokens.length ≤ 32 →
      runCommands tokens pipeFD s ≠ .error .childPids s' :=
  ⟨accounted, fun _ pipeFD s _ h herr => (inside_runCommands h pipeFD s).error herr rfl⟩

/-- A line of three tokens, which makes two commands. -/
theorem buildCommandList_words_two :
    ∀ s', runCommands [['a'], ['|'], ['b']] (0, 0) started ≠ .error .childPids s' :=
  fun s' => buildCommandList_words.2 _ _ _ s' (by decide)

end SystemsProjects.Shell
