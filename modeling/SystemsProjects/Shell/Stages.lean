import Mathlib.Data.List.Perm.Subperm
import SystemsProjects.Shell.Pipeline

/-!
# The Stages of a Pipeline

What the loop of `runPipeline` does for one command, told from where the command stands in
the list: the first and the middle ones get a new pipe, whose read end the shell keeps for
the next one, and the last one gets what was kept.

## Main definitions

* `Positioned`: the links of a list of commands say where each of them stands.
* `Calm`: pipes and forks succeed.

## Main results

* `runCommands_eq`: a command list is run stage by stage.
* `runStage_first`, `runStage_middle`, `runStage_last`: the branches of the loop.
-/

namespace SystemsProjects.Shell

open DoublyLinked Stateful

variable {s : ShellState} {v : Locals} {c : Command Str} {cs : List (Command Str)}

/-! ### The list -/

/-- The links say where a command stands: nothing is in front of the first one, and nothing
behind the last one. -/
def Positioned : Bool → List (Command Str) → Prop
  | _, [] => True
  | first, c :: rest =>
      (c.prev = none ↔ first = true) ∧ (c.next = none ↔ rest = []) ∧ Positioned false rest

/-- The nodes of a doubly linked list are positioned. -/
theorem positioned_of_doubly {cells : ℕ → Command Str} {b p : Option ℕ} {l : List ℕ}
    (h : Doubly (fun q => (cells q).next) (fun q => (cells q).prev) b p l) :
    Positioned b.isNone (l.map cells) := by
  induction l generalizing b p with
  | nil => trivial
  | cons x xs ih =>
      obtain ⟨-, hprev, hrest⟩ := h
      refine ⟨?_, ?_, ih hrest⟩
      · rw [← hprev, Option.isNone_iff_eq_none]
      · rw [List.map_eq_nil_iff]
        exact hrest.linked.next_eq_none_iff

/-- The commands that `buildCommandList` builds, as the loop of `runPipeline` meets them. -/
theorem Built.commands_eq {h : Heap Str} {head tail : Option ℕ} {l : List ℕ}
    (hb : Built h head tail l cs) : h.commands head = l.map h.cells := by
  have hlen : l.length ≤ h.size := by
    have hsub : l ⊆ List.range h.size := fun p hp => List.mem_range.mpr (hb.old p hp)
    simpa using (hb.linked.linked.nodup.subperm hsub).length_le
  rw [Heap.commands, hb.linked.linked.walk_of_le hlen]

/-- A command list is run stage by stage. -/
theorem runCommands_eq (tokens : List Str) (pipeFD : ℤ × ℤ) (s : ShellState) :
    ∃ cs h, Positioned true cs ∧
      cs.map Command.unlinked = commandsOf id s.heap.cells s.heap.size tokens ∧
      runCommands tokens pipeFD s =
        (do finish (← runStages cs ⟨-1, pipeFD, [], 0⟩)) { s with heap := h } := by
  obtain ⟨tail, l, hb⟩ := buildCommandList_spec id tokens s.heap
  refine ⟨_, (buildCommandList id tokens s.heap).2, positioned_of_doubly hb.linked, ?_, ?_⟩
  · rw [List.map_map, ← hb.commands]
    rfl
  · rw [← hb.commands_eq]
    rfl

/-- A list of one command is run as it is. -/
theorem runCommands_single {tokens : List Str}
    (hc : commandsOf id s.heap.cells s.heap.size tokens = [c]) (pipeFD : ℤ × ℤ) :
    ∃ h, c.next = none ∧ c.prev = none ∧ runCommands tokens pipeFD s =
      (do finish (← runStages [c] ⟨-1, pipeFD, [], 0⟩)) { s with heap := h } := by
  obtain ⟨cs, h, hpos, hcs, hrun⟩ := runCommands_eq tokens pipeFD s
  rw [hc] at hcs
  obtain ⟨c', rfl, hc'⟩ := List.map_eq_singleton_iff.mp hcs
  have hprev : c'.prev = none := hpos.1.mpr rfl
  have hnext : c'.next = none := hpos.2.1.mpr rfl
  have heq : c' = c := by
    rw [← hc']
    cases c'
    simp only at hprev hnext
    rw [hprev, hnext]
    rfl
  subst heq
  exact ⟨h, hnext, hprev, hrun⟩

/-! ### Pipes and forks -/

/-- Forks succeed. -/
def ShellState.Forks (s : ShellState) : Prop := ∀ n, s.fails .fork n = false

/-- Pipes and forks succeed. All else may fail. -/
structure Calm (s : ShellState) : Prop where
  pipe : ∀ n, s.fails .pipe n = false
  fork : s.Forks

namespace ShellState

variable (s)

/-- The read end that the next pipe will have. -/
def readEnd : ℕ := s.fds.lowest

/-- The write end that the next pipe will have. -/
def writeEnd : ℕ := (s.fds.set s.fds.lowest (some (.pipeRead s.pipes))).lowest

/-- A stage with a new pipe: the pipe is made, the child is forked, and the write end is
given up. -/
def spawned (l : Launch) : ShellState := (s.called.piped.called.forked l).closed s.writeEnd

/-- The read end is a free descriptor when the pipe is made. -/
theorem get_readEnd : s.fds.get s.readEnd = none := s.fds.get_lowest

/-- The two ends are different descriptors. -/
theorem writeEnd_ne : s.writeEnd ≠ s.readEnd := by
  refine Slots.lowest_ne _ ?_
  rw [readEnd, Slots.get_set_self]
  nofun

/-- The write end is free, too. -/
theorem get_writeEnd : s.fds.get s.writeEnd = none := by
  have h : (s.fds.set s.readEnd (some (.pipeRead s.pipes))).get s.writeEnd = none :=
    Slots.get_lowest _
  rwa [Slots.get_set_of_ne _ _ s.writeEnd_ne] at h

/-- The descriptors behind `pipe`. -/
theorem get_piped (k : ℕ) : s.piped.fds.get k =
    if k = s.writeEnd then some (.pipeWrite s.pipes)
    else if k = s.readEnd then some (.pipeRead s.pipes)
    else s.fds.get k := by
  simp only [piped, Slots.get_set]
  rfl

/-- Of a stage with a new pipe the shell keeps the read end. -/
theorem get_spawned (l : Launch) (k : ℕ) : (s.spawned l).fds.get k =
    if k = s.readEnd then some (.pipeRead s.pipes) else s.fds.get k := by
  have h : (s.spawned l).fds.get k = if k = s.writeEnd then none else s.piped.fds.get k := by
    rw [spawned, closed, Slots.get_set]
    rfl
  rw [h, get_piped]
  by_cases hw : k = s.writeEnd
  · subst hw
    rw [if_pos rfl, if_neg s.writeEnd_ne, s.get_writeEnd]
  · rw [if_neg hw, if_neg hw]

/-- A stage adds its child to those there are, with the next number. -/
@[simp] theorem children_spawned (l : Launch) : (s.spawned l).children =
    s.children ++ [⟨s.children.length + 1, l, s.piped.fds⟩] := rfl

/-- It waits for nobody. -/
@[simp] theorem waited_spawned (l : Launch) : (s.spawned l).waited = s.waited := rfl

/-- It changes nothing about which calls will fail. -/
@[simp] theorem fails_spawned (l : Launch) : (s.spawned l).fails = s.fails := rfl

/-- It makes one pipe. -/
@[simp] theorem pipes_spawned (l : Launch) : (s.spawned l).pipes = s.pipes + 1 := rfl

/-- It runs no built-in. -/
@[simp] theorem builtins_spawned (l : Launch) : (s.spawned l).builtins = s.builtins := rfl

/-- It does not touch what its children will exit with. -/
@[simp] theorem status_spawned (l : Launch) : (s.spawned l).status = s.status := rfl

/-- It does not touch `qbuf`. -/
@[simp] theorem qbuf_spawned (l : Launch) : (s.spawned l).qbuf = s.qbuf := rfl

end ShellState

/-- Whether calls fail is all that calm is about. -/
theorem Calm.of_fails {s' : ShellState} (h : Calm s) (hf : s'.fails = s.fails) : Calm s' :=
  ⟨by rw [hf]; exact h.pipe, by rw [ShellState.Forks, hf]; exact h.fork⟩

/-- Where no call fails, `pipe` returns the two lowest free descriptors. -/
theorem pipe_run (h : Calm s) (pipeFD : ℤ × ℤ) :
    pipe pipeFD s = .ok (s.readEnd, s.writeEnd) s.called.piped :=
  if_neg (by simp [ShellState.failing, h.pipe])

/-- Where no fork fails, the child gets the next number. -/
theorem procFork_run (h : s.Forks) (l : Launch) :
    procFork l s = .ok (s.children.length + 1 : ℕ) (s.called.forked l) :=
  if_neg (by simp [ShellState.failing, h _])

/-- The parent's part of `runPipe` is the fork. -/
theorem runPipe_run (h : s.Forks) (pipeInput pipeOutput : ℤ) :
    runPipe pipeInput pipeOutput c s =
      .ok (s.children.length + 1 : ℕ) (s.called.forked (.pipe pipeInput pipeOutput c)) := by
  rw [runPipe, run_bind_ok (procFork_run h _), if_neg (by omega)]
  rfl

/-- Closing a descriptor that is given as a number. -/
theorem closeFd_run (k : ℕ) : closeFd k s = .ok () (s.closed k) := by
  have h : ¬ (k : ℤ) < 0 := by omega
  rw [closeFd, if_neg h, Int.toNat_natCast]

/-- The array of process numbers has 32 entries. -/
theorem addChild_run (h : v.childPids.length < 32) (pid : ℤ) :
    addChild v pid s = .ok { v with childPids := v.childPids ++ [pid] } s := if_pos h

/-- Behind its 32 entries the array is not written to: that would be undefined. -/
theorem addChild_full (h : ¬ v.childPids.length < 32) (pid : ℤ) :
    addChild v pid s = .error .childPids s := if_neg h

/-! ### The branches of the loop -/

/-- The local variables behind a stage with a new pipe. -/
def Locals.spawned (v : Locals) (s : ShellState) : Locals :=
  { v with
    previousPipeReadEnd := s.readEnd
    pipeFD := (s.readEnd, s.writeEnd)
    childPids := v.childPids ++ [((s.children.length + 1 : ℕ) : ℤ)] }

/-- A command between two others takes the branch for the middle. -/
theorem runStage_eq_middle (hn : c.next ≠ none) (hp : c.prev ≠ none) :
    runStage c v = (do
      let pipeFD ← pipe v.pipeFD
      let pid ← runPipe v.previousPipeReadEnd pipeFD.2 c
      let v ← addChild { v with pipeFD := pipeFD, previousPipeReadEnd := pipeFD.1 } pid
      closeFd pipeFD.2
      return v) := by
  have h₁ : ¬ (c.next = none ∧ c.prev = none ∧ c.nextPipe ≠ 1) := fun h => hn h.1
  have h₂ : ¬ (c.next ≠ none ∧ c.prev = none) := fun h => hp h.2
  rw [runStage, if_neg h₁, if_neg h₂, if_pos ⟨hn, hp⟩]

/-- A command with one before it and none behind takes the branch for the end. -/
theorem runStage_eq_last (hn : c.next = none) (hp : c.prev ≠ none) :
    runStage c v = (do
      let pid ← runPipe v.previousPipeReadEnd (-1) c
      let v ← addChild v pid
      closeFd v.previousPipeReadEnd
      return v) := by
  have h₁ : ¬ (c.next = none ∧ c.prev = none ∧ c.nextPipe ≠ 1) := fun h => hp h.2.1
  have h₂ : ¬ (c.next ≠ none ∧ c.prev = none) := fun h => hp h.2
  have h₃ : ¬ (c.next ≠ none ∧ c.prev ≠ none) := fun h => h.1 hn
  rw [runStage, if_neg h₁, if_neg h₂, if_neg h₃, if_pos ⟨hn, hp⟩]

/-- The first stage reads what the shell reads, and writes to a new pipe. -/
theorem runStage_first (h : Calm s) (hn : c.next ≠ none) (hp : c.prev = none)
    (hv : v.childPids.length < 32) :
    runStage c v s = .ok (v.spawned s) (s.spawned (.pipe (-1) s.writeEnd c)) := by
  have h₁ : ¬ (c.next = none ∧ c.prev = none ∧ c.nextPipe ≠ 1) := fun h => hn h.1
  have hcalm : Calm s.called.piped := h.of_fails rfl
  rw [runStage, if_neg h₁, if_pos ⟨hn, hp⟩, run_bind_ok (pipe_run h _),
    run_bind_ok (runPipe_run hcalm.fork _ _), run_bind_ok (closeFd_run _)]
  exact addChild_run (by exact hv) _

/-- A stage in the middle reads the pipe before it, and writes to a new one. -/
theorem runStage_middle (h : Calm s) (hn : c.next ≠ none) (hp : c.prev ≠ none)
    (hv : v.childPids.length < 32) :
    runStage c v s =
      .ok (v.spawned s) (s.spawned (.pipe v.previousPipeReadEnd s.writeEnd c)) := by
  have hcalm : Calm s.called.piped := h.of_fails rfl
  rw [runStage_eq_middle hn hp, run_bind_ok (pipe_run h _),
    run_bind_ok (runPipe_run hcalm.fork _ _)]
  exact (run_bind_ok (addChild_run (by exact hv) _)).trans (run_bind_ok (closeFd_run _))

/-- The last stage reads the pipe before it, which the shell then gives up. -/
theorem runStage_last (h : Calm s) (hn : c.next = none) (hp : c.prev ≠ none)
    (hv : v.childPids.length < 32) {r : ℕ} (hr : v.previousPipeReadEnd = r) :
    runStage c v s = .ok { v with childPids := v.childPids ++ [((s.children.length + 1 : ℕ) : ℤ)] }
      ((s.called.forked (.pipe v.previousPipeReadEnd (-1) c)).closed r) := by
  have hclose (s : ShellState) : closeFd v.previousPipeReadEnd s = .ok () (s.closed r) := by
    rw [hr, closeFd_run]
  rw [runStage_eq_last hn hp, run_bind_ok (runPipe_run h.fork _ _),
    run_bind_ok (addChild_run hv _)]
  exact run_bind_ok (hclose _)

/-! ### A command alone -/

/-- A command alone, which is not marked with `&&`, is run by `standaloneCommand`. -/
theorem runStages_single (hn : c.next = none) (hp : c.prev = none) (hc : c.command ≠ none)
    (hnp : c.nextPipe ≠ 1) (pipeFD : ℤ × ℤ) :
    (do finish (← runStages [c] ⟨-1, pipeFD, [], 0⟩)) s = standaloneCommand c s := by
  have hstage (v : Locals) : runStage c v = (do
      return { v with exitCode := ← standaloneCommand c }) := by
    rw [runStage, if_pos ⟨hn, hp, hnp⟩]
  simp only [runStages, if_neg hc, hstage, bind_run, pure_run]
  cases standaloneCommand c s <;> rfl

/-- The names of the built-ins. -/
def isBuiltin (w : Str) : Bool :=
  w = ['p', 'w', 'd'] || w = ['c', 'd'] || w = ['e', 'x', 'i', 't']

/-- A command that is not built in is run as a program. -/
theorem standaloneCommand_external {w : Str} (hc : c.command = some w)
    (hw : isBuiltin w = false) :
    standaloneCommand c = if c.output ≠ none ∨ c.input ≠ none then do
        let _ ← runRedirectExternal c
        return 0
      else runExternal c := by
  simp only [isBuiltin, Bool.or_eq_false_iff, decide_eq_false_iff_not] at hw
  obtain ⟨⟨hpwd, hcd⟩, hexit⟩ := hw
  rw [standaloneCommand, hc, if_neg (by simpa using hpwd), if_neg (by simpa using hcd),
    if_neg (by simpa using hexit)]

/-- A program with a redirection is forked and waited for. -/
theorem runRedirectExternal_run (h : s.Forks) {f : Str} {r : Redirect}
    (hr : redirection c = some (f, r)) :
    runRedirectExternal c s = .ok 0 { s.called.forked (.redirect c f r) with
      waited := s.waited ++ [s.children.length + 1] } := by
  rw [runRedirectExternal, hr]
  simp only
  rw [run_bind_ok (procFork_run h _), if_neg (by omega)]
  rfl

/-- A program without a redirection is forked and waited for, if the field `redirect` is
not zero. -/
theorem runExternal_run (h : s.Forks) (hr : c.redirect ≠ 0) :
    runExternal c s = .ok (s.status (s.children.length + 1))
      { s.called.forked (.external c) with
        waited := s.waited ++ [s.children.length + 1]
        qbuf := if wifexited (s.status (s.children.length + 1)) then
          decimal (wexitstatus (s.status (s.children.length + 1))) else s.qbuf } := by
  rw [runExternal, if_neg hr, run_bind_ok (procFork_run h _), if_neg (by omega)]
  have hwait : waitpid ((s.children.length + 1 : ℕ) : ℤ) (s.called.forked (.external c)) =
      .ok (s.status (s.children.length + 1)) { s.called.forked (.external c) with
        waited := s.waited ++ [s.children.length + 1] } := rfl
  rw [run_bind_ok hwait]
  cases wifexited (s.status (s.children.length + 1)) <;> rfl

/-! ### A shell that has just been started -/

/-- Standard input, standard output and standard error. -/
def standard : Slots Open := ⟨[some (.inherited 0), some (.inherited 1), some (.inherited 2)]⟩

/-- The three descriptors a shell starts with are no ends of pipes. -/
theorem standard_pipe {k : ℕ} {o : Open} (h : standard.get k = some o) : o.pipe? = none := by
  match k with
  | 0 =>
      cases h
      rfl
  | 1 =>
      cases h
      rfl
  | 2 =>
      cases h
      rfl
  | k + 3 => cases h

/-- A shell that has just been started, whose calls all succeed, and whose children all
exit with 0. -/
def started : ShellState where
  fds := standard
  pipes := 0
  children := []
  waited := []
  builtins := []
  qbuf := []
  heap := ⟨fun _ => ⟨none, none, none, none, -1, none, none, -1, -1⟩, 0⟩
  fails := fun _ _ => false
  calls := 0
  status := fun _ => 0
  made := fun k o h p hp => by
    rw [standard_pipe h] at hp
    cases hp

/-- A command of one word that this shell builds. -/
def bare (w : Str) : Command Str :=
  ⟨some w, some [some w, none], none, none, -1, none, none, 0, 1⟩

/-- No call of this shell fails. -/
theorem calm_started : Calm started := ⟨fun _ => rfl, fun _ => rfl⟩

end SystemsProjects.Shell
