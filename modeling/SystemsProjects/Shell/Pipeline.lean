import SystemsProjects.Shell.Launch

/-!
# The Shell Itself

`command_loop.c` with what it calls, and the body of the loop of `main`, as the shell runs
them: the branches of its children are in `Launch`. A child is recorded with its branch and
with the descriptor table that `fork` copies for it; it runs beside the shell, which hears
of it again only from `waitpid`, in the status that the system reports.

## Main definitions

* `ShellState`: the process of the shell.
* `runPipeline`: a command list is run.
* `runTokens`: what `main` does with the tokens of a line.
-/

namespace SystemsProjects.Shell

/-! ### The process -/

/-- A child: its process number, its branch, and the descriptors it starts with, which are
copies of those of the shell. -/
structure Child where
  pid : ℕ
  launch : Launch
  fds : Slots Open
  deriving DecidableEq, Repr

/-- The pipe that a descriptor belongs to. -/
def Open.pipe? : Open → Option ℕ
  | pipeRead k | pipeWrite k => some k
  | _ => none

/-- The process of the shell, with the children it has had, the processes it has waited
for, the built-ins it has run, and the status that the system has for every process. The
pipes are numbered in the order they are made. -/
structure ShellState where
  fds : Slots Open
  pipes : ℕ
  children : List Child
  waited : List ℕ
  builtins : List Str
  qbuf : Str
  heap : Heap Str
  fails : Oracle
  calls : ℕ
  status : ℕ → ℕ
  made : ∀ k o, fds.get k = some o → ∀ p ∈ o.pipe?, p < pipes

/-- Why the shell stops: it exits, or it writes behind the array `childPids`, which has 32
entries. -/
inductive Halt
  | exit (status : ℤ)
  | childPids
  deriving DecidableEq, Repr

/-- C code of the shell. What its children do is no part of it. -/
abbrev Sh := EStateM Halt ShellState

namespace ShellState

/-- Whether the next call, of this kind, fails. -/
def failing (s : ShellState) (c : Call) : Bool := s.fails c s.calls

/-- One call more. -/
def called (s : ShellState) : ShellState := { s with calls := s.calls + 1 }

/-- A descriptor given up. -/
def closed (s : ShellState) (fd : ℕ) : ShellState :=
  { s with
    fds := s.fds.set fd none
    made := fun k o h => by
      rw [Slots.get_set] at h
      split at h
      · cases h
      · exact s.made k o h }

/-- The two ends of a new pipe, on the two lowest descriptors that are free, the read end on the
lower one. -/
def piped (s : ShellState) : ShellState :=
  { s with
    fds := (s.fds.set s.fds.lowest (some (.pipeRead s.pipes))).set
      (s.fds.set s.fds.lowest (some (.pipeRead s.pipes))).lowest (some (.pipeWrite s.pipes))
    pipes := s.pipes + 1
    made := fun k o h p hp => by
      rw [Slots.get_set, Slots.get_set] at h
      split at h
      · cases h
        cases hp
        exact Nat.lt_succ_self _
      · split at h
        · cases h
          cases hp
          exact Nat.lt_succ_self _
        · exact Nat.lt_succ_of_lt (s.made k o h p hp) }

/-- A new child. The numbers of processes count the forks, from 1 on. -/
def forked (s : ShellState) (l : Launch) : ShellState :=
  { s with children := s.children ++ [⟨s.children.length + 1, l, s.fds⟩] }

end ShellState

/-! ### System calls -/

/-- `pipe`: what it leaves in the array it is given. The shell does not look at what it returns,
and where it fails the array is as before. -/
def pipe (pipeFD : ℤ × ℤ) : Sh (ℤ × ℤ) := fun s =>
  if s.failing .pipe then .ok pipeFD s.called
  else
    .ok (s.fds.lowest, (s.fds.set s.fds.lowest (some (.pipeRead s.pipes))).lowest)
      s.called.piped

/-- `close`, in the shell. -/
def closeFd (fd : ℤ) : Sh Unit := fun s => .ok () (if fd < 0 then s else s.closed fd.toNat)

/-- `proc_fork`, for a child with the given branch. The child goes on with that branch, the
shell with the number of the process. -/
def procFork (l : Launch) : Sh ℤ := fun s =>
  if s.failing .fork then .ok (-1) s.called
  else .ok (s.children.length + 1 : ℕ) (s.called.forked l)

/-- `waitpid`, which finds the process. A status is given for every process in advance. -/
def waitpid (pid : ℤ) : Sh ℕ := fun s =>
  .ok (s.status pid.toNat) { s with waited := s.waited ++ [pid.toNat] }

/-- `exit`, in the shell. -/
def exitShell {α : Type} (status : ℤ) : Sh α := fun s => .error (.exit status) s

/-- `WIFEXITED`. -/
def wifexited (status : ℕ) : Bool := status &&& 0x7F = 0

/-- `WEXITSTATUS`. -/
def wexitstatus (status : ℕ) : ℕ := (status >>> 8) &&& 0xFF

/-- What `%d` writes. -/
def decimal (n : ℤ) : Str := (toString n).toList

/-- `sprintf(qbuf, "%d", n)`. -/
def setQbuf (n : ℤ) : Sh Unit := fun s => .ok () { s with qbuf := decimal n }

/-! ### Built-ins -/

/-- A built-in is run. -/
def ran (name : Str) : Sh Unit := fun s => .ok () { s with builtins := s.builtins ++ [name] }

/-- `atoi`: blanks, a sign, and digits up to the first character that is none. -/
def atoi (w : Str) : ℤ :=
  let digits (l : Str) : ℤ :=
    (l.takeWhile Char.isDigit).foldl (fun n c => n * 10 + (c.toNat - 48 : ℕ)) 0
  match w.dropWhile isSpace with
  | '-' :: l => -digits l
  | '+' :: l => digits l
  | l => digits l

/-- The arguments behind the name of the command. -/
def arguments (cmd : Command Str) : List Str :=
  match cmd.args with
  | none => []
  | some l => (l.drop 1).takeWhile (·.isSome) |>.filterMap id

/-- `runexit`. With no argument, or with one, it does not come back. -/
def runexit (cmd : Command Str) : Sh ℤ := do
  ran ['e', 'x', 'i', 't']
  match arguments cmd with
  | [] => exitShell 0
  | [w] => exitShell (atoi w)
  | _ => return 1

/-- `runpwd`. Its status is 1 where `getcwd` fails. What it prints is left out. -/
def runpwd : Sh ℤ := do
  ran ['p', 'w', 'd']
  fun s => .ok (if s.failing .getcwd then 1 else 0) s.called

/-- `runcd`. Where there is one argument, it is the place to go to, otherwise `HOME` is. The
place itself is left out; whether `chdir` fails is not known. -/
def runcd (cmd : Command Str) : Sh ℤ := do
  ran ['c', 'd']
  if (arguments cmd).length ≥ 2 then
    return 1
  else
    fun s => .ok (if s.failing .chdir then 1 else 0) s.called

/-! ### Launching -/

/-- `runExternal`. It asks the field `redirect` first, which nobody has set if the line has no
`<` and no `>`. -/
def runExternal (cmd : Command Str) : Sh ℤ := do
  if cmd.redirect = 0 then
    return 1
  else do
    let pid ← procFork (.external cmd)
    if pid < 0 then
      return 0
    else do
      let status ← waitpid pid
      if wifexited status then do
        setQbuf (wexitstatus status)
        return status
      else
        return status

/-- The file and the direction that `runRedirectExternal` decides for: the input file where
there is one, and otherwise the output file. -/
def redirection (cmd : Command Str) : Option (Str × Redirect) :=
  match cmd.input.filter fun f => f ≠ ['<'] ∧ f ≠ ['>'] with
  | some f => some (f, .input)
  | none => (cmd.output.filter fun f => f ≠ ['<'] ∧ f ≠ ['>']).map fun f => (f, .output)

/-- `runRedirectExternal`. The child is waited for, but its status is not kept. -/
def runRedirectExternal (cmd : Command Str) : Sh ℤ := do
  match redirection cmd with
  | none => return 1
  | some (filename, redirect) => do
      let pid ← procFork (.redirect cmd filename redirect)
      if pid < 0 then
        return 0
      else do
        let _ ← waitpid pid
        return 0

/-- `runPipe`. A fork that fails ends the shell. -/
def runPipe (pipeInput pipeOutput : ℤ) (head : Command Str) : Sh ℤ := do
  let pid ← procFork (.pipe pipeInput pipeOutput head)
  if pid < 0 then
    exitShell exitFailure
  else
    return pid

/-- `standaloneCommand`. The statuses of `cd`, `exit` and of a program are put into `qbuf`, the
others are not. -/
def standaloneCommand (cInput : Command Str) : Sh ℤ := do
  if cInput.command = some ['p', 'w', 'd'] then
    runpwd
  else if cInput.command = some ['c', 'd'] then do
    setQbuf (← runcd cInput)
    return 0
  else if cInput.command = some ['e', 'x', 'i', 't'] then do
    setQbuf (← runexit cInput)
    return 0
  else if cInput.output ≠ none ∨ cInput.input ≠ none then do
    let _ ← runRedirectExternal cInput
    return 0
  else
    runExternal cInput

/-! ### The pipeline -/

/-- The local variables of `runPipeline`; `childPids` up to `child_count`. The array `pipeFD`
has any content at first. -/
structure Locals where
  previousPipeReadEnd : ℤ
  pipeFD : ℤ × ℤ
  childPids : List ℤ
  exitCode : ℤ
  deriving DecidableEq, Repr

/-- `childPids[child_count] = child_pid; child_count++`, for an array of 32 entries. The source
does not test whether there is one left. -/
def addChild (v : Locals) (pid : ℤ) : Sh Locals := fun s =>
  if v.childPids.length < 32 then .ok { v with childPids := v.childPids ++ [pid] } s
  else .error .childPids s

/-- The branches of the loop for one command: alone, first, in the middle, and last. A command
that is alone but marked with `&&` takes none of them. -/
def runStage (current : Command Str) (v : Locals) : Sh Locals := do
  if current.next = none ∧ current.prev = none ∧ current.nextPipe ≠ 1 then do
    return { v with exitCode := ← standaloneCommand current }
  else if current.next ≠ none ∧ current.prev = none then do
    let pipeFD ← pipe v.pipeFD
    let pid ← runPipe (-1) pipeFD.2 current
    closeFd pipeFD.2
    addChild { v with pipeFD := pipeFD, previousPipeReadEnd := pipeFD.1 } pid
  else if current.next ≠ none ∧ current.prev ≠ none then do
    let pipeFD ← pipe v.pipeFD
    let pid ← runPipe v.previousPipeReadEnd pipeFD.2 current
    let v ← addChild { v with pipeFD := pipeFD, previousPipeReadEnd := pipeFD.1 } pid
    closeFd pipeFD.2
    return v
  else if current.next = none ∧ current.prev ≠ none then do
    let pid ← runPipe v.previousPipeReadEnd (-1) current
    let v ← addChild v pid
    closeFd v.previousPipeReadEnd
    return v
  else
    return v

/-- The loop over the commands, or `none` where it returns early, at a command without a name. -/
def runStages : List (Command Str) → Locals → Sh (Option Locals)
  | [], v => return some v
  | current :: rest, v =>
      if current.command = none then return none
      else do runStages rest (← runStage current v)

/-- The loop over the children: the status of the last one, in `qbuf` and as what is returned. -/
def waitAll : List ℤ → ℤ → Sh ℤ
  | [], exitCode => return exitCode
  | pid :: rest, _ => do
      let status ← waitpid pid
      setQbuf (wexitstatus status)
      waitAll rest status

/-- The commands from a pointer on, as `next` leads to them. -/
def Heap.commands (h : Heap Str) (p : Option ℕ) : List (Command Str) :=
  (IntrusiveQueue.walk (fun q => (h.cells q).next) p h.size).map h.cells

/-- What `runPipeline` does behind its loop. -/
def finish : Option Locals → Sh ℤ
  | none => return 1
  | some v => waitAll v.childPids v.exitCode

/-- `runPipeline`, with what is in its array `pipeFD` when it starts. Children are waited for
behind the loop, in order. -/
def runPipeline (head : Option ℕ) (pipeFD : ℤ × ℤ) : Sh ℤ := do
  let commands ← fun s => .ok (s.heap.commands head) s
  finish (← runStages commands ⟨-1, pipeFD, [], 0⟩)

/-- `buildCommandList`, in the heap of the shell. -/
def buildCommands (tokens : List Str) : Sh (Option ℕ) := fun s =>
  .ok (buildCommandList id tokens s.heap).1
    { s with heap := (buildCommandList id tokens s.heap).2 }

/-- The command list of the tokens is built and run. This is what the main loop does with the
tokens of a line, behind the substitution. -/
def runCommands (tokens : List Str) (pipeFD : ℤ × ℤ) : Sh ℤ := do
  let head ← buildCommands tokens
  runPipeline head pipeFD

/-- `$?` is replaced by the text in `qbuf`, where it is a token of its own. -/
def substitute (qbuf : Str) (tokens : List Str) : List Str :=
  tokens.map fun t => if t = ['$', '?'] then qbuf else t

/-- The body of the loop of `main`, from the tokens of a line on. The memory that
`freeCommandList` gives back is not handed out again. -/
def runTokens (tokens : List Str) (pipeFD : ℤ × ℤ) : Sh Unit := do
  let tokens := substitute (← fun s => .ok s.qbuf s) tokens
  let _ ← runCommands tokens pipeFD

end SystemsProjects.Shell
