import SystemsProjects.Shell.CommandList
import SystemsProjects.Shell.System

/-!
# The Children of the Shell

The branches behind `fork` that a child runs, in the three functions that launch commands:
`runExternal`, `runPipe` and `runRedirectExternal`. A child that comes to the end of its
branch, or to a `return`, goes on in the caller of the function, like the shell itself.

## Main definitions

* `Launch`: which branch a child runs, with the arguments it has.
* `Launch.code`: the branch.
* `Launch.inputFile`: the file it opens.
-/

namespace SystemsProjects.Shell

/-- The branch of the child in `runExternal`. `execvp` comes back only if it has failed, and
then the child exits. -/
def externalChild (cmd : Command Str) : Code ℤ := do
  let status ← execvp cmd.command cmd.args
  if status = -1 then
    exit exitFailure
  else
    return status

/-- The part of `runPipe` that sets the output of a child. The output file is looked at only
where there is no pipe. -/
def pipeOutputChild (pipeOutput : ℤ) (head : Command Str) : Code Unit :=
  if pipeOutput ≠ -1 then do
    let _ ← dup2 pipeOutput stdoutFileno
    close pipeOutput
  else
    match head.output with
    | none => return ()
    | some path => do
        let fd ← openWrite path
        if fd < 0 then
          exit exitFailure
        else do
          let _ ← dup2 fd stdoutFileno
          close fd

/-- The part of `runPipe` that sets the input of a child. The input file is looked at only where
there is no pipe. -/
def pipeInputChild (pipeInput : ℤ) (head : Command Str) : Code Unit :=
  if pipeInput ≠ -1 then do
    let _ ← dup2 pipeInput stdinFileno
    close pipeInput
  else
    match head.input with
    | none => return ()
    | some path => do
        let fd ← openRead path
        if fd < 0 then
          exit exitFailure
        else do
          let _ ← dup2 fd stdinFileno
          close fd

/-- The branch of the child in `runPipe`. It knows the two descriptors it is given, and closes
no other. -/
def pipeChild (pipeInput pipeOutput : ℤ) (head : Command Str) : Code ℤ := do
  pipeOutputChild pipeOutput head
  pipeInputChild pipeInput head
  if (← execvp head.command head.args) = -1 then
    exit exitFailure
  else
    return 0

/-- The redirection that `runRedirectExternal` has decided for. It is one of the two, even if
the command has both files. -/
inductive Redirect
  | input
  | output
  deriving DecidableEq, Repr

/-- The mode `0644`, which is set for input files as well. -/
def mode0644 : ℕ := 6 * 64 + 4 * 8 + 4

/-- The branch of the child in `runRedirectExternal` behind `open`. The mode of the file is
set before the descriptor is looked at. -/
def redirectRest (cmd : Command Str) (filename : Str) (fd newfd : ℤ) : Code ℤ := do
  if (← chmod filename mode0644) = -1 then
    return 1
  else if fd = -1 then
    return 1
  else if (← dup2 fd newfd) = -1 then do
    close fd
    return 1
  else do
    close fd
    if (← execvp cmd.command cmd.args) = -1 then
      return 1
    else
      return 0

/-- The branch of the child in `runRedirectExternal`. Where a call fails it returns 1 to the
loop of the shell, in the child. -/
def redirectChild (cmd : Command Str) (filename : Str) : Redirect → Code ℤ
  | .output => do redirectRest cmd filename (← openWrite filename) stdoutFileno
  | .input => do redirectRest cmd filename (← openRead filename) stdinFileno

/-- The branch that a child runs, with its arguments. A fork is recorded with it. -/
inductive Launch
  | external (cmd : Command Str)
  | pipe (pipeInput pipeOutput : ℤ) (cmd : Command Str)
  | redirect (cmd : Command Str) (filename : Str) (redirect : Redirect)
  deriving DecidableEq, Repr

namespace Launch

/-- The branch. -/
def code : Launch → Code ℤ
  | external cmd => externalChild cmd
  | pipe pipeInput pipeOutput cmd => pipeChild pipeInput pipeOutput cmd
  | redirect cmd filename r => redirectChild cmd filename r

/-- The command that is launched. -/
def cmd : Launch → Command Str
  | external cmd | pipe _ _ cmd | redirect cmd _ _ => cmd

/-- The input file that the branch opens. -/
def inputFile : Launch → Option Str
  | external _ => none
  | pipe pipeInput _ cmd => if pipeInput ≠ -1 then none else cmd.input
  | redirect _ filename .input => some filename
  | redirect _ _ .output => none

end Launch

end SystemsProjects.Shell
