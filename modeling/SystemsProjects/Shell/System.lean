import Mathlib.Data.Int.Notation
import SystemsProjects.Library.Slots
import SystemsProjects.Library.Stateful
import SystemsProjects.Shell.Parser

/-!
# Processes and System Calls

The part of the operating system that the shell works with: what a descriptor refers to,
the files, and the calls of a process. Which calls fail is up to the system: every process
has an oracle that is asked with the kind of the call and the number of calls that were
made before it. A call also fails for the reasons that are modelled: a descriptor that is
not open, a file that does not exist.

A child of the shell is a process in this sense. It ends by running a program in its place
or by `exit`; where its code is left in another way, the function that forked it returns
for a second time.

## Main definitions

* `Slots Open`: a descriptor table.
* `Proc`: a child of the shell.
* `openRead`, `openWrite`, `chmod`, `dup2`, `close`, `execvp`, `exit`.
-/

namespace SystemsProjects.Shell

/-- What a descriptor refers to: what the shell was started with, an end of a pipe, a file
that is read, a file that is written. -/
inductive Open
  | inherited (k : ℕ)
  | pipeRead (pipe : ℕ)
  | pipeWrite (pipe : ℕ)
  | reading (path : Str)
  | writing (path : Str)
  deriving DecidableEq, Repr

/-- A file. -/
structure File where
  mode : ℕ
  contents : List ℕ
  deriving DecidableEq, Repr

/-- The kinds of calls that may fail. `close`, `exit` and `waitpid` are not among them. -/
inductive Call
  | pipe
  | fork
  | chdir
  | getcwd
  | openFile
  | chmod
  | dup2
  | execvp
  deriving DecidableEq, Repr

/-- Which calls of a process fail, by kind and by the number of calls before. Nothing is assumed
of it, so that a theorem without a hypothesis about it holds however the system behaves. -/
abbrev Oracle := Call → ℕ → Bool

/-- A child process. A file that it creates gets the mode `created`, what `0644` becomes
under its file mode creation mask. -/
structure Proc where
  fds : Slots Open
  files : Str → Option File
  created : ℕ
  fails : Oracle
  calls : ℕ

/-- How a process ends: another program runs in its place, or it exits. Control of the shell's
code is lost with either. -/
inductive End
  | exec (command : Option Str) (args : Option (List (Option Str)))
  | exit (status : ℤ)
  deriving DecidableEq, Repr

/-- C code of a child. It returns to its caller, as the branches of the shell do after a failed
call, or it ends the process. -/
abbrev Code := EStateM End Proc

/-- `STDIN_FILENO`. -/
def stdinFileno : ℤ := 0

/-- `STDOUT_FILENO`. -/
def stdoutFileno : ℤ := 1

/-- `EXIT_FAILURE`. -/
def exitFailure : ℤ := 1

/-- What a descriptor refers to. Negative numbers are no descriptors, -1 above all. -/
def Proc.at (p : Proc) (fd : ℤ) : Option Open := if fd < 0 then none else p.fds.get fd.toNat

/-- Whether the next call, of this kind, fails. -/
def Proc.failing (p : Proc) (c : Call) : Bool := p.fails c p.calls

/-- One call more. -/
def Proc.called (p : Proc) : Proc := { p with calls := p.calls + 1 }

/-- A new descriptor, with the lowest number that is free, as the system chooses it. -/
def Proc.newFd (p : Proc) (o : Open) : Proc := { p with fds := p.fds.set p.fds.lowest (some o) }

/-- `open(path, O_RDONLY)`. It fails where there is no such file, or where the system says so. -/
def openRead (path : Str) : Code ℤ := fun p =>
  if p.failing .openFile ∨ p.files path = none then .ok (-1) p.called
  else .ok p.fds.lowest (p.called.newFd (.reading path))

/-- `open(path, O_WRONLY | O_CREAT | O_TRUNC, 0644)`. The file is empty behind it; one that was
there before keeps its mode. -/
def openWrite (path : Str) : Code ℤ := fun p =>
  if p.failing .openFile then .ok (-1) p.called
  else
    let mode := ((p.files path).map File.mode).getD p.created
    .ok p.fds.lowest { p.called.newFd (.writing path) with
      files := fun q => if q = path then some ⟨mode, []⟩ else p.files q }

/-- `chmod`, which fails where there is no such file. -/
def chmod (path : Str) (mode : ℕ) : Code ℤ := fun p =>
  match p.files path with
  | none => .ok (-1) p.called
  | some f =>
      if p.failing .chmod then .ok (-1) p.called
      else .ok 0 { p.called with
        files := fun q => if q = path then some { f with mode := mode } else p.files q }

/-- `dup2`, where the old descriptor is open. The new one is closed first, if it was open, and
refers to the same. -/
def dup2 (oldfd newfd : ℤ) : Code ℤ := fun p =>
  if p.failing .dup2 ∨ p.at oldfd = none ∨ newfd < 0 then .ok (-1) p.called
  else .ok newfd { p.called with fds := p.fds.set newfd.toNat (p.at oldfd) }

/-- `close`. A number that is no open descriptor is passed over. -/
def close (fd : ℤ) : Code Unit := fun p =>
  .ok () (if fd < 0 then p else { p with fds := p.fds.set fd.toNat none })

/-- `execvp`, which returns only when it fails. -/
def execvp (command : Option Str) (args : Option (List (Option Str))) : Code ℤ := fun p =>
  if p.failing .execvp then .ok (-1) p.called else .error (.exec command args) p

/-- `exit`. -/
def exit {α : Type} (status : ℤ) : Code α := fun p => .error (.exit status) p

/-! ### What the calls do -/

section Calls

variable {p : Proc} {path : Str} {command : Option Str} {args : Option (List (Option Str))}

/-- A file that is there is opened at the lowest free descriptor. -/
theorem openRead_run (h : p.failing .openFile = false) (hf : p.files path ≠ none) :
    openRead path p = .ok p.fds.lowest (p.called.newFd (.reading path)) :=
  if_neg (by simp [h, hf])

/-- Otherwise `open` returns -1, and the table is as it was. -/
theorem openRead_fails (h : p.failing .openFile ∨ p.files path = none) :
    openRead path p = .ok (-1) p.called := if_pos h

/-- A file opened for writing: it is emptied, and made where there is none. -/
theorem openWrite_run (h : p.failing .openFile = false) :
    openWrite path p = .ok p.fds.lowest { p.called.newFd (.writing path) with
      files := fun q => if q = path then
        some ⟨((p.files path).map File.mode).getD p.created, []⟩ else p.files q } :=
  if_neg (by simp [h])

/-- `open` for writing fails only where the call does: a missing file is made. -/
theorem openWrite_fails (h : p.failing .openFile) : openWrite path p = .ok (-1) p.called :=
  if_pos h

/-- `chmod` sets the mode of a file that is there. -/
theorem chmod_run {f : File} (h : p.failing .chmod = false) (hf : p.files path = some f)
    (mode : ℕ) : chmod path mode p = .ok 0 { p.called with
      files := fun q => if q = path then some { f with mode := mode } else p.files q } := by
  simp [chmod, hf, h]

/-- Otherwise it returns -1. -/
theorem chmod_fails (h : p.failing .chmod ∨ p.files path = none) (mode : ℕ) :
    chmod path mode p = .ok (-1) p.called := by
  cases hf : p.files path <;> simp_all [chmod]

/-- `dup2` makes the new descriptor refer to what the old one does. -/
theorem dup2_run {oldfd : ℤ} {o : Open} (h : p.failing .dup2 = false) (ho : p.at oldfd = some o)
    (newfd : ℕ) : dup2 oldfd newfd p =
      .ok newfd { p.called with fds := p.fds.set newfd (some o) } := by
  have hneg : ¬ (newfd : ℤ) < 0 := by omega
  simp [dup2, h, ho, hneg]

/-- Where the call fails, nothing is copied. -/
theorem dup2_fails (h : p.failing .dup2) (oldfd newfd : ℤ) :
    dup2 oldfd newfd p = .ok (-1) p.called := if_pos (.inl h)

/-- `close` frees the descriptor. -/
theorem close_run (fd : ℕ) : close fd p = .ok () { p with fds := p.fds.set fd none } := by
  have hneg : ¬ (fd : ℤ) < 0 := by omega
  simp [close, hneg]

/-- `execvp` that succeeds is the end of the shell's code in the process. -/
theorem execvp_run (h : p.failing .execvp = false) :
    execvp command args p = .error (.exec command args) p := if_neg (by simp [h])

/-- `execvp` that fails comes back. -/
theorem execvp_fails (h : p.failing .execvp) : execvp command args p = .ok (-1) p.called :=
  if_pos h

/-- A descriptor. -/
theorem Proc.at_natCast (fd : ℕ) : p.at fd = p.fds.get fd := by
  have hneg : ¬ (fd : ℤ) < 0 := by omega
  simp [Proc.at, hneg]

end Calls

end SystemsProjects.Shell
