import Mathlib.Data.Nat.Notation
import Mathlib.Logic.Function.Basic
import SystemsProjects.Library.CStrings
import SystemsProjects.Library.Stateful

/-!
# The Tokenizer of the Shell

`parser.c`: `split`, which looks at two neighbouring characters, and `parse`, which copies
the words of a line one behind the other into a buffer and stores where they begin. The
arrays of the caller have `argc_max` and `buf_len` entries; a write outside them stops the
run. A pointer into the buffer is an index, and `none` is `NULL`.

Characters are ASCII, and `isspace` is that of the C locale.

## Main definitions

* `split`: whether a character begins a new word, and whether it is kept.
* `parse`: a line.
* `cString`: what a pointer into the buffer is as a string.
-/

namespace SystemsProjects.Shell

/-- A string of the program. -/
abbrev Str := List Char

/-- The character that ends a string. Lines are taken up to the first one. -/
def nul : Char := Char.ofNat 0

/-- The double quote. -/
def doubleQuote : Char := Char.ofNat 34

/-- The single quote. -/
def singleQuote : Char := Char.ofNat 39

/-- `isspace`, in the C locale: the blank, and the five control characters from the tab to the
carriage return. -/
def isSpace (c : Char) : Bool :=
  c.toNat = 32 || (9 ≤ c.toNat && c.toNat ≤ 13)

/-- `isquote`. -/
def isQuote (c : Char) : Bool := c = doubleQuote || c = singleQuote

/-- What `split` returns: the flags `SPLIT` and `SAVE`, which the source puts together with a
bitwise or. -/
structure Verdict where
  split : Bool
  save : Bool
  deriving DecidableEq, Repr

/-- The static variables of `split`, the local variables of `parse`, and the arrays of the
caller. -/
structure State where
  in2quote : Bool
  in1quote : Bool
  ptr : ℕ
  i : ℕ
  prev : Char
  argv : ℕ → Option ℕ
  buf : ℕ → Char

/-- An array that is written outside its bounds. C does not notice; here the computation stops,
so that what a line does is either within the arrays or not described at all. -/
inductive Overrun
  | argv
  | buf
  deriving DecidableEq, Repr

/-- C code of the tokenizer, on the variables and the arrays. -/
abbrev Parse := EStateM Overrun State

/-- `split`. The tests are in the order of the source: at the start of a line, inside quotes, at
an opening quote, at `|`, at a blank, at `<` and `>`. -/
def split (c1 c2 : Char) : Parse Verdict := fun s =>
  if c1 = nul then .ok ⟨false, !isSpace c2⟩ s
  else if s.in2quote then
    if c2 = doubleQuote then .ok ⟨true, false⟩ { s with in2quote := false }
    else .ok ⟨false, true⟩ s
  else if s.in1quote then
    if c2 = singleQuote then .ok ⟨true, false⟩ { s with in1quote := false }
    else .ok ⟨false, true⟩ s
  else if c2 = doubleQuote then .ok ⟨!isSpace c1, false⟩ { s with in2quote := true }
  else if c2 = singleQuote then .ok ⟨!isSpace c1, false⟩ { s with in1quote := true }
  else if c2 = '|' then .ok ⟨!isSpace c1, true⟩ s
  else if c1 = '|' then .ok ⟨true, !isSpace c2⟩ s
  else if isSpace c2 then .ok ⟨!(isSpace c1 || isQuote c1), false⟩ s
  else if c2 = '>' ∨ c2 = '<' then .ok ⟨!isSpace c1, true⟩ s
  else if c1 = '>' ∨ c1 = '<' then .ok ⟨true, !isSpace c2⟩ s
  else .ok ⟨false, true⟩ s

/-! ### The variables of `parse` -/

/-- `*ptr++ = c`, where the buffer has `bufLen` characters. -/
def putChar (bufLen : ℕ) (c : Char) : Parse Unit := fun s =>
  if s.ptr < bufLen then
    .ok () { s with buf := Function.update s.buf s.ptr c, ptr := s.ptr + 1 }
  else .error .buf s

/-- `argv[i] = p`, where the array has `argcMax` entries. A pointer into the buffer is its index
there. -/
def putArgv (argcMax : ℕ) (p : Option ℕ) : Parse Unit := fun s =>
  if s.i < argcMax then .ok () { s with argv := Function.update s.argv s.i p }
  else .error .argv s

/-- `ptr`. -/
def ptr : Parse ℕ := fun s => .ok s.ptr s

/-- `i`. -/
def index : Parse ℕ := fun s => .ok s.i s

/-- `i++`. -/
def nextIndex : Parse Unit := fun s => .ok () { s with i := s.i + 1 }

/-- `argv[i]`, read. -/
def argvAt : Parse (Option ℕ) := fun s => .ok (s.argv s.i) s

/-- `prev`. -/
def prev : Parse Char := fun s => .ok s.prev s

/-- `prev = c`. -/
def setPrev (c : Char) : Parse Unit := fun s => .ok () { s with prev := c }

/-- What `parse` sets before the loop, `argv[i]` apart. The quotes are static variables, and so
are set again for every line. -/
def start : Parse Unit := fun s =>
  .ok () { s with in1quote := false, in2quote := false, ptr := 0, i := 0, prev := nul }

/-! ### `parse` -/

/-- The statement under `val & SPLIT`: the word ends and the next one begins. It writes to both
arrays. -/
def endWord (argcMax bufLen : ℕ) (val : Verdict) : Parse Unit :=
  if val.split then do
    putChar bufLen nul
    nextIndex
    putArgv argcMax (← ptr)
  else pure ()

/-- The statement under `val & SAVE`: the character goes to the end of the word. -/
def saveChar (bufLen : ℕ) (val : Verdict) (c : Char) : Parse Unit :=
  if val.save then putChar bufLen c else pure ()

/-- The body of the loop, up to its two tests for a full array. The tests come behind the
writes. -/
def parseChar (argcMax bufLen : ℕ) (c : Char) : Parse Unit := do
  let val ← split (← prev) c
  endWord argcMax bufLen val
  saveChar bufLen val c
  setPrev c

/-- The loop, over the characters up to the end of the line. It is left early where the buffer
has room for less than two characters, or where `argv` has no entry behind the current one. -/
def parseLoop (argcMax bufLen : ℕ) : Str → Parse Unit
  | [] => return ()
  | c :: rest =>
      if c = nul then return ()
      else do
        parseChar argcMax bufLen c
        if (← ptr) + 2 > bufLen then
          return ()
        else if (← index) + 1 ≥ argcMax then
          return ()
        else
          parseLoop argcMax bufLen rest

/-- The statement behind the loop: a word at the end of the line ends, too. It is not tested
whether there is room. -/
def endLine (bufLen : ℕ) : Parse Unit := do
  if some (← ptr) ≠ (← argvAt) then do
    putChar bufLen nul
    nextIndex

/-- `parse`. It returns the number of words, and puts a null pointer behind the last of them. -/
def parse (line : Str) (argcMax bufLen : ℕ) : Parse ℕ := do
  start
  putArgv argcMax (← ptr)
  parseLoop argcMax bufLen line
  endLine bufLen
  putArgv argcMax none
  index

/-- The string at a place in the buffer, up to its `nul`. -/
def cString (bufLen : ℕ) (buf : ℕ → Char) (p : ℕ) : Str := CStrings.stringAt nul bufLen buf p

end SystemsProjects.Shell
