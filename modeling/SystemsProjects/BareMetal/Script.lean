import SystemsProjects.BareMetal.Assembler
import SystemsProjects.BareMetal.Emulate

/-!
# The Script

`asm.py` from the text of a source file to the bytes of the image: its tokenizer, the main
loop over the lines, the loop over the forward references behind it, and the `bytearray`
that is written. The flag `in_quote` is not reset at the end of a line, so that it is
handed from one line to the next.

## Main definitions

* `splitAt`: whether to split between two characters, and whether to keep the second.
* `parse`: the tokens of a line.
* `assemble`: the whole script.
-/

namespace SystemsProjects.BareMetal

/-! ### The tokenizer -/

/-- `split_at`, with `in_quote` before and after it: split here, record the character, in
quotes. -/
def splitAt (inQuote : Bool) (c1 : Option Char) (c2 : Char) : Bool × Bool × Bool :=
  match c1 with
  | none => (false, true, inQuote)
  | some c1 =>
      if inQuote then
        if c2 = '"' then (false, false, false) else (false, true, true)
      else if c2 = '"' then (false, false, true)
      else if isSpace c2 then (!isSpace c1, false, false)
      else if c2 ∈ ['^', '|', '&', '+', ',', '*', ':'] then (!isSpace c1, true, false)
      else if c2 = '-' then
        if c1 = '<' then (false, true, false) else (true, true, false)
      else if c1 = '-' ∧ c2 ≠ '>' then (true, true, false)
      else if c1 ∈ ['+', '^', '|', '&', ',', '*', ':'] then (true, !isSpace c2, false)
      else if c1 = '>' then (c2 ≠ '>', !isSpace c2, false)
      else if c1 = '<' then (c2 ∉ ['<', '-'], !isSpace c2, false)
      else (false, true, false)

/-- The loop of `parse`. A word is only recorded where the line is split behind it. -/
def parseLoop : List Char → Option Char → Bool → List Char → List String → List String × Bool
  | [], _, inQuote, _, words => (words, inQuote)
  | c1 :: line, c0, inQuote, word, words =>
      let (split, save, inQuote) := splitAt inQuote c0 c1
      let words := if split ∧ word ≠ [] then words ++ [String.ofList word] else words
      let word := if split then [] else word
      let word := if save then word ++ [c1] else word
      parseLoop line (some c1) inQuote word words

/-- `parse`, with `in_quote` before and after it. The comment is cut off first, even inside
quotes. -/
def parse (inQuote : Bool) (line : String) : List String × Bool :=
  let line := line.toList.takeWhile (· ≠ '#')
  let line := (line.rdropWhile isSpace).dropWhile isSpace ++ [' ']
  parseLoop line none inQuote [] []

/-! ### The main loop -/

/-- The body of the main loop, behind the tokenizer. A second token `:` makes the first one
a label. -/
def doTokens : List String → Py Unit
  | name :: colon :: rest =>
      if colon = ":" then do
        doLine ["SYMBOL", name]
        doLine rest
      else doLine (name :: colon :: rest)
  | l => doLine l

/-- The main loop, over the lines of the file. It returns `max_addr`, the highest address that a
line has ended at. -/
def mainLoop : List String → Bool → ℕ → Py ℕ
  | [], _, maxAddr => return maxAddr
  | line :: lines, inQuote, maxAddr => do
      let (l, inQuote) := parse inQuote line
      doTokens l
      mainLoop lines inQuote (max (← currentAddr) maxAddr)

/-- `fixups`. -/
def fixups : Py (List (String × ℕ)) := fun a => .ok a.fixups a

/-- `data[i] = memory[i]`. An entry of a `bytearray` is below 256, and a character above that
raises an exception here. -/
def byteAt (i : ℕ) : Py Byte := fun a =>
  if i < 65536 then
    if a.memory i < 256 then .ok (.ofNat 8 (a.memory i)) a else .error .value a
  else .error .index a

/-- The loop that fills the `bytearray`, from entry `i` on. -/
def imageLoop : ℕ → ℕ → Py (List Byte)
  | 0, _ => return []
  | n + 1, i => do
      let b ← byteAt i
      return b :: (← imageLoop n (i + 1))

/-- The script, for the lines of a file. It returns what it writes: the memory up to the highest
address. -/
def assemble (lines : List String) : Py (List Byte) := do
  let maxAddr ← mainLoop lines false 0
  applyFixups (← fixups)
  imageLoop maxAddr 0

/-- The globals when the script starts. -/
def Asm.start : Asm := ⟨fun _ => none, 0, fun _ => 0, []⟩

/-- The image that is written, if the script gets that far, from its globals as they are at the
start. -/
def imageOf (lines : List String) : Option (List Byte) :=
  match assemble lines Asm.start with
  | .ok image _ => some image
  | .error _ _ => none

end SystemsProjects.BareMetal
