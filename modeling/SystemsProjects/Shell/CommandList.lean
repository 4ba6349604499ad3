import Mathlib.Data.Int.Notation
import SystemsProjects.Library.DoublyLinked
import SystemsProjects.Shell.Parser

/-!
# The Command List

`linked_list.c`: `buildCommandList` and what it calls. A `Command` is in a cell of the
heap, and a pointer to it is the number of the cell. A cell that has not been handed out
holds whatever `malloc` leaves in the memory it returns; memory does not run out.

The strings of a command are pointers into the caller's tokens; what they point to is
asked of `str`.

## Main definitions

* `Command`, `Heap`.
* `buildCommandList`: the list of the commands of a line.
* `commandsOf`: the commands of a line, one after the other.

## Main results

* `buildCommandList_spec`: the list holds the commands of the line, linked both ways.
-/

namespace SystemsProjects.Shell

open DoublyLinked

/-- `Command`, a node of the list that a line is made into. An array of arguments is the list of
its entries, with the null pointer at its end as `none`; a `NULL` in a field is `none`, too. -/
structure Command (α : Type) where
  command : Option α
  args : Option (List (Option α))
  input : Option α
  output : Option α
  redirect : ℤ
  next : Option ℕ
  prev : Option ℕ
  nextPipe : ℤ
  negate : ℤ
  deriving DecidableEq, Repr

/-- The cells of the heap, of which `size` have been handed out. What `malloc` hands out next
has any content. -/
structure Heap (α : Type) where
  cells : ℕ → Command α
  size : ℕ

section Functions

variable {α : Type}

/-- A cell written. -/
def Heap.write (h : Heap α) (p : ℕ) (c : Command α) : Heap α :=
  { h with cells := Function.update h.cells p c }

/-- What `createCommand` makes of the memory it gets: every field is set but `redirect`, which
keeps what was there. -/
def Command.init (c : Command α) : Command α :=
  { c with
    command := none, args := none, input := none, output := none, next := none, prev := none
    nextPipe := 0, negate := 1 }

/-- `createCommand`. The allocation is taken to succeed. -/
def createCommand (h : Heap α) : ℕ × Heap α :=
  (h.size, { h.write h.size (h.cells h.size).init with size := h.size + 1 })

/-- `addCommand`. Where `head` is not `NULL`, `tail` is not either. Both links are set, the one
of the old tail and the one of the new command. -/
def addCommand (head tail : Option ℕ) (newCmd : ℕ) (h : Heap α) :
    Option ℕ × Option ℕ × Heap α :=
  match head, tail with
  | some _, some t =>
      let h := h.write t { h.cells t with next := some newCmd }
      let h := h.write newCmd { h.cells newCmd with prev := some t }
      (head, some newCmd, h)
  | _, _ => (some newCmd, some newCmd, h)

variable (str : α → Str)

/-- The strings that are no words: the five that the loops of `buildCommandList` compare a token
with. -/
def isOperator (w : Str) : Bool :=
  w = ['|'] || w = ['<'] || w = ['>'] || w = ['&', '&'] || w = ['!']

/-- The loop over redirections and what ends a command: the command, and the tokens that
are left. -/
def setter (c : Command α) : List α → Command α × List α
  | [] => (c, [])
  | t :: rest =>
      if str t = ['<'] then
        match rest with
        | f :: rest => setter { c with redirect := 0, input := some f } rest
        | [] => ({ c with redirect := 0 }, [])
      else if str t = ['>'] then
        match rest with
        | f :: rest => setter { c with redirect := 0, output := some f } rest
        | [] => ({ c with redirect := 0 }, [])
      else if str t = ['|'] then ({ c with nextPipe := 0 }, rest)
      else if str t = ['&', '&'] then ({ c with nextPipe := 1 }, rest)
      else if str t = ['!'] then ({ c with negate := 1 }, rest)
      else (c, t :: rest)

/-- The loop over the words of a command, and the array and the name that are made of
them. -/
def splitter (c : Command α) (tokens : List α) : Command α × List α :=
  let words := tokens.takeWhile fun t => !isOperator (str t)
  ({ c with
      args := some (words.map some ++ [none])
      command := if words.length > 0 then words.head? else c.command },
    tokens.dropWhile fun t => !isOperator (str t))

/-- The body of the outer loop, behind `createCommand`: the words first, and then what follows
them. -/
def fill (c : Command α) (tokens : List α) : Command α × List α :=
  let (c, rest) := splitter str c tokens
  setter str c rest

/-- The inner loop takes tokens away only. -/
theorem setter_suffix (c : Command α) (tokens : List α) : (setter str c tokens).2 <:+ tokens := by
  fun_induction setter str c tokens with
  | case1 => exact List.suffix_rfl
  | case2 c t _ f rest ih => exact ih.trans ⟨[t, f], rfl⟩
  | case3 => simp
  | case4 c t _ _ f rest ih => exact ih.trans ⟨[t, f], rfl⟩
  | case5 => simp
  | case6 => simp
  | case7 => simp
  | case8 => simp
  | case9 => exact List.suffix_rfl

/-- The inner loop takes an operator away. -/
theorem length_setter_lt (c : Command α) {t : α} (ht : isOperator (str t)) (rest : List α) :
    (setter str c (t :: rest)).2.length < (t :: rest).length := by
  have hle (c : Command α) (l : List α) : (setter str c l).2.length ≤ l.length :=
    (setter_suffix str c l).length_le
  unfold setter
  split_ifs with h₁ h₂ h₃ h₄ h₅
  · cases rest with
    | nil => simp
    | cons f rest =>
        have := hle { c with redirect := 0, input := some f } rest
        simp only [List.length_cons]
        omega
  · cases rest with
    | nil => simp
    | cons f rest =>
        have := hle { c with redirect := 0, output := some f } rest
        simp only [List.length_cons]
        omega
  · simp
  · simp
  · simp
  · simp [isOperator, h₁, h₂, h₃, h₄, h₅] at ht

/-- The outer loop takes at least one token a turn. -/
theorem length_fill_lt (c : Command α) (t : α) (rest : List α) :
    (fill str c (t :: rest)).2.length < (t :: rest).length := by
  simp only [fill, splitter]
  cases ht : isOperator (str t) with
  | true =>
      rw [List.dropWhile_cons_of_neg (by simp [ht])]
      exact length_setter_lt str _ ht rest
  | false =>
      rw [List.dropWhile_cons_of_pos (by simp [ht])]
      refine Nat.lt_of_le_of_lt (setter_suffix str _ _).length_le ?_
      exact Nat.lt_succ_of_le (List.dropWhile_suffix _).length_le

/-- The outer loop: one command a turn, which takes at least one token away. -/
def buildLoop (tokens : List α) (head tail : Option ℕ) (h : Heap α) : Option ℕ × Heap α :=
  match tokens with
  | [] => (head, h)
  | t :: rest =>
      let created := createCommand h
      let filled := fill str (created.2.cells created.1) (t :: rest)
      let added := addCommand head tail created.1 (created.2.write created.1 filled.1)
      buildLoop filled.2 added.1 added.2.1 added.2.2
termination_by tokens.length
decreasing_by exact length_fill_lt str _ t rest

/-- `buildCommandList`. It returns the pointer to the first command, which is `NULL` for no
tokens. -/
def buildCommandList (tokens : List α) (h : Heap α) : Option ℕ × Heap α :=
  buildLoop str tokens none none h

/-! ### What is built -/

/-- The commands of a line, without their links: the first one is made of the memory
`mem n`, the next one of the memory behind it. -/
def commandsOf (mem : ℕ → Command α) (n : ℕ) (tokens : List α) : List (Command α) :=
  match tokens with
  | [] => []
  | t :: rest =>
      let filled := fill str (mem n).init (t :: rest)
      filled.1 :: commandsOf mem (n + 1) filled.2
termination_by tokens.length
decreasing_by exact length_fill_lt str _ t rest

/-- A command without its links, by which commands of different heaps are compared. -/
def Command.unlinked (c : Command α) : Command α := { c with next := none, prev := none }

/-- The list from `head` to `tail`, in the cells `l`, holds the commands `cs`, which the links
connect in both directions. -/
structure Built (h : Heap α) (head tail : Option ℕ) (l : List ℕ) (cs : List (Command α)) :
    Prop where
  linked : Doubly (fun p => (h.cells p).next) (fun p => (h.cells p).prev) none head l
  tail : tail = l.getLast?
  commands : l.map (fun p => (h.cells p).unlinked) = cs
  old : ∀ p ∈ l, p < h.size

/-- Filling in a command does not touch its links. -/
theorem setter_links (c : Command α) (tokens : List α) :
    (setter str c tokens).1.next = c.next ∧ (setter str c tokens).1.prev = c.prev := by
  fun_induction setter str c tokens with
  | case2 c t _ f rest ih => exact ih
  | case4 c t _ _ f rest ih => exact ih
  | _ => exact ⟨rfl, rfl⟩

/-- Filling a command in leaves its links alone: `addCommand` sets them. -/
theorem fill_links (c : Command α) (tokens : List α) :
    (fill str c tokens).1.next = c.next ∧ (fill str c tokens).1.prev = c.prev :=
  setter_links str _ _

/-- The cells behind one turn of the outer loop on a list that ends in `r`. -/
theorem addCommand_cells {h : Heap α} {x r : ℕ} {c : Command α} (hr : r ≠ h.size) (p : ℕ) :
    ((addCommand (some x) (some r) h.size
        ({ h with size := h.size + 1 }.write h.size c)).2.2.cells p) =
      if p = h.size then { c with prev := some r }
      else if p = r then { h.cells r with next := some h.size }
      else h.cells p := by
  simp only [addCommand, Heap.write]
  by_cases hp : p = h.size
  · subst hp
    simp [hr.symm]
  · by_cases hpr : p = r
    · subst hpr
      simp [hp]
    · simp [hp, hpr]

/-- One turn of the outer loop puts a command behind the list. -/
theorem Built.add {h : Heap α} {head tail : Option ℕ} {l : List ℕ} {cs : List (Command α)}
    (hb : Built h head tail l cs) {c : Command α} (hn : c.next = none) (hp : c.prev = none) :
    Built (addCommand head tail h.size ({ h with size := h.size + 1 }.write h.size c)).2.2
      (addCommand head tail h.size ({ h with size := h.size + 1 }.write h.size c)).1
      (addCommand head tail h.size ({ h with size := h.size + 1 }.write h.size c)).2.1
      (l ++ [h.size]) (cs ++ [c]) := by
  have hc : c.unlinked = c := by
    cases c
    simp only at hn hp
    rw [Command.unlinked, hn, hp]
  cases hl : l with
  | nil =>
      subst hl
      obtain rfl : head = none := hb.linked
      obtain rfl : cs = [] := hb.commands.symm
      refine ⟨⟨rfl, ?_, ?_⟩, rfl, ?_, ?_⟩
      · simpa [addCommand, Heap.write] using hp
      · simp only [addCommand, Heap.write, Function.update_self]
        exact hn
      · simpa [addCommand, Heap.write] using hc
      · simp [addCommand, Heap.write]
  | cons x xs =>
      have hhead : head = some x := by
        have h' := hb.linked
        rw [hl] at h'
        exact h'.1
      obtain ⟨r, hr⟩ : ∃ r, l.getLast? = some r := by simp [hl, List.getLast?_cons]
      have htail : tail = some r := hb.tail.trans hr
      have hrl : r ∈ l := List.mem_of_getLast? hr
      have hrn : r ≠ h.size := Nat.ne_of_lt (hb.old r hrl)
      have hne : ∀ p ∈ l, p ≠ h.size := fun p hpl => Nat.ne_of_lt (hb.old p hpl)
      rw [← hl, hhead, htail]
      refine ⟨?_, ?_, ?_, ?_⟩
      · have hd := hb.linked
        rw [hhead] at hd
        refine hd.concat hr (fun p hpl hpr => ?_) (fun p hpl => ?_) ?_ ?_ ?_
        · simp only [addCommand_cells hrn, if_neg (hne p hpl), if_neg hpr]
        · simp only [addCommand_cells hrn, if_neg (hne p hpl)]
          split
          · next e => rw [e]
          · rfl
        · simp only [addCommand_cells hrn, if_neg hrn, if_true]
        · simp only [addCommand_cells hrn, if_true]
        · simp only [addCommand_cells hrn, if_true, hn]
      · simp [addCommand]
      · rw [List.map_append, ← hb.commands]
        congr 1
        · refine List.map_congr_left fun p hpl => ?_
          simp only [addCommand_cells hrn, if_neg (hne p hpl)]
          split
          · next e => simp [e, Command.unlinked]
          · rfl
        · simp only [List.map_cons, List.map_nil, addCommand_cells hrn, if_true]
          rw [← hc]
          rfl
      · intro p hpl
        rcases List.mem_append.mp hpl with hpl | hpl
        · exact Nat.lt_succ_of_lt (hb.old p hpl)
        · obtain rfl : p = h.size := by simpa using hpl
          exact Nat.lt_succ_self _

/-- The commands depend on the memory that has not been handed out. -/
theorem commandsOf_congr {mem mem' : ℕ → Command α} {n : ℕ} (tokens : List α)
    (h : ∀ k, n ≤ k → mem k = mem' k) :
    commandsOf str mem n tokens = commandsOf str mem' n tokens := by
  fun_induction commandsOf str mem n tokens with
  | case1 => rw [commandsOf]
  | case2 n t rest filled ih =>
      rw [commandsOf, ih fun k hk => h k (by omega)]
      simp only [filled, h n (Nat.le_refl n)]

/-- Writing the new cell again takes back what `createCommand` has written to it. -/
theorem createCommand_write (h : Heap α) (c : Command α) :
    (createCommand h).2.write (createCommand h).1 c =
      { h with size := h.size + 1 }.write h.size c := by
  simp [createCommand, Heap.write]

/-- The outer loop puts the commands of the tokens behind the list. -/
theorem Built.loop {h : Heap α} {head tail : Option ℕ} {l : List ℕ} {cs : List (Command α)}
    (hb : Built h head tail l cs) (tokens : List α) :
    ∃ tail' l', Built (buildLoop str tokens head tail h).2 (buildLoop str tokens head tail h).1
      tail' l' (cs ++ commandsOf str h.cells h.size tokens) := by
  fun_induction buildLoop str tokens head tail h generalizing l cs with
  | case1 head tail h =>
      rw [commandsOf, List.append_nil]
      exact ⟨tail, l, hb⟩
  | case2 head tail h t rest created filled =>
      rename_i added ih
      have hcell : created.2.cells created.1 = (h.cells h.size).init := by
        simp [created, createCommand, Heap.write]
      have hfilled : filled = fill str (h.cells h.size).init (t :: rest) := by
        rw [← hcell]
      have hadded : added = addCommand head tail h.size
          ({ h with size := h.size + 1 }.write h.size filled.1) := by
        rw [← createCommand_write]
        rfl
      have hlinks := fill_links str (h.cells h.size).init (t :: rest)
      rw [← hfilled] at hlinks
      have hadd := hb.add hlinks.1 hlinks.2
      rw [← hadded] at hadd
      obtain ⟨tail', l', hb'⟩ := ih hadd
      refine ⟨tail', l', ?_⟩
      -- a turn leaves the memory behind the cell it takes as it is
      have hsize : added.2.2.size = h.size + 1 := by
        rw [hadded]
        cases head <;> cases tail <;> rfl
      have hmem : commandsOf str added.2.2.cells added.2.2.size filled.2 =
          commandsOf str h.cells (h.size + 1) filled.2 := by
        rw [hsize]
        refine commandsOf_congr str _ fun k hk => ?_
        have hk' : k ≠ h.size := by omega
        rw [hadded]
        cases head with
        | none => simp [addCommand, Heap.write, hk']
        | some x =>
            cases tail with
            | none => simp [addCommand, Heap.write, hk']
            | some r =>
                have hr := hb.old r (List.mem_of_getLast? hb.tail.symm)
                rw [addCommand_cells (by omega), if_neg hk', if_neg (by omega)]
      rw [commandsOf, ← hfilled, List.append_cons]
      rwa [hmem] at hb'

/-- `buildCommandList` builds the list of the commands of the tokens. -/
theorem buildCommandList_spec (tokens : List α) (h : Heap α) :
    ∃ tail l, Built (buildCommandList str tokens h).2 (buildCommandList str tokens h).1 tail l
      (commandsOf str h.cells h.size tokens) := by
  have hb : Built h none none [] [] := ⟨rfl, rfl, rfl, nofun⟩
  exact hb.loop str tokens

/-! ### Pointers and strings -/

variable {β : Type} {str}

/-- The command with its pointers replaced. -/
def Command.map (f : α → β) (c : Command α) : Command β where
  command := c.command.map f
  args := c.args.map (·.map (·.map f))
  input := c.input.map f
  output := c.output.map f
  redirect := c.redirect
  next := c.next
  prev := c.prev
  nextPipe := c.nextPipe
  negate := c.negate

/-- The inner loop depends on what its pointers point to, and on nothing else about them. -/
theorem setter_map (c : Command α) (tokens : List α) :
    setter id (c.map str) (tokens.map str) =
      ((setter str c tokens).1.map str, (setter str c tokens).2.map str) := by
  fun_induction setter str c tokens with
  | case1 => rfl
  | case2 c t ht f rest ih =>
      rw [← ih]
      simp [setter, ht, Command.map]
  | case3 c t ht => simp [setter, ht, Command.map]
  | case4 c t hlt hgt f rest ih =>
      rw [← ih]
      simp [setter, hgt, Command.map]
  | case5 c t hlt hgt => simp [setter, hgt, Command.map]
  | case6 c t rest hlt hgt h => simp [setter.eq_def, h, Command.map]
  | case7 c t rest hlt hgt hbar h => simp [setter.eq_def, h, Command.map]
  | case8 c t rest hlt hgt hbar hand h => simp [setter.eq_def, h, Command.map]
  | case9 c t rest h₁ h₂ h₃ h₄ h₅ => simp [setter.eq_def, h₁, h₂, h₃, h₄, h₅]

/-- So does the loop over the words. -/
theorem splitter_map (c : Command α) (tokens : List α) :
    splitter id (c.map str) (tokens.map str) =
      ((splitter str c tokens).1.map str, (splitter str c tokens).2.map str) := by
  simp only [splitter, List.takeWhile_map, List.dropWhile_map, Function.comp_def, id]
  cases h : tokens.takeWhile fun t => !isOperator (str t) <;> simp [Command.map]

/-- The commands depend on the pointers through the strings alone. -/
theorem commandsOf_map (mem : ℕ → Command α) (n : ℕ) (tokens : List α) :
    (commandsOf str mem n tokens).map (Command.map str) =
      commandsOf id (fun k => (mem k).map str) n (tokens.map str) := by
  fun_induction commandsOf str mem n tokens with
  | case1 => simp [commandsOf]
  | case2 n t rest filled ih =>
      have hinit : ((mem n).map str).init = (mem n).init.map str := rfl
      have hfill : fill id ((mem n).map str).init ((t :: rest).map str) =
          (filled.1.map str, filled.2.map str) := by
        rw [fill, hinit, splitter_map]
        exact setter_map _ _
      rw [List.map_cons] at hfill
      rw [List.map_cons, List.map_cons, commandsOf, hfill, ih]

end Functions

end SystemsProjects.Shell
