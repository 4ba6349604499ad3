import Mathlib.Algebra.Ring.Nat
import Mathlib.Data.List.Forall2
import SystemsProjects.Shell.CommandList
import SystemsProjects.Shell.Tokenizer

/-!
# What the Front End Decodes

A pipeline as it is meant: its stages, each with its arguments and with the files it reads
from and writes to. A line that is written for a pipeline has its tokens, with blanks
between them as one likes; `parse` and `buildCommandList` find the pipeline in it again.

## Main definitions

* `Stage`: a command of a pipeline.
* `Stage.Is`: a `Command` is the one that the stage is.

## Main results

* `decodes`: the command list of a line that is written for a pipeline is the pipeline.
-/

namespace SystemsProjects.Shell

open CStrings DoublyLinked

/-- A word that is no operator of `buildCommandList`, so that it is taken for one wherever it
stands. -/
def Arg (w : Str) : Prop := Word w ∧ w ≠ ['&', '&'] ∧ w ≠ ['!']

/-- Whether a text can be an argument can be computed. -/
instance (w : Str) : Decidable (Arg w) :=
  inferInstanceAs (Decidable (Word w ∧ w ≠ ['&', '&'] ∧ w ≠ ['!']))

/-- A command of a pipeline: its words, and the files it reads from and writes to. -/
structure Stage where
  args : List Str
  input : Option Str
  output : Option Str
  ne_nil : args ≠ []
  words : ∀ w ∈ args ++ input.toList ++ output.toList, Arg w

namespace Stage

/-- The redirections of the stage, as they are written. -/
def redirections (st : Stage) : List Str :=
  (st.input.elim [] fun f => [['<'], f]) ++ (st.output.elim [] fun f => [['>'], f])

/-- The stage as it is written. -/
def tokens (st : Stage) : List Str := st.args ++ st.redirections

/-- A `Command` is the one that the stage is, in its words, its name and its files. -/
structure Is (st : Stage) (c : Command Str) : Prop where
  command : c.command = st.args.head?
  args : c.args = some (st.args.map some ++ [none])
  input : c.input = st.input
  output : c.output = st.output
  nextPipe : c.nextPipe = 0

end Stage

/-- A pipeline as it is written. -/
def pipelineTokens : List Stage → List Str
  | [] => []
  | [st] => st.tokens
  | st :: rest => st.tokens ++ ['|'] :: pipelineTokens rest

/-! ### The list -/

variable {st : Stage} {c : Command Str}

/-- An argument is no operator. -/
theorem isOperator_of_arg {w : Str} (h : Arg w) : isOperator w = false := by
  obtain ⟨⟨hne, hplain⟩, hand, hneg⟩ := h
  have hop : ∀ d : Char, isOpChar d → w ≠ [d] := by
    rintro d hd rfl
    rw [isOpChar_of_plain (hplain d (by simp))] at hd
    cases hd
  simp [isOperator, hand, hneg, hop '|' rfl, hop '<' rfl, hop '>' rfl]

/-- The words of the stage in front of what ends them. -/
theorem splitter_stage {rest : List Str} (hrest : ∀ t ∈ rest.head?, isOperator t) :
    splitter id c (st.args ++ rest) =
      ({ c with args := some (st.args.map some ++ [none]), command := st.args.head? }, rest) := by
  have hargs : ∀ t ∈ st.args, (!isOperator t) = true := by
    intro t ht
    rw [isOperator_of_arg (st.words t (by simp [ht]))]
    rfl
  have htake : (st.args ++ rest).takeWhile (fun t => !isOperator t) = st.args := by
    rw [List.takeWhile_append_of_pos hargs]
    cases rest with
    | nil => simp
    | cons t rest => simp [hrest t rfl]
  have hdrop : (st.args ++ rest).dropWhile (fun t => !isOperator t) = rest := by
    rw [List.dropWhile_append_of_pos hargs]
    cases rest with
    | nil => rfl
    | cons t rest => simp [hrest t rfl]
  have hlen : st.args.length > 0 := List.length_pos_iff.mpr st.ne_nil
  simp only [splitter, id, htake, hdrop, if_pos hlen]

/-- The inner loop takes what is behind a `<` as the input. -/
theorem setter_input (f : Str) (rest : List Str) :
    setter id c (['<'] :: f :: rest) =
      setter id { c with redirect := 0, input := some f } rest := by
  simp [setter]

/-- The inner loop takes what is behind a `>` as the output. -/
theorem setter_output (f : Str) (rest : List Str) :
    setter id c (['>'] :: f :: rest) =
      setter id { c with redirect := 0, output := some f } rest := by
  simp [setter]

/-- The redirections of the stage in front of the end of the line or of a bar. -/
theorem setter_stage (st : Stage) {rest rest' : List Str}
    (hrest : rest = [] ∧ rest' = [] ∨ rest = ['|'] :: rest') (hin : c.input = none)
    (hout : c.output = none) (hpipe : c.nextPipe = 0) :
    ∃ r, setter id c (st.redirections ++ rest) =
      ({ c with input := st.input, output := st.output, redirect := r }, rest') := by
  have hend (c : Command Str) (hpipe : c.nextPipe = 0) : setter id c rest = (c, rest') := by
    rcases hrest with ⟨rfl, rfl⟩ | rfl
    · rfl
    · rw [setter.eq_def]
      simp [← hpipe]
  unfold Stage.redirections
  cases hi : st.input with
  | none =>
      cases ho : st.output with
      | none =>
          refine ⟨c.redirect, ?_⟩
          have hc : { c with input := none, output := none } = c := by
            cases c
            simp only at hin hout
            rw [hin, hout]
          rw [hc]
          exact hend c hpipe
      | some f =>
          refine ⟨0, (setter_output f rest).trans ?_⟩
          rw [hend { c with redirect := 0, output := some f } hpipe, hin]
  | some f =>
      cases ho : st.output with
      | none =>
          refine ⟨0, (setter_input f rest).trans ?_⟩
          rw [hend { c with redirect := 0, input := some f } hpipe, hout]
      | some g =>
          refine ⟨0, ?_⟩
          exact (setter_input f _).trans ((setter_output g rest).trans (hend _ hpipe))

/-- A turn of the outer loop reads a stage. -/
theorem fill_stage (st : Stage) {rest rest' : List Str}
    (hrest : rest = [] ∧ rest' = [] ∨ rest = ['|'] :: rest') :
    st.Is (fill id c.init (st.tokens ++ rest)).1 ∧
      (fill id c.init (st.tokens ++ rest)).2 = rest' := by
  have hhead : ∀ t ∈ (st.redirections ++ rest).head?, isOperator t := by
    have hr : ∀ t ∈ rest.head?, isOperator t := by
      rcases hrest with ⟨rfl, -⟩ | rfl
      · nofun
      · rintro _ ⟨⟩
        rfl
    unfold Stage.redirections
    cases st.input <;> cases st.output
    · exact hr
    all_goals rintro _ ⟨⟩; rfl
  rw [fill, Stage.tokens, List.append_assoc, splitter_stage hhead]
  simp only
  obtain ⟨r, hr⟩ := setter_stage st (c := { c.init with
    args := some (st.args.map some ++ [none]), command := st.args.head? }) hrest rfl rfl rfl
  rw [hr]
  exact ⟨⟨rfl, rfl, rfl, rfl, rfl⟩, rfl⟩

/-- The commands of a pipeline are its stages. -/
theorem commandsOf_pipeline (mem : ℕ → Command Str) (n : ℕ) (pl : List Stage) :
    List.Forall₂ Stage.Is pl (commandsOf id mem n (pipelineTokens pl)) := by
  induction pl generalizing n with
  | nil =>
      rw [pipelineTokens, commandsOf]
      exact .nil
  | cons st rest ih =>
      obtain ⟨ends, htokens⟩ : ∃ ends, pipelineTokens (st :: rest) = st.tokens ++ ends ∧
          (ends = [] ∧ pipelineTokens rest = [] ∨ ends = ['|'] :: pipelineTokens rest) := by
        cases rest with
        | nil => exact ⟨[], by simp [pipelineTokens], .inl ⟨rfl, rfl⟩⟩
        | cons st' rest => exact ⟨_, rfl, .inr rfl⟩
      obtain ⟨his, hrest⟩ := fill_stage st (c := mem n) htokens.2
      rw [← htokens.1] at his hrest
      have hne : pipelineTokens (st :: rest) ≠ [] := by
        rw [htokens.1, Stage.tokens]
        simp [st.ne_nil]
      cases hl : pipelineTokens (st :: rest) with
      | nil => exact absurd hl hne
      | cons t l =>
          rw [hl] at his hrest
          rw [commandsOf]
          refine .cons his ?_
          rw [hrest]
          exact ih _

/-! ### The line -/

/-- A token of a pipeline. -/
theorem pipelineTokens_cases {pl : List Stage} {t : Str} (ht : t ∈ pipelineTokens pl) :
    Word t ∨ Op t := by
  have hst : ∀ st : Stage, t ∈ st.tokens → Word t ∨ Op t := by
    intro st ht
    rcases List.mem_append.mp ht with ht | ht
    · exact .inl (st.words t (by simp [ht])).1
    · unfold Stage.redirections at ht
      have hin : ∀ f ∈ st.input, Word f := fun f hf =>
        (st.words f (by simp [Option.mem_def.mp hf])).1
      have hout : ∀ f ∈ st.output, Word f := fun f hf =>
        (st.words f (by simp [Option.mem_def.mp hf])).1
      cases hi : st.input <;> cases ho : st.output <;> simp [hi, ho] at ht hin hout
      · rcases ht with rfl | rfl
        · exact .inr (by simp [Op])
        · exact .inl hout
      · rcases ht with rfl | rfl
        · exact .inr (by simp [Op])
        · exact .inl hin
      · rcases ht with rfl | rfl | rfl | rfl
        · exact .inr (by simp [Op])
        · exact .inl hin
        · exact .inr (by simp [Op])
        · exact .inl hout
  induction pl with
  | nil => cases ht
  | cons st rest ih =>
      cases rest with
      | nil => exact hst st ht
      | cons st' rest =>
          rcases List.mem_append.mp ht with ht | ht
          · exact hst st ht
          · rcases List.mem_cons.mp ht with rfl | ht
            · exact .inr (by simp [Op])
            · exact ih ht

/-- A line that is laid out from tokens has their characters and blanks. -/
theorem Laid.chars {b : Bool} {ts : List Str} {l : Str} (h : Laid b ts l) :
    ∀ c ∈ l, isQuote c = false ∧ c ≠ nul := by
  have hblank : ∀ {g : Str}, Blank g → ∀ c ∈ g, isQuote c = false ∧ c ≠ nul := by
    intro g hg c hc
    obtain ⟨hsp, hnul⟩ := hg c hc
    refine ⟨?_, hnul⟩
    by_contra hq
    simp only [isQuote, Bool.not_eq_false, Bool.or_eq_true, decide_eq_true_eq] at hq
    rcases hq with rfl | rfl <;> cases hsp
  have hword : ∀ {w : Str}, Word w → ∀ c ∈ w, isQuote c = false ∧ c ≠ nul := by
    intro w hw c hc
    have hp := hw.2 c hc
    simp only [isPlain, Bool.and_eq_true, decide_eq_true_eq, Bool.not_eq_true'] at hp
    exact ⟨hp.1.2, hp.1.1.1.2⟩
  have hop : ∀ {w : Str}, Op w → ∀ c ∈ w, isQuote c = false ∧ c ≠ nul := by
    intro w hw
    simp only [Op, List.mem_cons, List.not_mem_nil, or_false] at hw
    rcases hw with rfl | rfl | rfl <;> rw [List.forall_mem_singleton] <;> decide
  induction h with
  | nil hg => exact hblank hg
  | word hg hw _ _ ih =>
      intro c hc
      rcases List.mem_append.mp hc with hc | hc
      · exact (List.mem_append.mp hc).elim (hblank hg c) (hword hw c)
      · exact ih c hc
  | op hg hw _ ih =>
      intro c hc
      rcases List.mem_append.mp hc with hc | hc
      · exact (List.mem_append.mp hc).elim (hblank hg c) (hop hw c)
      · exact ih c hc

/-- Tokens packed: their characters, and one place for each. -/
theorem length_pack (ts : List Str) :
    (pack nul ts).length = (ts.map List.length).sum + ts.length := by
  induction ts with
  | nil => rfl
  | cons t ts ih =>
      rw [pack_cons, List.length_append, List.length_cons, ih, List.map_cons, List.sum_cons,
        List.length_cons]
      omega

/-- The front end finds the pipeline in every line that is written for it: `parse` returns
the tokens, and `buildCommandList` makes the list of the stages of them, in order and
linked both ways. -/
theorem decodes {pl : List Stage} {line : Str} (hne : pl ≠ [])
    (hline : Laid false (pipelineTokens pl) line) {argcMax bufLen : ℕ}
    (hargc : (pipelineTokens pl).length < argcMax)
    (hbuf : ((pipelineTokens pl).map List.length).sum + (pipelineTokens pl).length + 2 ≤ bufLen)
    (s : State) (h : Heap ℕ) :
    ∃ n s' ps, parse line argcMax bufLen s = .ok n s' ∧
      (List.range n).map s'.argv = ps.map some ∧ s'.argv n = none ∧
      ∃ head h' l, buildCommandList (cString bufLen s'.buf) ps h = (head, h') ∧
        head ≠ none ∧ Doubly (fun p => (h'.cells p).next) (fun p => (h'.cells p).prev) none head l ∧
        (∀ p ∈ l, ∀ q ∈ l, (h'.cells p).next = some q ↔ (h'.cells q).prev = some p) ∧
        List.Forall₂ (fun st p => st.Is ((h'.cells p).map (cString bufLen s'.buf))) pl l := by
  have hscan := hline.scan_eq
  rw [← length_pack] at hbuf
  obtain ⟨s', hs', htokens⟩ := parse_scan s hline.chars (hscan ▸ hargc) (hscan ▸ hbuf)
  rw [hscan] at hs' htokens
  have hnul : ∀ t ∈ pipelineTokens pl, nul ∉ t := by
    intro t ht hmem
    rcases pipelineTokens_cases ht with hw | hop
    · have hp := hw.2 _ hmem
      cases hp
    · simp only [Op, List.mem_cons, List.not_mem_nil, or_false] at hop
      rcases hop with rfl | rfl | rfl <;> exact absurd hmem (by decide)
  have hroom : (pack nul (pipelineTokens pl)).length ≤ bufLen := by omega
  obtain ⟨ps, hps, hstr⟩ := htokens.strings hnul hroom
  refine ⟨_, s', ps, hs', hps, htokens.null, ?_⟩
  obtain ⟨tail, l, hb⟩ := buildCommandList_spec (cString bufLen s'.buf) ps h
  have hstages : List.Forall₂ (fun st p => st.Is
      (((buildCommandList (cString bufLen s'.buf) ps h).2.cells p).map
        (cString bufLen s'.buf))) pl l := by
    have hpl := commandsOf_pipeline (fun k => (h.cells k).map (cString bufLen s'.buf)) h.size pl
    rw [← hstr, ← commandsOf_map, ← hb.commands, List.map_map, List.forall₂_map_right_iff] at hpl
    exact hpl.imp fun _ _ his => ⟨his.command, his.args, his.input, his.output, his.nextPipe⟩
  refine ⟨_, _, l, rfl, ?_, hb.linked, hb.linked.inverse, hstages⟩
  intro hhead
  have hl := hb.linked
  cases hstages with
  | nil => exact hne rfl
  | cons _ _ =>
      cases hl.1.symm.trans hhead

/-- A heap with nothing in it, whose memory is all ones. -/
def freshHeap : Heap ℕ :=
  ⟨fun _ => ⟨none, none, none, none, -1, none, none, -1, -1⟩, 0⟩

/-- `ls -l`. -/
def lsStage : Stage :=
  ⟨[['l', 's'], ['-', 'l']], none, none, by decide, by decide⟩

/-- `wc` with its output in the file `f`. -/
def wcStage : Stage :=
  ⟨[['w', 'c']], none, some ['f'], by decide, by decide⟩

/-- The line ` ls -l|wc >f`, read into fresh arrays. -/
theorem decodes_ls_wc :
    ∃ n s' ps, parse [' ', 'l', 's', ' ', '-', 'l', '|', 'w', 'c', ' ', '>', 'f', '\n'] 32 1024
        ⟨false, false, 0, 0, nul, fun _ => none, fun _ => nul⟩ = .ok n s' ∧
      (List.range n).map s'.argv = ps.map some ∧ s'.argv n = none ∧
      ∃ head h' l, buildCommandList (cString 1024 s'.buf) ps freshHeap = (head, h') ∧
        head ≠ none ∧ Doubly (fun p => (h'.cells p).next) (fun p => (h'.cells p).prev) none head l ∧
        (∀ p ∈ l, ∀ q ∈ l, (h'.cells p).next = some q ↔ (h'.cells q).prev = some p) ∧
        List.Forall₂ (fun st p => st.Is ((h'.cells p).map (cString 1024 s'.buf)))
          [lsStage, wcStage] l := by
  have hend : Laid true [] ['\n'] := .nil (by decide)
  have hf : Laid false [['f']] ['f', '\n'] :=
    .word (g := []) (w := ['f']) (by decide) (by decide) nofun hend
  have hgt : Laid true [['>'], ['f']] [' ', '>', 'f', '\n'] :=
    .op (g := [' ']) (w := ['>']) (by decide) (by decide) hf
  have hwc : Laid false [['w', 'c'], ['>'], ['f']] ['w', 'c', ' ', '>', 'f', '\n'] :=
    .word (g := []) (w := ['w', 'c']) (by decide) (by decide) nofun hgt
  have hbar : Laid true [['|'], ['w', 'c'], ['>'], ['f']]
      ['|', 'w', 'c', ' ', '>', 'f', '\n'] :=
    .op (g := []) (w := ['|']) (by decide) (by decide) hwc
  have hl : Laid true [['-', 'l'], ['|'], ['w', 'c'], ['>'], ['f']]
      [' ', '-', 'l', '|', 'w', 'c', ' ', '>', 'f', '\n'] :=
    .word (g := [' ']) (w := ['-', 'l']) (by decide) (by decide) (by decide) hbar
  have hline : Laid false (pipelineTokens [lsStage, wcStage])
      [' ', 'l', 's', ' ', '-', 'l', '|', 'w', 'c', ' ', '>', 'f', '\n'] :=
    .word (g := [' ']) (w := ['l', 's']) (by decide) (by decide) nofun hl
  exact decodes (by decide) hline (by decide) (by decide) _ freshHeap

end SystemsProjects.Shell
