import Mathlib.Data.Option.Basic
import SystemsProjects.Shell.Segments

/-!
# Two Readings of the Same Tokens

`buildCommandList` knows nothing of a token but the string it points to. Where the same
tokens are read in two ways, and the second one only makes words of some of them, the lists
are the same exactly where none of the words reads as an operator the first way. A target of
a redirection is taken unread, so that it may.

## Main results

* `buildCommandList_eq_iff`: when two readings give the same list.
-/

namespace SystemsProjects.Shell

open DoublyLinked

section

variable {α : Type} {str plain : α → Str} {tokens : List α} {t : α}

/-- The second reading makes words of some of the tokens. -/
def Plainer (str plain : α → Str) (tokens : List α) : Prop :=
  ∀ t ∈ tokens, plain t = str t ∨ isOperator (plain t) = false

/-- The words of a line are no operators. -/
theorem isOperator_of_mem_wordsOf (h : t ∈ wordsOf str tokens) : isOperator (str t) = false := by
  fun_induction wordsOf str tokens with
  | case1 => cases h
  | case2 u hu f rest ih => exact ih h
  | case3 => cases h
  | case4 u rest _ _ ih => exact ih h
  | case5 u rest _ hu ih =>
      rcases List.mem_cons.mp h with rfl | h
      · simpa using hu
      · exact ih h

/-! ### Words that read as words -/

/-- The words of the second reading are words of the first one. -/
def Harmless (str plain : α → Str) (tokens : List α) : Prop :=
  ∀ t ∈ wordsOf plain tokens, isOperator (str t) = false

/-- What holds of all tokens of a line holds behind its first one. -/
theorem Plainer.cons (h : Plainer str plain (t :: tokens)) : Plainer str plain tokens :=
  fun u hu => h u (List.mem_cons_of_mem t hu)

/-- It holds of the end of a line, too. -/
theorem Plainer.suffix {rest : List α} (h : Plainer str plain tokens) (hr : rest <:+ tokens) :
    Plainer str plain rest :=
  fun u hu => h u (hr.subset hu)

/-- What the second reading takes for an operator is that operator. -/
theorem Plainer.operator {w : Str} (h : Plainer str plain (t :: tokens)) (ht : plain t = w)
    (hw : isOperator w = true) : str t = w := by
  rcases h t List.mem_cons_self with heq | hword
  · rw [← heq, ht]
  · rw [ht, hw] at hword
    cases hword

/-- Behind a first token that is a word, the rest of the line is as harmless as the whole. -/
theorem Harmless.cons (h : Harmless str plain (t :: tokens)) (ht : isOperator (plain t) = false) :
    isOperator (str t) = false ∧ Harmless str plain tokens := by
  rw [Harmless, wordsOf_word plain ht] at h
  exact List.forall_mem_cons.mp h

/-- A target is not looked at. -/
theorem Harmless.target {f : α} (h : Harmless str plain (t :: f :: tokens))
    (ht : plain t = ['<'] ∨ plain t = ['>']) : Harmless str plain tokens := by
  rwa [Harmless, wordsOf_target plain ht] at h

/-- The words up to the first operator are the same. -/
theorem splitter_congr (hplain : Plainer str plain tokens) (h : Harmless str plain tokens)
    (c : Command α) : splitter plain c tokens = splitter str c tokens := by
  have hspan : tokens.takeWhile (fun t => !isOperator (plain t)) =
        tokens.takeWhile (fun t => !isOperator (str t)) ∧
      tokens.dropWhile (fun t => !isOperator (plain t)) =
        tokens.dropWhile fun t => !isOperator (str t) := by
    induction tokens with
    | nil => exact ⟨rfl, rfl⟩
    | cons t rest ih =>
        cases ht : isOperator (plain t) with
        | true =>
            have ht' : isOperator (str t) = true := by rwa [hplain.operator rfl ht]
            simp [ht, ht']
        | false =>
            obtain ⟨ht', hrest⟩ := h.cons ht
            obtain ⟨htake, hdrop⟩ := ih hplain.cons hrest
            simp [ht, ht', htake, hdrop]
  simp only [splitter, hspan]

/-- The inner loop does the same. -/
theorem setter_congr (hplain : Plainer str plain tokens) (h : Harmless str plain tokens)
    (c : Command α) : setter plain c tokens = setter str c tokens := by
  fun_induction setter plain c tokens with
  | case1 => rfl
  | case2 c t ht f rest ih =>
      rw [ih hplain.cons.cons (h.target (.inl ht)), setter.eq_def str c (t :: f :: rest)]
      simp [hplain.operator ht rfl]
  | case3 c t ht =>
      rw [setter.eq_def]
      simp [hplain.operator ht rfl]
  | case4 c t _ ht f rest ih =>
      rw [ih hplain.cons.cons (h.target (.inr ht)), setter.eq_def str c (t :: f :: rest)]
      simp [hplain.operator ht rfl]
  | case5 c t _ ht =>
      rw [setter.eq_def]
      simp [hplain.operator ht rfl]
  | case6 c t rest _ _ ht =>
      rw [setter.eq_def]
      simp [hplain.operator ht rfl]
  | case7 c t rest _ _ _ ht =>
      rw [setter.eq_def]
      simp [hplain.operator ht rfl]
  | case8 c t rest _ _ _ _ ht =>
      rw [setter.eq_def]
      simp [hplain.operator ht rfl]
  | case9 c t rest hlt hgt hbar hand hnot =>
      have hword : isOperator (plain t) = false := by
        simp [isOperator, hlt, hgt, hbar, hand, hnot]
      exact (setter_word (h.cons hword).1 c rest).symm

/-- A turn of the outer loop does the same, and leaves tokens for which the next one does. -/
theorem fill_congr (hplain : Plainer str plain tokens) (h : Harmless str plain tokens)
    (c : Command α) : fill plain c tokens = fill str c tokens ∧
      Plainer str plain (fill plain c tokens).2 ∧ Harmless str plain (fill plain c tokens).2 := by
  have hsuffix : (splitter plain c tokens).2 <:+ tokens := List.dropWhile_suffix _
  have hrest : Harmless str plain (splitter plain c tokens).2 := by
    intro t ht
    refine h t ?_
    rw [wordsOf_fill plain c tokens, fill, wordsOf_setter]
    exact List.mem_append_right _ ht
  refine ⟨?_, (hplain.suffix hsuffix).suffix (setter_suffix plain _ _), fun t ht => ?_⟩
  · rw [fill, fill, ← splitter_congr hplain h]
    exact setter_congr (hplain.suffix hsuffix) hrest _
  · rw [fill, wordsOf_setter] at ht
    exact hrest t ht

/-- The outer loop makes the same list of a line in both readings, turn by turn. -/
theorem buildLoop_congr (hplain : Plainer str plain tokens) (h : Harmless str plain tokens)
    (head tail : Option ℕ) (mem : Heap α) :
    buildLoop plain tokens head tail mem = buildLoop str tokens head tail mem := by
  fun_induction buildLoop plain tokens head tail mem with
  | case1 => rw [buildLoop]
  | case2 head tail mem t rest created filled added ih =>
      obtain ⟨hfill, hplain', h'⟩ := fill_congr hplain h (created.2.cells created.1)
      have hfilled : fill str (created.2.cells created.1) (t :: rest) = filled := hfill.symm
      rw [ih hplain' h', buildLoop.eq_def str (t :: rest)]
      simp only [created] at hfilled
      simp only [hfilled, added, created]

/-! ### Words that read as operators -/

/-- A command holds one list of words: its array is `NULL` terminated. -/
theorem Command.Holds.unique {c : Command α} {ws ws' : List α} (h : c.Holds ws)
    (h' : c.Holds ws') : ws = ws' := by
  have hargs := Option.some.inj (h.args.symm.trans h'.args)
  exact List.map_injective_iff.mpr (Option.some_injective α) (List.append_cancel_right hargs)

/-- The same list has the same words. -/
theorem wordsOf_eq {h : Heap α} (heq : buildCommandList plain tokens h =
    buildCommandList str tokens h) : wordsOf plain tokens = wordsOf str tokens := by
  obtain ⟨l, hl⟩ := accounted plain tokens h
  obtain ⟨l', hl'⟩ := accounted str tokens h
  rw [heq] at hl
  obtain rfl : l = l' := hl.linked.linked.unique hl'.linked.linked
  obtain ⟨ws, hws, hflat⟩ := hl.words
  obtain ⟨ws', hws', hflat'⟩ := hl'.words
  obtain rfl : ws = ws' := List.right_unique_forall₂' (fun _ _ _ h h' => h.unique h') hws hws'
  rw [← hflat, hflat']

/-- Two readings, of which the second only makes words of some of the tokens, give the same
list if and only if the words of the second one are words of the first. -/
theorem buildCommandList_eq_iff (hplain : Plainer str plain tokens) (h : Heap α) :
    buildCommandList plain tokens h = buildCommandList str tokens h ↔
      Harmless str plain tokens := by
  constructor
  · intro heq t ht
    rw [wordsOf_eq heq] at ht
    exact isOperator_of_mem_wordsOf ht
  · exact fun hwords => buildLoop_congr hplain hwords none none h

end

end SystemsProjects.Shell
