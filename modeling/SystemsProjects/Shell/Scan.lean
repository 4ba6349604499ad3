import SystemsProjects.Shell.Parser

/-!
# Scanning a Line Without Quotes

What the tokenizer is for, on lines without quotes: a line is read into the list of its
finished tokens and the token it is in the middle of. A blank ends a token, an operator is
a token of its own, and everything else goes on with the token that is being read.

A line is laid out from its tokens by blanks around them, which may be missing except
between two words. Scanning a line gives back the tokens it is laid out from.

## Main definitions

* `scan`: the tokens of a line.
* `Laid`: a line is laid out from tokens.

## Main results

* `Laid.scan_eq`: scanning undoes laying out.
* `scanStep_extends`, `pack_scanFrom`: scanning on only adds to what is there.
-/

namespace SystemsProjects.Shell

open CStrings

/-! ### The scanner -/

/-- The characters that are tokens of their own. -/
def isOpChar (c : Char) : Bool := c = '|' || c = '<' || c = '>'

/-- The finished tokens, and the token that is being read. -/
abbrev Scan := List Str × Str

/-- The tokens, once the one that is being read is finished too. -/
def Scan.tokens (st : Scan) : List Str := if st.2 = [] then st.1 else st.1 ++ [st.2]

/-- The token that is being read ends with an operator. -/
def endsWithOp (w : Str) : Bool := w.getLast?.any isOpChar

/-- One more character. -/
def scanStep (st : Scan) (c : Char) : Scan :=
  if isSpace c then (st.tokens, [])
  else if st.2 ≠ [] ∧ (endsWithOp st.2 ∨ isOpChar c) then (st.tokens, [c])
  else (st.1, st.2 ++ [c])

/-- Some more characters. -/
def scanFrom (st : Scan) (l : Str) : Scan := l.foldl scanStep st

/-- The tokens of a line. -/
def scan (line : Str) : List Str := (scanFrom ([], []) line).tokens

/-- Without characters nothing is scanned. -/
@[simp] theorem scanFrom_nil (st : Scan) : scanFrom st [] = st := rfl

/-- Characters are scanned from the left, one by one. -/
@[simp] theorem scanFrom_cons (st : Scan) (c : Char) (l : Str) :
    scanFrom st (c :: l) = scanFrom (scanStep st c) l := rfl

/-- A line may be scanned in two parts. -/
theorem scanFrom_append (st : Scan) (l l' : Str) :
    scanFrom st (l ++ l') = scanFrom (scanFrom st l) l' :=
  List.foldl_append

/-- Where no token is being read, the tokens are the finished ones. -/
@[simp] theorem tokens_nil (ts : List Str) : Scan.tokens (ts, []) = ts := rfl

/-- Where one is, it is the last of the tokens. -/
theorem tokens_of_ne {ts : List Str} {w : Str} (h : w ≠ []) : Scan.tokens (ts, w) = ts ++ [w] :=
  if_neg h

/-! ### Scanning on -/

/-- A step keeps the finished tokens. -/
theorem scanStep_extends (st : Scan) (c : Char) : st.1 <+: (scanStep st c).1 := by
  have ht : st.1 <+: st.tokens := by
    unfold Scan.tokens
    split
    · exact List.prefix_rfl
    · exact List.prefix_append _ _
  unfold scanStep
  split
  · exact ht
  · split
    · exact ht
    · exact List.prefix_rfl

/-- The finished tokens stay at the front of all tokens. -/
theorem fst_prefix_scanFrom (st : Scan) (l : Str) : st.1 <+: (scanFrom st l).tokens := by
  induction l generalizing st with
  | nil =>
      unfold Scan.tokens
      split
      · exact List.prefix_rfl
      · exact List.prefix_append _ _
  | cons c l ih => exact (scanStep_extends st c).trans (ih _)

/-- A step takes no token away. -/
theorem length_scanStep (st : Scan) (c : Char) :
    st.tokens.length ≤ (scanStep st c).tokens.length := by
  obtain ⟨ts, w⟩ := st
  unfold scanStep
  split
  · exact Nat.le_refl _
  · split
    · simp [tokens_of_ne]
    · by_cases hw : w = [] <;> simp [Scan.tokens, hw]

/-- Scanning on does not make the tokens fewer. -/
theorem length_scanFrom (st : Scan) (l : Str) :
    st.tokens.length ≤ (scanFrom st l).tokens.length := by
  induction l generalizing st with
  | nil => exact Nat.le_refl _
  | cons c l ih => exact Nat.le_trans (length_scanStep st c) (ih _)

/-- A step takes no character away. -/
theorem pack_scanStep (st : Scan) (c : Char) :
    (pack nul st.tokens).length ≤ (pack nul (scanStep st c).tokens).length := by
  obtain ⟨ts, w⟩ := st
  unfold scanStep
  split
  · exact Nat.le_refl _
  · split
    · rw [tokens_of_ne (List.cons_ne_nil _ _), pack_append]
      simp
    · by_cases hw : w = [] <;> simp [Scan.tokens, hw, pack_append, pack_cons]

/-- Nor does it make them take less room in the buffer. -/
theorem pack_scanFrom (st : Scan) (l : Str) :
    (pack nul st.tokens).length ≤ (pack nul (scanFrom st l).tokens).length := by
  induction l generalizing st with
  | nil => exact Nat.le_refl _
  | cons c l ih => exact Nat.le_trans (pack_scanStep st c) (ih _)

/-! ### Laying out -/

/-- A character of a word. -/
def isPlain (c : Char) : Bool :=
  c.toNat < 128 && c ≠ nul && !isSpace c && !isQuote c && !isOpChar c

/-- Blanks. -/
def Blank (g : Str) : Prop := ∀ c ∈ g, isSpace c ∧ c ≠ nul

/-- A word. -/
def Word (w : Str) : Prop := w ≠ [] ∧ ∀ c ∈ w, isPlain c

/-- An operator. -/
def Op (w : Str) : Prop := w ∈ [['|'], ['<'], ['>']]

/-- Whether a text is blank can be computed. -/
instance (g : Str) : Decidable (Blank g) :=
  List.decidableBAll (fun c => isSpace c ∧ c ≠ nul) g

/-- Whether a text is a word can be computed. -/
instance (w : Str) : Decidable (Word w) :=
  have : Decidable (∀ c ∈ w, isPlain c) := List.decidableBAll (fun c => isPlain c) w
  inferInstanceAs (Decidable (w ≠ [] ∧ ∀ c ∈ w, isPlain c))

/-- Whether a text is made of operators can be computed. -/
instance (w : Str) : Decidable (Op w) :=
  inferInstanceAs (Decidable (w ∈ [['|'], ['<'], ['>']]))

/-- The line is laid out from the tokens, behind a word where the flag says so: two words
do not run together. -/
inductive Laid : Bool → List Str → Str → Prop
  | nil {b : Bool} {g : Str} : Blank g → Laid b [] g
  | word {b : Bool} {g w l : Str} {ts : List Str} : Blank g → Word w → (b = true → g ≠ []) →
      Laid true ts l → Laid b (w :: ts) (g ++ w ++ l)
  | op {b : Bool} {g w l : Str} {ts : List Str} : Blank g → Op w →
      Laid false ts l → Laid b (w :: ts) (g ++ w ++ l)

/-- Blanks end a token. -/
theorem scanFrom_blank {g : Str} (hg : Blank g) (st : Scan) :
    scanFrom st g = if g = [] then st else (st.tokens, []) := by
  induction g generalizing st with
  | nil => rfl
  | cons c g ih =>
      have hc : scanStep st c = (st.tokens, []) := if_pos (hg c (by simp)).1
      rw [scanFrom_cons, hc, ih (fun d hd => hg d (by simp [hd]))]
      by_cases h : g = [] <;> simp [h]

/-- A token ends before the next character, if that is no blank. -/
def Breaks (st : Scan) (c : Char) : Prop := st.2 = [] ∨ endsWithOp st.2 ∨ isOpChar c

/-- A character that begins a token. -/
theorem scanStep_begin {st : Scan} {c : Char} (hc : isSpace c = false) (h : Breaks st c) :
    scanStep st c = (st.tokens, [c]) := by
  obtain ⟨ts, w⟩ := st
  simp only [scanStep, hc, Bool.false_eq_true, if_false]
  by_cases hw : w = []
  · simp [hw]
  · rw [if_pos ⟨hw, h.resolve_left hw⟩]

/-- A plain character is no blank. -/
theorem isSpace_of_plain {c : Char} (h : isPlain c) : isSpace c = false := by
  simp only [isPlain, Bool.and_eq_true, Bool.not_eq_true'] at h
  exact h.1.1.2

/-- Nor is it a character of an operator. -/
theorem isOpChar_of_plain {c : Char} (h : isPlain c) : isOpChar c = false := by
  simp only [isPlain, Bool.and_eq_true, Bool.not_eq_true'] at h
  exact h.2

/-- The characters of a word go on with it. -/
theorem scanFrom_plain {ts : List Str} {u w : Str} (hu : u ≠ []) (he : endsWithOp u = false)
    (hw : ∀ c ∈ w, isPlain c) : scanFrom (ts, u) w = (ts, u ++ w) := by
  induction w generalizing u with
  | nil => simp
  | cons c w ih =>
      have hc := hw c (by simp)
      have hstep : scanStep (ts, u) c = (ts, u ++ [c]) := by
        simp [scanStep, isSpace_of_plain hc, isOpChar_of_plain hc, he]
      rw [scanFrom_cons, hstep, ih (by simp) (by simp [endsWithOp, isOpChar_of_plain hc])
        (fun d hd => hw d (by simp [hd]))]
      simp

/-- A word is scanned as one token. -/
theorem scanFrom_word {st : Scan} {w : Str} (hw : Word w)
    (h : st.2 = [] ∨ endsWithOp st.2) : scanFrom st w = (st.tokens, w) := by
  obtain ⟨hne, hw⟩ := hw
  cases w with
  | nil => exact absurd rfl hne
  | cons c w =>
      have hc := hw c (by simp)
      rw [scanFrom_cons, scanStep_begin (isSpace_of_plain hc) (h.elim .inl fun h => .inr (.inl h)),
        scanFrom_plain (by simp) (by simp [endsWithOp, isOpChar_of_plain hc])
          (fun d hd => hw d (by simp [hd]))]
      rfl

/-- An operator is scanned as one token, whatever stands before it. -/
theorem scanFrom_op {st : Scan} {w : Str} (hw : Op w) : scanFrom st w = (st.tokens, w) := by
  have h : ∀ c, isOpChar c → isSpace c = false → scanFrom st [c] = (st.tokens, [c]) :=
    fun c hop hsp => scanStep_begin hsp (.inr (.inr hop))
  simp only [Op, List.mem_cons, List.not_mem_nil, or_false] at hw
  rcases hw with rfl | rfl | rfl
  · exact h _ rfl rfl
  · exact h _ rfl rfl
  · exact h _ rfl rfl

/-- An operator ends with a character of an operator. -/
theorem endsWithOp_of_op {w : Str} (hw : Op w) : endsWithOp w := by
  simp only [Op, List.mem_cons, List.not_mem_nil, or_false] at hw
  rcases hw with rfl | rfl | rfl <;> rfl

/-- Scanning on over a line that is laid out adds its tokens. -/
theorem Laid.scanFrom_eq {b : Bool} {ts : List Str} {l : Str} (h : Laid b ts l) (st : Scan)
    (hb : b = false → st.2 = [] ∨ endsWithOp st.2) :
    (scanFrom st l).tokens = st.tokens ++ ts := by
  induction h generalizing st with
  | @nil b g hg =>
      rw [scanFrom_blank hg]
      split <;> simp
  | @word b g w l ts hg hw hbg _ ih =>
      have hmid : (scanFrom st g).tokens = st.tokens := by
        rw [scanFrom_blank hg]
        split <;> rfl
      have hbreak : (scanFrom st g).2 = [] ∨ endsWithOp (scanFrom st g).2 := by
        rw [scanFrom_blank hg]
        split
        · next hnil => exact hb (Bool.eq_false_iff.mpr fun e => hbg e hnil)
        · exact .inl rfl
      rw [scanFrom_append, scanFrom_append, scanFrom_word hw hbreak, ih _ nofun,
        tokens_of_ne hw.1, hmid]
      simp
  | @op b g w l ts hg hw _ ih =>
      have hmid : (scanFrom st g).tokens = st.tokens := by
        rw [scanFrom_blank hg]
        split <;> rfl
      have hne : w ≠ [] := by
        rintro rfl
        simp [Op] at hw
      rw [scanFrom_append, scanFrom_append, scanFrom_op hw,
        ih _ fun _ => .inr (endsWithOp_of_op hw), tokens_of_ne hne, hmid]
      simp

/-- Scanning undoes laying out. -/
theorem Laid.scan_eq {ts : List Str} {l : Str} (h : Laid false ts l) : scan l = ts :=
  h.scanFrom_eq ([], []) fun _ => .inl rfl

end SystemsProjects.Shell
