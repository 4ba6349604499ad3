import Mathlib.Data.List.Chain
import SystemsProjects.BareMetal.Rows
import SystemsProjects.BareMetal.Spacing

/-!
# Blanks Around Operators

An instruction line may be written with or without blanks around its operators, and
`split_at` tells its tokens apart by two neighbouring characters. It has no rule for `=`, and
for `<-` and `>>` none that splits in front of them. So these are only taken for tokens where
blanks set them off, and all the other operators always are.

## Main definitions

* `InstructionLine`: a line of the table, up to the directives.
* `Layout`: a way of writing the tokens of a line.
* `Layout.SetOff`: the blanks that the tokenizer depends on.

## Main results

* `exists_spaced`: what is read where some neighbouring tokens are not split.
* `parse_layout_iff`: when a line is read as it is with single blanks.
-/

namespace SystemsProjects.BareMetal

/-! ### Instruction lines -/

/-- The operators of the table: those that stand between operands. -/
def operators : List String := ["=", "<-", "->", "*", "+", "-", "&", "|", "^", ">>"]

/-- The token is what the pattern asks for, a register by its name. -/
def Pattern.Fits (t : String) : Pattern → Prop
  | oneOf names => t ∈ names
  | num => isNum t
  | nums => matchToken t .nums = pure true
  | any => True
  | label => isIdentifier t
  | reg => ∃ a, t = regName a
  | lit s => t = s

/-- The tokens of an instruction line. -/
def InstructionLine (line : List String) : Prop :=
  ∃ row ∈ instructionRows, List.Forall₂ Pattern.Fits line row

/-! ### Ways of writing a line -/

/-- The tokens of a line as they are typed, each with the blanks behind it. Two words have a
blank between them. -/
structure Layout where
  lead : List Char
  pieces : List (String × List Char)
  blank_lead : Blank lead
  blank : ∀ p ∈ pieces, Blank p.2
  separated : pieces.IsChain fun p q => p.1 ∉ operators → q.1 ∉ operators → p.2 ≠ []

/-- The text of tokens and blanks. -/
def textOf (pieces : List (String × List Char)) : List Char :=
  pieces.flatMap fun p => p.1.toList ++ p.2

namespace Layout

/-- The tokens. -/
def tokens (l : Layout) : List String := l.pieces.map Prod.fst

/-- The line. -/
def text (l : Layout) : String := String.ofList (l.lead ++ textOf l.pieces)

/-- Each `=` has blanks on both sides, and each `<-` and `>>` has blanks in front of it. No
other operator needs any. -/
def SetOff (l : Layout) : Prop :=
  l.pieces.IsChain fun p q => p.2 = [] → p.1 ≠ "=" ∧ q.1 ∉ ["=", "<-", ">>"]

end Layout

/-! ### Tokens that are not split -/

/-- Where one text ends and the next one begins, the line is split. -/
def Cut (v w : List Char) : Prop := ∀ c1 ∈ v.getLast?, ∀ c2 ∈ w.head?, Parted c1 c2

/-- Where one text ends and the next one begins, the line is not split. -/
def Glued (v w : List Char) : Prop := ∀ c1 ∈ v.getLast?, ∀ c2 ∈ w.head?, Joined c1 c2

/-- Whether two texts are cut apart depends on the characters at the border only. -/
theorem Cut.of_chars {v w : List Char} {c1 c2 : Char} (h1 : v.getLast? = some c1)
    (h2 : w.head? = some c2) (h : Parted c1 c2) : Cut v w := by
  rintro d1 hd1 d2 hd2
  obtain rfl := Option.some.inj (h1.symm.trans hd1)
  obtain rfl := Option.some.inj (h2.symm.trans hd2)
  exact h

/-- Whether two texts run together depends on the characters at the border only. -/
theorem Glued.of_chars {v w : List Char} {c1 c2 : Char} (h1 : v.getLast? = some c1)
    (h2 : w.head? = some c2) (h : Joined c1 c2) : Glued v w := by
  rintro d1 hd1 d2 hd2
  obtain rfl := Option.some.inj (h1.symm.trans hd1)
  obtain rfl := Option.some.inj (h2.symm.trans hd2)
  exact h

/-- Tokens do not both run together and get cut apart. -/
theorem Solid.not_cut {v w : List Char} (hv : Solid v) (hw : Solid w) (h : Glued v w) :
    ¬Cut v w := by
  intro hcut
  obtain ⟨c1, h1, -⟩ := hv.exists_last
  obtain ⟨c2, w, rfl⟩ := List.exists_cons_of_ne_nil hw.ne_nil
  have hjoined : Joined c1 c2 := h c1 h1 c2 rfl
  have hparted : Parted c1 c2 := hcut c1 h1 c2 rfl
  rw [Joined] at hjoined
  rw [Parted, hjoined] at hparted
  cases hparted

/-- Two tokens that run together are one token for `parse`. -/
theorem Solid.append {v w : List Char} (hv : Solid v) (hw : Solid w) (h : Glued v w) :
    Solid (v ++ w) := by
  refine ⟨List.append_ne_nil_of_left_ne_nil hv.ne_nil w, ?_, fun c hc => ?_⟩
  · exact List.isChain_append.mpr ⟨hv.joined, hw.joined, h⟩
  · exact (List.mem_append.mp hc).elim (hv.plain c) (hw.plain c)

/-- A token in front of a text that is not split from it becomes part of its first token. -/
theorem Spaced.glue {v text : List Char} {ws : List (List Char)} (hv : Solid v)
    (h : Spaced ws text) (hglued : Glued v text) :
    ∃ ws', Spaced ws' (v ++ text) ∧ ws'.length = ws.length := by
  cases h with
  | last hw => exact ⟨[v ++ text], .last (hv.append hw hglued), rfl⟩
  | @blank w gap text ws hw hgap hne h =>
      rw [Glued, List.head?_append_of_ne_nil _ hw.ne_nil] at hglued
      refine ⟨(v ++ w) :: ws, ?_, rfl⟩
      rw [← List.append_assoc]
      exact .blank (hv.append hw hglued) hgap hne h
  | @tight w text ws hw hparted h =>
      rw [Glued, List.head?_append_of_ne_nil _ hw.ne_nil] at hglued
      refine ⟨(v ++ w) :: ws, ?_, rfl⟩
      rw [← List.append_assoc]
      refine .tight (hv.append hw hglued) ?_ h
      rwa [List.getLast?_append_of_ne_nil _ hw.ne_nil]

/-- Wherever no blank is between two tokens, the line is split. -/
def AllCut (pieces : List (String × List Char)) : Prop :=
  pieces.IsChain fun p q => p.2 = [] → Cut p.1.toList q.1.toList

/-- Whether all borders are cut is decided at one border after the other. -/
theorem allCut_cons_cons {p q : String × List Char} {pieces : List (String × List Char)} :
    AllCut (p :: q :: pieces) ↔
      (p.2 = [] → Cut p.1.toList q.1.toList) ∧ AllCut (q :: pieces) :=
  List.isChain_cons_cons

/-- **What is read** of tokens that are typed with some blanks. These are the tokens
themselves if they are split wherever no blank is between them, and fewer words if not. -/
theorem exists_spaced {p : String × List Char} {pieces : List (String × List Char)}
    (hsolid : ∀ q ∈ p :: pieces, Solid q.1.toList) (hblank : ∀ q ∈ p :: pieces, Blank q.2)
    (hborder : (p :: pieces).IsChain fun p q =>
      p.2 = [] → Cut p.1.toList q.1.toList ∨ Glued p.1.toList q.1.toList) :
    ∃ ws text trail, Spaced ws text ∧ Blank trail ∧ textOf (p :: pieces) = text ++ trail ∧
      (AllCut (p :: pieces) → ws = (p :: pieces).map fun q => q.1.toList) ∧
      (¬AllCut (p :: pieces) → ws.length < (p :: pieces).length) := by
  induction pieces generalizing p with
  | nil =>
      exact ⟨[p.1.toList], p.1.toList, p.2, .last (hsolid p List.mem_cons_self),
        hblank p List.mem_cons_self, by simp [textOf], fun _ => rfl,
        fun h => absurd (.singleton p) h⟩
  | cons q pieces ih =>
      obtain ⟨hp, hsolid⟩ := List.forall_mem_cons.mp hsolid
      obtain ⟨hpblank, hblank⟩ := List.forall_mem_cons.mp hblank
      rw [List.isChain_cons_cons] at hborder
      obtain ⟨ws, text, trail, hspaced, htrail, htext, hall, hless⟩ :=
        ih hsolid hblank hborder.2
      have hq := hsolid q List.mem_cons_self
      -- the text begins as its first token does
      have hhead : text.head? = q.1.toList.head? := by
        obtain ⟨c, rest, rfl, -⟩ := hspaced.exists_cons
        have hcons : textOf (q :: pieces) = q.1.toList ++ (q.2 ++ textOf pieces) := by
          simp [textOf]
        have h := congrArg List.head? (hcons.symm.trans htext)
        rw [List.head?_append_of_ne_nil _ hq.ne_nil] at h
        exact h.symm
      have hcons : textOf (p :: q :: pieces) = p.1.toList ++ (p.2 ++ text) ++ trail := by
        rw [textOf, List.flatMap_cons, ← textOf, htext]
        simp
      by_cases hgap : p.2 = []
      · rw [hgap, List.nil_append] at hcons
        by_cases hcut : Cut p.1.toList q.1.toList
        · have hparted : Cut p.1.toList text := by
            rw [Cut, hhead]
            exact hcut
          refine ⟨p.1.toList :: ws, p.1.toList ++ text, trail, .tight hp hparted hspaced, htrail,
            hcons, fun h => ?_, fun h => ?_⟩
          · rw [hall (allCut_cons_cons.mp h).2]
            rfl
          · exact Nat.succ_lt_succ
              (hless fun h' => h (allCut_cons_cons.mpr ⟨fun _ => hcut, h'⟩))
        · -- the two tokens become one
          have hglued : Glued p.1.toList text := by
            rw [Glued, hhead]
            exact (hborder.1 hgap).resolve_left hcut
          have hle : ws.length ≤ (q :: pieces).length := by
            by_cases h : AllCut (q :: pieces)
            · rw [hall h, List.length_map]
            · exact (hless h).le
          obtain ⟨ws', hspaced', hlen⟩ := hspaced.glue hp hglued
          refine ⟨ws', p.1.toList ++ text, trail, hspaced', htrail, hcons,
            fun h => absurd ((allCut_cons_cons.mp h).1 hgap) hcut, fun _ => ?_⟩
          rw [hlen]
          exact Nat.lt_succ_of_le hle
      · refine ⟨p.1.toList :: ws, p.1.toList ++ (p.2 ++ text), trail,
          .blank hp hpblank hgap hspaced, htrail, hcons, fun h => ?_, fun h => ?_⟩
        · rw [hall (allCut_cons_cons.mp h).2]
          rfl
        · exact Nat.succ_lt_succ
            (hless fun h' => h (allCut_cons_cons.mpr ⟨fun hnil => absurd hnil hgap, h'⟩))

/-- Tokens with single blanks between them. -/
theorem spaced_intercalate {ws : List (List Char)} (hne : ws ≠ []) (h : ∀ w ∈ ws, Solid w) :
    Spaced ws ([' '].intercalate ws) := by
  induction ws with
  | nil => exact absurd rfl hne
  | cons w ws ih =>
      obtain ⟨hw, hws⟩ := List.forall_mem_cons.mp h
      cases ws with
      | nil =>
          rw [List.intercalate_singleton]
          exact .last hw
      | cons v ws =>
          have hgap : Blank [' '] := by
            intro c hc
            rw [List.mem_singleton.mp hc]
            decide
          rw [List.intercalate_cons_cons, List.append_assoc]
          exact .blank hw hgap (List.cons_ne_nil _ _) (ih (List.cons_ne_nil v ws) hws)

/-! ### The tokens of the table -/

/-- Letters and digits, by their codes. -/
theorem isAlphanum_iff {c : Char} : c.isAlphanum = true ↔
    ((65 ≤ c.toNat ∧ c.toNat ≤ 90) ∨ 97 ≤ c.toNat ∧ c.toNat ≤ 122) ∨
      48 ≤ c.toNat ∧ c.toNat ≤ 57 := by
  have hupper : c.isUpper = true ↔ 65 ≤ c.toNat ∧ c.toNat ≤ 90 := decide_eq_true_iff
  have hlower : c.isLower = true ↔ 97 ≤ c.toNat ∧ c.toNat ≤ 122 :=
    Bool.and_eq_true_iff.trans (and_congr decide_eq_true_iff decide_eq_true_iff)
  have halpha : c.isAlpha = true ↔ c.isUpper = true ∨ c.isLower = true := Bool.or_eq_true_iff
  have hor : c.isAlphanum = true ↔ c.isAlpha = true ∨ c.isDigit = true := Bool.or_eq_true_iff
  rw [hor, halpha, hupper, hlower, Char.isDigit_iff_toNat]
  rfl

/-- The split has no rule for letters and digits. -/
theorem wordChar_of_isAlphanum {c : Char} (h : c.isAlphanum = true) : WordChar c := by
  have hne (d : Char) (hd : d.isAlphanum = false) : c ≠ d := by
    rintro rfl
    rw [h] at hd
    cases hd
  have hspace : isSpace c = false := by
    by_contra hspace
    have hle : c.toNat ≤ 0x20 := by
      simp [isSpace] at hspace
      omega
    rw [isAlphanum_iff] at h
    omega
  refine ⟨⟨hspace, hne _ (by decide), hne _ (by decide)⟩, ?_⟩
  intro hmem
  have hall : ∀ d ∈ ['^', '|', '&', '+', ',', '*', ':', '-', '<', '>'],
      d.isAlphanum = false := by
    simp only [List.forall_mem_cons, List.not_mem_nil, false_imp_iff, implies_true, and_true]
    decide
  exact hne c (hall c hmem) rfl

/-- The digits of a hexadecimal number are letters and digits. -/
theorem isAlphanum_of_isHex {c : Char} (h : isHex c = true) : c.isAlphanum = true := by
  simp only [isHex, Bool.or_eq_true, Bool.and_eq_true, decide_eq_true_eq] at h
  rw [isAlphanum_iff]
  rcases h with (h | ⟨hle, hge⟩) | ⟨hle, hge⟩
  · exact .inr (Char.isDigit_iff_toNat.mp h)
  · exact .inl (.inl ⟨hle, le_trans (show c.toNat ≤ 70 from hge) (by decide)⟩)
  · exact .inl (.inr ⟨hle, le_trans (show c.toNat ≤ 102 from hge) (by decide)⟩)

/-- A token that `split_at` has no rule for. -/
def IsWord (t : String) : Prop := t.toList ≠ [] ∧ ∀ c ∈ t.toList, WordChar c

/-- A number is not split, whether it is decimal or hexadecimal. -/
theorem isWord_of_isNum {t : String} (h : isNum t = true) : IsWord t := by
  rw [isNum] at h
  split at h
  · rename_i rest ht
    refine ⟨by simp [ht], fun c hc => ?_⟩
    rw [ht] at hc
    rcases List.mem_cons.mp hc with rfl | hc
    · decide
    · rcases List.mem_cons.mp hc with rfl | hc
      · decide
      · exact wordChar_of_isAlphanum (isAlphanum_of_isHex (List.all_eq_true.mp h c hc))
  · rw [Bool.and_eq_true] at h
    refine ⟨by simpa using h.1, fun c hc => wordChar_of_isAlphanum ?_⟩
    exact Bool.or_eq_true_iff.mpr (.inr (List.all_eq_true.mp h.2 c hc))

/-- A name is not split. -/
theorem isWord_of_isIdentifier {t : String} (h : isIdentifier t = true) : IsWord t := by
  have hunderscore {c : Char} (h : c.isAlphanum ∨ c = '_') : WordChar c := by
    rcases h with h | rfl
    · exact wordChar_of_isAlphanum h
    · decide
  rw [isIdentifier] at h
  split at h
  · cases h
  · rename_i c rest ht
    simp only [Bool.and_eq_true, Bool.or_eq_true, decide_eq_true_eq, List.all_eq_true] at h
    rw [IsWord, ht]
    refine ⟨List.cons_ne_nil c rest, List.forall_mem_cons.mpr ⟨hunderscore ?_, fun d hd => ?_⟩⟩
    · exact h.1.imp_left fun h => Bool.or_eq_true_iff.mpr (.inl h)
    · exact hunderscore (h.2 d hd)

/-- The name of a register is not split. -/
theorem isWord_regName (a : Fin 8) : IsWord (regName a) := by
  have hd : ∀ a : Fin 8, WordChar 'R' ∧ WordChar (Char.ofNat (48 + a)) := by decide
  rw [IsWord, regName, String.toList_ofList]
  refine ⟨List.cons_ne_nil _ _, ?_⟩
  simp [hd a]

/-- Whether a token is never split can be computed. -/
instance (t : String) : Decidable (IsWord t) :=
  have : Decidable (∀ c ∈ t.toList, WordChar c) := List.decidableBAll WordChar t.toList
  inferInstanceAs (Decidable (_ ∧ _))

/-- The operator that a pattern asks for. -/
def Pattern.operator : Pattern → Option String
  | lit s => if s ∈ operators then some s else none
  | _ => none

/-- The pattern asks for an operator or for a word. -/
def Pattern.Ordinary : Pattern → Prop
  | lit s => s ∈ operators ∨ IsWord s
  | oneOf names => ∀ t ∈ names, IsWord t ∧ t ∉ operators
  | nums | any => False
  | num | label | reg => True

/-- Whether a pattern asks for an ordinary token can be computed. -/
instance : DecidablePred Pattern.Ordinary
  | .lit s => inferInstanceAs (Decidable (s ∈ operators ∨ IsWord s))
  | .oneOf names => inferInstanceAs (Decidable (∀ t ∈ names, IsWord t ∧ t ∉ operators))
  | .nums | .any => .isFalse id
  | .num | .label | .reg => .isTrue True.intro

/-- Two operators side by side are an arrow and a star. -/
def Border (v w : Option String) : Prop :=
  v = none ∨ w = none ∨ (v = some "<-" ∨ v = some "->") ∧ w = some "*"

/-- Whether two operators may stand side by side can be computed. -/
instance (v w : Option String) : Decidable (Border v w) := inferInstanceAs (Decidable (_ ∨ _))

/-- The rows of the instructions ask for operators and words only, and the two operators that
stand side by side there are an arrow and a star. -/
theorem instructionRows_ordinary : ∀ row ∈ instructionRows, (∀ p ∈ row, p.Ordinary) ∧
    row.IsChain fun p q => Border p.operator q.operator := by
  decide +kernel

/-- The operator that a token is. -/
def operatorOf (t : String) : Option String := if t ∈ operators then some t else none

/-- A token that fits a pattern is the operator that the pattern asks for, or a word. -/
theorem Pattern.Fits.operator_eq {t : String} {p : Pattern} (h : p.Fits t) (hp : p.Ordinary) :
    operatorOf t = p.operator ∧ (t ∉ operators → IsWord t) := by
  have hword (hnot : t ∉ operators) (hw : IsWord t) (hop : p.operator = none) :
      operatorOf t = p.operator ∧ (t ∉ operators → IsWord t) :=
    ⟨(if_neg hnot).trans hop.symm, fun _ => hw⟩
  cases p with
  | lit s =>
      obtain rfl : t = s := h
      exact ⟨rfl, fun hnot => hp.resolve_left hnot⟩
  | oneOf names => exact hword (hp t h).2 (hp t h).1 rfl
  | num =>
      refine hword (fun hmem => ?_) (isWord_of_isNum h) rfl
      have hall : ∀ t ∈ operators, isNum t = false := by decide
      exact Bool.false_ne_true ((hall t hmem).symm.trans h)
  | label =>
      refine hword (fun hmem => ?_) (isWord_of_isIdentifier h) rfl
      have hall : ∀ t ∈ operators, isIdentifier t = false := by decide
      exact Bool.false_ne_true ((hall t hmem).symm.trans h)
  | reg =>
      obtain ⟨a, rfl⟩ := h
      have hall : ∀ a : Fin 8, regName a ∉ operators := by decide
      exact hword (hall a) (isWord_regName a) rfl
  | nums => exact hp.elim
  | any => exact hp.elim

/-- The tokens of an instruction line are operators and words. -/
theorem InstructionLine.tokens {line : List String} (h : InstructionLine line) :
    (∀ t ∈ line, t ∉ operators → IsWord t) ∧
      line.IsChain fun v w => Border (operatorOf v) (operatorOf w) := by
  obtain ⟨row, hmem, hfits⟩ := h
  obtain ⟨hordinary, hchain⟩ := instructionRows_ordinary row hmem
  clear hmem
  induction hfits with
  | nil => exact ⟨fun _ h => absurd h List.not_mem_nil, .nil⟩
  | @cons t p line row ht hfits ih =>
      obtain ⟨hp, hordinary⟩ := List.forall_mem_cons.mp hordinary
      obtain ⟨hop, hword⟩ := ht.operator_eq hp
      obtain ⟨hwords, hline⟩ := ih hordinary hchain.tail
      refine ⟨List.forall_mem_cons.mpr ⟨hword, hwords⟩, ?_⟩
      cases hfits with
      | nil => exact .singleton t
      | @cons u q line row hu hfits =>
          rw [List.isChain_cons_cons] at hchain ⊢
          have hop' := (hu.operator_eq (hordinary q List.mem_cons_self)).1
          refine ⟨?_, hline⟩
          rw [hop, hop']
          exact hchain.1

/-! ### Borders of tokens -/

section Borders

variable {c1 c2 : Char}

/-- A word is split from the operator in front of it. -/
theorem parted_word (h1 : c1 ∈ ['+', '^', '|', '&', '*', '-', '>']) (h2 : WordChar c2) :
    Parted c1 c2 := by
  obtain ⟨⟨hspace, hquote, -⟩, h2⟩ := h2
  simp only [List.mem_cons, List.not_mem_nil, or_false, not_or] at h1 h2
  rcases h1 with rfl | rfl | rfl | rfl | rfl | rfl | rfl <;>
    simp [Parted, splitAt, hspace, hquote, h2]

/-- And it is split from the operator behind it. -/
theorem word_parted (h1 : WordChar c1) (h2 : c2 ∈ ['+', '^', '|', '&', '*', '-']) :
    Parted c1 c2 := by
  have hblank : ∀ c ∈ ['+', '^', '|', '&', '*', '-'], isSpace c = false := by
    simp only [List.forall_mem_cons, List.not_mem_nil, false_imp_iff, implies_true, and_true]
    decide
  obtain ⟨⟨hspace, -, -⟩, h1⟩ := h1
  have hspace' := hblank c2 h2
  simp only [List.mem_cons, List.not_mem_nil, or_false, not_or] at h1 h2
  rcases h2 with rfl | rfl | rfl | rfl | rfl | rfl <;>
    simp [Parted, splitAt, hspace, hspace', h1]

/-- But not where that begins with one of these. -/
theorem word_joined (h1 : WordChar c1) (h2 : c2 ∈ ['=', '<', '>']) : Joined c1 c2 := by
  obtain ⟨-, h1⟩ := h1
  simp only [List.mem_cons, List.not_mem_nil, or_false, not_or] at h1 h2
  rcases h2 with rfl | rfl | rfl <;> simp [Joined, splitAt, isSpace, h1]

/-- Two tokens that need no blank between them. -/
def NeedsNone (v w : String) : Prop := v ≠ "=" ∧ w ∉ ["=", "<-", ">>"]

/-- Whether two tokens need a blank between them can be computed. -/
instance (v w : String) : Decidable (NeedsNone v w) := inferInstanceAs (Decidable (_ ∧ _))

/-- **Two tokens without a blank between them** are split from each other, but for those
that need one. -/
theorem cut_or_glued {v w : String} (hv : v ∉ operators → IsWord v)
    (hw : w ∉ operators → IsWord w) (hb : Border (operatorOf v) (operatorOf w))
    (hsep : ¬(v ∉ operators ∧ w ∉ operators)) :
    NeedsNone v w ∧ Cut v.toList w.toList ∨ ¬NeedsNone v w ∧ Glued v.toList w.toList := by
  have hfirst : ∀ t ∈ operators,
      (t ∈ ["=", "<-", ">>"] ∧ ['=', '<', '>'].any (t.toList.head? = some ·)) ∨
        t ∉ ["=", "<-", ">>"] ∧
          ['+', '^', '|', '&', '*', '-'].any (t.toList.head? = some ·) := by
    decide
  have hlast : ∀ t ∈ operators,
      t = "=" ∨ ['+', '^', '|', '&', '*', '-', '>'].any (t.toList.getLast? = some ·) := by
    decide
  by_cases hwop : w ∈ operators
  · by_cases hvop : v ∈ operators
    · -- an arrow and a star
      rw [operatorOf, operatorOf, if_pos hvop, if_pos hwop] at hb
      obtain ⟨hv, hw⟩ := (hb.resolve_left (by simp)).resolve_left (by simp)
      obtain rfl := Option.some.inj hw
      rcases hv with hv | hv
      · obtain rfl := Option.some.inj hv
        exact .inl ⟨by decide, .of_chars rfl rfl (by decide)⟩
      · obtain rfl := Option.some.inj hv
        exact .inl ⟨by decide, .of_chars rfl rfl (by decide)⟩
    · obtain ⟨hne, hall⟩ := hv hvop
      obtain ⟨c1, h1⟩ := Option.isSome_iff_exists.mp (List.getLast?_isSome.mpr hne)
      have hc1 := hall c1 (List.mem_of_getLast? h1)
      have heq : v ≠ "=" := by
        rintro rfl
        exact hvop (by decide)
      simp only [List.any_eq_true, decide_eq_true_eq] at hfirst
      rcases hfirst w hwop with ⟨hmem, c2, hc2, h2⟩ | ⟨hmem, c2, hc2, h2⟩
      · exact .inr ⟨fun h => h.2 hmem, .of_chars h1 h2 (word_joined hc1 hc2)⟩
      · exact .inl ⟨⟨heq, hmem⟩, .of_chars h1 h2 (word_parted hc1 hc2)⟩
  · obtain ⟨hne, hall⟩ := hw hwop
    obtain ⟨c2, rest, hcons⟩ := List.exists_cons_of_ne_nil hne
    have h2 : w.toList.head? = some c2 := by rw [hcons, List.head?_cons]
    have hc2 : WordChar c2 := hall c2 (by rw [hcons]; exact List.mem_cons_self)
    have hmem : w ∉ ["=", "<-", ">>"] := fun h => hwop (by
      have hsub : ∀ t ∈ ["=", "<-", ">>"], t ∈ operators := by decide
      exact hsub w h)
    have hvop : v ∈ operators := by
      by_contra hvop
      exact hsep ⟨hvop, hwop⟩
    simp only [List.any_eq_true, decide_eq_true_eq] at hlast
    rcases hlast v hvop with rfl | ⟨c1, hc1, h1⟩
    · exact .inr ⟨fun h => h.1 rfl, .of_chars rfl h2 (WordChar.joined (by decide) hc2)⟩
    · refine .inl ⟨⟨?_, hmem⟩, .of_chars h1 h2 (parted_word hc1 hc2)⟩
      rintro rfl
      obtain rfl := Option.some.inj h1
      exact absurd hc1 (by decide)

end Borders

/-! ### Reading a line -/

/-- Two relations that hold along a list hold there together. -/
theorem isChain_and {α : Type} {R S : α → α → Prop} {l : List α} (hR : l.IsChain R)
    (hS : l.IsChain S) : l.IsChain fun a b => R a b ∧ S a b := by
  rw [List.isChain_iff_getElem] at hR hS ⊢
  exact fun i hi => ⟨hR i hi, hS i hi⟩

/-- Operators and words are not split. -/
theorem solid_of_isWord {t : String} (h : t ∉ operators → IsWord t) : Solid t.toList := by
  by_cases hop : t ∈ operators
  · have hall : ∀ t ∈ operators, Solid t.toList := by decide
    exact hall t hop
  · exact solid_of_wordChar (h hop).1 (h hop).2

/-- Tokens with single blanks between them are read. -/
theorem parse_intercalate {tokens : List String} (hne : tokens ≠ [])
    (h : ∀ t ∈ tokens, Solid t.toList) :
    parse false (" ".intercalate tokens) = (tokens, false) := by
  have hnil : Blank [] := by decide
  have hspaced : Spaced (tokens.map String.toList)
      ([' '].intercalate (tokens.map String.toList)) := by
    refine spaced_intercalate (mt List.map_eq_nil_iff.mp hne) fun w hw => ?_
    obtain ⟨t, ht, rfl⟩ := List.mem_map.mp hw
    exact h t ht
  refine (hspaced.parse_eq hnil hnil ?_).trans ?_
  · rw [String.toList_intercalate]
    simp
  · simp [Function.comp_def]

/-- Where there is no blank, the line is split if and only if none is needed. -/
theorem Layout.cut_iff (l : Layout) (h : InstructionLine l.tokens) :
    l.pieces.IsChain fun p q => p.2 = [] →
      (NeedsNone p.1 q.1 ↔ Cut p.1.toList q.1.toList) ∧
        (Cut p.1.toList q.1.toList ∨ Glued p.1.toList q.1.toList) := by
  obtain ⟨hword, hborder⟩ := h.tokens
  have hboth := isChain_and l.separated ((List.isChain_map Prod.fst).mp hborder)
  refine hboth.imp_of_mem_imp fun p q hp hq hpq hgap => ?_
  have hp := hword p.1 (List.mem_map_of_mem hp)
  have hq := hword q.1 (List.mem_map_of_mem hq)
  have hsep : ¬(p.1 ∉ operators ∧ q.1 ∉ operators) := fun hpq' =>
    hpq.1 hpq'.1 hpq'.2 hgap
  rcases cut_or_glued hp hq hpq.2 hsep with ⟨hnone, hcut⟩ | ⟨hnone, hglued⟩
  · exact ⟨iff_of_true hnone hcut, .inl hcut⟩
  · exact ⟨iff_of_false hnone ((solid_of_isWord hp).not_cut (solid_of_isWord hq) hglued),
      .inr hglued⟩

/-- **Blanks around operators.** A line that is typed with any blanks around its operators is
read as it is with single blanks if and only if each `=` has blanks on both sides, and each
`<-` and `>>` has blanks in front of it. -/
theorem parse_layout_iff (l : Layout) (h : InstructionLine l.tokens) :
    (parse false l.text).1 = (parse false (" ".intercalate l.tokens)).1 ↔ l.SetOff := by
  have hsolid : ∀ t ∈ l.tokens, Solid t.toList := fun t ht => solid_of_isWord (h.tokens.1 t ht)
  have hne : l.tokens ≠ [] := by
    intro hnil
    obtain ⟨row, hmem, hfits⟩ := h
    rw [hnil, List.forall₂_nil_left_iff] at hfits
    have hrows : [] ∉ instructionRows := by decide
    exact hrows (hfits ▸ hmem)
  have hcut := l.cut_iff h
  have hset : l.SetOff ↔ AllCut l.pieces := by
    constructor
    · intro hset
      exact (isChain_and hset hcut).imp fun p q h hgap => (h.2 hgap).1.mp (h.1 hgap)
    · intro hall
      exact (isChain_and hall hcut).imp fun p q h hgap => (h.2 hgap).1.mpr (h.1 hgap)
  have hpieces : ∀ q ∈ l.pieces, Solid q.1.toList := fun q hq =>
    hsolid q.1 (List.mem_map_of_mem hq)
  obtain ⟨p, pieces, hcons⟩ := List.exists_cons_of_ne_nil (mt List.map_eq_nil_iff.mpr hne)
  obtain ⟨ws, text, trail, hspaced, htrail, htext, hall, hless⟩ := exists_spaced
    (hcons ▸ hpieces) (hcons ▸ l.blank) (hcons ▸ hcut.imp fun p q h hgap => (h hgap).2)
  rw [← hcons] at htext hall hless
  have hline : parse false l.text = (ws.map String.ofList, false) := by
    refine hspaced.parse_eq l.blank_lead htrail ?_
    rw [Layout.text, String.toList_ofList, htext]
  rw [hset, hline, parse_intercalate hne hsolid]
  constructor
  · intro heq
    by_contra hnot
    have hlen := congrArg List.length heq
    rw [List.length_map, Layout.tokens, List.length_map] at hlen
    exact absurd hlen (hless hnot).ne
  · intro hcuts
    rw [hall hcuts, List.map_map, Layout.tokens]
    exact List.map_congr_left fun q _ => String.ofList_toList

/-- A sum, written as in `hello.asm`. -/
def tight : Layout where
  lead := []
  pieces := [("ADD", [' ']), ("R0", []), ("+", []), ("R2", []), ("->", []), ("R0", [])]
  blank_lead := by decide
  blank := by decide
  separated := by decide

/-- `ADD R0+R2->R0` is read as it is with single blanks. -/
theorem parse_layout_tight : tight.text = "ADD R0+R2->R0" ∧
    (parse false tight.text).1 = (parse false (" ".intercalate tight.tokens)).1 := by
  have hline : InstructionLine tight.tokens := by
    refine ⟨[.lit "ADD", .reg, .lit "+", .reg, .lit "->", .reg], by decide, ?_⟩
    exact .cons rfl (.cons ⟨0, by decide⟩ (.cons rfl (.cons ⟨2, by decide⟩ (.cons rfl
      (.cons ⟨0, by decide⟩ .nil)))))
  have hset : tight.SetOff := by
    rw [Layout.SetOff]
    decide
  exact ⟨by decide +kernel, (parse_layout_iff tight hline).mpr hset⟩

/-- An assignment without blanks. -/
def unset : Layout where
  lead := []
  pieces := [("SET", [' ']), ("R0", []), ("=", []), ("5", [])]
  blank_lead := by decide
  blank := by decide
  separated := by decide

/-- `SET R0=5` is read as two words. -/
theorem not_parse_layout : ¬∀ l : Layout, InstructionLine l.tokens →
    (parse false l.text).1 = (parse false (" ".intercalate l.tokens)).1 := by
  intro hall
  have hline : InstructionLine unset.tokens := by
    refine ⟨[.lit "SET", .reg, .lit "=", .num], by decide, ?_⟩
    exact .cons rfl (.cons ⟨0, by decide⟩ (.cons rfl (.cons (show isNum "5" by decide) .nil)))
  have hne : (parse false unset.text).1 ≠ (parse false (" ".intercalate unset.tokens)).1 := by
    decide +kernel
  exact hne (hall unset hline)

end SystemsProjects.BareMetal
