import SystemsProjects.Shell.FrontEnd
import SystemsProjects.Shell.Lexer

/-!
# Words, Operators and Quoted Texts

What a line is written from, and what `split` makes of it. Between two items `split` knows
no more than what kind of character it has just seen. It decides rightly behind a blank, and
without one in most places; it takes a quote that begins the line for a character of a word,
it ends a token once more where an operator or a quote follows a quoted text, and it does not
know of `&&` and `!`.

## Main definitions

* `Item`: a word, an operator or a quoted text.
* `Before`: what stands before a character.
* `mingles`: the neighbours that `split` does not tell apart.

## Main results

* `Between.item`: an item is read as one token behind what it does not mingle with.
* `Between.astray`: behind what it does mingle with, it is not.
-/

namespace SystemsProjects.Shell

open Lexer

/-! ### What a line is written from -/

/-- A word, an operator or a quoted text. These are what a line is meant to be written from. -/
inductive Item
  | word (w : Str) (h : Arg w)
  | op (w : Str) (h : isOperator w = true)
  | quoted (q : Char) (t : Str) (hq : isQuote q = true)
      (ht : ∀ c ∈ t, c.toNat < 128 ∧ c ≠ nul ∧ c ≠ q)

namespace Item

/-- The item as it is written. -/
def written : Item → Str
  | word w _ => w
  | op w _ => w
  | quoted q t _ _ => q :: (t ++ [q])

/-- The token that is meant. -/
def text : Item → Str
  | word w _ => w
  | op w _ => w
  | quoted _ t _ _ => t

/-- The item as what it is meant to be: with its quote before it, a quoted text is no
operator. -/
def reading : Item → Str
  | word w _ => w
  | op w _ => w
  | quoted q t _ _ => q :: t

end Item

/-! ### What stands before a character -/

/-- What stands before a character: nothing, or a character of this kind. It decides what
`split` makes of an item. -/
inductive Before
  | start
  | blank
  | word
  | bar
  | quote
  deriving DecidableEq

namespace Before

/-- The character is of the kind. -/
def Is : Before → Char → Prop
  | start, c => c = nul
  | blank, c => isSpace c = true
  | word, c => isPlain c = true
  | bar, c => isOpChar c = true
  | quote, c => isQuote c = true

/-- The character is part of a token that is being read. -/
def inToken : Before → Bool
  | word => true
  | bar => true
  | _ => false

end Before

/-- The kind of character that the item begins and ends with. `&&` and `!` are words for
`split`. -/
def Item.kind : Item → Before
  | word _ _ => .word
  | op w _ => if w = ['&', '&'] ∨ w = ['!'] then .word else .bar
  | quoted _ _ _ _ => .quote

/-- What `split` does not tell apart without a blank: the item becomes part of the token before
it, or its quotes are not seen. -/
def mingles : Before → Before → Bool
  | .word, .word => true
  | .quote, .bar => true
  | .quote, .quote => true
  | .start, .quote => true
  | _, _ => false

/-- What `split` asks of a character. -/
theorem Before.Is.tests {b : Before} {c : Char} (h : b.Is c) :
    isQuote c = decide (b = .quote) ∧ isOpChar c = decide (b = .bar) ∧
      isSpace c = decide (b = .blank) ∧ decide (c = nul) = decide (b = .start) := by
  cases b with
  | start =>
      obtain rfl : c = nul := h
      decide
  | blank =>
      have hne : ∀ d, isSpace d = false → c ≠ d := by
        rintro d hd rfl
        exact absurd (h.symm.trans hd) (by decide)
      have hsp : isSpace c = true := h
      simp [isQuote, isOpChar, hsp, hne doubleQuote rfl, hne singleQuote rfl, hne '|' rfl,
        hne '<' rfl, hne '>' rfl, hne nul rfl]
  | word =>
      have hplain : isPlain c = true := h
      simp only [isPlain, Bool.and_eq_true, decide_eq_true_eq, Bool.not_eq_true'] at hplain
      obtain ⟨⟨⟨⟨-, hnul⟩, hsp⟩, hq⟩, hop⟩ := hplain
      simp [hnul, hsp, hq, hop]
  | bar =>
      have hop : isOpChar c = true := h
      simp only [isOpChar, Bool.or_eq_true, decide_eq_true_eq] at hop
      rcases hop with (rfl | rfl) | rfl <;> decide
  | quote =>
      have hq : isQuote c = true := h
      simp only [isQuote, Bool.or_eq_true, decide_eq_true_eq] at hq
      rcases hq with rfl | rfl <;> decide

/-! ### What `split` says -/

/-- Outside quotes. -/
def outside : Quotes := ⟨false, false⟩

/-- Behind an opening quote. -/
def opened (q : Char) : Quotes := ⟨q = doubleQuote, q = singleQuote⟩

variable {b k : Before} {c c1 c2 q : Char}

/-- Outside quotes, between two characters that are no quotes. -/
theorem mark_run (hc1 : isQuote c1 = false) (hc2 : isQuote c2 = false) :
    mark outside c1 c2 =
      (⟨!isGap c1 && (isSpace c2 || isOpChar c1 || isOpChar c2), !isSpace c2⟩, outside) := by
  rw [mark, split_run rfl rfl hc1 hc2]
  rfl

/-- Behind a closing quote. -/
theorem mark_behind_quote (hc1 : isQuote c1 = true) (hc2 : isQuote c2 = false) :
    mark outside c1 c2 = (⟨isOpChar c2, !isSpace c2⟩, outside) := by
  have hne : c2 ≠ doubleQuote ∧ c2 ≠ singleQuote := by
    simpa [isQuote] using hc2
  have hnul : c1 ≠ nul := by
    rintro rfl
    cases hc1
  have hbar : c1 ≠ '|' ∧ ¬ (c1 = '>' ∨ c1 = '<') ∧ isSpace c1 = false := by
    simp only [isQuote, Bool.or_eq_true, decide_eq_true_eq] at hc1
    rcases hc1 with rfl | rfl <;> decide
  obtain ⟨hbar, hredirect, hsp⟩ := hbar
  simp only [mark, split, outside, Quotes.state, if_neg hnul, Bool.false_eq_true, if_false,
    if_neg hne.1, if_neg hne.2, hsp, hbar, hredirect, hc1]
  by_cases h2 : c2 = '|'
  · subst h2
    rfl
  cases hsp2 : isSpace c2 with
  | true =>
      have hop : isOpChar c2 = false := (show Before.blank.Is c2 from hsp2).tests.2.1
      simp [h2, hop, State.quotes]
  | false =>
      by_cases hop : c2 = '>' ∨ c2 = '<'
      · rcases hop with rfl | rfl <;> rfl
      · have hop' : isOpChar c2 = false := by
          simp only [isOpChar, h2, decide_false, Bool.false_or, Bool.or_eq_false_iff,
            decide_eq_false_iff_not]
          exact ⟨fun h => hop (.inr h), fun h => hop (.inl h)⟩
        simp [h2, hop, hop', State.quotes]

/-- An opening quote. -/
theorem mark_open (hc1 : c1 ≠ nul) (hq : isQuote q = true) :
    mark outside c1 q = (⟨!isSpace c1, false⟩, opened q) := by
  simp only [isQuote, Bool.or_eq_true, decide_eq_true_eq] at hq
  rcases hq with rfl | rfl
  · simp only [mark, split, outside, Quotes.state, if_neg hc1, Bool.false_eq_true, if_false,
      if_true]
    rfl
  · have hne : singleQuote ≠ doubleQuote := by decide
    simp only [mark, split, outside, Quotes.state, if_neg hc1, Bool.false_eq_true, if_false,
      if_neg hne, if_true]
    rfl

/-- A quote that begins the line. -/
theorem mark_first (hq : isQuote q = true) :
    mark outside nul q = (⟨false, true⟩, outside) := by
  simp only [isQuote, Bool.or_eq_true, decide_eq_true_eq] at hq
  rcases hq with rfl | rfl <;> rfl

/-- Between quotes. -/
theorem mark_inside (hq : isQuote q = true) (hc1 : c1 ≠ nul) (hc2 : c2 ≠ q) :
    mark (opened q) c1 c2 = (⟨false, true⟩, opened q) := by
  simp only [isQuote, Bool.or_eq_true, decide_eq_true_eq] at hq
  rcases hq with rfl | rfl
  · simp only [mark, split, opened, Quotes.state, if_neg hc1, decide_true, if_true, if_neg hc2]
    rfl
  · have hne : singleQuote ≠ doubleQuote := by decide
    simp only [mark, split, opened, Quotes.state, if_neg hc1, decide_eq_true_eq, if_neg hne,
      decide_true, if_true, if_neg hc2]
    rfl

/-- A closing quote. -/
theorem mark_close (hq : isQuote q = true) (hc1 : c1 ≠ nul) :
    mark (opened q) c1 q = (⟨true, false⟩, outside) := by
  simp only [isQuote, Bool.or_eq_true, decide_eq_true_eq] at hq
  rcases hq with rfl | rfl
  · simp only [mark, split, opened, Quotes.state, if_neg hc1, decide_true, if_true]
    rfl
  · have hne : singleQuote ≠ doubleQuote := by decide
    simp only [mark, split, opened, Quotes.state, if_neg hc1, decide_eq_true_eq, if_neg hne,
      decide_true, if_true]
    rfl

/-- Between two characters that do not mingle, `split` ends the token that is being read. -/
theorem mark_apart (h1 : b.Is c1) (h2 : k.Is c2) (hk : k ≠ .start) (h : mingles b k = false) :
    mark outside c1 c2 =
      (⟨b.inToken, k.inToken⟩, if k = .quote then opened c2 else outside) := by
  obtain ⟨hq1, hop1, hsp1, hnul1⟩ := h1.tests
  obtain ⟨hq2, hop2, hsp2, -⟩ := h2.tests
  by_cases hkq : k = .quote
  · subst hkq
    have hnul : c1 ≠ nul := by
      rintro rfl
      have hb : b = .start := by simpa using hnul1.symm
      rw [hb] at h
      cases h
    rw [mark_open hnul h2, hsp1, if_pos rfl]
    cases b <;> first | rfl | cases h
  have hq2' : isQuote c2 = false := hq2.trans (decide_eq_false hkq)
  rw [if_neg hkq]
  by_cases hbq : b = .quote
  · subst hbq
    rw [mark_behind_quote h1 hq2', hop2, hsp2]
    cases k <;> first | rfl | contradiction
  · rw [mark_run (hq1.trans (decide_eq_false hbq)) hq2', isGap, hnul1, hsp1, hop1, hop2, hsp2]
    cases b <;> cases k <;> first | rfl | contradiction

/-! ### Between two items -/

/-- The lexer is outside quotes, behind a character of this kind. -/
structure Between (b : Before) (x : Lexer) : Prop where
  quotes : x.quotes = outside
  prev : b.Is x.prev
  inToken : b.inToken = decide (x.scan.2 ≠ [])

variable {x : Lexer}

/-- In a token, the tokens so far are the finished ones and that one. -/
theorem Between.tokens_of_inToken (h : Between b x) (hb : b.inToken = true) :
    x.scan.tokens = x.scan.1 ++ [x.scan.2] := by
  rw [h.inToken, decide_eq_true_eq] at hb
  exact if_neg hb

/-- Between tokens nothing is being read, and all tokens so far are finished. -/
theorem Between.tokens_of_not_inToken (h : Between b x) (hb : b.inToken = false) :
    x.scan.2 = [] ∧ x.scan.tokens = x.scan.1 := by
  have hnil : x.scan.2 = [] := by
    rw [h.inToken] at hb
    simpa using hb
  exact ⟨hnil, if_pos hnil⟩

/-- A character that does not mingle with what is before it begins something new. -/
theorem Between.step (h : Between b x) (hc : k.Is c) (hk : k ≠ .start)
    (hmingles : mingles b k = false) :
    (x.step c).quotes = (if k = .quote then opened c else outside) ∧
      (x.step c).scan = (x.scan.tokens, if k.inToken then [c] else []) := by
  have hmark : mark x.quotes x.prev c =
      (⟨b.inToken, k.inToken⟩, if k = .quote then opened c else outside) := by
    rw [h.quotes, mark_apart h.prev hc hk hmingles]
  rw [step_eq hmark]
  refine ⟨rfl, ?_⟩
  cases hb : b.inToken with
  | true =>
      rw [h.tokens_of_inToken hb]
      cases k.inToken <;> rfl
  | false =>
      obtain ⟨hnil, htokens⟩ := h.tokens_of_not_inToken hb
      rw [htokens]
      cases k.inToken with
      | true => simp [Scan.next, hnil]
      | false => simp [Scan.next, Prod.ext_iff, hnil]

/-- The same for a character that is no quote. -/
theorem Between.begin (h : Between b x) (hc : k.Is c) (hk : k ≠ .start) (hkq : k ≠ .quote)
    (hmingles : mingles b k = false) :
    Between k (x.step c) ∧ (x.step c).scan = (x.scan.tokens, if k.inToken then [c] else []) := by
  obtain ⟨hquotes, hscan⟩ := h.step hc hk hmingles
  rw [if_neg hkq] at hquotes
  refine ⟨⟨hquotes, hc, ?_⟩, hscan⟩
  rw [hscan]
  cases k.inToken <;> rfl

/-- Blanks end the token that is being read. -/
theorem Between.blanks {g : Str} (h : Between b x) (hg : Blank g) :
    Between (if g = [] then b else .blank) (x.run g) ∧ (x.run g).scan.tokens = x.scan.tokens := by
  induction g generalizing b x with
  | nil => exact ⟨h, rfl⟩
  | cons c g ih =>
      have hc : Before.blank.Is c := (hg c List.mem_cons_self).1
      have hmingles : mingles b .blank = false := by
        cases b <;> rfl
      obtain ⟨hstep, hscan⟩ := h.begin hc nofun nofun hmingles
      obtain ⟨hrun, htokens⟩ := ih hstep fun d hd => hg d (List.mem_cons_of_mem c hd)
      rw [if_neg (List.cons_ne_nil c g), run_cons]
      constructor
      · rwa [ite_self] at hrun
      · rw [htokens, hscan]
        rfl

/-- A character of a word goes on with the word before it. -/
theorem Between.goOn (h : Between .word x) (hc : isPlain c = true) :
    Between .word (x.step c) ∧ (x.step c).scan = (x.scan.1, x.scan.2 ++ [c]) := by
  obtain ⟨hq1, hop1, -, -⟩ := h.prev.tests
  obtain ⟨hq2, hop2, hsp2, -⟩ := (show Before.word.Is c from hc).tests
  have hmark : mark x.quotes x.prev c = (⟨false, true⟩, outside) := by
    rw [h.quotes, mark_run hq1 hq2, hop1, hop2, hsp2]
    simp
  rw [step_eq hmark]
  refine ⟨⟨rfl, hc, ?_⟩, rfl⟩
  simp [Scan.next, Before.inToken]

/-- The characters of a word are added to the token that is being read. -/
theorem Between.goOn_run {w : Str} (h : Between .word x) (hw : ∀ c ∈ w, isPlain c = true) :
    Between .word (x.run w) ∧ (x.run w).scan = (x.scan.1, x.scan.2 ++ w) := by
  induction w generalizing x with
  | nil => exact ⟨h, by simp⟩
  | cons c w ih =>
      obtain ⟨hstep, hscan⟩ := h.goOn (hw c List.mem_cons_self)
      obtain ⟨hrun, hscan'⟩ := ih hstep fun d hd => hw d (List.mem_cons_of_mem c hd)
      rw [run_cons, hscan', hscan, List.append_assoc, List.singleton_append]
      exact ⟨hrun, rfl⟩

/-- A word is read as one token. -/
theorem Between.plain {w : Str} (h : Between b x) (hw : Word w)
    (hmingles : mingles b .word = false) :
    Between .word (x.run w) ∧ (x.run w).scan = (x.scan.tokens, w) := by
  obtain ⟨hne, hplain⟩ := hw
  cases w with
  | nil => exact absurd rfl hne
  | cons c w =>
      have hc : Before.word.Is c := hplain c List.mem_cons_self
      obtain ⟨hstep, hscan⟩ := h.begin hc nofun nofun hmingles
      obtain ⟨hrun, hscan'⟩ := hstep.goOn_run fun d hd => hplain d (List.mem_cons_of_mem c hd)
      rw [run_cons, hscan', hscan]
      exact ⟨hrun, rfl⟩

/-- What is between quotes goes on with the token. -/
theorem run_inside {t : Str} (hq : isQuote q = true) (hquotes : x.quotes = opened q)
    (hprev : x.prev ≠ nul) (ht : ∀ c ∈ t, c ≠ nul ∧ c ≠ q) :
    (x.run t).quotes = opened q ∧ (x.run t).prev ≠ nul ∧
      (x.run t).scan = (x.scan.1, x.scan.2 ++ t) := by
  induction t generalizing x with
  | nil => exact ⟨hquotes, hprev, by simp⟩
  | cons c t ih =>
      obtain ⟨hnul, hne⟩ := ht c List.mem_cons_self
      have hmark : mark x.quotes x.prev c = (⟨false, true⟩, opened q) := by
        rw [hquotes, mark_inside hq hprev hne]
      obtain ⟨hquotes', hprev', hscan⟩ :=
        ih (x := ⟨opened q, c, x.scan.next ⟨false, true⟩ c⟩) rfl hnul
          fun d hd => ht d (List.mem_cons_of_mem c hd)
      rw [run_cons, step_eq hmark, hscan]
      exact ⟨hquotes', hprev', by simp [Scan.next]⟩

/-- A quoted text is read as one token. -/
theorem Between.quoted {t : Str} (h : Between b x) (hq : isQuote q = true)
    (ht : ∀ c ∈ t, c ≠ nul ∧ c ≠ q) (hmingles : mingles b .quote = false) :
    Between .quote (x.run (q :: (t ++ [q]))) ∧
      (x.run (q :: (t ++ [q]))).scan = (x.scan.tokens ++ [t], []) := by
  have hqnul : q ≠ nul := by
    rintro rfl
    cases hq
  obtain ⟨hquotes, hscan⟩ := h.step (k := .quote) hq nofun hmingles
  rw [if_pos rfl] at hquotes
  obtain ⟨hquotes', hprev', hscan'⟩ := run_inside hq hquotes hqnul ht
  rw [hscan] at hscan'
  rw [run_cons, run_append, run_cons, run_nil]
  generalize (x.step q).run t = y at hquotes' hprev' hscan'
  have hmark : mark y.quotes y.prev q = (⟨true, false⟩, outside) := by
    rw [hquotes', mark_close hq hprev']
  rw [step_eq hmark, hscan']
  exact ⟨⟨rfl, hq, rfl⟩, rfl⟩

/-- The operators that `split` knows of, and those that are words for it. -/
theorem op_cases {w : Str} (h : isOperator w = true) :
    Word w ∧ (w = ['&', '&'] ∨ w = ['!']) ∨ ∃ c, w = [c] ∧ isOpChar c = true := by
  simp only [isOperator, Bool.or_eq_true, decide_eq_true_eq] at h
  rcases h with (((rfl | rfl) | rfl) | rfl) | rfl
  · exact .inr ⟨'|', rfl, rfl⟩
  · exact .inr ⟨'<', rfl, rfl⟩
  · exact .inr ⟨'>', rfl, rfl⟩
  · exact .inl ⟨by decide, .inl rfl⟩
  · exact .inl ⟨by decide, .inr rfl⟩

/-- How an item is read: as a word, as an operator of one character, or as a quoted text. -/
theorem Item.cases (it : Item) :
    it.kind = .word ∧ it.written = it.text ∧ Word it.text ∨
      (∃ c, it.kind = .bar ∧ it.written = [c] ∧ it.text = [c] ∧ isOpChar c = true) ∨
      ∃ q, it.kind = .quote ∧ it.written = q :: (it.text ++ [q]) ∧ isQuote q = true ∧
        ∀ c ∈ it.text, c ≠ nul ∧ c ≠ q := by
  cases it with
  | word w h => exact .inl ⟨rfl, rfl, h.1⟩
  | op w h =>
      rcases op_cases h with ⟨hw, hword⟩ | ⟨c, rfl, hc⟩
      · exact .inl ⟨if_pos hword, rfl, hw⟩
      · refine .inr (.inl ⟨c, if_neg ?_, rfl, rfl, hc⟩)
        rintro (hand | hnot)
        · cases hand
        · cases hnot
          cases hc
  | quoted q t hq ht => exact .inr (.inr ⟨q, rfl, rfl, hq, fun c hc => (ht c hc).2⟩)

/-- Behind what it does not mingle with, an item is read as one token. -/
theorem Between.item (h : Between b x) (it : Item) (hmingles : mingles b it.kind = false) :
    Between it.kind (x.run it.written) ∧
      (x.run it.written).scan.tokens = x.scan.tokens ++ [it.text] := by
  rcases it.cases with ⟨hkind, hwritten, hword⟩ | ⟨c, hkind, hwritten, htext, hc⟩ |
    ⟨q, hkind, hwritten, hq, ht⟩
  · rw [hkind] at hmingles
    obtain ⟨hrun, hscan⟩ := h.plain hword hmingles
    rw [hkind, hwritten, hscan]
    exact ⟨hrun, if_neg hword.1⟩
  · rw [hkind] at hmingles
    obtain ⟨hstep, hscan⟩ := h.begin (k := .bar) hc nofun nofun hmingles
    rw [hkind, hwritten, htext, run_cons, run_nil, hscan]
    exact ⟨hstep, if_neg (List.cons_ne_nil c [])⟩
  · rw [hkind] at hmingles
    obtain ⟨hrun, hscan⟩ := h.quoted hq ht hmingles
    rw [hkind, hwritten, hscan]
    exact ⟨hrun, if_pos rfl⟩

/-- Behind what it mingles with, an item is not read as one token, two quoted texts apart:
its first character is already too much. -/
theorem Between.astray (h : Between b x) (it : Item) (hmingles : mingles b it.kind = true)
    (hb : b ≠ .quote ∨ it.kind ≠ .quote) :
    ∃ c rest, it.written = c :: rest ∧
      ∀ more, ¬ (x.step c).scan.Begins (x.scan.tokens ++ it.text :: more) := by
  rcases it.cases with ⟨hkind, hwritten, hne, hplain⟩ | ⟨c, hkind, hwritten, htext, hc⟩ |
    ⟨q, hkind, hwritten, hq, ht⟩
  · -- a word behind a word goes on with it
    obtain rfl : b = .word := by
      rw [hkind] at hmingles
      cases b <;> first | rfl | cases hmingles
    cases ht : it.text with
    | nil => exact absurd ht hne
    | cons c rest =>
        rw [ht] at hwritten hplain
        refine ⟨c, rest, hwritten, fun more hbegins => ?_⟩
        rw [(h.goOn (hplain c List.mem_cons_self)).2, h.tokens_of_inToken rfl] at hbegins
        rcases hbegins with ⟨hnil, -⟩ | ⟨u, more', heq⟩
        · simp at hnil
        · rw [List.append_assoc, List.append_cancel_left_eq] at heq
          simp at heq
  · -- an operator behind a quoted text ends the token once more
    obtain rfl : b = .quote := by
      rw [hkind] at hmingles
      cases b <;> first | rfl | cases hmingles
    obtain ⟨-, hop, hsp, -⟩ := (show Before.bar.Is c from hc).tests
    obtain ⟨hnil, htokens⟩ := h.tokens_of_not_inToken rfl
    have hq : isQuote c = false := (show Before.bar.Is c from hc).tests.1
    have hmark : mark x.quotes x.prev c = (⟨true, true⟩, outside) := by
      rw [h.quotes, mark_behind_quote h.prev hq, hop, hsp]
      rfl
    refine ⟨c, [], hwritten, fun more hbegins => ?_⟩
    rw [step_eq hmark, htokens, htext] at hbegins
    simp only [Scan.next, hnil, if_true, List.nil_append] at hbegins
    rcases hbegins with ⟨hnil, -⟩ | ⟨u, more', heq⟩
    · cases hnil
    · rw [List.append_assoc, List.append_cancel_left_eq] at heq
      simp at heq
  · -- a quote that begins the line is a character of a word
    obtain rfl : b = .start := by
      rw [hkind] at hmingles hb
      cases b <;> first | rfl | exact absurd rfl (hb.elim id id) | cases hmingles
    obtain ⟨hnil, htokens⟩ := h.tokens_of_not_inToken rfl
    have hprev : x.prev = nul := h.prev
    have hmark : mark x.quotes x.prev q = (⟨false, true⟩, outside) := by
      rw [h.quotes, hprev, mark_first hq]
    refine ⟨q, _, hwritten, fun more hbegins => ?_⟩
    rw [step_eq hmark, htokens] at hbegins
    simp only [Scan.next, hnil, if_true, Bool.false_eq_true, if_false, List.nil_append] at hbegins
    rcases hbegins with ⟨hnil, -⟩ | ⟨u, more', heq⟩
    · cases hnil
    · rw [List.append_cancel_left_eq] at heq
      have htext := (List.cons_eq_cons.mp heq).1
      exact (ht q (by simp [htext])).2 rfl

end SystemsProjects.Shell
