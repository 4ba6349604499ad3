import SystemsProjects.BareMetal.Script

/-!
# Lines With Blanks

How the tokenizer of `asm.py` takes a line apart that is written as a list of tokens with
blanks between them. Outside quotes `split_at` only looks at two neighbouring characters: a
token is solid if it is not split between any two of its own, and two tokens need no blank
between them where the line is split between the last character of the first one and the
first character of the second.

## Main definitions

* `Solid`: a token that is not split.
* `Spaced`: a text that is a list of tokens, with blanks between them where they need some.

## Main results

* `Spaced.parse_eq`: the tokens of such a line.
* `parse_quoted`: the tokens of a word and a string in quotes.
-/

namespace SystemsProjects.BareMetal

/-- The line is not split between these characters, and the second one is kept. -/
def Joined (c1 c2 : Char) : Prop := splitAt false (some c1) c2 = (false, true, false)

/-- The line is split between these characters, and the second one is kept. -/
def Parted (c1 c2 : Char) : Prop := splitAt false (some c1) c2 = (true, true, false)

/-- Whether two characters stay together can be computed, by `split_at` itself. -/
instance (c1 c2 : Char) : Decidable (Joined c1 c2) := inferInstanceAs (Decidable (_ = _))

/-- Whether the line is split between two characters can be computed as well. -/
instance (c1 c2 : Char) : Decidable (Parted c1 c2) := inferInstanceAs (Decidable (_ = _))

/-- The characters of tokens. -/
def Plain (c : Char) : Prop := isSpace c = false ∧ c ≠ '"' ∧ c ≠ '#'

/-- Whether a character is one of tokens can be computed. -/
instance (c : Char) : Decidable (Plain c) := inferInstanceAs (Decidable (_ ∧ _))

/-- A token that is not split: it is not empty, has no blank, no quote and no comment character,
and runs together throughout. -/
structure Solid (w : List Char) : Prop where
  ne_nil : w ≠ []
  joined : w.IsChain Joined
  plain : ∀ c ∈ w, Plain c

/-- Whether a text is one token can be computed. -/
instance (w : List Char) : Decidable (Solid w) :=
  have : Decidable (∀ c ∈ w, Plain c) := List.decidableBAll Plain w
  decidable_of_iff (w ≠ [] ∧ w.IsChain Joined ∧ ∀ c ∈ w, Plain c)
    ⟨fun h => ⟨h.1, h.2.1, h.2.2⟩, fun h => ⟨h.ne_nil, h.joined, h.plain⟩⟩

/-- The blanks between tokens. -/
def Blank (gap : List Char) : Prop := ∀ c ∈ gap, isSpace c = true

/-- Whether a text is blank can be computed. -/
instance (gap : List Char) : Decidable (Blank gap) :=
  List.decidableBAll (isSpace · = true) gap

/-- The text is the list of tokens, with blanks between them where they need some. Two tokens
need one where the line is not split between them. -/
inductive Spaced : List (List Char) → List Char → Prop
  | last {w : List Char} (hw : Solid w) : Spaced [w] w
  | blank {w gap text : List Char} {ws : List (List Char)} (hw : Solid w) (hgap : Blank gap)
      (hne : gap ≠ []) (h : Spaced ws text) : Spaced (w :: ws) (w ++ (gap ++ text))
  | tight {w text : List Char} {ws : List (List Char)} (hw : Solid w)
      (hparted : ∀ c1 ∈ w.getLast?, ∀ c2 ∈ text.head?, Parted c1 c2) (h : Spaced ws text) :
      Spaced (w :: ws) (w ++ text)

/-! ### The loop -/

/-- The words, with the one that has been read so far behind them. -/
def recorded (word : List Char) (words : List String) : List String :=
  if word ≠ [] then words ++ [String.ofList word] else words

/-- Without a word there is nothing to record. -/
theorem recorded_nil (words : List String) : recorded [] words = words := rfl

/-- A word is recorded behind the others. -/
theorem recorded_of_ne_nil {word : List Char} (h : word ≠ []) (words : List String) :
    recorded word words = words ++ [String.ofList word] :=
  if_pos h

section Loop

variable {c : Char} {c0 : Option Char} {word line : List Char} {words : List String}

/-- The first character of a token. -/
theorem parseLoop_enter {split : Bool} (h : splitAt false c0 c = (split, true, false))
    (hword : split = false → word = []) :
    parseLoop (c :: line) c0 false word words =
      parseLoop line (some c) false [c] (recorded word words) := by
  rw [parseLoop, h]
  cases split with
  | true => by_cases hw : word = [] <;> simp [recorded, hw]
  | false =>
      obtain rfl := hword rfl
      rfl

/-- The blank behind a token. -/
theorem parseLoop_leave (h : splitAt false c0 c = (true, false, false)) :
    parseLoop (c :: line) c0 false word words =
      parseLoop line (some c) false [] (recorded word words) := by
  rw [parseLoop, h]
  by_cases hw : word = [] <;> simp [recorded, hw]

end Loop

/-- The rest of a solid token. -/
theorem parseLoop_joined {c : Char} {cs : List Char} (h : (c :: cs).IsChain Joined)
    (rest word : List Char) (words : List String) :
    parseLoop (cs ++ rest) (some c) false word words =
      parseLoop rest ((c :: cs).getLast?) false (word ++ cs) words := by
  induction cs generalizing c word with
  | nil => rw [List.nil_append, List.append_nil, List.getLast?_singleton]
  | cons d cs ih =>
      rw [List.isChain_cons_cons] at h
      have hjoined : splitAt false (some c) d = (false, true, false) := h.1
      rw [List.cons_append, parseLoop, hjoined, List.getLast?_cons_cons]
      simpa using ih h.2 (word ++ [d])

/-- A blank behind a token. -/
theorem splitAt_blank {c1 c2 : Char} (h1 : isSpace c1 = false) (h2 : isSpace c2 = true) :
    splitAt false (some c1) c2 = (true, false, false) := by
  have hquote : c2 ≠ '"' := by
    rintro rfl
    exact absurd h2 (by decide)
  simp [splitAt, hquote, h1, h2]

/-- Between two blanks the line is not split, and neither is kept. -/
theorem splitAt_blanks {c1 c2 : Char} (h1 : isSpace c1 = true) (h2 : isSpace c2 = true) :
    splitAt false (some c1) c2 = (false, false, false) := by
  have hquote : c2 ≠ '"' := by
    rintro rfl
    exact absurd h2 (by decide)
  simp [splitAt, hquote, h1, h2]

/-- The first character of a token, behind a blank. -/
theorem splitAt_plain {c1 c2 : Char} (h1 : isSpace c1 = true) (h2 : Plain c2) :
    ∃ split, splitAt false (some c1) c2 = (split, true, false) := by
  have hne (c : Char) (h : isSpace c = false) : c1 ≠ c := by
    rintro rfl
    rw [h] at h1
    cases h1
  have hsingle : c1 ∉ ['+', '^', '|', '&', ',', '*', ':'] := by
    intro hmem
    have hall : ∀ c ∈ ['+', '^', '|', '&', ',', '*', ':'], isSpace c = false := by
      simp only [List.forall_mem_cons, List.not_mem_nil, false_imp_iff, implies_true, and_true]
      decide
    exact hne c1 (hall c1 hmem) rfl
  have hminus := hne '-' (by decide)
  have hless := hne '<' (by decide)
  have hgreater := hne '>' (by decide)
  simp only [splitAt, h2.1, h2.2.1, hsingle, hminus, hless, hgreater, Bool.false_eq_true,
    if_false, false_and]
  split_ifs <;> exact ⟨_, rfl⟩

/-- The loop passes the blanks with the words that it has, and remembers one of the blanks as the
character before. -/
theorem parseLoop_blanks {gap : List Char} (h : Blank gap) {c : Char} (hc : isSpace c = true)
    (rest : List Char) (words : List String) :
    ∃ c', isSpace c' = true ∧ parseLoop (gap ++ rest) (some c) false [] words =
      parseLoop rest (some c') false [] words := by
  induction gap generalizing c with
  | nil => exact ⟨c, hc, rfl⟩
  | cons d gap ih =>
      have hd := h d List.mem_cons_self
      obtain ⟨c', hc', hrun⟩ := ih (fun e he => h e (List.mem_cons_of_mem d he)) hd
      refine ⟨c', hc', ?_⟩
      rw [List.cons_append, parseLoop, splitAt_blanks hc hd]
      exact hrun

/-- The text begins with the first character of its first token. -/
theorem Spaced.exists_cons {ws : List (List Char)} {text : List Char} (h : Spaced ws text) :
    ∃ c rest, text = c :: rest ∧ Plain c := by
  have hsolid {w : List Char} (hw : Solid w) : ∃ c rest, w = c :: rest ∧ Plain c := by
    obtain ⟨c, rest, rfl⟩ := List.exists_cons_of_ne_nil hw.ne_nil
    exact ⟨c, rest, rfl, hw.plain c List.mem_cons_self⟩
  cases h with
  | last hw => exact hsolid hw
  | blank hw _ _ _ =>
      obtain ⟨c, rest, rfl, hc⟩ := hsolid hw
      exact ⟨c, _, rfl, hc⟩
  | tight hw _ _ =>
      obtain ⟨c, rest, rfl, hc⟩ := hsolid hw
      exact ⟨c, _, rfl, hc⟩

/-- A solid token, entered at its first character. -/
theorem parseLoop_solid {w : List Char} (hw : Solid w) {c0 : Option Char} {word : List Char}
    {split : Bool} (henter : ∀ c ∈ w.head?, splitAt false c0 c = (split, true, false))
    (hword : split = false → word = []) (rest : List Char) (words : List String) :
    parseLoop (w ++ rest) c0 false word words =
      parseLoop rest w.getLast? false w (recorded word words) := by
  obtain ⟨c, cs, rfl⟩ := List.exists_cons_of_ne_nil hw.ne_nil
  rw [List.cons_append, parseLoop_enter (henter c rfl) hword]
  exact parseLoop_joined hw.joined rest [c] _

/-- The last character of a token. -/
theorem Solid.exists_last {w : List Char} (hw : Solid w) :
    ∃ c, w.getLast? = some c ∧ isSpace c = false := by
  obtain ⟨c, hc⟩ := Option.isSome_iff_exists.mp (List.getLast?_isSome.mpr hw.ne_nil)
  exact ⟨c, hc, (hw.plain c (List.mem_of_getLast? hc)).1⟩

/-- The tokens of a text, entered at its first character. -/
theorem Spaced.parseLoop_eq {ws : List (List Char)} {text : List Char} (h : Spaced ws text)
    {c0 : Option Char} {word : List Char} {split : Bool}
    (henter : ∀ c ∈ text.head?, splitAt false c0 c = (split, true, false))
    (hword : split = false → word = []) (words : List String) :
    parseLoop (text ++ [' ']) c0 false word words =
      (recorded word words ++ ws.map String.ofList, false) := by
  induction h generalizing c0 word split words with
  | last hw =>
      obtain ⟨l, hl, hspace⟩ := hw.exists_last
      rw [parseLoop_solid hw henter hword, hl,
        parseLoop_leave (splitAt_blank hspace (by decide)), recorded_of_ne_nil hw.ne_nil]
      rfl
  | @blank w gap text ws hw hgap hne h ih =>
      obtain ⟨l, hl, hspace⟩ := hw.exists_last
      obtain ⟨g, gap, rfl⟩ := List.exists_cons_of_ne_nil hne
      obtain ⟨hg, hgap⟩ := List.forall_mem_cons.mp hgap
      obtain ⟨c, rest, htext, hc⟩ := h.exists_cons
      obtain ⟨c', hc', hblanks⟩ := parseLoop_blanks hgap hg (text ++ [' '])
        (recorded word words ++ [String.ofList w])
      obtain ⟨split', hsplit⟩ := splitAt_plain hc' hc
      have henter' : ∀ d ∈ text.head?, splitAt false (some c') d = (split', true, false) := by
        rw [htext]
        rintro d ⟨⟩
        exact hsplit
      rw [List.head?_append_of_ne_nil _ hw.ne_nil] at henter
      rw [List.append_assoc, List.append_assoc, parseLoop_solid hw henter hword, hl,
        List.cons_append, parseLoop_leave (splitAt_blank hspace hg), recorded_of_ne_nil hw.ne_nil,
        hblanks, ih henter' fun _ => rfl, recorded_nil, List.append_assoc]
      rfl
  | @tight w text ws hw hparted h ih =>
      obtain ⟨l, hl, hspace⟩ := hw.exists_last
      rw [List.head?_append_of_ne_nil _ hw.ne_nil] at henter
      rw [List.append_assoc, parseLoop_solid hw henter hword, hl,
        ih (fun d hd => hparted l hl d hd) nofun, recorded_of_ne_nil hw.ne_nil, List.append_assoc]
      rfl

/-- The text ends with the last character of its last token. -/
theorem Spaced.exists_concat {ws : List (List Char)} {text : List Char} (h : Spaced ws text) :
    ∃ init c, text = init ++ [c] ∧ isSpace c = false := by
  induction h with
  | @last w hw =>
      obtain ⟨l, hl, hspace⟩ := hw.exists_last
      exact ⟨w.dropLast, l, (List.dropLast_append_getLast? l hl).symm, hspace⟩
  | @blank w gap _ _ _ _ _ _ ih =>
      obtain ⟨init, c, rfl, hc⟩ := ih
      exact ⟨w ++ (gap ++ init), c, by simp, hc⟩
  | @tight w _ _ _ _ _ ih =>
      obtain ⟨init, c, rfl, hc⟩ := ih
      exact ⟨w ++ init, c, by simp, hc⟩

/-- A blank is no comment character. -/
theorem Blank.ne_hash {gap : List Char} (h : Blank gap) : ∀ c ∈ gap, c ≠ '#' := by
  rintro c hc rfl
  exact absurd (h _ hc) (by decide)

/-- There is no comment in the text. -/
theorem Spaced.ne_hash {ws : List (List Char)} {text : List Char} (h : Spaced ws text) :
    ∀ c ∈ text, c ≠ '#' := by
  induction h with
  | last hw => exact fun c hc => (hw.plain c hc).2.2
  | blank hw hgap _ _ ih =>
      intro c hc
      rcases List.mem_append.mp hc with hc | hc
      · exact (hw.plain c hc).2.2
      · rcases List.mem_append.mp hc with hc | hc
        · exact hgap.ne_hash c hc
        · exact ih c hc
  | tight hw _ _ ih =>
      intro c hc
      rcases List.mem_append.mp hc with hc | hc
      · exact (hw.plain c hc).2.2
      · exact ih c hc

/-- Without the blanks around it. -/
theorem strip_eq {text lead trail : List Char} (hlead : Blank lead) (htrail : Blank trail)
    (hfirst : ∃ c rest, text = c :: rest ∧ isSpace c = false)
    (hlast : ∃ init c, text = init ++ [c] ∧ isSpace c = false) :
    ((lead ++ (text ++ trail)).rdropWhile isSpace).dropWhile isSpace = text := by
  obtain ⟨init, l, hl, hlspace⟩ := hlast
  obtain ⟨c, rest, hc, hcspace⟩ := hfirst
  have hright : (lead ++ (text ++ trail)).rdropWhile isSpace = lead ++ text := by
    have htrail' : ∀ c ∈ trail.reverse, isSpace c = true :=
      fun c hc => htrail c (List.mem_reverse.mp hc)
    rw [← List.append_assoc, List.rdropWhile, List.reverse_append,
      List.dropWhile_append_of_pos htrail', ← List.rdropWhile, hl, ← List.append_assoc,
      List.rdropWhile_concat_neg _ _ _ (by simp [hlspace])]
  rw [hright, List.dropWhile_append_of_pos hlead, hc,
    List.dropWhile_cons_of_neg (by simp [hcspace])]

/-- The loop runs over the line without the blanks around it. -/
theorem parse_eq {text lead trail : List Char} (hlead : Blank lead) (htrail : Blank trail)
    (hfirst : ∃ c rest, text = c :: rest ∧ isSpace c = false)
    (hlast : ∃ init c, text = init ++ [c] ∧ isSpace c = false)
    (hhash : ∀ c ∈ text, c ≠ '#') {line : String}
    (hline : line.toList = lead ++ (text ++ trail)) :
    parse false line = parseLoop (text ++ [' ']) none false [] [] := by
  have hall : ∀ c ∈ lead ++ (text ++ trail), decide (c ≠ '#') = true := by
    intro c hc
    rw [decide_eq_true_eq]
    rcases List.mem_append.mp hc with hc | hc
    · exact hlead.ne_hash c hc
    · rcases List.mem_append.mp hc with hc | hc
      · exact hhash c hc
      · exact htrail.ne_hash c hc
  rw [parse, hline, List.takeWhile_eq_self_iff.mpr hall]
  simp only [strip_eq hlead htrail hfirst hlast]

/-- The tokens of a line, with blanks around it. -/
theorem Spaced.parse_eq {ws : List (List Char)} {text lead trail : List Char} (h : Spaced ws text)
    (hlead : Blank lead) (htrail : Blank trail) {line : String}
    (hline : line.toList = lead ++ (text ++ trail)) :
    parse false line = (ws.map String.ofList, false) := by
  obtain ⟨c, rest, hc, hplain⟩ := h.exists_cons
  rw [BareMetal.parse_eq hlead htrail ⟨c, rest, hc, hplain.1⟩ h.exists_concat h.ne_hash hline]
  exact (h.parseLoop_eq (fun c _ => rfl) (fun _ => rfl) []).trans rfl

/-! ### Quotes -/

/-- The characters of a string. -/
def Quotable (c : Char) : Prop := c ≠ '"' ∧ c ≠ '#'

/-- Between quotes every character is kept. -/
theorem parseLoop_inQuote {s : List Char} (hs : ∀ c ∈ s, Quotable c) (c : Char)
    (rest word : List Char) (words : List String) :
    ∃ c', parseLoop (s ++ rest) (some c) true word words =
      parseLoop rest (some c') true (word ++ s) words := by
  induction s generalizing c word with
  | nil => exact ⟨c, by rw [List.nil_append, List.append_nil]⟩
  | cons d s ih =>
      obtain ⟨hd, hs⟩ := List.forall_mem_cons.mp hs
      obtain ⟨c', hrun⟩ := ih hs d (word ++ [d])
      have hkeep : splitAt true (some c) d = (false, true, true) := by simp [splitAt, hd.1]
      refine ⟨c', ?_⟩
      rw [List.cons_append, parseLoop, hkeep]
      simpa using hrun

/-- A word and an opening quote: the text behind them is read in quotes. -/
theorem parseLoop_openQuote {w gap : List Char} (hw : Solid w) (hgap : Blank gap)
    (hne : gap ≠ []) (rest : List Char) :
    parseLoop (w ++ (gap ++ ('"' :: rest))) none false [] [] =
      parseLoop rest (some '"') true [] [String.ofList w] := by
  obtain ⟨l, hl, hlspace⟩ := hw.exists_last
  obtain ⟨g, gap, rfl⟩ := List.exists_cons_of_ne_nil hne
  obtain ⟨hg, hgap'⟩ := List.forall_mem_cons.mp hgap
  obtain ⟨c, hc, hblanks⟩ := parseLoop_blanks hgap' hg ('"' :: rest) [String.ofList w]
  have hopen : splitAt false (some c) '"' = (false, false, true) := rfl
  rw [parseLoop_solid hw (fun c _ => rfl) (fun _ => rfl), hl, List.cons_append,
    parseLoop_leave (splitAt_blank hlspace hg), recorded_nil, recorded_of_ne_nil hw.ne_nil,
    List.nil_append, hblanks, parseLoop, hopen]
  simp only [Bool.false_eq_true, false_and, if_false]

/-- The tokens of a line with a word and a string in quotes. An empty string is none. -/
theorem parse_quotes {w gap s lead trail : List Char} (hw : Solid w) (hgap : Blank gap)
    (hne : gap ≠ []) (hs : ∀ c ∈ s, Quotable c) (hlead : Blank lead)
    (htrail : Blank trail) {line : String}
    (hline : line.toList = lead ++ ((w ++ (gap ++ ('"' :: (s ++ ['"'])))) ++ trail)) :
    parse false line = (recorded s [String.ofList w], false) := by
  have hfirst : ∃ c rest, w ++ (gap ++ ('"' :: (s ++ ['"']))) = c :: rest ∧
      isSpace c = false := by
    obtain ⟨c, cs, rfl⟩ := List.exists_cons_of_ne_nil hw.ne_nil
    exact ⟨c, _, rfl, (hw.plain c List.mem_cons_self).1⟩
  have hlast : ∃ init c, w ++ (gap ++ ('"' :: (s ++ ['"']))) = init ++ [c] ∧
      isSpace c = false :=
    ⟨w ++ (gap ++ ('"' :: s)), '"', by simp, by decide⟩
  have hhash : ∀ c ∈ w ++ (gap ++ ('"' :: (s ++ ['"']))), c ≠ '#' := by
    intro c hc
    simp only [List.mem_append, List.mem_cons, List.not_mem_nil, or_false] at hc
    rcases hc with hc | hc | rfl | hc | rfl
    · exact (hw.plain c hc).2.2
    · exact hgap.ne_hash c hc
    · decide
    · exact (hs c hc).2
    · decide
  obtain ⟨c', hin⟩ := parseLoop_inQuote hs '"' ['"', ' '] [] [String.ofList w]
  have hclose : splitAt true (some c') '"' = (false, false, false) := rfl
  have hend : splitAt false (some '"') ' ' = (true, false, false) := rfl
  rw [BareMetal.parse_eq hlead htrail hfirst hlast hhash hline]
  simp only [List.append_assoc, List.cons_append, List.nil_append] at hin ⊢
  rw [parseLoop_openQuote hw hgap hne, hin, parseLoop, hclose]
  simp only [Bool.false_eq_true, false_and, if_false]
  rw [parseLoop_leave hend]
  rfl

/-- The tokens of a line with a word and a string in quotes that is not empty. -/
theorem parse_quoted {w gap s lead trail : List Char} (hw : Solid w) (hgap : Blank gap)
    (hne : gap ≠ []) (hs : ∀ c ∈ s, Quotable c) (hsne : s ≠ []) (hlead : Blank lead)
    (htrail : Blank trail) {line : String}
    (hline : line.toList = lead ++ ((w ++ (gap ++ ('"' :: (s ++ ['"'])))) ++ trail)) :
    parse false line = ([String.ofList w, String.ofList s], false) := by
  rw [parse_quotes hw hgap hne hs hlead htrail hline, recorded_of_ne_nil hsne]
  rfl

/-- Some characters behind one that is no blank, without the blanks at their end. -/
theorem exists_trail {c : Char} (hc : isSpace c = false) (s : List Char) :
    ∃ kept trail, s = kept ++ trail ∧ Blank trail ∧
      ∃ init l, c :: kept = init ++ [l] ∧ isSpace l = false := by
  refine ⟨s.rdropWhile isSpace, s.rtakeWhile isSpace, List.rdropWhile_append_rtakeWhile.symm,
    fun d => List.mem_rtakeWhile_imp, ?_⟩
  by_cases hk : s.rdropWhile isSpace = []
  · exact ⟨[], c, by rw [hk]; rfl, hc⟩
  · refine ⟨c :: (s.rdropWhile isSpace).dropLast, (s.rdropWhile isSpace).getLast hk, ?_,
      Bool.eq_false_iff.mpr (List.rdropWhile_last_not isSpace s hk)⟩
    rw [List.cons_append, List.dropLast_append_getLast]

/-- A comment that begins in quotes leaves the tokenizer in them. -/
theorem parse_openQuote {w gap s rest lead : List Char} (hw : Solid w) (hgap : Blank gap)
    (hne : gap ≠ []) (hs : ∀ c ∈ s, Quotable c) (hlead : Blank lead) {line : String}
    (hline : line.toList = lead ++ (w ++ (gap ++ ('"' :: (s ++ '#' :: rest))))) :
    (parse false line).2 = true := by
  -- the blanks at the end of the string are stripped from the line
  obtain ⟨kept, trail, rfl, htrail, hlast⟩ := exists_trail (c := '"') (by decide) s
  obtain ⟨init, l, hl, hlspace⟩ := hlast
  have hcut : (lead ++ (w ++ (gap ++ ('"' :: ((kept ++ trail) ++ '#' :: rest))))).takeWhile
      (· ≠ '#') = lead ++ ((w ++ (gap ++ ('"' :: kept))) ++ trail) := by
    have hall : ∀ c ∈ lead ++ ((w ++ (gap ++ ('"' :: kept))) ++ trail),
        decide (c ≠ '#') = true := by
      intro c hc
      rw [decide_eq_true_eq]
      simp only [List.mem_append, List.mem_cons] at hc
      rcases hc with hc | (hc | hc | rfl | hc) | hc
      · exact hlead.ne_hash c hc
      · exact (hw.plain c hc).2.2
      · exact hgap.ne_hash c hc
      · decide
      · exact (hs c (List.mem_append_left _ hc)).2
      · exact (hs c (List.mem_append_right _ hc)).2
    have hsplit : lead ++ (w ++ (gap ++ ('"' :: ((kept ++ trail) ++ '#' :: rest)))) =
        (lead ++ ((w ++ (gap ++ ('"' :: kept))) ++ trail)) ++ '#' :: rest := by
      simp
    rw [hsplit, List.takeWhile_append_of_pos hall, List.takeWhile_cons_of_neg (by simp),
      List.append_nil]
  have hfirst : ∃ c tail, w ++ (gap ++ ('"' :: kept)) = c :: tail ∧ isSpace c = false := by
    obtain ⟨c, cs, rfl⟩ := List.exists_cons_of_ne_nil hw.ne_nil
    exact ⟨c, _, rfl, (hw.plain c List.mem_cons_self).1⟩
  have hlast : ∃ init c, w ++ (gap ++ ('"' :: kept)) = init ++ [c] ∧ isSpace c = false :=
    ⟨w ++ (gap ++ init), l, by rw [hl]; simp, hlspace⟩
  have hblank : ∀ c ∈ kept ++ [' '], Quotable c := by
    intro c hc
    rcases List.mem_append.mp hc with hc | hc
    · exact hs c (List.mem_append_left _ hc)
    · rw [List.mem_singleton.mp hc]
      exact ⟨by decide, by decide⟩
  obtain ⟨c', hin⟩ := parseLoop_inQuote hblank '"' [] [] [String.ofList w]
  rw [parse, hline, hcut]
  simp only [strip_eq hlead htrail hfirst hlast]
  rw [List.append_assoc, List.append_assoc, List.cons_append, parseLoop_openQuote hw hgap hne]
  rw [List.append_nil] at hin
  rw [hin]
  rfl

/-- Tokens with one blank behind each, in front of a text. -/
def blanksThen (ws : List (List Char)) (text : List Char) : List Char :=
  ws.foldr (fun w text => w ++ ([' '] ++ text)) text

/-- Tokens with a blank behind each may be put in front of a line. -/
theorem Spaced.blanksThen {ws vs : List (List Char)} {text : List Char} (hw : ∀ w ∈ ws, Solid w)
    (h : Spaced vs text) : Spaced (ws ++ vs) (blanksThen ws text) := by
  induction ws with
  | nil => exact h
  | cons w ws ih =>
      have hgap : Blank [' '] := by
        intro c hc
        rw [List.mem_singleton.mp hc]
        decide
      exact .blank (hw w List.mem_cons_self) hgap (List.cons_ne_nil _ _)
        (ih fun v hv => hw v (List.mem_cons_of_mem w hv))

/-! ### Words -/

/-- The characters of names and numbers: those that `split_at` has no rule for. -/
def WordChar (c : Char) : Prop :=
  Plain c ∧ c ∉ ['^', '|', '&', '+', ',', '*', ':', '-', '<', '>']

/-- Whether a character is one of words can be computed. -/
instance (c : Char) : Decidable (WordChar c) := inferInstanceAs (Decidable (_ ∧ _))

/-- There is no split between two characters of words. -/
theorem WordChar.joined {c1 c2 : Char} (h1 : WordChar c1) (h2 : WordChar c2) : Joined c1 c2 := by
  obtain ⟨-, h1⟩ := h1
  obtain ⟨⟨hspace, hquote, -⟩, h2⟩ := h2
  simp only [List.mem_cons, List.not_mem_nil, or_false, not_or] at h1 h2
  simp [Joined, splitAt, hspace, hquote, h1, h2]

/-- Words are not split. -/
theorem solid_of_wordChar {w : List Char} (hne : w ≠ []) (h : ∀ c ∈ w, WordChar c) : Solid w := by
  refine ⟨hne, ?_, fun c hc => (h c hc).1⟩
  induction w with
  | nil => exact .nil
  | cons c w ih =>
      cases w with
      | nil => exact .singleton c
      | cons d w =>
          have hrest : ∀ e ∈ d :: w, WordChar e := fun e he => h e (List.mem_cons_of_mem c he)
          exact .cons_cons ((h c List.mem_cons_self).joined (hrest d List.mem_cons_self))
            (ih (List.cons_ne_nil d w) hrest)

/-- A word needs no blank behind an operator of one character. -/
theorem WordChar.parted {c1 c2 : Char} (h1 : c1 ∈ ['+', '^', '|', '&', ',', '*', ':'])
    (h2 : WordChar c2) : Parted c1 c2 := by
  obtain ⟨⟨hspace, hquote, -⟩, h2⟩ := h2
  have hminus : c1 ≠ '-' := by
    rintro rfl
    exact absurd h1 (by decide)
  simp only [List.mem_cons, List.not_mem_nil, or_false, not_or] at h2
  simp [Parted, splitAt, hspace, hquote, h1, h2, hminus]

end SystemsProjects.BareMetal
