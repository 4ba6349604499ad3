import Mathlib.Data.List.Nodup
import SystemsProjects.Shell.Items
import SystemsProjects.Shell.Readings

/-!
# Quoted Text as One Argument

A line of words, operators and quoted texts, with blanks between them as one likes. What
quotes are for is that a quoted text is one argument, whatever it reads: `parse` makes one
token of every item, and `buildCommandList` takes a quoted text for a word. `split` gets some
neighbours wrong, and the tokens do not say which of them were quoted.

## Main definitions

* `Line`: a line of items.
* `Understood`: what quotes are for.
* `Line.Apart`: no item mingles with the one before it.

## Main results

* `understood_iff`: a line is understood exactly where no item mingles with the one before it
  and no quoted text but a target of a redirection reads as an operator.
-/

namespace SystemsProjects.Shell

open CStrings Lexer

/-! ### Lines -/

/-- The items with what is before each of them, and what is behind the last one. -/
def layOut : List (Str × Item) → Str → Str
  | [], rest => rest
  | (g, it) :: parts, rest => g ++ it.written ++ layOut parts rest

/-- Neighbours with nothing between them are in the relation `R`. The first item is behind
nothing. -/
def Neighbours (R : Option Item → Item → Prop) : Option Item → List (Str × Item) → Prop
  | _, [] => True
  | b, (g, it) :: parts => (g = [] → R b it) ∧ Neighbours R (some it) parts

/-- A blank may be missing, but not between two words and not between two quoted texts. -/
def MayTouch : Option Item → Item → Prop
  | some (.word _ _), .word _ _ => False
  | some (.quoted _ _ _ _), .quoted _ _ _ _ => False
  | _, _ => True

/-- A line of items. -/
structure Line where
  parts : List (Str × Item)
  rest : Str
  blank : ∀ p ∈ parts, Blank p.1
  blank_rest : Blank rest
  spaced : Neighbours MayTouch none parts

namespace Line

/-- The characters of the line. -/
def chars (line : Line) : Str := layOut line.parts line.rest

/-- What the line is written from. -/
def items (line : Line) : List Item := line.parts.map Prod.snd

end Line

/-- What quotes are for: `parse` makes one token of every item, and `buildCommandList` makes
of these tokens what it makes of them where every quoted text is a word. -/
def Understood (line : Line) (argcMax bufLen : ℕ) (s : State) (h : Heap ℕ) : Prop :=
  ∃ n s' ps, parse line.chars argcMax bufLen s = .ok n s' ∧
    (List.range n).map s'.argv = ps.map some ∧ s'.argv n = none ∧
    ps.map (cString bufLen s'.buf) = line.items.map Item.text ∧
    ∃ plain : ℕ → Str, ps.map plain = line.items.map Item.reading ∧
      buildCommandList plain ps h = buildCommandList (cString bufLen s'.buf) ps h

/-- The kind of character that is behind an item, or before the first one. -/
def kindBehind : Option Item → Before
  | none => .start
  | some it => it.kind

/-- `split` tells the item from what is before it, and so reads it as it is meant. -/
def TellsApart (b : Option Item) (it : Item) : Prop := mingles (kindBehind b) it.kind = false

/-- No item of the line mingles with what is right before it. -/
def Line.Apart (line : Line) : Prop := Neighbours TellsApart none line.parts

/-! ### Reading a line -/

variable {b : Option Item} {x : Lexer} {parts : List (Str × Item)} {rest g : Str} {it : Item}

/-- Two quoted texts do not touch. -/
theorem MayTouch.kinds (h : MayTouch b it) : kindBehind b ≠ .quote ∨ it.kind ≠ .quote := by
  have hword (w : Str) : (if w = ['&', '&'] ∨ w = ['!'] then Before.word else .bar) ≠ .quote := by
    split <;> exact nofun
  cases it with
  | word w hw => exact .inr nofun
  | op w hw => exact .inr (hword w)
  | quoted q t hq ht =>
      refine .inl ?_
      match b, h with
      | none, _ => exact nofun
      | some (.word _ _), _ => exact nofun
      | some (.op w _), _ => exact hword w

/-- Behind the blanks before an item, it mingles with nothing that it is told apart from. -/
theorem Between.gap (h : Between (kindBehind b) x) (hg : Blank g) (it : Item) :
    ∃ k, Between k (x.run g) ∧ (x.run g).scan.tokens = x.scan.tokens ∧
      (mingles k it.kind = false ↔ (g = [] → TellsApart b it)) := by
  obtain ⟨hrun, htokens⟩ := h.blanks hg
  refine ⟨_, hrun, htokens, ?_⟩
  by_cases hnil : g = []
  · rw [if_pos hnil, forall_prop_of_true hnil]
    rfl
  · rw [if_neg hnil, forall_prop_of_false hnil, iff_true]
    rfl

/-- A line whose items do not mingle is read item by item. -/
theorem run_layOut (h : Between (kindBehind b) x) (hblank : ∀ p ∈ parts, Blank p.1)
    (hrest : Blank rest) (hapart : Neighbours TellsApart b parts) :
    (x.run (layOut parts rest)).scan.tokens =
      x.scan.tokens ++ (parts.map Prod.snd).map Item.text := by
  induction parts generalizing b x with
  | nil =>
      rw [layOut, (h.blanks hrest).2, List.map_nil, List.map_nil, List.append_nil]
  | cons p parts ih =>
      obtain ⟨g, it⟩ := p
      obtain ⟨hg, hblank⟩ := List.forall_mem_cons.mp hblank
      obtain ⟨k, hk, htokens, hmingles⟩ := h.gap hg it
      obtain ⟨hitem, htext⟩ := hk.item it (hmingles.mpr hapart.1)
      have hbehind : Between (kindBehind (some it)) ((x.run g).run it.written) := hitem
      rw [layOut, run_append, run_append, ih hbehind hblank hapart.2, htext, htokens]
      simp

/-- A line with items that mingle is not read item by item, however much of it is read. -/
theorem layOut_astray (h : Between (kindBehind b) x) (hblank : ∀ p ∈ parts, Blank p.1)
    (hspaced : Neighbours MayTouch b parts) (hmingle : ¬ Neighbours TellsApart b parts) {p : Str}
    (hp : p <+: layOut parts rest) :
    (x.run p).scan.tokens ≠ x.scan.tokens ++ (parts.map Prod.snd).map Item.text := by
  induction parts generalizing b x p with
  | nil => exact absurd trivial hmingle
  | cons part parts ih =>
      obtain ⟨g, it⟩ := part
      obtain ⟨hg, hblank⟩ := List.forall_mem_cons.mp hblank
      by_cases hfirst : g = [] → TellsApart b it
      · -- what mingles is behind the item
        have hlater : ¬ Neighbours TellsApart (some it) parts := fun h => hmingle ⟨hfirst, h⟩
        obtain ⟨k, hk, htokens, hmingles⟩ := h.gap hg it
        obtain ⟨hitem, htext⟩ := hk.item it (hmingles.mpr hfirst)
        have hbehind : Between (kindBehind (some it)) (x.run (g ++ it.written)) := by
          rw [run_append]
          exact hitem
        have htokens' : (x.run (g ++ it.written)).scan.tokens = x.scan.tokens ++ [it.text] := by
          rw [run_append, htext, htokens]
        rcases List.prefix_or_prefix_of_prefix hp (List.prefix_append _ _) with hle | ⟨p', rfl⟩
        · -- not all of the item has been read
          obtain ⟨more, hmore⟩ := hle
          intro heq
          have hlen : (x.run p).scan.tokens.length ≤ x.scan.tokens.length + 1 := by
            have hbegins : (x.run p).scan.Begins (x.scan.tokens ++ [it.text]) := by
              refine begins_run (l := more) ?_
              rw [← run_append, hmore, ← htokens']
              exact begins_tokens _
            simpa using hbegins.length_le
          have hpos : parts ≠ [] := by
            rintro rfl
            exact hlater trivial
          have hparts := List.length_pos_iff.mpr hpos
          rw [heq] at hlen
          simp only [List.map_cons, List.length_append, List.length_cons, List.length_map] at hlen
          omega
        · have hp' : p' <+: layOut parts rest := by
            rwa [layOut, List.prefix_append_right_inj] at hp
          have hne := ih hbehind hblank hspaced.2 hlater hp'
          rw [htokens'] at hne
          rw [run_append]
          simpa using hne
      · -- the item mingles with what is right before it
        obtain ⟨rfl, hmingles⟩ := Classical.not_imp.mp hfirst
        rw [TellsApart, Bool.not_eq_false] at hmingles
        obtain ⟨c, more, hwritten, hastray⟩ := h.astray it hmingles (hspaced.1 rfl).kinds
        rw [layOut, hwritten, List.nil_append, List.cons_append] at hp
        intro heq
        cases p with
        | nil =>
            have hlen := congrArg List.length heq
            simp at hlen
        | cons d p =>
            obtain ⟨rfl, -⟩ := List.cons_prefix_cons.mp hp
            refine hastray ((parts.map Prod.snd).map Item.text) ?_
            refine begins_run (l := p) ?_
            have htokens := begins_tokens ((x.step d).run p).scan
            rwa [← run_cons, heq] at htokens

/-! ### The tokens -/

variable {line : Line} {argcMax bufLen : ℕ} {s : State} {h : Heap ℕ} {ts : List Str}

/-- A line begins outside quotes and between tokens. -/
theorem between_start : Between (kindBehind none) Lexer.start := ⟨rfl, rfl, rfl⟩

/-- No character of a line is a `nul`. -/
theorem layOut_ne_nul (hblank : ∀ p ∈ parts, Blank p.1) (hrest : Blank rest) :
    ∀ c ∈ layOut parts rest, c ≠ nul := by
  induction parts with
  | nil => exact fun c hc => (hrest c hc).2
  | cons p parts ih =>
      obtain ⟨g, it⟩ := p
      obtain ⟨hg, hblank⟩ := List.forall_mem_cons.mp hblank
      have hwritten : ∀ c ∈ it.written, c ≠ nul := by
        have hne {k : Before} {c : Char} (hc : k.Is c) (hk : k ≠ .start) : c ≠ nul := by
          have hnul := hc.tests.2.2.2
          simpa [hk] using hnul
        rcases it.cases with ⟨-, hwritten, -, hplain⟩ | ⟨c, -, hwritten, -, hc⟩ |
          ⟨q, -, hwritten, hq, ht⟩
        · rw [hwritten]
          exact fun c hc => hne (k := .word) (hplain c hc) nofun
        · rw [hwritten]
          exact List.forall_mem_singleton.mpr (hne (k := .bar) hc nofun)
        · have hq' : q ≠ nul := hne (k := .quote) hq nofun
          rw [hwritten, List.forall_mem_cons, List.forall_mem_append]
          exact ⟨hq', fun c hc => (ht c hc).1, List.forall_mem_singleton.mpr hq'⟩
      rw [layOut, List.forall_mem_append, List.forall_mem_append]
      exact ⟨⟨fun c hc => (hg c hc).2, hwritten⟩, ih hblank⟩

/-- A line has no `nul` in it, so that its end is not mistaken. -/
theorem Line.chars_ne_nul (line : Line) : ∀ c ∈ line.chars, c ≠ nul :=
  layOut_ne_nul line.blank line.blank_rest

/-- What has been read of a line has no `nul` in it. -/
theorem nul_notMem_tokens {p : Str} (hp : p <+: line.chars) :
    ∀ t ∈ (Lexer.start.run p).scan.tokens, nul ∉ t := by
  refine nul_notMem_run ?_ fun c hc => line.chars_ne_nul c (hp.subset hc)
  simp [Lexer.start]

/-- Within the limits, `parse` makes one token of every item that does not mingle. -/
theorem Line.Apart.tokens (hapart : line.Apart)
    (hfits : Fits argcMax bufLen (line.items.map Item.text)) (s : State) :
    ∃ s', parse line.chars argcMax bufLen s = .ok (line.items.map Item.text).length s' ∧
      Tokens (line.items.map Item.text) s' ∧ ∀ t ∈ line.items.map Item.text, nul ∉ t := by
  have hts : (Lexer.start.run line.chars).scan.tokens = line.items.map Item.text :=
    run_layOut between_start line.blank line.blank_rest hapart
  obtain ⟨s', hs', htokens⟩ := parse_fits line.chars_ne_nul hts hfits s
  exact ⟨s', hs', htokens, hts ▸ nul_notMem_tokens List.prefix_rfl⟩

/-- Where `parse` makes one token of every item, none of them mingles. -/
theorem Understood.apart (hfits : Fits argcMax bufLen (line.items.map Item.text))
    (hu : Understood line argcMax bufLen s h) : line.Apart := by
  by_contra hmingle
  have hne : line.items.map Item.text ≠ [] := by
    intro hnil
    have hparts : line.parts = [] := List.map_eq_nil_iff.mp (List.map_eq_nil_iff.mp hnil)
    rw [Line.Apart, hparts] at hmingle
    exact hmingle trivial
  obtain ⟨hargc, hbuf⟩ := hfits.room hne
  obtain ⟨n, s', ps, hrun, hps, -, hstr, -⟩ := hu
  obtain ⟨p, ts, hp, hts, rfl, htokens, hle⟩ := parse_lexes line.chars_ne_nul hargc hbuf hrun
  obtain ⟨ps', hps', hstr'⟩ := htokens.strings (hts ▸ nul_notMem_tokens hp) hle
  obtain rfl : ps = ps' :=
    List.map_injective_iff.mpr (Option.some_injective ℕ) (hps.symm.trans hps')
  refine layOut_astray between_start line.blank line.spaced hmingle hp ?_
  rw [← hts, ← hstr', hstr]
  rfl

/-! ### The command list -/

/-- The pointers are different. -/
theorem Tokens.nodup (h : Tokens ts s) : ((List.range ts.length).map s.argv).Nodup := by
  refine List.Nodup.map_on (fun j hj k hk heq => ?_) List.nodup_range
  rw [List.mem_range] at hj hk
  rw [h.argv j hj, h.argv k hk, Option.some_inj] at heq
  have hlt {j k : ℕ} (hjk : j < k) (hk : k < ts.length) :
      (pack nul (ts.take j)).length < (pack nul (ts.take k)).length := by
    have htake := List.take_append_drop j (ts.take k)
    rw [List.take_take, Nat.min_eq_left (Nat.le_of_lt hjk)] at htake
    have hlen : ((ts.take k).drop j).length = k - j := by
      rw [List.length_drop, List.length_take, Nat.min_eq_left (Nat.le_of_lt hk)]
    have hpack := congrArg (fun us => (pack nul us).length) htake
    simp only [pack_append, List.length_append, length_pack ((ts.take k).drop j), hlen] at hpack
    omega
  rcases Nat.lt_trichotomy j k with hjk | rfl | hjk
  · exact absurd heq (Nat.ne_of_lt (hlt hjk hk))
  · rfl
  · exact absurd heq.symm (Nat.ne_of_lt (hlt hjk hj))

/-- Different pointers can be read in any way. -/
theorem exists_map_eq {ps : List ℕ} (hnd : ps.Nodup) {us : List Str}
    (hlen : ps.length = us.length) : ∃ f : ℕ → Str, ps.map f = us := by
  induction ps generalizing us with
  | nil => exact ⟨fun _ => [], (List.eq_nil_of_length_eq_zero hlen.symm).symm⟩
  | cons p ps ih =>
      obtain ⟨hp, hnd⟩ := List.nodup_cons.mp hnd
      cases us with
      | nil => cases hlen
      | cons u us =>
          obtain ⟨f, hf⟩ := ih hnd (Nat.succ.inj hlen)
          refine ⟨Function.update f p u, ?_⟩
          have hcongr : ps.map (Function.update f p u) = ps.map f :=
            List.map_congr_left fun r hr =>
              Function.update_of_ne (ne_of_mem_of_not_mem hr hp) u f
          rw [List.map_cons, Function.update_self, hcongr, hf]

/-- The pointer is to the text of the item, and is to be read as the item is meant: as an
operator or as a word. -/
def PointsTo (str plain : ℕ → Str) (p : ℕ) (it : Item) : Prop :=
  str p = it.text ∧ plain p = it.reading

variable {str plain : ℕ → Str} {ps : List ℕ} {items : List Item}

/-- The pointers of a line whose texts and readings are known, one by one. -/
theorem pointsTo_of_map (hstr : ps.map str = items.map Item.text)
    (hplain : ps.map plain = items.map Item.reading) :
    List.Forall₂ (PointsTo str plain) ps items := by
  induction items generalizing ps with
  | nil =>
      obtain rfl := List.map_eq_nil_iff.mp hstr
      exact .nil
  | cons it items ih =>
      cases ps with
      | nil => cases hstr
      | cons p ps =>
          obtain ⟨hp, hps⟩ := List.cons_eq_cons.mp hstr
          obtain ⟨hp', hps'⟩ := List.cons_eq_cons.mp hplain
          exact .cons ⟨hp, hp'⟩ (ih hps hps')

/-- A quoted text is read as a word, and nothing else in another way. -/
theorem reading_eq_or (it : Item) :
    it.reading = it.text ∨ isOperator it.reading = false := by
  cases it with
  | word w h => exact .inl rfl
  | op w h => exact .inl rfl
  | quoted q t hq ht =>
      refine .inr ?_
      simp only [isQuote, Bool.or_eq_true, decide_eq_true_eq] at hq
      rcases hq with rfl | rfl <;> simp [Item.reading, isOperator, doubleQuote, singleQuote]

/-- Items that are quoted are words in the second reading, whatever their text. -/
theorem plainer_of_pointsTo (h : List.Forall₂ (PointsTo str plain) ps items) :
    Plainer str plain ps := by
  induction h with
  | nil => exact nofun
  | @cons p it ps items hp _ ih =>
      refine List.forall_mem_cons.mpr ⟨?_, ih⟩
      rw [hp.1, hp.2]
      exact reading_eq_or it

/-- The words of the pointers are those of the items. -/
theorem wordsOf_pointsTo (h : List.Forall₂ (PointsTo str plain) ps items) :
    List.Forall₂ (PointsTo str plain) (wordsOf plain ps) (wordsOf Item.reading items) := by
  fun_induction wordsOf plain ps generalizing items with
  | case1 =>
      cases h
      exact .nil
  | case2 p hp f ps ih =>
      obtain _ | ⟨hit, _ | ⟨_, hrest⟩⟩ := h
      rw [hit.2] at hp
      rw [wordsOf_target Item.reading hp]
      exact ih hrest
  | case3 p hp =>
      obtain _ | ⟨hit, _ | _⟩ := h
      rw [hit.2] at hp
      rw [wordsOf.eq_def Item.reading]
      simp only [hp, if_true]
      exact .nil
  | case4 p ps hp hop ih =>
      obtain _ | ⟨hit, hrest⟩ := h
      rw [hit.2] at hp hop
      obtain ⟨hlt, hgt⟩ := not_or.mp hp
      rw [wordsOf_operator Item.reading hop hlt hgt]
      exact ih hrest
  | case5 p ps hp hop ih =>
      obtain _ | ⟨hit, hrest⟩ := h
      rw [hit.2, Bool.not_eq_true] at hop
      rw [wordsOf_word Item.reading hop]
      exact .cons hit (ih hrest)

/-- The words of the pointers read as words where those of the items do. -/
theorem harmless_iff (h : List.Forall₂ (PointsTo str plain) ps items) :
    Harmless str plain ps ↔ Harmless Item.text Item.reading items := by
  have hwords := wordsOf_pointsTo h
  rw [Harmless, Harmless]
  generalize wordsOf plain ps = ws at hwords ⊢
  generalize wordsOf Item.reading items = ws' at hwords ⊢
  induction hwords with
  | nil => exact iff_of_true (List.forall_mem_nil _) (List.forall_mem_nil _)
  | cons hp _ ih =>
      rw [List.forall_mem_cons, List.forall_mem_cons, hp.1]
      exact and_congr_right' ih

/-! ### What is understood -/

/-- A line within the limits of `parse` is understood if and only if none of its items
mingles with what is right before it and none of its quoted texts reads as an operator,
unless a redirection takes it as its target. -/
theorem understood_iff (line : Line) (argcMax bufLen : ℕ)
    (hfits : Fits argcMax bufLen (line.items.map Item.text)) (s : State) (h : Heap ℕ) :
    Understood line argcMax bufLen s h ↔
      line.Apart ∧ ∀ it ∈ wordsOf Item.reading line.items, isOperator it.text = false := by
  constructor
  · intro hu
    refine ⟨hu.apart hfits, ?_⟩
    obtain ⟨n, s', ps, -, -, -, hstr, plain, hplain, heq⟩ := hu
    have hpoints := pointsTo_of_map hstr hplain
    exact (harmless_iff hpoints).mp
      ((buildCommandList_eq_iff (plainer_of_pointsTo hpoints) h).mp heq)
  · rintro ⟨hapart, hwords⟩
    obtain ⟨s', hs', htokens, hnul⟩ := hapart.tokens hfits s
    obtain ⟨ps, hps, hstr⟩ := htokens.strings hnul hfits.buf
    have hnd : ps.Nodup := by
      have hnd := htokens.nodup
      rw [hps] at hnd
      exact hnd.of_map some
    have hlen : ps.length = (line.items.map Item.reading).length := by
      have hlen := congrArg List.length hstr
      simpa using hlen
    obtain ⟨plain, hplain⟩ := exists_map_eq hnd hlen
    have hpoints := pointsTo_of_map hstr hplain
    refine ⟨_, s', ps, hs', hps, htokens.null, hstr, plain, hplain, ?_⟩
    exact (buildCommandList_eq_iff (plainer_of_pointsTo hpoints) h).mpr
      ((harmless_iff hpoints).mpr hwords)

/-- `echo "a|b" '' >'|'`, with a quoted text that has an operator in it, an empty one, and
one that is the target of a redirection. -/
def echoLine : Line where
  parts := [
    ([], .word ['e', 'c', 'h', 'o'] (by decide)),
    ([' '], .quoted doubleQuote ['a', '|', 'b'] rfl
      (by simp only [List.forall_mem_cons, List.not_mem_nil, false_imp_iff, implies_true, and_true]
          decide)),
    ([' '], .quoted singleQuote [] rfl nofun),
    ([' '], .op ['>'] rfl),
    ([], .quoted singleQuote ['|'] rfl
      (by rw [List.forall_mem_singleton]
          decide))]
  rest := ['\n']
  blank := by
    simp only [List.forall_mem_cons, List.not_mem_nil, false_imp_iff, implies_true, and_true]
    decide
  blank_rest := by decide
  spaced := ⟨fun _ => trivial, nofun, nofun, nofun, fun _ => trivial, trivial⟩

/-- A quoted text in the middle of a line is understood. -/
theorem echoLine_understood : Understood echoLine 32 1024 fresh freshHeap := by
  have hfits : Fits 32 1024 (echoLine.items.map Item.text) :=
    ⟨by decide, by decide, nofun⟩
  refine (understood_iff echoLine 32 1024 hfits fresh freshHeap).mpr ⟨?_, ?_⟩
  · exact ⟨fun _ => rfl, nofun, nofun, nofun, fun _ => rfl, trivial⟩
  · have hwords : (wordsOf Item.reading echoLine.items).map Item.text =
        [['e', 'c', 'h', 'o'], ['a', '|', 'b'], []] := rfl
    intro it hit
    have htext := List.mem_map_of_mem (f := Item.text) hit
    rw [hwords] at htext
    simp only [List.mem_cons, List.not_mem_nil, or_false] at htext
    rcases htext with h | h | h <;> rw [h] <;> rfl

/-- `"a"`, with a quote at its very beginning. -/
def quotedFirst : Line where
  parts := [([], .quoted doubleQuote ['a'] rfl
    (by rw [List.forall_mem_singleton]
        decide))]
  rest := []
  blank := by
    rw [List.forall_mem_singleton]
    decide
  blank_rest := nofun
  spaced := ⟨fun _ => trivial, trivial⟩

/-- The quote is taken for a character of the token. -/
theorem not_understood : ¬ ∀ (line : Line) (argcMax bufLen : ℕ) (s : State) (h : Heap ℕ),
    Fits argcMax bufLen (line.items.map Item.text) → Understood line argcMax bufLen s h := by
  intro h
  have hfits : Fits 32 1024 (quotedFirst.items.map Item.text) :=
    ⟨by decide, by decide, nofun⟩
  have hapart := (h quotedFirst 32 1024 fresh freshHeap hfits).apart hfits
  cases hapart.1 rfl

end SystemsProjects.Shell
