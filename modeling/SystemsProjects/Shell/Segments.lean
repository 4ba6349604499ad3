import SystemsProjects.Shell.Accounting

/-!
# The Segments of a Line

What the specification asks of redirections: every segment of a line between two `|`
becomes one command, with the words before its first `<` or `>` as arguments, and with the
first word behind an operator as its file, where there is one. The inner loop of
`buildCommandList` does not look for words: it takes what is behind an operator as a file,
another operator too, and it stops at the next word, which then begins another command.

## Main definitions

* `segments`: what is between two `|`.
* `Command.Specified`, `AsSpecified`: what the commands of a line should be.
* `Readable`: behind the words of a segment operators and files take turns, the last file of
  either operator is a word, and only the last segment ends in an operator.

## Main results

* `asSpecified_iff`: the commands are as specified for the lines that are readable.
-/

namespace SystemsProjects.Shell

open DoublyLinked

section

variable {α : Type} (str : α → Str)

/-! ### What is specified -/

/-- The operators that redirect. -/
def isRedirect (w : Str) : Bool := w = ['<'] || w = ['>']

/-- The tokens between two `|`, which is what a command is meant to be made of. -/
def segments (tokens : List α) : List (List α) := tokens.splitOnP fun t => str t = ['|']

/-- A segment is made of words, `<` and `>`, and starts with a word. Nothing is asked of the
order behind it. -/
structure Segment (seg : List α) : Prop where
  plain : ∀ t ∈ seg, isOperator (str t) = isRedirect (str t)
  starts : ∃ w ∈ seg.head?, isOperator (str w) = false

/-- A line is made of segments. -/
def Piped (tokens : List α) : Prop := ∀ seg ∈ segments str tokens, Segment str seg

/-- The words that are first behind an operator `op`. -/
def given (op : Str) : List α → List α
  | t :: f :: rest =>
      if str t = op ∧ isOperator (str f) = false then f :: given op (f :: rest)
      else given op (f :: rest)
  | _ => []

/-- The command that is specified for a segment: its words in order, and the first word behind
each operator as its file. -/
structure Command.Specified (seg : List α) (c : Command α) : Prop where
  holds : c.Holds (seg.takeWhile fun t => !isRedirect (str t))
  input : c.input = (given str ['<'] seg).getLast?
  output : c.output = (given str ['>'] seg).getLast?

/-- The list that `buildCommandList` makes has one command for each segment, as specified, in
the same order. -/
def AsSpecified (tokens : List α) (h : Heap α) : Prop :=
  ∃ l, Doubly (fun p => ((buildCommandList str tokens h).2.cells p).next)
      (fun p => ((buildCommandList str tokens h).2.cells p).prev) none
      (buildCommandList str tokens h).1 l ∧
    List.Forall₂ (Command.Specified str) (segments str tokens)
      (l.map (buildCommandList str tokens h).2.cells)

/-! ### What is read -/

/-- What is behind the words of a segment. -/
def redirections (seg : List α) : List α := seg.dropWhile fun t => !isRedirect (str t)

/-- Operators and files take turns. Where `last`, an operator may be left over, as the loop
takes it without a file. -/
def Reads (last : Prop) : List α → Prop
  | [] => True
  | [t] => last ∧ isRedirect (str t) = true
  | t :: _ :: rest => isRedirect (str t) = true ∧ Reads last rest

/-- The files of an operator, where operators and files take turns. -/
def taken (op : Str) : List α → List α
  | t :: f :: rest => if str t = op then f :: taken op rest else taken op rest
  | _ => []

/-- The last file of an operator is a word. -/
def WordLast (op : Str) (tokens : List α) : Prop :=
  ∀ f ∈ (taken str op tokens).getLast?, isOperator (str f) = false

/-- Behind the words of the segment operators and files take turns, and the last file of
either operator is a word. -/
structure Followed (last : Prop) (seg : List α) : Prop where
  reads : Reads str last (redirections str seg)
  input : WordLast str ['<'] (redirections str seg)
  output : WordLast str ['>'] (redirections str seg)

/-- Every segment is so, and only the last one ends in an operator. This is a condition on the
tokens alone. -/
def Readable : List (List α) → Prop
  | [] => True
  | seg :: segs => Followed str (segs = []) seg ∧ Readable segs

variable {str} {w : α} {op : Str}

/-- The redirections are operators. -/
theorem isOperator_of_isRedirect {w : Str} (h : isRedirect w = true) : isOperator w = true := by
  simp only [isRedirect, Bool.or_eq_true, decide_eq_true_eq] at h
  rcases h with rfl | rfl <;> rfl

/-- A word is no redirection. -/
theorem isRedirect_of_word {w : Str} (h : isOperator w = false) : isRedirect w = false := by
  cases hr : isRedirect w with
  | false => rfl
  | true => exact absurd (isOperator_of_isRedirect hr) (by simp [h])

/-- Either the tokens are operators and files up to a word where a file is over, or they are
operators and files, perhaps with an operator left over. -/
theorem reads_or (str : α → Str) (l : List α)
    (hl : ∀ t ∈ l, isOperator (str t) = isRedirect (str t)) :
    ∃ p r, l = p ++ r ∧ Reads str False p ∧
      (r = [] ∨ (∃ t, r = [t] ∧ isRedirect (str t) = true) ∨
        ∃ x more, r = x :: more ∧ isOperator (str x) = false) := by
  match l with
  | [] => exact ⟨[], [], rfl, trivial, .inl rfl⟩
  | [t] =>
      cases ht : isRedirect (str t) with
      | true => exact ⟨[], [t], rfl, trivial, .inr (.inl ⟨t, rfl, ht⟩)⟩
      | false =>
          exact ⟨[], [t], rfl, trivial, .inr (.inr ⟨t, [], rfl, (hl t (by simp)).trans ht⟩)⟩
  | t :: f :: rest =>
      cases ht : isRedirect (str t) with
      | true =>
          obtain ⟨p, r, rfl, hp, hr⟩ := reads_or str rest fun u hu => hl u (by simp [hu])
          exact ⟨t :: f :: p, r, rfl, ⟨ht, hp⟩, hr⟩
      | false =>
          exact ⟨[], t :: f :: rest, rfl, trivial,
            .inr (.inr ⟨t, f :: rest, rfl, (hl t (by simp)).trans ht⟩)⟩

/-- Where the last token need not be a pair, fewer conditions are left. -/
theorem Reads.mono {last last' : Prop} {l : List α} (h : Reads str last l)
    (hlast : last → last') : Reads str last' l := by
  match l, h with
  | [], _ => trivial
  | [t], h => exact ⟨hlast h.1, h.2⟩
  | t :: f :: l, h => exact ⟨h.1, h.2.mono hlast⟩

/-- Operators and files before something else. -/
theorem reads_append {last : Prop} {p : List α} (hp : Reads str False p) (r : List α) :
    Reads str last (p ++ r) ↔ Reads str last r := by
  match p with
  | [] => rfl
  | [t] => exact absurd hp.1 id
  | t :: f :: p => exact (and_iff_right hp.1).trans (reads_append hp.2 r)

/-- Behind complete pairs of an operator and its file, the next files are taken as if they came
first. -/
theorem taken_append {p : List α} (hp : Reads str False p) (op : Str) (r : List α) :
    taken str op (p ++ r) = taken str op p ++ taken str op r := by
  match p with
  | [] => rfl
  | [t] => exact absurd hp.1 id
  | t :: f :: p =>
      simp only [List.cons_append, taken]
      rw [taken_append hp.2 op r]
      split <;> rfl

/-- Where operators and files take turns, the inner loop takes both. -/
theorem setter_reads (c : Command α) {p : List α} (hp : Reads str False p) (l : List α) :
    ∃ c', setter str c (p ++ l) = setter str c' l ∧
      c'.input = (taken str ['<'] p).getLast?.or c.input ∧
      c'.output = (taken str ['>'] p).getLast?.or c.output := by
  match p with
  | [] => exact ⟨c, rfl, rfl, rfl⟩
  | [t] => exact absurd hp.1 id
  | t :: f :: p =>
      have hlast (x : Option α) (l : List α) :
          (f :: l).getLast?.or x = l.getLast?.or (some f) := by
        rw [List.getLast?_cons]
        cases l.getLast? <;> rfl
      have ht := hp.1
      simp only [isRedirect, Bool.or_eq_true, decide_eq_true_eq] at ht
      rcases ht with ht | ht
      · have hgt : str t ≠ ['>'] := by simp [ht]
        obtain ⟨c', hset, hin, hout⟩ :=
          setter_reads { c with redirect := 0, input := some f } hp.2 l
        refine ⟨c', ?_, ?_, ?_⟩
        · rw [← hset, List.cons_append, List.cons_append, setter.eq_def]
          exact if_pos ht
        · rw [taken, if_pos ht, hlast, hin]
        · rw [taken, if_neg hgt, hout]
      · have hlt : str t ≠ ['<'] := by simp [ht]
        obtain ⟨c', hset, hin, hout⟩ :=
          setter_reads { c with redirect := 0, output := some f } hp.2 l
        refine ⟨c', ?_, ?_, ?_⟩
        · rw [← hset, List.cons_append, List.cons_append, setter.eq_def]
          exact (if_neg hlt).trans (if_pos ht)
        · rw [taken, if_neg hlt, hin]
        · rw [taken, if_pos ht, hlast, hout]

/-- The inner loop stops at a word. -/
theorem setter_word (hw : isOperator (str w) = false) (c : Command α) (l : List α) :
    setter str c (w :: l) = (c, w :: l) := by
  simp only [isOperator, Bool.or_eq_false_iff, decide_eq_false_iff_not] at hw
  obtain ⟨⟨⟨⟨hbar, hlt⟩, hgt⟩, hand⟩, hnot⟩ := hw
  rw [setter.eq_def]
  simp only [hbar, hlt, hgt, hand, hnot, if_false]

/-! ### The words behind the operators -/

/-- A word in front is no operator, so that nothing is given by it. -/
theorem given_cons_word (hw : isOperator (str w) = false) (hop : isOperator op = true)
    (l : List α) : given str op (w :: l) = given str op l := by
  cases l with
  | nil => rfl
  | cons f l =>
      rw [given, if_neg fun h => by simp [← h.1, hw] at hop]

/-- Words in front of a segment's redirections change nothing about what is given. -/
theorem given_append_words {ws : List α} (hws : ∀ w ∈ ws, isOperator (str w) = false)
    (hop : isOperator op = true) (l : List α) : given str op (ws ++ l) = given str op l := by
  induction ws with
  | nil => rfl
  | cons w ws ih =>
      rw [List.cons_append, given_cons_word (hws w (by simp)) hop,
        ih fun w hw => hws w (by simp [hw])]

/-- What is given by a file and by the operators and files behind it. -/
theorem given_cons_reads {f : α} {rest : List α} (h : Reads str True rest)
    (hop : isOperator op = true) : given str op (f :: rest) = given str op rest := by
  cases hf : isOperator (str f) with
  | false => exact given_cons_word hf hop rest
  | true =>
      match rest, h with
      | [], _ => rfl
      | [t], h => rw [given, if_neg fun ht => by simp [isOperator_of_isRedirect h.2] at ht]
      | t :: g :: rest, h =>
          rw [given, if_neg fun ht => by simp [isOperator_of_isRedirect h.1] at ht]

/-- Where operators and files take turns, the words that are given are the files that are
words. -/
theorem given_reads {l : List α} (h : Reads str True l) (hop : isOperator op = true) :
    given str op l = (taken str op l).filter fun f => !isOperator (str f) := by
  match l, h with
  | [], _ => rfl
  | [t], _ => rfl
  | t :: f :: rest, h =>
      rw [given, taken, given_cons_reads h.2 hop, given_reads h.2 hop]
      by_cases ht : str t = op
      · cases hf : isOperator (str f) <;> simp [ht, hf]
      · simp [ht]

/-- What is given behind an operator is a word, and no operator. -/
theorem isOperator_of_mem_given {f : α} {l : List α} (h : f ∈ given str op l) :
    isOperator (str f) = false := by
  fun_induction given str op l with
  | case1 t g rest hg ih =>
      rcases List.mem_cons.mp h with rfl | h
      · exact hg.2
      · exact ih h
  | case2 t g rest hg ih => exact ih h
  | case3 => cases h

/-- The last file is the last one that is a word if and only if it is a word. -/
theorem getLast?_filter_iff (l : List α) (q : α → Bool) :
    l.getLast? = (l.filter q).getLast? ↔ ∀ x ∈ l.getLast?, q x = true := by
  rcases l.eq_nil_or_concat with rfl | ⟨l, x, rfl⟩
  · simp
  · cases hq : q x with
    | true => simp [hq]
    | false =>
        refine iff_of_false (fun h => ?_) fun h => by simp [hq] at h
        have hx : (l.concat x).getLast? = some x := by simp
        rw [hx] at h
        have hmem := List.mem_of_getLast? h.symm
        simp [hq] at hmem

/-! ### One segment after the other -/

/-- What is behind a segment: nothing, or a `|` with the segments `segs` behind it. -/
inductive Behind (str : α → Str) : List α → List (List α) → Prop
  | nil : Behind str [] []
  | bar {b : α} {rest : List α} (hb : str b = ['|']) (h : Piped str rest) :
      Behind str (b :: rest) (segments str rest)

variable {seg l tokens : List α} {segs : List (List α)}

/-- A segment has no `|` in it, which would have ended it. -/
theorem Segment.no_bar (h : Segment str seg) : ∀ t ∈ seg, decide (str t = ['|']) = false := by
  intro t ht
  rw [decide_eq_false_iff_not]
  intro hbar
  have hplain := h.plain t ht
  rw [hbar] at hplain
  exact absurd hplain (by decide)

/-- A line that starts with a segment falls into that and the segments behind it. -/
theorem Segment.segments_append (h : Segment str seg) (hl : Behind str l segs) :
    segments str (seg ++ l) = seg :: segs := by
  cases hl with
  | nil => rw [List.append_nil, segments, List.splitOnP_eq_singleton h.no_bar]
  | bar hb _ =>
      exact List.splitOnP_append_cons_of_forall_mem h.no_bar _ (decide_eq_true hb) _

/-- It is made of segments if what is behind the segment is. -/
theorem Segment.piped_append (h : Segment str seg) (hl : Behind str l segs) :
    Piped str (seg ++ l) := by
  intro seg' hseg'
  rw [h.segments_append hl] at hseg'
  rcases List.mem_cons.mp hseg' with rfl | hseg'
  · exact h
  · cases hl with
    | nil => cases hseg'
    | bar _ hrest => exact hrest seg' hseg'

/-- A line is a segment with what is behind it. -/
theorem Piped.split (h : Piped str tokens) :
    ∃ seg l segs, tokens = seg ++ l ∧ Segment str seg ∧ Behind str l segs := by
  cases hfind : tokens.find? fun t => decide (str t = ['|']) with
  | none =>
      have hno : ∀ t ∈ tokens, decide (str t = ['|']) = false := by
        simpa [List.find?_eq_none] using hfind
      refine ⟨tokens, [], [], (List.append_nil _).symm, h tokens ?_, .nil⟩
      rw [segments, List.splitOnP_eq_singleton hno]
      exact List.mem_singleton_self _
  | some b =>
      obtain ⟨hb, seg, rest, rfl, hno⟩ := List.find?_eq_some_iff_append.mp hfind
      have hsegs : segments str (seg ++ b :: rest) = seg :: segments str rest :=
        List.splitOnP_append_cons_of_forall_mem (by simpa using hno) b hb rest
      refine ⟨seg, b :: rest, segments str rest, rfl, h seg ?_,
        .bar (of_decide_eq_true hb) fun seg' hseg' => h seg' ?_⟩
      · rw [hsegs]
        exact List.mem_cons_self
      · rw [hsegs]
        exact List.mem_cons_of_mem _ hseg'

/-- The words of a segment, and what is behind them. -/
theorem span_append (hplain : ∀ t ∈ seg, isOperator (str t) = isRedirect (str t))
    (hl : Behind str l segs) :
    ((seg ++ l).takeWhile fun t => !isOperator (str t)) =
        (seg.takeWhile fun t => !isRedirect (str t)) ∧
      ((seg ++ l).dropWhile fun t => !isOperator (str t)) = redirections str seg ++ l := by
  induction seg with
  | nil =>
      cases hl with
      | nil => exact ⟨rfl, rfl⟩
      | @bar b rest hb _ =>
          have hop : ¬ (!isOperator (str b)) = true := by
            rw [hb]
            decide
          exact ⟨List.takeWhile_cons_of_neg hop, List.dropWhile_cons_of_neg hop⟩
  | cons t seg ih =>
      obtain ⟨htake, hdrop⟩ := ih fun u hu => hplain u (List.mem_cons_of_mem _ hu)
      have ht := hplain t List.mem_cons_self
      rw [redirections] at hdrop ⊢
      simp only [List.cons_append, List.takeWhile_cons, List.dropWhile_cons, ht]
      cases isRedirect (str t) with
      | true => exact ⟨rfl, rfl⟩
      | false => exact ⟨congrArg (t :: ·) htake, hdrop⟩

/-- A turn of the outer loop reads a segment and comes to what is behind it, or it takes the
`|` for a file, or it stops at a word of the segment. -/
theorem fill_segment (c : Command α) (hseg : Segment str seg) (hl : Behind str l segs) :
    (Reads str (segs = []) (redirections str seg) ∧ (fill str c.init (seg ++ l)).2 = l.tail ∧
      (fill str c.init (seg ++ l)).1.input =
        (taken str ['<'] (redirections str seg)).getLast? ∧
      (fill str c.init (seg ++ l)).1.output =
        (taken str ['>'] (redirections str seg)).getLast?) ∨
    ¬ Reads str (segs = []) (redirections str seg) ∧
      (((fill str c.init (seg ++ l)).2 = l.tail ∧ ∃ b, str b = ['|'] ∧
        ((fill str c.init (seg ++ l)).1.input = some b ∨
          (fill str c.init (seg ++ l)).1.output = some b)) ∨
      ∃ v x more, seg = v ++ x :: more ∧ v ≠ [] ∧ isOperator (str x) = false ∧
        (fill str c.init (seg ++ l)).2 = x :: more ++ l) := by
  obtain ⟨-, hdrop⟩ := span_append hseg.plain hl
  obtain ⟨p, r, hred, hp, hr⟩ := reads_or str (redirections str seg) fun t ht =>
    hseg.plain t ((List.dropWhile_suffix _).mem ht)
  obtain ⟨c', hset, hin, hout⟩ :=
    setter_reads (splitter str c.init (seg ++ l)).1 hp (r ++ l)
  have hfill : fill str c.init (seg ++ l) = setter str c' (r ++ l) := by
    rw [← hset, ← List.append_assoc, ← hred, ← hdrop]
    rfl
  have hin' : c'.input = (taken str ['<'] p).getLast? := hin.trans (Option.or_none ..)
  have hout' : c'.output = (taken str ['>'] p).getLast? := hout.trans (Option.or_none ..)
  rw [hfill, hred, reads_append hp, taken_append hp, taken_append hp]
  rcases hr with rfl | ⟨t, rfl, ht⟩ | ⟨x, more, rfl, hx⟩
  · left
    simp only [taken, List.append_nil, ← hin', ← hout']
    cases hl with
    | nil => exact ⟨trivial, rfl, rfl, rfl⟩
    | bar hb _ =>
        refine ⟨trivial, ?_, ?_, ?_⟩ <;> simp [setter.eq_def, hb]
  · have hor := ht
    simp only [isRedirect, Bool.or_eq_true, decide_eq_true_eq] at hor
    cases hl with
    | nil =>
        left
        simp only [taken, List.append_nil, ← hin', ← hout']
        refine ⟨⟨trivial, ht⟩, ?_⟩
        rcases hor with ht | ht <;> simp [setter, ht]
    | @bar b rest hb hrest =>
        obtain ⟨seg', l', segs', rfl, hseg', -⟩ := hrest.split
        obtain ⟨w, hw, hword⟩ := hseg'.starts
        obtain ⟨ws, rfl⟩ : ∃ ws, seg' = w :: ws := List.head?_eq_some_iff.mp hw
        refine .inr ⟨fun h => ?_, .inl ?_⟩
        · exact absurd h.1 (List.splitOnP_ne_nil _ _)
        · -- the loop takes the `|`, and stops at the word behind it
          have hstop (c : Command α) (l : List α) : setter str c (w :: l) = (c, w :: l) :=
            setter_word hword c l
          rcases hor with ht | ht
          · exact ⟨by simp [setter, ht, hstop], b, hb, .inl (by simp [setter, ht, hstop])⟩
          · exact ⟨by simp [setter, ht, hstop], b, hb, .inr (by simp [setter, ht, hstop])⟩
  · refine .inr ⟨fun h => ?_, .inr ?_⟩
    · cases more with
      | nil => exact absurd h.2 (by simp [isRedirect_of_word hx])
      | cons f more => exact absurd h.1 (by simp [isRedirect_of_word hx])
    · obtain ⟨w, hw, hword⟩ := hseg.starts
      refine ⟨(seg.takeWhile fun t => !isRedirect (str t)) ++ p, x, more, ?_, ?_, hx, ?_⟩
      · rw [List.append_assoc, ← hred]
        exact List.takeWhile_append_dropWhile.symm
      · obtain ⟨ws, rfl⟩ : ∃ ws, seg = w :: ws := List.head?_eq_some_iff.mp hw
        rw [List.takeWhile_cons_of_pos (by simp [isRedirect_of_word hword])]
        exact List.cons_ne_nil _ _
      · exact congrArg Prod.snd (setter_word hx c' (more ++ l))

/-- The commands of a line are the one of its first segment and those of what is left. -/
theorem Segment.commandsOf (h : Segment str seg) (l : List α) (mem : ℕ → Command α) (n : ℕ) :
    commandsOf str mem n (seg ++ l) = (fill str (mem n).init (seg ++ l)).1 ::
      Shell.commandsOf str mem (n + 1) (fill str (mem n).init (seg ++ l)).2 := by
  obtain ⟨w, hw, -⟩ := h.starts
  obtain ⟨ws, rfl⟩ : ∃ ws, seg = w :: ws := List.head?_eq_some_iff.mp hw
  rw [List.cons_append, Shell.commandsOf]

/-- What is left of a segment at a word is a segment. -/
theorem Segment.of_append {v more : List α} {x : α} (h : Segment str (v ++ x :: more))
    (hx : isOperator (str x) = false) : Segment str (x :: more) :=
  ⟨fun t ht => h.plain t (List.mem_append_right v ht), x, rfl, hx⟩

/-- A segment is one command at least. -/
theorem length_segments_le (h : Piped str tokens) (mem : ℕ → Command α) (n : ℕ) :
    (segments str tokens).length ≤ (commandsOf str mem n tokens).length := by
  induction hlen : tokens.length using Nat.strongRecOn generalizing tokens n with
  | ind k ih =>
      obtain ⟨seg, l, segs, rfl, hseg, hl⟩ := h.split
      rw [hseg.segments_append hl, hseg.commandsOf, List.length_cons, List.length_cons]
      have hbehind (hrest : (fill str (mem n).init (seg ++ l)).2 = l.tail) : segs.length ≤
          (commandsOf str mem (n + 1) (fill str (mem n).init (seg ++ l)).2).length := by
        rw [hrest]
        cases hl with
        | nil => exact Nat.zero_le _
        | bar hb hpiped =>
            refine ih _ ?_ hpiped (n + 1) rfl
            simp only [← hlen, List.length_append, List.length_cons]
            omega
      rcases fill_segment (mem n) hseg hl with ⟨-, hrest, -⟩ | ⟨-, ⟨hrest, -⟩ | hword⟩
      · exact Nat.succ_le_succ (hbehind hrest)
      · exact Nat.succ_le_succ (hbehind hrest)
      · obtain ⟨v, x, more, rfl, hv, hx, hrest⟩ := hword
        have hseg' := hseg.of_append hx
        have hvlen : 0 < v.length := List.length_pos_iff.mpr hv
        have hle := ih _ (by simp only [← hlen, List.length_append]; omega)
          (hseg'.piped_append hl) (n + 1) rfl
        rw [hseg'.segments_append hl, List.length_cons] at hle
        rw [hrest]
        omega

/-- A command that took the `|` for a file is not as specified. -/
theorem Command.Specified.not_bar {c : Command α} (h : c.Specified str seg) {b : α}
    (hb : str b = ['|']) : ¬ (c.input = some b ∨ c.output = some b) := by
  have hno (op : Str) (hmem : (given str op seg).getLast? = some b) : False := by
    have hword := isOperator_of_mem_given (List.mem_of_getLast? hmem)
    rw [hb] at hword
    exact absurd hword (by decide)
  rintro (hin | hout)
  · exact hno _ (h.input.symm.trans hin)
  · exact hno _ (h.output.symm.trans hout)

/-- The last file of an operator is the one that is specified if and only if it is a word. -/
theorem getLast?_taken_iff {last : Prop} (h : Segment str seg)
    (hr : Reads str last (redirections str seg)) (hop : isOperator op = true) :
    (taken str op (redirections str seg)).getLast? = (given str op seg).getLast? ↔
      WordLast str op (redirections str seg) := by
  have hws : ∀ w ∈ seg.takeWhile fun t => !isRedirect (str t), isOperator (str w) = false :=
    fun w hw => (h.plain w (List.takeWhile_subset _ hw)).trans
      (by simpa using List.all_eq_true.mp List.all_takeWhile w hw)
  have hgiven : given str op seg = given str op (redirections str seg) := by
    rw [← given_append_words hws hop (redirections str seg), redirections,
      List.takeWhile_append_dropWhile]
  rw [hgiven, given_reads (hr.mono fun _ => trivial) hop, getLast?_filter_iff]
  simp only [WordLast, Bool.not_eq_true']

/-- The commands of a line are as specified if and only if it is readable. -/
theorem specified_commands_iff (h : Piped str tokens) (mem : ℕ → Command α) (n : ℕ) :
    List.Forall₂ (Command.Specified str) (segments str tokens) (commandsOf str mem n tokens) ↔
      Readable str (segments str tokens) := by
  induction hlen : tokens.length using Nat.strongRecOn generalizing tokens n with
  | ind k ih =>
      obtain ⟨seg, l, segs, rfl, hseg, hl⟩ := h.split
      rw [hseg.segments_append hl, hseg.commandsOf, List.forall₂_cons, Readable]
      rcases fill_segment (mem n) hseg hl with
        ⟨hreads, hrest, hin, hout⟩ | ⟨hreads, ⟨hrest, b, hb, hbar⟩ | hword⟩
      · refine and_congr ?_ ?_
        · have hholds := fill_holds str (mem n) (seg ++ l)
          rw [(span_append hseg.plain hl).1] at hholds
          have hin' := getLast?_taken_iff hseg hreads (show isOperator ['<'] = true from rfl)
          have hout' := getLast?_taken_iff hseg hreads (show isOperator ['>'] = true from rfl)
          rw [← hin] at hin'
          rw [← hout] at hout'
          constructor
          · exact fun hs => ⟨hreads, hin'.mp hs.input, hout'.mp hs.output⟩
          · exact fun hf => ⟨hholds, hin'.mpr hf.input, hout'.mpr hf.output⟩
        · rw [hrest]
          cases hl with
          | nil => simp [Readable, Shell.commandsOf]
          | bar hb hpiped =>
              refine ih _ ?_ hpiped (n + 1) rfl
              simp only [← hlen, List.length_append, List.length_cons]
              omega
      · exact iff_of_false (fun hs => hs.1.not_bar hb hbar) fun hf => hreads hf.1.reads
      · -- the rest of the segment is a command more
        refine iff_of_false (fun hs => ?_) fun hf => hreads hf.1.reads
        obtain ⟨v, x, more, rfl, -, hx, hrest⟩ := hword
        have hseg' := hseg.of_append hx
        have hle := length_segments_le (hseg'.piped_append hl) mem (n + 1)
        rw [hseg'.segments_append hl, List.length_cons, ← hrest, ← hs.2.length_eq] at hle
        omega

/-- The links of a command are no part of what is specified. -/
theorem specified_unlinked {c : Command α} : c.unlinked.Specified str seg ↔ c.Specified str seg :=
  ⟨fun h => ⟨h.holds.of_unlinked, h.input, h.output⟩,
    fun h => ⟨⟨h.holds.args, h.holds.command⟩, h.input, h.output⟩⟩

/-- What the list in memory holds are the commands of the line, without their links. -/
theorem asSpecified_iff_commands (str : α → Str) (tokens : List α) (h : Heap α) :
    AsSpecified str tokens h ↔ List.Forall₂ (Command.Specified str) (segments str tokens)
      (commandsOf str h.cells h.size tokens) := by
  obtain ⟨tail, l, hb⟩ := buildCommandList_spec str tokens h
  have hcommands : List.Forall₂ (Command.Specified str) (segments str tokens)
        (l.map (buildCommandList str tokens h).2.cells) ↔
      List.Forall₂ (Command.Specified str) (segments str tokens)
        (commandsOf str h.cells h.size tokens) := by
    rw [← hb.commands, List.forall₂_map_right_iff, List.forall₂_map_right_iff]
    simp only [specified_unlinked]
  rw [← hcommands]
  constructor
  · rintro ⟨l', hl', hs⟩
    rwa [hl'.linked.unique hb.linked.linked] at hs
  · exact fun hs => ⟨l, hb.linked, hs⟩

end

/-- `buildCommandList` makes of a line what is specified if and only if, behind the words of
each of its segments, operators and files take turns, the last file of either operator is a
word, and only the last segment ends in an operator. -/
theorem asSpecified_iff {α : Type} (str : α → Str) (tokens : List α) (h : Heap α)
    (hpiped : Piped str tokens) :
    AsSpecified str tokens h ↔ Readable str (segments str tokens) :=
  (asSpecified_iff_commands str tokens h).trans (specified_commands_iff hpiped h.cells h.size)

/-- `sort < f > g | wc <`, with a file for each operator and one operator left over. -/
def sortLine : List Str :=
  [['s', 'o', 'r', 't'], ['<'], ['f'], ['>'], ['g'], ['|'], ['w', 'c'], ['<']]

/-- Two segments, the second of which ends in an operator. -/
theorem segments_sortLine : segments id sortLine =
    [[['s', 'o', 'r', 't'], ['<'], ['f'], ['>'], ['g']], [['w', 'c'], ['<']]] := by
  decide

/-- Both start with a word. -/
theorem piped_sortLine : Piped id sortLine := by
  intro seg hseg
  rw [segments_sortLine] at hseg
  rcases List.mem_cons.mp hseg with rfl | hseg
  · exact ⟨by decide, ['s', 'o', 'r', 't'], rfl, rfl⟩
  · obtain rfl := List.mem_singleton.mp hseg
    exact ⟨by decide, ['w', 'c'], rfl, rfl⟩

/-- Each operator has its file, but for the last `<`, which is at the end of the line. -/
theorem asSpecified_sortLine : AsSpecified id sortLine started.heap := by
  refine (asSpecified_iff id sortLine started.heap piped_sortLine).mpr ?_
  rw [segments_sortLine]
  have hf : WordLast id ['<'] [['<'], ['f'], ['>'], ['g']] := by
    rintro _ ⟨⟩
    rfl
  have hg : WordLast id ['>'] [['<'], ['f'], ['>'], ['g']] := by
    rintro _ ⟨⟩
    rfl
  exact ⟨⟨⟨rfl, rfl, trivial⟩, hf, hg⟩, ⟨⟨rfl, rfl⟩, nofun, nofun⟩, trivial⟩

/-- `a < x y`, with two words behind the operator. -/
def twoWords : List Str := [['a'], ['<'], ['x'], ['y']]

/-- The second word is a command of its own. -/
theorem not_asSpecified :
    Piped id twoWords ∧ ∀ h : Heap Str, ¬ AsSpecified id twoWords h := by
  have hsegs : segments id twoWords = [twoWords] := by decide
  have hpiped : Piped id twoWords := by
    intro seg hseg
    rw [hsegs] at hseg
    obtain rfl := List.mem_singleton.mp hseg
    exact ⟨by decide, ['a'], rfl, rfl⟩
  refine ⟨hpiped, fun h hs => ?_⟩
  have hread := (specified_commands_iff hpiped _ _).mp ((asSpecified_iff_commands id _ h).mp hs)
  rw [hsegs] at hread
  exact absurd hread.1.reads (by simp [redirections, isRedirect, twoWords, Reads])

end SystemsProjects.Shell
