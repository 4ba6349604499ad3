import SystemsProjects.Shell.Scan

/-!
# What the Tokenizer Copies

On a line without quotes `parse` keeps up with the scanner: the buffer holds the finished
tokens, each with its `nul`, and behind them the token that is being read, and `argv` says
where each of them begins. `split` decides from two neighbouring characters what the
scanner decides from the token it is in.

## Main definitions

* `Copied`: the buffer and `argv` hold what is scanned.
* `Tokens`: what `parse` leaves behind.

## Main results

* `parse_scan`: `parse` finds the tokens of the scanner.
-/

namespace SystemsProjects.Shell

open CStrings

variable {argcMax bufLen : ℕ} {st : Scan} {s : State} {c : Char}

/-- A character that is not part of a token. -/
def isGap (c : Char) : Bool := c = nul || isSpace c

/-- `split` between two characters that are no quotes, outside quotes. -/
theorem split_run {c1 c2 : Char} (h2 : s.in2quote = false) (h1 : s.in1quote = false)
    (hc1 : isQuote c1 = false) (hc2 : isQuote c2 = false) :
    split c1 c2 s =
      .ok ⟨!isGap c1 && (isSpace c2 || isOpChar c1 || isOpChar c2), !isSpace c2⟩ s := by
  have hq1 : isQuote c2 = false → c2 ≠ doubleQuote ∧ c2 ≠ singleQuote := by
    simp [isQuote]
  obtain ⟨hd, hs⟩ := hq1 hc2
  simp only [split, h1, h2, Bool.false_eq_true, if_false, if_neg hd, if_neg hs, hc1]
  by_cases hnul : c1 = nul
  · simp [hnul, isGap]
  · have hgap : isGap c1 = isSpace c1 := by simp [isGap, hnul]
    rw [if_neg hnul, hgap]
    by_cases hbar : c2 = '|'
    · subst hbar
      have hop : isOpChar '|' = true := rfl
      have hsp : isSpace '|' = false := rfl
      simp [hop, hsp]
    · rw [if_neg hbar]
      by_cases hbar1 : c1 = '|'
      · subst hbar1
        have hop : isOpChar '|' = true := rfl
        have hsp : isSpace '|' = false := rfl
        simp [hop, hsp]
      · rw [if_neg hbar1]
        cases hsp : isSpace c2 with
        | true => simp
        | false =>
            simp only [isOpChar, hbar, hbar1, decide_false, Bool.false_or]
            by_cases hop : c2 = '>' ∨ c2 = '<'
            · have hop' : (decide (c2 = '<') || decide (c2 = '>')) = true := by
                simpa [or_comm] using hop
              simp [hop, hop']
            · have hop' : (decide (c2 = '<') || decide (c2 = '>')) = false := by
                simpa [or_comm] using hop
              rw [if_neg Bool.false_ne_true, if_neg hop, hop']
              by_cases hop1 : c1 = '>' ∨ c1 = '<'
              · have hsp1 : isSpace c1 = false := by
                  rcases hop1 with rfl | rfl <;> rfl
                have hop1' : (decide (c1 = '<') || decide (c1 = '>')) = true := by
                  simpa [or_comm] using hop1
                simp [hop1, hop1', hsp1]
              · have hop1' : (decide (c1 = '<') || decide (c1 = '>')) = false := by
                  simpa [or_comm] using hop1
                simp [hop1, hop1']

/-! ### The arrays -/

/-- The buffer and `argv` hold what is scanned, outside quotes. -/
structure Copied (st : Scan) (s : State) : Prop where
  in2quote : s.in2quote = false
  in1quote : s.in1quote = false
  ptr : s.ptr = (pack nul st.1 ++ st.2).length
  i : s.i = st.1.length
  buf : Holds s.buf (pack nul st.1 ++ st.2)
  argv : ∀ k ≤ st.1.length, s.argv k = some (pack nul (st.1.take k)).length

/-- The same inside quotes or not. -/
structure Held (st : Scan) (s : State) : Prop where
  ptr : s.ptr = (pack nul st.1 ++ st.2).length
  i : s.i = st.1.length
  buf : Holds s.buf (pack nul st.1 ++ st.2)
  argv : ∀ k ≤ st.1.length, s.argv k = some (pack nul (st.1.take k)).length

/-- What is scanned outside quotes is held in the arrays. -/
theorem Copied.held (h : Copied st s) : Held st s := ⟨h.ptr, h.i, h.buf, h.argv⟩

/-- Outside quotes there is nothing more to it. -/
theorem Held.copied (h : Held st s) (h2 : s.in2quote = false) (h1 : s.in1quote = false) :
    Copied st s := ⟨h2, h1, h.ptr, h.i, h.buf, h.argv⟩

/-- A character is put behind the token that is being read. -/
theorem Held.putChar (h : Held st s) (c : Char) (hlt : s.ptr < bufLen) :
    ∃ s', putChar bufLen c s = .ok () s' ∧ Held (st.1, st.2 ++ [c]) s' ∧
      s'.in2quote = s.in2quote ∧ s'.in1quote = s.in1quote := by
  refine ⟨_, if_pos hlt, ?_, rfl, rfl⟩
  refine { h with ptr := ?_, buf := ?_ }
  · simp only [h.ptr, List.length_append, List.length_singleton, Nat.add_assoc]
  · rw [← List.append_assoc, h.ptr]
    exact h.buf.push c

/-- The token that is being read is finished. -/
theorem Held.endWord {val : Verdict} (h : Held st s) (hv : val.split) (hlt : s.ptr < bufLen)
    (hi : s.i + 1 < argcMax) :
    ∃ s', endWord argcMax bufLen val s = .ok () s' ∧ Held (st.1 ++ [st.2], []) s' ∧
      s'.in2quote = s.in2quote ∧ s'.in1quote = s.in1quote := by
  obtain ⟨s₁, hs₁, h₁, h2, h1⟩ := h.putChar nul hlt
  have hi₁ : s₁.i = s.i := by rw [h₁.i, h.i]
  refine ⟨{ s₁ with
    i := s₁.i + 1
    argv := Function.update s₁.argv (s₁.i + 1) (some s₁.ptr) }, ?_, ?_, h2, h1⟩
  · have hput : s₁.i + 1 < argcMax := by rwa [hi₁]
    simp only [Shell.endWord, hv, if_true, Stateful.bind_run, hs₁, nextIndex, Shell.ptr, putArgv,
      if_pos hput]
  · have hpack : pack nul (st.1 ++ [st.2]) ++ [] = pack nul st.1 ++ (st.2 ++ [nul]) := by
      simp [pack_concat]
    constructor
    · rw [hpack]
      exact h₁.ptr
    · simp [h₁.i]
    · rw [hpack]
      exact h₁.buf
    · intro k hk
      simp only [List.length_append, List.length_singleton] at hk
      by_cases e : k = s₁.i + 1
      · subst e
        simp only [Function.update_self, h₁.ptr]
        have htake : (st.1 ++ [st.2]).take (s₁.i + 1) = st.1 ++ [st.2] :=
          List.take_of_length_le (by simp [h₁.i])
        rw [htake, ← hpack, List.append_nil]
      · have hle : k ≤ st.1.length := by
          have := h₁.i
          simp only at this
          omega
        simp only [Function.update_of_ne e, h₁.argv k hle, List.take_append_of_le_length hle]

/-- A character that is kept is put at the end of the token that is being read. -/
theorem Copied.putChar (h : Copied st s) (c : Char) (hlt : s.ptr < bufLen) :
    ∃ s', putChar bufLen c s = .ok () s' ∧ Copied (st.1, st.2 ++ [c]) s' := by
  obtain ⟨s', hs', h', h2, h1⟩ := h.held.putChar c hlt
  exact ⟨s', hs', h'.copied (h2.trans h.in2quote) (h1.trans h.in1quote)⟩

/-- The end of a word is put behind it, and the next word begins there. -/
theorem Copied.endWord {val : Verdict} (h : Copied st s) (hv : val.split) (hlt : s.ptr < bufLen)
    (hi : s.i + 1 < argcMax) :
    ∃ s', endWord argcMax bufLen val s = .ok () s' ∧ Copied (st.1 ++ [st.2], []) s' := by
  obtain ⟨s', hs', h', h2, h1⟩ := h.held.endWord hv hlt hi
  exact ⟨s', hs', h'.copied (h2.trans h.in2quote) (h1.trans h.in1quote)⟩

/-! ### One character -/

/-- What `parse` knows between two characters: the last one is that of the token that is
being read, or no part of a token. -/
structure Reading (st : Scan) (s : State) : Prop extends Copied st s where
  gap : st.2 = [] → isGap s.prev
  last : st.2 ≠ [] → st.2.getLast? = some s.prev ∧ isGap s.prev = false
  noQuote : isQuote s.prev = false

/-- The scanner splits where `split` does. -/
theorem Reading.scanStep_eq (h : Reading st s) (c : Char) :
    scanStep st c =
      if !isGap s.prev && (isSpace c || isOpChar s.prev || isOpChar c) then
        (st.1 ++ [st.2], if isSpace c then [] else [c])
      else (st.1, if isSpace c then st.2 else st.2 ++ [c]) := by
  obtain ⟨ts, w⟩ := st
  by_cases hw : w = []
  · subst hw
    simp only [scanStep, h.gap rfl]
    cases isSpace c <;> simp
  · obtain ⟨hlast, hgap⟩ := h.last hw
    have hend : endsWithOp w = isOpChar s.prev := by simp [endsWithOp, hlast]
    simp only [scanStep, hend, hgap]
    cases isSpace c <;> simp [hw, tokens_of_ne]

/-- What is behind the test of the flag `SPLIT`. -/
theorem Copied.save {val : Verdict} (h : Copied st s) (hc : isQuote c = false) (hnul : c ≠ nul)
    (hv : val.save = !isSpace c) (hlt : s.ptr < bufLen) (hnil : isSpace c → st.2 = []) :
    ∃ s', (do
        saveChar bufLen val c
        setPrev c : Parse Unit) s = .ok () s' ∧
      Reading (st.1, if isSpace c then st.2 else st.2 ++ [c]) s' := by
  have hgap : isGap c = isSpace c := by simp [isGap, hnul]
  cases hsp : isSpace c with
  | true =>
      refine ⟨{ s with prev := c }, ?_, ?_⟩
      · simp [Stateful.bind_run, Stateful.pure_run, saveChar, setPrev, hv, hsp]
      · refine { h with gap := fun _ => ?_, last := fun hne => ?_, noQuote := hc }
        · rw [hgap, hsp]
        · exact absurd (hnil hsp) hne
  | false =>
      obtain ⟨s₁, hs₁, h₁⟩ := h.putChar c hlt
      refine ⟨{ s₁ with prev := c }, ?_, ?_⟩
      · simp [Stateful.bind_run, saveChar, hs₁, setPrev, hv, hsp]
      · refine { h₁ with gap := fun hnil => ?_, last := fun _ => ⟨?_, ?_⟩, noQuote := hc }
        · simp at hnil
        · simp
        · rw [hgap, hsp]

/-- One character of the loop is one step of the scanner. -/
theorem parseChar_run (h : Reading st s) (hc : isQuote c = false) (hnul : c ≠ nul)
    (hbuf : (pack nul (scanStep st c).tokens).length < bufLen)
    (hargc : (scanStep st c).1.length < argcMax) :
    ∃ s', parseChar argcMax bufLen c s = .ok () s' ∧ Reading (scanStep st c) s' := by
  obtain ⟨val, hval⟩ : ∃ val : Verdict, val =
    ⟨!isGap s.prev && (isSpace c || isOpChar s.prev || isOpChar c), !isSpace c⟩ := ⟨_, rfl⟩
  have hrun : parseChar argcMax bufLen c s = (do
      endWord argcMax bufLen val
      saveChar bufLen val c
      setPrev c : Parse Unit) s := by
    have hprev : prev s = .ok s.prev s := rfl
    rw [parseChar, Stateful.run_bind_ok hprev, Stateful.run_bind_ok
      (split_run h.in2quote h.in1quote h.noQuote hc), hval]
  have hsave : val.save = !isSpace c := by rw [hval]
  have hstep : scanStep st c = if val.split then
      (st.1 ++ [st.2], if isSpace c then [] else [c])
      else (st.1, if isSpace c then st.2 else st.2 ++ [c]) := by
    rw [h.scanStep_eq, hval]
  rw [hrun, hstep]
  rw [hstep] at hbuf hargc
  cases hsplit : val.split with
  | true =>
      simp only [hsplit, if_true] at hbuf hargc
      have hfit : (pack nul st.1 ++ st.2).length + 1 < bufLen := by
        refine Nat.lt_of_le_of_lt ?_ hbuf
        cases isSpace c with
        | true => simp [Scan.tokens, pack_append, pack_cons, Nat.add_assoc]
        | false =>
            have hpack : pack nul (Scan.tokens (st.1 ++ [st.2], [c])) =
              pack nul st.1 ++ (st.2 ++ [nul]) ++ [c, nul] := by
                simp [Scan.tokens, pack_append, pack_cons]
            rw [if_neg Bool.false_ne_true, hpack]
            simp only [List.length_append, List.length_cons, List.length_nil]
            omega
      have hlt : s.ptr < bufLen := by
        rw [h.ptr]
        omega
      obtain ⟨s₁, hs₁, h₁⟩ := h.toCopied.endWord hsplit hlt (by simpa [h.i] using hargc)
      obtain ⟨s₂, hs₂, h₂⟩ := h₁.save hc hnul hsave
        (by rw [h₁.ptr]; simp [pack_append, pack_cons] at hfit ⊢; omega) fun _ => rfl
      rw [Stateful.run_bind_ok hs₁]
      exact ⟨s₂, hs₂, h₂⟩
  | false =>
      simp only [hsplit, Bool.false_eq_true, if_false] at hbuf
      have hfit : (pack nul st.1 ++ st.2).length < bufLen := by
        refine Nat.lt_of_le_of_lt ?_ hbuf
        simp only [Scan.tokens]
        split <;> split <;> simp_all [pack_append, pack_cons]
      have hw : endWord argcMax bufLen val s = .ok () s := by
        simp [endWord, hsplit, Stateful.pure_run]
      rw [Stateful.run_bind_ok hw]
      refine h.toCopied.save hc hnul hsave (by rwa [h.ptr]) fun hsp => ?_
      by_contra hne
      simp [hval, (h.last hne).2, hsp] at hsplit

/-! ### The line -/

/-- The loop keeps up with the scanner to the end of the line. It may stop early when
`argv` is full, and then the line has no token left. -/
theorem parseLoop_run {l : Str} (h : Reading st s)
    (hl : ∀ c ∈ l, isQuote c = false ∧ c ≠ nul)
    (hargc : (scanFrom st l).tokens.length < argcMax)
    (hbuf : (pack nul (scanFrom st l).tokens).length + 2 ≤ bufLen) :
    ∃ st' s', parseLoop argcMax bufLen l s = .ok () s' ∧ Copied st' s' ∧
      st'.tokens = (scanFrom st l).tokens := by
  induction l generalizing st s with
  | nil => exact ⟨st, s, rfl, h.toCopied, rfl⟩
  | cons c l ih =>
      rw [scanFrom_cons] at hargc hbuf ⊢
      obtain ⟨hq, hnul⟩ := hl c (by simp)
      have hfst : (scanStep st c).1 <+: (scanFrom (scanStep st c) l).tokens :=
        fst_prefix_scanFrom _ l
      have hpack := pack_scanFrom (scanStep st c) l
      have hlt : (pack nul (scanStep st c).tokens).length < bufLen := by omega
      obtain ⟨s₁, hs₁, h₁⟩ := parseChar_run h hq hnul hlt
        (Nat.lt_of_le_of_lt hfst.length_le hargc)
      have hptr : s₁.ptr ≤ (pack nul (scanStep st c).tokens).length := by
        rw [h₁.ptr, Scan.tokens]
        split <;> simp_all [pack_append, pack_cons]
      have hrun : parseLoop argcMax bufLen (c :: l) s =
          if s₁.i + 1 ≥ argcMax then .ok () s₁ else parseLoop argcMax bufLen l s₁ := by
        rw [parseLoop, if_neg hnul, Stateful.run_bind_ok hs₁]
        have hfit : ¬ s₁.ptr + 2 > bufLen := by omega
        simp only [Stateful.bind_run, ptr, index, if_neg hfit]
        split <;> rfl
      rw [hrun]
      split
      · next hfull =>
          -- `argv` is full: every token is finished
          have hlen := length_scanFrom (scanStep st c) l
          have hle := hfst.length_le
          rw [h₁.i] at hfull
          have heq : (scanStep st c).1 = (scanFrom (scanStep st c) l).tokens :=
            hfst.eq_of_length (by omega)
          refine ⟨scanStep st c, s₁, rfl, h₁.toCopied, ?_⟩
          rw [← heq, Scan.tokens, if_pos]
          by_contra hne
          rw [Scan.tokens, if_neg hne, List.length_append, List.length_singleton] at hlen
          omega
      · exact ih h₁ (fun d hd => hl d (by simp [hd])) hargc hbuf

/-- What `parse` leaves in the arrays: the tokens, where each of them begins, and `NULL`
behind the last one. -/
structure Tokens (ts : List Str) (s : State) : Prop where
  buf : Holds s.buf (pack nul ts)
  argv : ∀ k < ts.length, s.argv k = some (pack nul (ts.take k)).length
  null : s.argv ts.length = none

/-- The statement behind the loop, if there is a token that is not finished. -/
theorem endLine_eq (h : Held st s) : endLine bufLen s =
    if st.2 = [] then .ok () s else (do putChar bufLen nul; nextIndex : Parse Unit) s := by
  have hrun : endLine bufLen s =
      if some s.ptr ≠ s.argv s.i then (do putChar bufLen nul; nextIndex : Parse Unit) s
      else .ok () s := by
    simp only [endLine, Stateful.bind_run, ptr, argvAt]
    split <;> rfl
  have hargv : s.argv s.i = some (pack nul st.1).length := by
    rw [h.argv s.i (Nat.le_of_eq h.i), h.i, List.take_length]
  rw [hrun, hargv, h.ptr]
  by_cases hw : st.2 = []
  · rw [if_pos hw, hw, List.append_nil, if_neg (not_not.mpr rfl)]
  · rw [if_neg hw, if_pos]
    simpa using hw

/-- The statement behind the loop finishes the last token. -/
theorem endLine_run (h : Held st s) (hbuf : (pack nul st.tokens).length ≤ bufLen) :
    ∃ s', endLine bufLen s = .ok () s' ∧ s'.i = st.tokens.length ∧
      Holds s'.buf (pack nul st.tokens) ∧
      ∀ k < st.tokens.length, s'.argv k = some (pack nul (st.tokens.take k)).length := by
  have hrun : endLine bufLen s = _ := endLine_eq h
  obtain ⟨ts, w⟩ := st
  by_cases hw : w = []
  · subst hw
    refine ⟨s, hrun.trans (if_pos rfl), h.i, ?_, fun k hk => h.argv k (Nat.le_of_lt hk)⟩
    simpa using h.buf
  · rw [tokens_of_ne hw] at hbuf ⊢
    have hlt : s.ptr < bufLen := by
      rw [h.ptr]
      simp only [pack_concat, List.length_append, List.length_singleton] at hbuf ⊢
      omega
    obtain ⟨s₁, hs₁, h₁, -, -⟩ := h.putChar nul hlt
    refine ⟨{ s₁ with i := s₁.i + 1 }, ?_, ?_, ?_, fun k hk => ?_⟩
    · rw [hrun, if_neg hw, Stateful.run_bind_ok hs₁]
      rfl
    · simp [h₁.i]
    · simpa [pack_concat] using h₁.buf
    · have hle : k ≤ ts.length := by
        simpa [Nat.lt_succ_iff] using hk
      simp only [h₁.argv k hle, List.take_append_of_le_length hle]

/-- What is behind the loop leaves the tokens, where there is room for them. -/
theorem parseEnd_run (h : Held st s) (hargc : st.tokens.length < argcMax)
    (hbuf : (pack nul st.tokens).length ≤ bufLen) :
    ∃ s', (do endLine bufLen; putArgv argcMax none; index : Parse ℕ) s =
      .ok st.tokens.length s' ∧ Tokens st.tokens s' := by
  obtain ⟨s₂, hs₂, hi, hb, ha⟩ := endLine_run h hbuf
  refine ⟨{ s₂ with argv := Function.update s₂.argv s₂.i none }, ?_, hb, fun k hk => ?_, ?_⟩
  · have hfull : putArgv argcMax none s₂ =
        .ok () { s₂ with argv := Function.update s₂.argv s₂.i none } := if_pos (by omega)
    simp only [Stateful.bind_run, hs₂, hfull, index]
    rw [hi]
  · have hne : k ≠ s₂.i := by omega
    simp only [Function.update_of_ne hne, ha k hk]
  · simp only [hi, Function.update_self]

/-- What is set before the loop. -/
theorem parse_start (line : Str) (bufLen : ℕ) (hput : 0 < argcMax) (s : State) :
    ∃ s₀, parse line argcMax bufLen s = (do
        parseLoop argcMax bufLen line
        endLine bufLen
        putArgv argcMax none
        index : Parse ℕ) s₀ ∧
      Copied ([], []) s₀ ∧ s₀.prev = nul := by
  let s₀ : State := { s with
    in1quote := false, in2quote := false, ptr := 0, i := 0, prev := nul
    argv := Function.update s.argv 0 (some 0) }
  have hs₀ : putArgv argcMax (some 0)
      { s with in1quote := false, in2quote := false, ptr := 0, i := 0, prev := nul } =
        .ok () s₀ := if_pos hput
  refine ⟨s₀, ?_, ⟨rfl, rfl, rfl, rfl, .nil, fun k hk => ?_⟩, rfl⟩
  · simp only [parse, Stateful.bind_run, start, ptr, hs₀]
  · obtain rfl : k = 0 := Nat.le_zero.mp hk
    exact Function.update_self 0 _ s.argv

/-- `parse` finds the tokens of the scanner, on a line without quotes that fits. -/
theorem parse_scan {line : Str} (s : State) (hl : ∀ c ∈ line, isQuote c = false ∧ c ≠ nul)
    (hargc : (scan line).length < argcMax)
    (hbuf : (pack nul (scan line)).length + 2 ≤ bufLen) :
    ∃ s', parse line argcMax bufLen s = .ok (scan line).length s' ∧ Tokens (scan line) s' := by
  obtain ⟨s₀, hrun, h₀, hprev⟩ := parse_start line bufLen (by omega : 0 < argcMax) s
  have hreading : Reading ([], []) s₀ :=
    ⟨h₀, fun _ => hprev ▸ rfl, fun hne => absurd rfl hne, hprev ▸ rfl⟩
  obtain ⟨st₁, s₁, hs₁, h₁, htokens⟩ := parseLoop_run hreading hl hargc hbuf
  have hscan : st₁.tokens = scan line := htokens
  rw [← hscan] at hargc hbuf ⊢
  obtain ⟨s', hs', htokens'⟩ := parseEnd_run h₁.held hargc (by omega : _ ≤ bufLen)
  refine ⟨s', ?_, htokens'⟩
  rw [hrun, Stateful.run_bind_ok hs₁, hs']

/-- The tokens are read back as strings from where `argv` says they begin. -/
theorem Tokens.strings {ts : List Str} (h : Tokens ts s) (hnul : ∀ t ∈ ts, nul ∉ t)
    (hbuf : (pack nul ts).length ≤ bufLen) :
    ∃ ps : List ℕ, (List.range ts.length).map s.argv = ps.map some ∧
      ps.map (cString bufLen s.buf) = ts := by
  refine ⟨(List.range ts.length).map fun k => (pack nul (ts.take k)).length, ?_, ?_⟩
  · rw [List.map_map]
    exact List.map_congr_left fun k hk => h.argv k (List.mem_range.mp hk)
  · rw [List.map_map]
    refine List.ext_getElem (by simp) fun k _ hk => ?_
    rw [List.getElem_map, List.getElem_range]
    have hsplit : ts = ts.take k ++ ts[k] :: ts.drop (k + 1) := by simp
    have hholds : Holds s.buf (pack nul (ts.take k ++ ts[k] :: ts.drop (k + 1))) := by
      rw [← hsplit]
      exact h.buf
    refine stringAt_pack hholds (hnul _ (List.getElem_mem _)) (Nat.le_trans ?_ hbuf)
    have htake : ts.take k ++ [ts[k]] ++ ts.drop (k + 1) = ts := by simp
    have hpack : pack nul (ts.take k ++ [ts[k]]) ++ pack nul (ts.drop (k + 1)) = pack nul ts := by
      rw [← pack_append, htake]
    have hlen := congrArg List.length hpack
    rw [List.length_append] at hlen
    omega

end SystemsProjects.Shell
