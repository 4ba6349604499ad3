import SystemsProjects.Shell.Limits
import SystemsProjects.Shell.Tokenizer

/-!
# Reading Any Line

What `parse` reads, with quotes or without: the verdicts of `split` say where a token ends
and which characters it has. `parse` reads a line to its end or until one of its arrays is
full. What it has read by then is the beginning of what the whole line would give, so that
on a line within the limits nothing is missing.

## Main definitions

* `Lexer`: what is known between two characters.
* `Begins`: what has been read is the beginning of these tokens.
* `Fits`: the limits of `parse`.

## Main results

* `parse_lexes`: what `parse` leaves, where it returns, has been read from a part of the line.
* `parse_fits`: within the limits it is the whole line.
-/

namespace SystemsProjects.Shell

open CStrings Stateful

variable {argcMax bufLen : ℕ} {ts : List Str}

/-! ### What is read -/

/-- A character is read, of which `split` says `val`. -/
def Scan.next (st : Scan) (val : Verdict) (c : Char) : Scan :=
  let st := if val.split then (st.1 ++ [st.2], []) else st
  if val.save then (st.1, st.2 ++ [c]) else st

/-- What is known between two characters: the quotes, the last character, and the tokens so far.
The arrays are left out. -/
structure Lexer where
  quotes : Quotes
  prev : Char
  scan : Scan

namespace Lexer

/-- One more character. -/
def step (x : Lexer) (c : Char) : Lexer :=
  ⟨(mark x.quotes x.prev c).2, c, x.scan.next (mark x.quotes x.prev c).1 c⟩

/-- Some more characters. -/
def run (x : Lexer) (l : Str) : Lexer := l.foldl step x

/-- Before a line. -/
def start : Lexer := ⟨⟨false, false⟩, nul, ([], [])⟩

/-- An empty text changes nothing. -/
@[simp] theorem run_nil (x : Lexer) : x.run [] = x := rfl

/-- A text is read character by character, from the left. -/
@[simp] theorem run_cons (x : Lexer) (c : Char) (l : Str) : x.run (c :: l) = (x.step c).run l := rfl

/-- One character: what it is, is decided by the one before it and the quotes it stands in. -/
theorem step_eq {x : Lexer} {c : Char} {val : Verdict} {q : Quotes}
    (h : mark x.quotes x.prev c = (val, q)) : x.step c = ⟨q, c, x.scan.next val c⟩ := by
  rw [step, h]

/-- A text may be read in two parts. -/
theorem run_append (x : Lexer) (l l' : Str) : x.run (l ++ l') = (x.run l).run l' :=
  List.foldl_append

end Lexer

/-! ### Beginnings -/

open Lexer

/-- The tokens begin with the finished ones, and the next of them with what is being read. -/
def Scan.Begins (st : Scan) (ts : List Str) : Prop :=
  (st.2 = [] ∧ ts = st.1) ∨ ∃ u more, ts = st.1 ++ (st.2 ++ u) :: more

variable {st : Scan} {val : Verdict} {c : Char}

/-- What has been read so far is the beginning of itself. -/
theorem begins_tokens (st : Scan) : st.Begins st.tokens := by
  by_cases h : st.2 = []
  · exact .inl ⟨h, if_pos h⟩
  · refine .inr ⟨[], [], ?_⟩
    rw [List.append_nil]
    exact if_neg h

/-- What is read next goes on with what has been read. -/
theorem Scan.Begins.of_next (h : (st.next val c).Begins ts) : st.Begins ts := by
  have hended {w : Str} (h : Scan.Begins (st.1 ++ [st.2], w) ts) : st.Begins ts := by
    rcases h with ⟨-, rfl⟩ | ⟨u, more, rfl⟩
    · exact .inr ⟨[], [], by simp⟩
    · exact .inr ⟨[], (w ++ u) :: more, by simp⟩
  cases hsplit : val.split with
  | true =>
      cases hsave : val.save with
      | true =>
          simp only [Scan.next, hsplit, hsave, if_true] at h
          exact hended h
      | false =>
          simp only [Scan.next, hsplit, hsave, if_true, Bool.false_eq_true, if_false] at h
          exact hended h
  | false =>
      cases hsave : val.save with
      | true =>
          simp only [Scan.next, hsplit, hsave, if_true, Bool.false_eq_true, if_false] at h
          rcases h with ⟨hnil, -⟩ | ⟨u, more, rfl⟩
          · simp at hnil
          · exact .inr ⟨c :: u, more, by simp⟩
      | false =>
          simpa only [Scan.next, hsplit, hsave, Bool.false_eq_true, if_false] using h

/-- What has been read is the beginning of all that is read of the line. -/
theorem begins_run {x : Lexer} {l : Str} (h : (x.run l).scan.Begins ts) : x.scan.Begins ts := by
  induction l generalizing x with
  | nil => exact h
  | cons c l ih => exact (ih h).of_next

/-- The tokens of a beginning are no more than those of the whole. -/
theorem Scan.Begins.length_le (h : st.Begins ts) : st.tokens.length ≤ ts.length := by
  rcases h with ⟨hnil, rfl⟩ | ⟨u, more, rfl⟩
  · exact Nat.le_of_eq (congrArg List.length (if_pos hnil))
  · unfold Scan.tokens
    split <;> simp

/-! ### No `nul` -/

/-- Ending the token that is being read puts no `nul` into it. -/
theorem nul_notMem_ended (h : ∀ t ∈ st.2 :: st.1, nul ∉ t) : ∀ t ∈ st.1 ++ [st.2], nul ∉ t := by
  intro t ht
  rw [List.mem_append, List.mem_singleton, or_comm, ← List.mem_cons] at ht
  exact h t ht

/-- Nor does reading a character, unless it is `nul`. -/
theorem nul_notMem_next (hc : c ≠ nul) (h : ∀ t ∈ st.2 :: st.1, nul ∉ t) :
    ∀ t ∈ (st.next val c).2 :: (st.next val c).1, nul ∉ t := by
  obtain ⟨hcur, hdone⟩ := List.forall_mem_cons.mp h
  have hconcat {w : Str} (hw : nul ∉ w) : nul ∉ w ++ [c] := by
    simp [hw, hc.symm]
  simp only [Scan.next]
  cases val.split with
  | true =>
      cases val.save with
      | true => exact List.forall_mem_cons.mpr ⟨hconcat List.not_mem_nil, nul_notMem_ended h⟩
      | false => exact List.forall_mem_cons.mpr ⟨List.not_mem_nil, nul_notMem_ended h⟩
  | false =>
      cases val.save with
      | true => exact List.forall_mem_cons.mpr ⟨hconcat hcur, hdone⟩
      | false => exact h

/-- What is read from characters that are not `nul` has none in it. -/
theorem nul_notMem_run {x : Lexer} {l : Str} (hx : ∀ t ∈ x.scan.2 :: x.scan.1, nul ∉ t)
    (hl : ∀ c ∈ l, c ≠ nul) : ∀ t ∈ (x.run l).scan.tokens, nul ∉ t := by
  induction l generalizing x with
  | nil =>
      rw [run_nil, Scan.tokens]
      split
      · exact (List.forall_mem_cons.mp hx).2
      · exact nul_notMem_ended hx
  | cons c l ih =>
      obtain ⟨hc, hl⟩ := List.forall_mem_cons.mp hl
      exact ih (x := x.step c) (nul_notMem_next hc hx) hl

/-! ### The limits -/

/-- The tokens are within the limits: the arrays have room for them, and `parse` sees the
quote behind an empty last token before the buffer is full. -/
structure Fits (argcMax bufLen : ℕ) (ts : List Str) : Prop where
  argc : ts.length < argcMax
  buf : (pack nul ts).length ≤ bufLen
  last : ts.getLast? = some [] → (pack nul ts).length < bufLen

/-- Where there are tokens, there is room for what the loop asks before every character. -/
theorem Fits.room (h : Fits argcMax bufLen ts) (hne : ts ≠ []) : 2 ≤ argcMax ∧ 2 ≤ bufLen := by
  have hargc := h.argc
  have hbuf := h.buf
  match ts, hne with
  | [[]], _ =>
      have hlast := h.last rfl
      simp only [pack_cons, List.nil_append, List.length_cons] at hlast
      exact ⟨hargc, by omega⟩
  | [c :: t], _ =>
      simp only [pack_cons, List.cons_append, List.length_cons, List.length_append] at hbuf
      exact ⟨hargc, by omega⟩
  | t :: u :: ts, _ =>
      simp only [pack_cons, List.length_append, List.length_cons] at hargc hbuf
      exact ⟨by omega, by omega⟩

/-- Where an array is full, all of the tokens have been read. -/
theorem Scan.Begins.eq_of_full (h : st.Begins ts) (hfits : Fits argcMax bufLen ts)
    (hfull : bufLen < (pack nul st.1 ++ st.2).length + 2 ∨ argcMax ≤ st.1.length + 1) :
    st.tokens = ts := by
  obtain ⟨done, w⟩ := st
  rcases h with ⟨hnil, rfl⟩ | ⟨u, more, rfl⟩
  · exact if_pos hnil
  have hargc := hfits.argc
  have hbuf := hfits.buf
  simp only [List.length_append, List.length_cons, pack_append, pack_cons] at hargc hbuf hfull
  -- nothing but the `nul` of the token that is being read is missing
  have hlen : u.length + (pack nul more).length = 0 := by omega
  obtain rfl : u = [] := List.eq_nil_of_length_eq_zero (by omega)
  obtain rfl : more = [] := by
    cases more with
    | nil => rfl
    | cons t more =>
        simp only [pack_cons, List.length_append, List.length_cons] at hlen
        omega
  rw [List.append_nil, tokens_of_ne]
  rintro rfl
  have hlast := hfits.last (by simp)
  simp only [List.append_nil, pack_concat, List.length_append, List.length_singleton,
    List.length_nil] at hlast hfull
  omega

/-! ### The arrays -/

/-- `parse` is between two characters, in the state of the lexer, with its tokens in the arrays. -/
structure Follows (x : Lexer) (s : State) : Prop where
  quotes : s.quotes = x.quotes
  prev : s.prev = x.prev
  held : Held x.scan s

variable {x : Lexer} {s : State}

/-- One character, where both arrays have room. -/
theorem Follows.parseChar (h : Follows x s) (hargc : s.i + 2 ≤ argcMax) (hbuf : s.ptr + 2 ≤ bufLen)
    (c : Char) :
    ∃ s', parseChar argcMax bufLen c s = .ok () s' ∧ Follows (x.step c) s' ∧ s'.i ≤ s.i + 1 ∧
      s'.ptr ≤ s.ptr + 2 := by
  obtain ⟨val, hval⟩ : ∃ val, val = (mark x.quotes x.prev c).1 := ⟨_, rfl⟩
  let q := (mark x.quotes x.prev c).2
  have hmark : mark s.quotes s.prev c = (val, q) := by
    rw [h.quotes, h.prev, hval]
  have hheld : Held x.scan (s.quoted q) := ⟨h.held.ptr, h.held.i, h.held.buf, h.held.argv⟩
  -- behind the statement under `SPLIT`
  obtain ⟨s₁, hs₁, h₁, hq₁, hi₁, hptr₁⟩ : ∃ s₁,
      endWord argcMax bufLen val (s.quoted q) = .ok () s₁ ∧
        Held (if val.split then (x.scan.1 ++ [x.scan.2], []) else x.scan) s₁ ∧ s₁.quotes = q ∧
        s₁.i ≤ s.i + 1 ∧ s₁.ptr ≤ s.ptr + 1 := by
    cases hv : val.split with
    | true =>
        obtain ⟨s₁, hs₁, h₁, h2, h1⟩ := hheld.endWord hv (Nat.lt_of_succ_lt hbuf) hargc
        refine ⟨s₁, hs₁, h₁, congrArg₂ Quotes.mk h2 h1, ?_, ?_⟩
        · rw [h₁.i, h.held.i]
          exact Nat.le_of_eq List.length_append
        · rw [h₁.ptr, h.held.ptr]
          simp [pack_concat, Nat.add_assoc]
    | false =>
        refine ⟨s.quoted q, ?_, hheld, rfl, Nat.le_succ _, Nat.le_succ _⟩
        rw [endWord, hv, if_neg Bool.false_ne_true]
        rfl
  -- behind the statement under `SAVE`
  obtain ⟨s₂, hs₂, h₂, hq₂, hi₂, hptr₂⟩ : ∃ s₂,
      saveChar bufLen val c s₁ = .ok () s₂ ∧ Held (x.scan.next val c) s₂ ∧ s₂.quotes = q ∧
        s₂.i = s₁.i ∧ s₂.ptr ≤ s₁.ptr + 1 := by
    cases hv : val.save with
    | true =>
        obtain ⟨s₂, hs₂, h₂, h2, h1⟩ := h₁.putChar c (by omega : s₁.ptr < bufLen)
        refine ⟨s₂, ?_, ?_, (congrArg₂ Quotes.mk h2 h1).trans hq₁, h₂.i.trans h₁.i.symm, ?_⟩
        · rw [saveChar, hv, if_pos rfl, hs₂]
        · rw [Scan.next, hv]
          exact h₂
        · rw [h₂.ptr, h₁.ptr]
          simp [Nat.add_assoc]
    | false =>
        refine ⟨s₁, ?_, ?_, hq₁, rfl, Nat.le_succ _⟩
        · rw [saveChar, hv, if_neg Bool.false_ne_true]
          rfl
        · rw [Scan.next, hv]
          exact h₁
  refine ⟨{ s₂ with prev := c }, ?_, ⟨hq₂, rfl, ?_⟩, Nat.le_trans (Nat.le_of_eq hi₂) hi₁, ?_⟩
  · rw [parseChar_eq hmark, run_bind_ok hs₁, run_bind_ok hs₂]
    rfl
  · have h₂' : Held (x.step c).scan s₂ := by rwa [hval] at h₂
    exact ⟨h₂'.ptr, h₂'.i, h₂'.buf, h₂'.argv⟩
  · change s₂.ptr ≤ s.ptr + 2
    omega

/-- The loop reads the line, or a part of it that fills an array. -/
theorem Follows.parseLoop (h : Follows x s) (hargc : s.i + 2 ≤ argcMax) (hbuf : s.ptr + 2 ≤ bufLen)
    {line : Str} (hline : ∀ c ∈ line, c ≠ nul) :
    ∃ p s', p <+: line ∧ parseLoop argcMax bufLen line s = .ok () s' ∧ Follows (x.run p) s' ∧
      s'.ptr ≤ bufLen ∧ (p = line ∨ s'.ptr + 2 > bufLen ∨ s'.i + 1 ≥ argcMax) := by
  induction line generalizing x s with
  | nil => exact ⟨[], s, List.prefix_rfl, rfl, h, by omega, .inl rfl⟩
  | cons c line ih =>
      obtain ⟨s₁, hs₁, h₁, hi, hptr⟩ := h.parseChar hargc hbuf c
      rw [parseLoop_cons (hline c List.mem_cons_self) hs₁]
      by_cases hfull : s₁.ptr + 2 > bufLen ∨ s₁.i + 1 ≥ argcMax
      · exact ⟨[c], s₁, ⟨line, rfl⟩, if_pos hfull, h₁, by omega, .inr hfull⟩
      · obtain ⟨p, s', hp, hs', h', hle, hend⟩ := ih h₁ (by omega) (by omega)
          fun d hd => hline d (List.mem_cons_of_mem c hd)
        refine ⟨c :: p, s', List.cons_prefix_cons.mpr ⟨rfl, hp⟩, ?_, h', hle, ?_⟩
        · rw [if_neg hfull, hs']
        · exact hend.imp_left (congrArg _)

/-! ### The whole of `parse` -/

/-- `parse` reads the line, or a part of it that fills an array, and does then what is behind
the loop. -/
theorem parse_reads {line : Str} (hline : ∀ c ∈ line, c ≠ nul) (hargc : 2 ≤ argcMax)
    (hbuf : 2 ≤ bufLen) (s : State) :
    ∃ p s', p <+: line ∧ Held (Lexer.start.run p).scan s' ∧ s'.ptr ≤ bufLen ∧
      (p = line ∨ s'.ptr + 2 > bufLen ∨ s'.i + 1 ≥ argcMax) ∧
      parse line argcMax bufLen s =
        (do endLine bufLen; putArgv argcMax none; index : Parse ℕ) s' := by
  obtain ⟨s₀, hrun, h₀, hprev⟩ := parse_start line bufLen (by omega : 0 < argcMax) s
  have hfollows : Follows Lexer.start s₀ :=
    ⟨congrArg₂ Quotes.mk h₀.in2quote h₀.in1quote, hprev, h₀.held⟩
  have hi : s₀.i = 0 := h₀.i
  have hptr : s₀.ptr = 0 := h₀.ptr
  obtain ⟨p, s', hp, hs', h', hle, hend⟩ :=
    hfollows.parseLoop (by omega : _ ≤ argcMax) (by omega : _ ≤ bufLen) hline
  refine ⟨p, s', hp, h'.held, hle, hend, ?_⟩
  rw [hrun, run_bind_ok hs']

/-- Where what is behind the loop does not fail, there was room for the tokens. -/
theorem room_of_finish {s' : State} {n : ℕ} (h : Held st s) (hptr : s.ptr ≤ bufLen)
    (hrun : (do endLine bufLen; putArgv argcMax none; index : Parse ℕ) s = .ok n s') :
    st.tokens.length < argcMax ∧ (pack nul st.tokens).length ≤ bufLen := by
  obtain ⟨_, s₁, hs₁, hrest⟩ := bind_eq_ok.mp hrun
  have hbuf : (pack nul st.tokens).length ≤ bufLen := by
    by_cases hw : st.2 = []
    · rw [Scan.tokens, if_pos hw]
      rwa [h.ptr, hw, List.append_nil] at hptr
    · rw [endLine_eq h, if_neg hw] at hs₁
      obtain ⟨_, s₂, hput, -⟩ := bind_eq_ok.mp hs₁
      have hlt : s.ptr < bufLen := by
        by_contra hge
        cases (if_neg hge).symm.trans hput
      rw [h.ptr] at hlt
      rw [Scan.tokens, if_neg hw, pack_concat, List.length_append, List.length_singleton]
      exact hlt
  refine ⟨?_, hbuf⟩
  obtain ⟨s₂, hs₂, hi, -, -⟩ := endLine_run h hbuf
  cases hs₂.symm.trans hs₁
  obtain ⟨_, s₃, hput, -⟩ := bind_eq_ok.mp hrest
  by_contra hge
  rw [← hi] at hge
  cases (if_neg hge).symm.trans hput

/-- What `parse` leaves, where it returns, has been read from a part of the line. -/
theorem parse_lexes {line : Str} (hline : ∀ c ∈ line, c ≠ nul) (hargc : 2 ≤ argcMax)
    (hbuf : 2 ≤ bufLen) {s s' : State} {n : ℕ} (hrun : parse line argcMax bufLen s = .ok n s') :
    ∃ p ts, p <+: line ∧ ts = (Lexer.start.run p).scan.tokens ∧ n = ts.length ∧ Tokens ts s' ∧
      (pack nul ts).length ≤ bufLen := by
  obtain ⟨p, s₁, hp, h₁, hptr, -, heq⟩ := parse_reads hline hargc hbuf s
  rw [heq] at hrun
  obtain ⟨hlt, hle⟩ := room_of_finish h₁ hptr hrun
  obtain ⟨s₂, hs₂, htokens⟩ := parseEnd_run h₁ hlt hle
  cases hs₂.symm.trans hrun
  exact ⟨p, _, hp, rfl, rfl, htokens, hle⟩

/-- With no room for a character, the loop is left behind the first one. -/
theorem parse_small {line : Str} (hline : ∀ c ∈ line, c ≠ nul)
    (hts : (Lexer.start.run line).scan.tokens = []) (hargc : 0 < argcMax)
    (hsmall : ¬ (2 ≤ argcMax ∧ 2 ≤ bufLen)) (s : State) :
    ∃ s', parse line argcMax bufLen s = .ok 0 s' ∧ Tokens [] s' := by
  obtain ⟨s₀, hrun, h₀, hprev⟩ := parse_start line bufLen hargc s
  have hi : s₀.i = 0 := h₀.i
  have hptr : s₀.ptr = 0 := h₀.ptr
  obtain ⟨s₁, hs₁, h₁⟩ : ∃ s₁, parseLoop argcMax bufLen line s₀ = .ok () s₁ ∧
      Held ([], []) s₁ := by
    cases line with
    | nil => exact ⟨s₀, rfl, h₀.held⟩
    | cons c line =>
        have hmark : mark ⟨false, false⟩ nul c = (⟨false, !isSpace c⟩, ⟨false, false⟩) := rfl
        have hbegins : (Lexer.start.step c).scan.Begins [] :=
          begins_run (l := line) (hts ▸ begins_tokens _)
        -- a character that is kept would be part of a token
        have hsp : isSpace c = true := by
          by_contra hsp
          rw [Bool.not_eq_true] at hsp
          rw [step_eq (x := Lexer.start) hmark, hsp] at hbegins
          simp [Scan.next, Scan.Begins, Lexer.start] at hbegins
        have hchar : parseChar argcMax bufLen c s₀ = .ok () { s₀ with prev := c } := by
          simp only [Shell.parseChar, bind_run, Shell.prev, hprev, split, if_true, hsp, endWord,
            saveChar, Bool.not_true, Bool.false_eq_true, if_false, pure_run, setPrev]
        refine ⟨{ s₀ with prev := c }, ?_, ⟨h₀.ptr, h₀.i, h₀.buf, h₀.argv⟩⟩
        rw [parseLoop_cons (hline c List.mem_cons_self) hchar, if_pos]
        simp only [hptr, hi]
        omega
  obtain ⟨s', hs', h'⟩ := parseEnd_run h₁ hargc (Nat.zero_le bufLen)
  exact ⟨s', by rw [hrun, run_bind_ok hs₁, hs']; rfl, h'⟩

/-- Within the limits `parse` leaves all that is read from the line. -/
theorem parse_fits {line : Str} (hline : ∀ c ∈ line, c ≠ nul)
    (hts : (Lexer.start.run line).scan.tokens = ts) (hfits : Fits argcMax bufLen ts) (s : State) :
    ∃ s', parse line argcMax bufLen s = .ok ts.length s' ∧ Tokens ts s' := by
  by_cases hroom : 2 ≤ argcMax ∧ 2 ≤ bufLen
  swap
  · obtain rfl : ts = [] := by
      by_contra hne
      exact hroom (hfits.room hne)
    exact parse_small hline hts hfits.argc hroom s
  obtain ⟨p, s₁, ⟨rest, hp⟩, h₁, -, hend, heq⟩ := parse_reads hline hroom.1 hroom.2 s
  have htokens : (Lexer.start.run p).scan.tokens = ts := by
    rcases hend with rfl | hfull
    · exact hts
    · have hbegins : (Lexer.start.run p).scan.Begins ts := by
        refine begins_run (l := rest) ?_
        rw [← Lexer.run_append, hp, ← hts]
        exact begins_tokens _
      refine hbegins.eq_of_full hfits ?_
      rwa [← h₁.ptr, ← h₁.i]
  obtain ⟨s', hs', h'⟩ := parseEnd_run h₁ (htokens ▸ hfits.argc) (htokens ▸ hfits.buf)
  rw [htokens] at hs' h'
  exact ⟨s', heq.trans hs', h'⟩

end SystemsProjects.Shell
