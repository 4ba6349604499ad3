import SystemsProjects.Shell.Parser

/-!
# The Limits of `parse`

`parse` tests behind every character whether one of its arrays is full, and leaves its loop
then. A character can both end a word and be the first of the next one; where that character
fills `argv` or the buffer, there is no place left behind the loop for the `nul` of the last
word or for the `NULL` behind it. Everywhere else the tests come soon enough.

## Main definitions

* `marks`: what `split` says of the characters of a line.
* `Overfull`: such a character fills an array.
* `Contained`: what `parse` leaves is within the arrays.

## Main results

* `contained_iff`: `parse` stays within its arrays exactly on lines that do not overfill them.
-/

namespace SystemsProjects.Shell

open Stateful

/-! ### What `split` says -/

/-- The static variables of `split`. -/
structure Quotes where
  in2quote : Bool
  in1quote : Bool

/-- The static variables in a state. -/
def State.quotes (s : State) : Quotes := ⟨s.in2quote, s.in1quote⟩

/-- A state with these static variables. -/
def State.quoted (s : State) (q : Quotes) : State :=
  { s with in2quote := q.in2quote, in1quote := q.in1quote }

/-- A state with these static variables, and nothing else in it. -/
def Quotes.state (q : Quotes) : State :=
  ⟨q.in2quote, q.in1quote, 0, 0, nul, fun _ => none, fun _ => nul⟩

/-- An outcome of `split`, with the rest of the state from elsewhere. -/
def State.outcome (s : State) : EStateM.Result Overrun State Verdict →
    EStateM.Result Overrun State Verdict
  | .ok val t => .ok val (s.quoted t.quotes)
  | .error _ t => .ok ⟨false, false⟩ (s.quoted t.quotes)

/-- What `split` returns, and what it leaves in its static variables. -/
def mark (q : Quotes) (c1 c2 : Char) : Verdict × Quotes :=
  match split c1 c2 q.state with
  | .ok val t => (val, t.quotes)
  | .error _ t => (⟨false, false⟩, t.quotes)

/-- `split` looks at nothing but its static variables, and leaves everything else alone. -/
theorem split_mark (c1 c2 : Char) (s : State) :
    split c1 c2 s = .ok (mark s.quotes c1 c2).1 (s.quoted (mark s.quotes c1 c2).2) := by
  have houtcome : split c1 c2 s = s.outcome (split c1 c2 s.quotes.state) := by
    simp only [split, apply_ite s.outcome]
    rfl
  rw [houtcome, mark]
  cases split c1 c2 s.quotes.state <;> rfl

/-- What `split` says of the characters up to the end of the line. -/
def marksFrom (q : Quotes) (c1 : Char) : Str → List Verdict
  | [] => []
  | c2 :: rest =>
      if c2 = nul then [] else (mark q c1 c2).1 :: marksFrom (mark q c1 c2).2 c2 rest

/-- What `split` says of the characters of a line. -/
def marks (line : Str) : List Verdict := marksFrom ⟨false, false⟩ nul line

/-! ### Full arrays -/

/-- How many of the characters end a word. -/
def begun (l : List Verdict) : ℕ := l.countP Verdict.split

/-- How many of the characters are kept. -/
def kept (l : List Verdict) : ℕ := l.countP Verdict.save

/-- Behind `i` words that have ended and `ptr` places of the buffer, a character that ends a
word and is kept comes when there is room for one more word only, or for one more character
with its `nul`, and not yet less. -/
def Overfull (argcMax bufLen i ptr : ℕ) (l : List Verdict) : Prop :=
  ∃ before val after, l = before ++ val :: after ∧ val.split ∧ val.save ∧
    i + begun before + 2 ≤ argcMax ∧ ptr + begun before + kept before + 2 ≤ bufLen ∧
    (i + begun before + 2 = argcMax ∨ ptr + begun before + kept before + 2 = bufLen)

variable {argcMax bufLen i ptr : ℕ} {val : Verdict} {l : List Verdict}

/-- Without characters nothing can be full. -/
theorem not_overfull_nil : ¬ Overfull argcMax bufLen i ptr [] := by
  rintro ⟨before, val, after, h, -⟩
  cases before <;> cases h

/-- The arrays are full at the first character, or behind it with what it has used up of them. -/
theorem overfull_cons : Overfull argcMax bufLen i ptr (val :: l) ↔
    (val.split ∧ val.save ∧ i + 2 ≤ argcMax ∧ ptr + 2 ≤ bufLen ∧
      (i + 2 = argcMax ∨ ptr + 2 = bufLen)) ∨
      Overfull argcMax bufLen (i + val.split.toNat) (ptr + val.split.toNat + val.save.toNat) l := by
  have hbegun (k : List Verdict) : begun (val :: k) = val.split.toNat + begun k := by
    cases h : val.split <;> simp [begun, h, Nat.add_comm]
  have hkept (k : List Verdict) : kept (val :: k) = val.save.toNat + kept k := by
    cases h : val.save <;> simp [kept, h, Nat.add_comm]
  constructor
  · rintro ⟨before, v, after, hl, hsplit, hsave, hargc, hbuf, hfull⟩
    cases before with
    | nil =>
        cases hl
        exact .inl ⟨hsplit, hsave, hargc, hbuf, hfull⟩
    | cons w before =>
        cases hl
        rw [hbegun] at hargc hbuf hfull
        rw [hkept] at hbuf hfull
        exact .inr ⟨before, v, after, rfl, hsplit, hsave, by omega, by omega, by omega⟩
  · rintro (⟨hsplit, hsave, hargc, hbuf, hfull⟩ |
      ⟨before, v, after, rfl, hsplit, hsave, hargc, hbuf, hfull⟩)
    · exact ⟨[], val, l, rfl, hsplit, hsave, hargc, hbuf, hfull⟩
    · refine ⟨val :: before, v, after, rfl, hsplit, hsave, ?_⟩
      rw [hbegun, hkept]
      omega

/-- Behind a full array nothing counts any more. -/
theorem not_overfull_of_full (h : argcMax < i + 2 ∨ bufLen < ptr + 2) :
    ¬ Overfull argcMax bufLen i ptr l := by
  rintro ⟨before, _, _, -, -, -, hargc, hbuf, -⟩
  omega

/-! ### The arrays -/

/-- The words that have ended are terminated in the buffer, and the last one begins in it. -/
structure Ended (s : State) : Prop where
  words : ∀ k < s.i, ∃ p e, s.argv k = some p ∧ p ≤ e ∧ e < s.ptr ∧ s.buf e = nul
  last : ∃ p ≤ s.ptr, s.argv s.i = some p

/-- `*ptr++ = c`, where there is room for it. -/
theorem Ended.putChar {s : State} (h : Ended s) (c : Char) (hlt : s.ptr < bufLen) :
    ∃ s', Shell.putChar bufLen c s = .ok () s' ∧ Ended s' ∧ s'.quotes = s.quotes ∧
      s'.prev = s.prev ∧ s'.i = s.i ∧ s'.argv = s.argv ∧ s'.ptr = s.ptr + 1 ∧
      s'.buf s.ptr = c := by
  refine ⟨_, if_pos hlt, ⟨fun k hk => ?_, ?_⟩, rfl, rfl, rfl, rfl, rfl,
    Function.update_self s.ptr c s.buf⟩
  · obtain ⟨p, e, hp, hpe, he, hnul⟩ := h.words k hk
    refine ⟨p, e, hp, hpe, Nat.lt_succ_of_lt he, ?_⟩
    rw [← hnul]
    exact Function.update_of_ne (Nat.ne_of_lt he) c s.buf
  · obtain ⟨p, hp, hargv⟩ := h.last
    exact ⟨p, Nat.le_succ_of_le hp, hargv⟩

/-- The statement under `val & SPLIT`, where there is room for it. -/
theorem Ended.endWord {s : State} (h : Ended s) (hsplit : val.split = true)
    (hargc : s.i + 1 < argcMax) (hlt : s.ptr < bufLen) :
    ∃ s', Shell.endWord argcMax bufLen val s = .ok () s' ∧ Ended s' ∧ s'.quotes = s.quotes ∧
      s'.i = s.i + 1 ∧ s'.ptr = s.ptr + 1 ∧ s'.argv s'.i = some s'.ptr := by
  obtain ⟨s₁, hs₁, h₁, hq, -, hi, hargv, hptr, hnul⟩ := h.putChar nul hlt
  have hput : s₁.i + 1 < argcMax := by rwa [hi]
  refine ⟨{ s₁ with
    i := s₁.i + 1
    argv := Function.update s₁.argv (s₁.i + 1) (some s₁.ptr) }, ?_, ⟨fun k hk => ?_, ?_⟩, hq,
    congrArg (· + 1) hi, hptr, Function.update_self ..⟩
  · simp only [Shell.endWord, hsplit, if_true, bind_run, hs₁, nextIndex, Shell.ptr, putArgv,
      if_pos hput]
  · have hk' : k < s₁.i + 1 := hk
    have hne : k ≠ s₁.i + 1 := Nat.ne_of_lt hk'
    simp only [Function.update_of_ne hne]
    rcases Nat.lt_succ_iff_lt_or_eq.mp hk' with hlt' | rfl
    · exact h₁.words k hlt'
    · obtain ⟨p, hp, hlast⟩ := h.last
      rw [← hi, ← hargv] at hlast
      exact ⟨p, s.ptr, hlast, hp, by omega, hnul⟩
  · exact ⟨s₁.ptr, Nat.le_refl _, Function.update_self ..⟩

/-! ### The loop -/

/-- The body of the loop, behind the call of `split`. -/
theorem parseChar_eq {s : State} {c : Char} {q : Quotes}
    (h : mark s.quotes s.prev c = (val, q)) : Shell.parseChar argcMax bufLen c s = (do
      Shell.endWord argcMax bufLen val
      saveChar bufLen val c
      setPrev c : Parse Unit) (s.quoted q) := by
  have hprev : prev s = .ok s.prev s := rfl
  have hsplit : split s.prev c s = .ok val (s.quoted q) := by
    rw [split_mark, h]
  rw [Shell.parseChar, run_bind_ok hprev, run_bind_ok hsplit]

/-- One character, where both arrays have room. -/
theorem Ended.parseChar {s : State} (h : Ended s) (hargc : s.i + 2 ≤ argcMax)
    (hbuf : s.ptr + 2 ≤ bufLen) (c : Char) (hval : (mark s.quotes s.prev c).1 = val) :
    ∃ s', Shell.parseChar argcMax bufLen c s = .ok () s' ∧ Ended s' ∧
      s'.quotes = (mark s.quotes s.prev c).2 ∧ s'.prev = c ∧ s'.i = s.i + val.split.toNat ∧
      s'.ptr = s.ptr + val.split.toNat + val.save.toNat ∧
      (val.split = true → s'.argv s'.i = some (s.ptr + 1)) := by
  let q := (mark s.quotes s.prev c).2
  have hstart : Ended (s.quoted q) := ⟨h.words, h.last⟩
  -- behind the statement under `SPLIT`
  obtain ⟨s₁, hs₁, h₁, hq₁, hi₁, hptr₁, hargv₁⟩ : ∃ s₁,
      Shell.endWord argcMax bufLen val (s.quoted q) = .ok () s₁ ∧ Ended s₁ ∧ s₁.quotes = q ∧
        s₁.i = s.i + val.split.toNat ∧ s₁.ptr = s.ptr + val.split.toNat ∧
        (val.split = true → s₁.argv s₁.i = some (s.ptr + 1)) := by
    cases hv : val.split with
    | true =>
        have hargc' : (s.quoted q).i + 1 < argcMax := hargc
        have hlt : (s.quoted q).ptr < bufLen := Nat.lt_of_succ_lt hbuf
        obtain ⟨s₁, hs₁, h₁, hq, hi, hptr, hargv⟩ := hstart.endWord hv hargc' hlt
        exact ⟨s₁, hs₁, h₁, hq, hi, hptr, fun _ => hargv.trans (congrArg some hptr)⟩
    | false =>
        refine ⟨s.quoted q, ?_, hstart, rfl, rfl, rfl, fun h => absurd h Bool.false_ne_true⟩
        rw [Shell.endWord, hv, if_neg Bool.false_ne_true]
        rfl
  -- behind the statement under `SAVE`
  obtain ⟨s₂, hs₂, h₂, hq₂, hi₂, hptr₂, hargv₂⟩ : ∃ s₂,
      saveChar bufLen val c s₁ = .ok () s₂ ∧ Ended s₂ ∧ s₂.quotes = q ∧ s₂.i = s₁.i ∧
        s₂.ptr = s₁.ptr + val.save.toNat ∧ s₂.argv = s₁.argv := by
    cases hv : val.save with
    | true =>
        have hle := val.split.toNat_le
        have hlt : s₁.ptr < bufLen := by omega
        obtain ⟨s₂, hs₂, h₂, hq, -, hi, hargv, hptr, -⟩ := h₁.putChar c hlt
        refine ⟨s₂, ?_, h₂, hq.trans hq₁, hi, hptr, hargv⟩
        rw [saveChar, hv, if_pos rfl, hs₂]
    | false =>
        refine ⟨s₁, ?_, h₁, hq₁, rfl, rfl, rfl⟩
        rw [saveChar, hv, if_neg Bool.false_ne_true]
        rfl
  refine ⟨{ s₂ with prev := c }, ?_, ⟨h₂.words, h₂.last⟩, hq₂, rfl, hi₂.trans hi₁,
    hptr₂.trans (congrArg (· + _) hptr₁), fun hv => ?_⟩
  · rw [parseChar_eq (Prod.ext hval rfl), run_bind_ok hs₁, run_bind_ok hs₂]
    rfl
  · change s₂.argv s₂.i = _
    rw [hargv₂, hi₂]
    exact hargv₁ hv

/-- Behind the loop there is room for what is still to be written. -/
def State.Room (argcMax bufLen : ℕ) (s : State) : Prop :=
  s.argv s.i = some s.ptr ∨ (s.ptr < bufLen ∧ s.i + 1 < argcMax)

/-- The loop looks for room behind every character. -/
theorem parseLoop_cons {s s₁ : State} {c : Char} {rest : Str} (hc : c ≠ nul)
    (h : Shell.parseChar argcMax bufLen c s = .ok () s₁) :
    Shell.parseLoop argcMax bufLen (c :: rest) s =
      if s₁.ptr + 2 > bufLen ∨ s₁.i + 1 ≥ argcMax then .ok () s₁
      else Shell.parseLoop argcMax bufLen rest s₁ := by
  rw [Shell.parseLoop, if_neg hc, run_bind_ok h]
  by_cases hp : s₁.ptr + 2 > bufLen
  · simp only [bind_run, Shell.ptr, if_pos hp, if_pos (Or.inl hp)]
    rfl
  · by_cases hj : s₁.i + 1 ≥ argcMax
    · simp only [bind_run, Shell.ptr, index, if_neg hp, if_pos hj, if_pos (Or.inr hj)]
      rfl
    · simp only [bind_run, Shell.ptr, index, if_neg hp, if_neg hj,
        if_neg (not_or.mpr ⟨hp, hj⟩)]

/-- Where the loop is left, only its last character can have filled an array. -/
theorem room_iff_last {s s₁ : State} (hargc : s.i + 2 ≤ argcMax) (hbuf : s.ptr + 2 ≤ bufLen)
    (hi : s₁.i = s.i + val.split.toNat)
    (hptr : s₁.ptr = s.ptr + val.split.toNat + val.save.toNat)
    (hargv : val.split = true → s₁.argv s₁.i = some (s.ptr + 1))
    (hfull : s₁.ptr + 2 > bufLen ∨ s₁.i + 1 ≥ argcMax) :
    s₁.Room argcMax bufLen ↔
      ¬ Overfull argcMax bufLen s.i s.ptr (val :: l) := by
  have hsplit := val.split.toNat_le
  have hsave := val.save.toNat_le
  rw [overfull_cons, ← hi, ← hptr, or_iff_left (not_overfull_of_full (by omega)), State.Room]
  cases hs : val.split with
  | false =>
      rw [hs] at hptr hi
      simp only [Bool.toNat_false] at hptr hi
      exact iff_of_true (.inr ⟨by omega, by omega⟩) fun h => Bool.false_ne_true h.1
  | true =>
      rw [hargv hs, Option.some_inj]
      rw [hs] at hptr hi
      cases hk : val.save with
      | false =>
          rw [hk] at hptr
          exact iff_of_true (.inl hptr.symm) fun h => Bool.false_ne_true h.2.1
      | true =>
          rw [hk] at hptr
          simp only [Bool.toNat_true] at hptr hi
          rw [and_iff_right rfl, and_iff_right rfl]
          omega

/-- Where the loop goes on, the arrays are overfilled behind the character, if at all. -/
theorem overfull_iff_rest {s s₁ : State} (hi : s₁.i = s.i + val.split.toNat)
    (hptr : s₁.ptr = s.ptr + val.split.toNat + val.save.toNat)
    (hroom : ¬ (s₁.ptr + 2 > bufLen ∨ s₁.i + 1 ≥ argcMax)) :
    Overfull argcMax bufLen s.i s.ptr (val :: l) ↔ Overfull argcMax bufLen s₁.i s₁.ptr l := by
  rw [overfull_cons, ← hi, ← hptr, or_iff_right]
  rintro ⟨hs, hk, -, -, hor⟩
  rw [hs, hk] at hptr
  rw [hs] at hi
  simp only [Bool.toNat_true] at hptr hi
  omega

/-- The loop stays within the arrays, and leaves room unless the line overfills them. -/
theorem Ended.parseLoop {s : State} (h : Ended s) (hargc : s.i + 2 ≤ argcMax)
    (hbuf : s.ptr + 2 ≤ bufLen) (line : Str) :
    ∃ s', Shell.parseLoop argcMax bufLen line s = .ok () s' ∧ Ended s' ∧ s'.i < argcMax ∧
      s'.ptr ≤ bufLen ∧ (s'.Room argcMax bufLen ↔
        ¬ Overfull argcMax bufLen s.i s.ptr (marksFrom s.quotes s.prev line)) := by
  have hdone (s : State) (hs : Ended s) (hargc : s.i + 2 ≤ argcMax) (hbuf : s.ptr + 2 ≤ bufLen) :
      s.Room argcMax bufLen ↔ ¬ Overfull argcMax bufLen s.i s.ptr [] :=
    iff_of_true (.inr ⟨by omega, by omega⟩) not_overfull_nil
  induction line generalizing s with
  | nil => exact ⟨s, rfl, h, by omega, by omega, hdone s h hargc hbuf⟩
  | cons c rest ih =>
      rw [marksFrom]
      by_cases hc : c = nul
      · rw [Shell.parseLoop, if_pos hc, if_pos hc]
        exact ⟨s, rfl, h, by omega, by omega, hdone s h hargc hbuf⟩
      rw [if_neg hc]
      generalize hval : (mark s.quotes s.prev c).1 = val
      obtain ⟨s₁, hs₁, h₁, hq, hprev, hi, hptr, hargv⟩ := h.parseChar hargc hbuf c hval
      have hsplit := val.split.toNat_le
      have hsave := val.save.toNat_le
      rw [parseLoop_cons hc hs₁]
      by_cases hfull : s₁.ptr + 2 > bufLen ∨ s₁.i + 1 ≥ argcMax
      · rw [if_pos hfull]
        exact ⟨s₁, rfl, h₁, by omega, by omega, room_iff_last hargc hbuf hi hptr hargv hfull⟩
      · rw [if_neg hfull]
        obtain ⟨s', hs', h', hlt, hle, hroom⟩ := ih h₁ (by omega) (by omega)
        refine ⟨s', hs', h', hlt, hle, ?_⟩
        rw [hroom, hprev, overfull_iff_rest hi hptr hfull, hq]

/-! ### The whole of `parse` -/

/-- What `parse` leaves, where it returns `n`: `NULL` behind `n` words, which are terminated
within the buffer. -/
structure Contained (argcMax bufLen n : ℕ) (s : State) : Prop where
  fits : n < argcMax
  null : s.argv n = none
  words : ∀ k < n, ∃ p e, s.argv k = some p ∧ p ≤ e ∧ e < bufLen ∧ s.buf e = nul

/-- The run stays within the arrays and leaves them so. -/
def StaysWithin (argcMax bufLen : ℕ) (x : Parse ℕ) (s : State) : Prop :=
  ∃ n s', x s = .ok n s' ∧ Contained argcMax bufLen n s'

/-- `argv[i] = NULL`, behind words that have ended. -/
theorem contained_null {s : State} (hi : s.i < argcMax)
    (hwords : ∀ k < s.i, ∃ p e, s.argv k = some p ∧ p ≤ e ∧ e < bufLen ∧ s.buf e = nul) :
    StaysWithin argcMax bufLen (do putArgv argcMax none; index) s := by
  refine ⟨s.i, { s with argv := Function.update s.argv s.i none }, ?_, hi,
    Function.update_self .., fun k hk => ?_⟩
  · have hput : putArgv argcMax none s = .ok () _ := if_pos hi
    exact run_bind_ok hput
  · obtain ⟨p, e, hp, hrest⟩ := hwords k hk
    exact ⟨p, e, (Function.update_of_ne (Nat.ne_of_lt hk) ..).trans hp, hrest⟩

/-- Behind the loop. -/
theorem Ended.finish {s : State} (h : Ended s) (hi : s.i < argcMax) (hptr : s.ptr ≤ bufLen) :
    StaysWithin argcMax bufLen (do endLine bufLen; putArgv argcMax none; index) s ↔
      s.Room argcMax bufLen := by
  have hend : endLine bufLen s =
      if some s.ptr ≠ s.argv s.i then (do Shell.putChar bufLen nul; nextIndex : Parse Unit) s
      else .ok () s := by
    simp only [endLine, bind_run, Shell.ptr, argvAt]
    split <;> rfl
  rw [StaysWithin, State.Room]
  by_cases hlast : s.argv s.i = some s.ptr
  · rw [if_neg (not_not.mpr hlast.symm)] at hend
    rw [run_bind_ok hend]
    refine iff_of_true (contained_null hi fun k hk => ?_) (.inl hlast)
    obtain ⟨p, e, hp, hpe, he, hnul⟩ := h.words k hk
    exact ⟨p, e, hp, hpe, by omega, hnul⟩
  rw [if_pos (Ne.symm hlast)] at hend
  rw [or_iff_right hlast]
  by_cases hlt : s.ptr < bufLen
  · obtain ⟨s₁, hs₁, h₁, -, -, hi₁, hargv₁, hptr₁, hnul⟩ := h.putChar nul hlt
    rw [run_bind_ok hs₁] at hend
    have hnext : nextIndex s₁ = .ok () { s₁ with i := s₁.i + 1 } := rfl
    rw [hnext] at hend
    rw [run_bind_ok hend, and_iff_right hlt]
    constructor
    · rintro ⟨n, s', hrun, -⟩
      obtain ⟨_, _, hput, -⟩ := bind_eq_ok.mp hrun
      by_contra hfull
      have hno : putArgv argcMax none { s₁ with i := s₁.i + 1 } = .error .argv _ :=
        if_neg (by rwa [hi₁])
      cases hno.symm.trans hput
    · intro hroom
      refine contained_null (by rwa [hi₁]) fun k hk => ?_
      have hk' : k < s₁.i + 1 := hk
      rcases Nat.lt_succ_iff_lt_or_eq.mp hk' with hk' | rfl
      · obtain ⟨p, e, hp, hpe, he, hnul⟩ := h₁.words k hk'
        exact ⟨p, e, hp, hpe, by omega, hnul⟩
      · obtain ⟨p, hp, hargv⟩ := h.last
        rw [← hi₁, ← hargv₁] at hargv
        exact ⟨p, s.ptr, hargv, hp, hlt, hnul⟩
  · refine iff_of_false ?_ fun h => hlt h.1
    have hno : Shell.putChar bufLen nul s = .error .buf s := if_neg hlt
    rw [run_bind_error hno] at hend
    rintro ⟨n, s', hrun, -⟩
    rw [run_bind_error hend] at hrun
    cases hrun

/-- `parse` stays within its arrays, and leaves terminated words in them, exactly on the lines
that do not overfill them. Whether a line does is counted on what `split` says of its
characters. -/
theorem contained_iff (line : Str) (argcMax bufLen : ℕ) (hargc : 2 ≤ argcMax) (hbuf : 2 ≤ bufLen)
    (s : State) : StaysWithin argcMax bufLen (parse line argcMax bufLen) s ↔
      ¬ Overfull argcMax bufLen 0 0 (marks line) := by
  let s₀ : State := { s with
    in1quote := false, in2quote := false, ptr := 0, i := 0, prev := nul
    argv := Function.update s.argv 0 (some 0) }
  have h₀ : Ended s₀ := by
    have hargv : Function.update s.argv 0 (some 0) 0 = some 0 := Function.update_self ..
    exact ⟨fun k hk => absurd hk (Nat.not_lt_zero k), 0, Nat.le_refl 0, hargv⟩
  obtain ⟨s', hs', h', hi, hptr, hroom⟩ := h₀.parseLoop hargc hbuf line
  have hrun : parse line argcMax bufLen s =
      (do endLine bufLen; putArgv argcMax none; index : Parse ℕ) s' := by
    have hpos : 0 < argcMax := by omega
    have hput : putArgv argcMax (some 0) { s with
        in1quote := false, in2quote := false, ptr := 0, i := 0, prev := nul } = .ok () s₀ :=
      if_pos hpos
    have hstart : start s = .ok () { s with
        in1quote := false, in2quote := false, ptr := 0, i := 0, prev := nul } := rfl
    have hptr : ptr { s with
        in1quote := false, in2quote := false, ptr := 0, i := 0, prev := nul } = .ok 0 _ := rfl
    rw [parse, run_bind_ok hstart, run_bind_ok hptr, run_bind_ok hput, run_bind_ok hs']
  rw [StaysWithin, hrun, marks]
  exact (h'.finish hi hptr).trans hroom

/-- The state that the program starts in, with arrays that hold nothing yet. -/
def fresh : State := ⟨false, false, 0, 0, nul, fun _ => none, fun _ => nul⟩

/-- The line `ls`, read into the arrays of `main`. -/
theorem contained_ls : StaysWithin 32 1024 (parse ['l', 's'] 32 1024) fresh := by
  refine (contained_iff ['l', 's'] 32 1024 (by decide) (by decide) fresh).mpr ?_
  have hmarks : marks ['l', 's'] = [⟨false, true⟩, ⟨false, true⟩] := by decide
  rw [hmarks, overfull_cons, overfull_cons]
  rintro (⟨h, -⟩ | ⟨h, -⟩ | h)
  · exact Bool.false_ne_true h
  · exact Bool.false_ne_true h
  · exact not_overfull_nil h

/-- A line of 32 bars: the `NULL` is written behind the array of `main`. -/
theorem not_contained_bars : ¬ ∀ (line : Str) (argcMax bufLen : ℕ) (s : State), 2 ≤ argcMax →
    2 ≤ bufLen → StaysWithin argcMax bufLen (parse line argcMax bufLen) s := by
  intro h
  obtain ⟨n, s', hrun, -⟩ := h (List.replicate 32 '|') 32 1024 fresh (by decide) (by decide)
  have hnone : (parse (List.replicate 32 '|') 32 1024).run' fresh = none := by decide +kernel
  rw [run'_ok hrun] at hnone
  exact Option.some_ne_none n hnone

end SystemsProjects.Shell
