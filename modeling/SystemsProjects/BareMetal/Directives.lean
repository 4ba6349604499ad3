import SystemsProjects.BareMetal.Grammar
import SystemsProjects.BareMetal.Operators

/-!
# Data Directives

What the lines `BYTES`, `WORDS` and `STRING` leave in the image. The handlers loop over all
the tokens of their line, but the table has room for one token behind the name, and the
tokenizer splits at blanks and at commas: a list of two numbers is dropped. In a string the
number sign begins a comment before its quotes are looked at, an empty string is no token at
all, and a colon makes a label of the name in front of it.

## Main definitions

* `Data`: what a line of data lists.
* `Data.Line`: the lines that list it.
* `Emits`: the line leaves its data in the image, and the tokenizer outside quotes.
* `Data.Handled`: the data that the script is able to read.

## Main results

* `emits_iff`: a line emits its data exactly where that is so and the image has room.
-/

namespace SystemsProjects.BareMetal

open Stateful

/-! ### Lines of data -/

/-- A numeral and its value: decimal digits without leading zeros, or hexadecimal digits
behind `0x`. -/
inductive Literal : List Char → ℕ → Prop
  | decimal {ds : List Char} (hne : ds ≠ []) (hd : ∀ c ∈ ds, c.isDigit)
      (hzero : ds.head? = some '0' → ds = ['0']) : Literal ds (digits 10 ds)
  | hex {ds : List Char} (hne : ds ≠ []) (hd : ∀ c ∈ ds, isHex c) :
      Literal ('0' :: 'x' :: ds) (digits 16 ds)

/-- Blanks and commas. -/
def Separator (gap : List Char) : Prop := ∀ c ∈ gap, isSpace c ∨ c = ','

/-- The text lists the numbers, with blanks or commas between them. -/
inductive Listed : List ℕ → List Char → Prop
  | last {w : List Char} {n : ℕ} (hw : Literal w n) : Listed [n] w
  | cons {w gap text : List Char} {n : ℕ} {ns : List ℕ} (hw : Literal w n)
      (hgap : Separator gap) (hne : gap ≠ []) (h : Listed ns text) :
      Listed (n :: ns) (w ++ (gap ++ text))

/-- The data of a line: a list of bytes or of words, or a string. -/
inductive Data
  | bytes (ns : List ℕ)
  | words (ns : List ℕ)
  | string (s : List Char)

/-- Printable ASCII without the double quote. -/
def Inscribable (c : Char) : Prop := 0x20 ≤ c.toNat ∧ c.toNat ≤ 0x7E ∧ c ≠ '"'

namespace Data

/-- The name of the directive. -/
def name : Data → List Char
  | bytes _ => "BYTES".toList
  | words _ => "WORDS".toList
  | string _ => "STRING".toList

/-- What stands behind the name. -/
inductive Operands : Data → List Char → Prop
  | bytes {ns : List ℕ} {text : List Char} (h : Listed ns text) : (bytes ns).Operands text
  | words {ns : List ℕ} {text : List Char} (h : Listed ns text) : (words ns).Operands text
  | string {s : List Char} (hs : ∀ c ∈ s, Inscribable c) :
      (string s).Operands ('"' :: (s ++ ['"']))

/-- A line that lists the data, with any blanks around it and behind the name of the directive. -/
def Line (d : Data) (line : String) : Prop :=
  ∃ lead gap text trail, Blank lead ∧ Blank gap ∧ gap ≠ [] ∧ Blank trail ∧ d.Operands text ∧
    line.toList = lead ++ ((d.name ++ (gap ++ text)) ++ trail)

/-- The cells that the data is to take. -/
def cells : Data → List ℕ
  | bytes ns => ns.map (· % 256)
  | words ns => ns.flatMap fun n => [n % 256, n / 256 % 256]
  | string s => (replaceNewlines s).map Char.toNat ++ [0]

/-- Data that the script is able to read: one number, or a string that is not empty, has no
comment character and is not the colon of a label. -/
def Handled : Data → Prop
  | bytes ns | words ns => ns.length = 1
  | string s => s ≠ [] ∧ '#' ∉ s ∧ s ≠ [':']

end Data

/-- The globals behind cells at the current address. -/
def Asm.emitted (a : Asm) (cells : List ℕ) : Asm :=
  { a with
    memory := Patches.write a.currentAddr cells a.memory
    currentAddr := a.currentAddr + cells.length }

/-- The line stores its data at the current address and behind it, and nothing else, and it
leaves the tokenizer outside quotes. -/
structure Emits (d : Data) (line : String) (a : Asm) : Prop where
  run : doTokens (parse false line).1 a = .ok () (a.emitted d.cells)
  quote : (parse false line).2 = false

/-- The lines behind it are read as if it were not there. -/
theorem Emits.mainLoop_eq {d : Data} {line : String} {a : Asm} (h : Emits d line a)
    (lines : List String) (maxAddr : ℕ) :
    mainLoop (line :: lines) false maxAddr a =
      mainLoop lines false (max (a.currentAddr + d.cells.length) maxAddr)
        (a.emitted d.cells) := by
  have hparse : parse false line = ((parse false line).1, false) := Prod.ext rfl h.quote
  rw [mainLoop, hparse]
  exact run_bind_ok h.run

/-! ### Storing -/

/-- A byte is stored where the image has room. -/
theorem storeByte_ok {a : Asm} (v : ℕ) (h : a.currentAddr < 65536) :
    storeByte v a = .ok () (a.nextByte v) :=
  storeByte_run v (pure ()) h

/-- Where it has none, an exception is raised and nothing is stored. -/
theorem storeByte_full {a : Asm} (v : ℕ) (h : ¬a.currentAddr < 65536) :
    storeByte v a = .error .index a := by
  simp [storeByte, bind_run, currentAddr, setMemory, h]

/-- Bytes are emitted one after the other. -/
theorem Asm.emitted_cons (a : Asm) (v : ℕ) (vs : List ℕ) :
    a.emitted (v :: vs) = (a.nextByte v).emitted vs := by
  have hmemory : Patches.write a.currentAddr (v :: vs) a.memory =
      Patches.write (a.currentAddr + 1) vs (a.nextByte v).memory := by
    funext k
    simp only [Patches.write_apply, Asm.nextByte]
    rcases lt_trichotomy k a.currentAddr with hk | rfl | hk
    · rw [if_neg (by omega), if_neg (by omega), if_neg (by omega)]
    · simp
    · obtain ⟨j, rfl⟩ := Nat.exists_eq_add_of_lt hk
      have hsub : a.currentAddr + j + 1 - a.currentAddr = j + 1 := by omega
      have hsub' : a.currentAddr + j + 1 - (a.currentAddr + 1) = j := by omega
      rw [if_pos (by omega), if_pos (by omega), if_neg (by omega), hsub, hsub',
        List.getElem?_cons_succ]
  rw [emitted, emitted, hmemory]
  simp only [nextByte, List.length_cons]
  congr 1
  omega

/-- Without bytes nothing is emitted. -/
theorem Asm.emitted_nil (a : Asm) : a.emitted [] = a := by
  have hmemory : Patches.write a.currentAddr [] a.memory = a.memory := by
    funext k
    simp [Patches.write_apply]
  rw [emitted, hmemory]
  rfl

/-- Bytes are stored where there is room for all of them. -/
theorem storeBytes_ok_iff {vs : List ℕ} (hne : vs ≠ []) (a : Asm) :
    storeBytes vs a = .ok () (a.emitted vs) ↔ a.currentAddr + vs.length ≤ 65536 := by
  induction vs generalizing a with
  | nil => exact absurd rfl hne
  | cons v vs ih =>
      rw [storeBytes, List.length_cons]
      by_cases h : a.currentAddr < 65536
      · rw [run_bind_ok (storeByte_ok v h), a.emitted_cons]
        by_cases hvs : vs = []
        · subst hvs
          rw [Asm.emitted_nil, List.length_nil]
          exact iff_of_true rfl h
        · rw [ih hvs]
          have hnext : (a.nextByte v).currentAddr = a.currentAddr + 1 := rfl
          omega
      · rw [run_bind_error (storeByte_full v h)]
        refine iff_of_false (fun hok => by cases hok) ?_
        omega

/-- A word needs room for two bytes. -/
theorem storeInsn_ok_iff (v : ℕ) (a : Asm) :
    storeInsn v a = .ok () (a.emitted (wordCells v)) ↔ a.currentAddr + 2 ≤ 65536 := by
  have hnext : a.emitted (wordCells v) = a.next v := by
    rw [Asm.emitted, ← a.putWord_memory]
    rfl
  rw [hnext]
  constructor
  · exact fun h => (storeInsn_ok h).1
  · exact fun h => storeInsn_run v h

/-! ### Numerals -/

namespace Literal

variable {w : List Char} {n : ℕ}

/-- A numeral is let through by the test for numbers. -/
theorem isNum_ofList (h : Literal w n) : isNum (String.ofList w) := by
  rw [isNum, String.toList_ofList]
  cases h with
  | decimal hne hd _ =>
      split
      · have hx := hd 'x' (by simp)
        cases hx
      · simp only [Bool.and_eq_true, Bool.not_eq_true', List.isEmpty_eq_false_iff,
          List.all_eq_true]
        exact ⟨hne, hd⟩
  | hex _ hd => exact List.all_eq_true.mpr hd

/-- A numeral is a word. -/
theorem wordChar (h : Literal w n) : ∀ c ∈ w, WordChar c := by
  have hword := (isWord_of_isNum h.isNum_ofList).2
  rwa [String.toList_ofList] at hword

/-- A numeral is not empty. -/
theorem ne_nil (h : Literal w n) : w ≠ [] := by
  cases h with
  | decimal hne => exact hne
  | hex => exact List.cons_ne_nil _ _

/-- A numeral has no blanks and no commas in it. -/
theorem solid (h : Literal w n) : Solid w := solid_of_wordChar h.ne_nil h.wordChar

/-- `int` reads the numeral. -/
theorem pyInt_ofList (h : Literal w n) : pyInt (String.ofList w) = pure n := by
  have hspace : ∀ c ∈ w, isIntSpace c = false := fun c hc =>
    isIntSpace_eq_false (h.wordChar c hc).1.1
  have hstrip : (w.dropWhile isIntSpace).rdropWhile isIntSpace = w := by
    rw [List.dropWhile_eq_self_iff.mpr, List.rdropWhile_eq_self_iff.mpr]
    · intro hne
      rw [hspace _ (List.getLast_mem hne)]
      exact Bool.false_ne_true
    · intro hl
      rw [hspace _ (List.getElem_mem hl)]
      exact Bool.false_ne_true
  rw [pyInt, String.toList_ofList, hstrip]
  cases h with
  | decimal hne hd hzero =>
      split
      · have hx := hd 'x' (by simp)
        cases hx
      · refine if_pos ⟨hne, List.all_eq_true.mpr hd, ?_⟩
        by_cases h0 : w.head? = some '0'
        · rw [hzero h0]
          exact .inr rfl
        · exact .inl h0
  | hex hne hd => exact if_pos ⟨hne, List.all_eq_true.mpr hd⟩

/-- A numeral is a token of numbers. -/
theorem matchToken_nums (h : Literal w n) : matchToken (String.ofList w) .nums = pure true := by
  have hcomma : w.filter (· ≠ ',') = w := by
    refine List.filter_eq_self.mpr fun c hc => decide_eq_true ?_
    rintro rfl
    exact absurd (h.wordChar ',' hc) (by decide)
  have hspace : ∀ c ∈ w, isSpace c = false := fun c hc => (h.wordChar c hc).1.1
  rw [matchToken, String.toList_ofList, hcomma, List.splitOnP_eq_singleton hspace]
  simp [h.isNum_ofList]

end Literal

/-! ### Lines of tokens -/

/-- A line of another length than the only row that begins with its name is dropped. -/
theorem doLine_dropped {w : String} {rest : List String} {p : List Pattern}
    {act : List String → Py Unit}
    (hrows : patterns.filter (fun p => Pattern.heads w p.1) = [(p, act)])
    (hlen : (w :: rest).length ≠ p.length) : doLine (w :: rest) = pure () := by
  have hm : matchLine (w :: rest) p = pure false := if_pos hlen
  rw [doLine_cons, hrows]
  simp [doPatterns, hm]

/-- A line whose second token is no colon has no label. -/
theorem doTokens_of_ne {w t : String} (ht : t ≠ ":") (rest : List String) :
    doTokens (w :: t :: rest) = doLine (w :: t :: rest) := by
  rw [doTokens, if_neg ht]

/-- A line that leaves the current address where it is emits nothing. -/
theorem Emits.ne_of_ok {d : Data} {line : String} {a b : Asm} (h : Emits d line a)
    (hrun : doTokens (parse false line).1 a = .ok () b) (hb : b.currentAddr = a.currentAddr) :
    d.cells = [] := by
  have hab := h.run.symm.trans hrun
  injection hab with _ hab
  have hlen : a.currentAddr + d.cells.length = b.currentAddr := congrArg Asm.currentAddr hab
  exact List.length_eq_zero_iff.mp (by omega)

/-! ### Lists of numbers -/

/-- A comma after a word is a token of its own. -/
theorem parted_comma {l : Char} (h : WordChar l) : Parted l ',' := by
  have hspace : isSpace l = false := h.1.1
  have hcomma : isSpace ',' = false := rfl
  simp [Parted, splitAt, hspace, hcomma]

/-- Behind a token, commas and blanks are commas as tokens. -/
theorem Separator.spaced {text : List Char} {ws : List (List Char)} (h : Spaced ws text)
    (htext : ∀ c ∈ text.head?, WordChar c) {gap : List Char} (hgap : Separator gap) :
    ∀ {w pre : List Char}, Solid w → (∀ l ∈ w.getLast?, Parted l ',') → Blank pre →
      (pre = [] → gap = [] → w = [',']) →
      ∃ commas, Spaced (w :: (commas ++ ws)) (w ++ (pre ++ (gap ++ text))) := by
  -- the gap is read from the left, with the blanks in front of the next comma in `pre`
  induction gap with
  | nil =>
      intro w pre hw _ hpre hnil
      refine ⟨[], ?_⟩
      by_cases hp : pre = []
      · subst hp
        refine .tight hw (fun l hl c hc => ?_) h
        rw [hnil rfl rfl] at hl
        obtain rfl := Option.some.inj hl
        exact (htext c hc).parted (by decide)
      · exact .blank hw hpre hp h
  | cons c gap ih =>
      intro w pre hw hlast hpre _
      obtain ⟨hc, hrest⟩ := List.forall_mem_cons.mp hgap
      rcases hc with hc | rfl
      · have hpre' : Blank (pre ++ [c]) := fun d hd =>
          (List.mem_append.mp hd).elim (hpre d) fun hd => List.mem_singleton.mp hd ▸ hc
        obtain ⟨commas, hs⟩ := ih hrest hw hlast hpre' fun hp _ => by simp at hp
        refine ⟨commas, ?_⟩
        rwa [List.append_assoc] at hs
      · have hcomma : Solid [','] := by decide
        have hlast' : ∀ l ∈ [','].getLast?, Parted l ',' := by
          rintro l ⟨⟩
          decide
        have hnil : Blank [] := fun d hd => by cases hd
        obtain ⟨commas, hs⟩ := ih hrest hcomma hlast' hnil fun _ _ => rfl
        refine ⟨[','] :: commas, ?_⟩
        by_cases hp : pre = []
        · subst hp
          refine .tight hw (fun l hl c hc => ?_) hs
          obtain rfl := Option.some.inj hc
          exact hlast l hl
        · exact .blank hw hpre hp hs

/-- A list of numbers as tokens: the first numeral, and at least one token more for each
other number. -/
theorem Listed.spaced {ns : List ℕ} {text : List Char} (h : Listed ns text) :
    ∃ w ws, Spaced (w :: ws) text ∧ (∃ n, Literal w n) ∧ ns.length ≤ ws.length + 1 ∧
      ∀ c ∈ text.head?, WordChar c := by
  have hhead {w : List Char} {n : ℕ} (hw : Literal w n) (rest : List Char) :
      ∀ c ∈ (w ++ rest).head?, WordChar c := by
    intro c hc
    rw [List.head?_append_of_ne_nil _ hw.ne_nil] at hc
    exact hw.wordChar c (List.mem_of_mem_head? hc)
  induction h with
  | @last w n hw =>
      refine ⟨w, [], .last hw.solid, ⟨n, hw⟩, Nat.le_refl _, ?_⟩
      have hc := hhead hw []
      rwa [List.append_nil] at hc
  | @cons w gap text n ns hw hgap hne _ ih =>
      obtain ⟨v, ws, hs, -, hlen, htext⟩ := ih
      have hlast : ∀ l ∈ w.getLast?, Parted l ',' := fun l hl =>
        parted_comma (hw.wordChar l (List.mem_of_mem_getLast? hl))
      have hnil : Blank [] := fun d hd => by cases hd
      obtain ⟨commas, hs'⟩ := hgap.spaced hs htext hw.solid hlast hnil fun _ hg => absurd hg hne
      refine ⟨w, commas ++ v :: ws, hs', ⟨n, hw⟩, ?_, hhead hw _⟩
      simp only [List.length_cons, List.length_append]
      omega

/-! ### When the data is emitted -/

section Lines

variable {line : String} {lead gap text trail : List Char}

/-- The two directives for numbers, of which `store` is what they do with one. -/
theorem emits_numbers_iff (mk : List ℕ → Data) (name : List Char) (hname : Solid name)
    (act : List String → Py Unit) (store : ℕ → Py Unit)
    (hrows : patterns.filter (fun p => Pattern.heads (String.ofList name) p.1) =
      [([.lit (String.ofList name), .nums], act)])
    (hone : ∀ t n, matchToken t .nums = pure true → pyInt t = pure n →
      doLine [String.ofList name, t] = store n)
    (hstore : ∀ n a, store n a = .ok () (a.emitted (mk [n]).cells) ↔
      a.currentAddr + (mk [n]).cells.length ≤ 65536)
    (hcells : ∀ n ns, (mk (n :: ns)).cells ≠ []) {ns : List ℕ} (h : Listed ns text)
    (hlead : Blank lead) (hgap : Blank gap) (hne : gap ≠ []) (htrail : Blank trail)
    (hline : line.toList = lead ++ ((name ++ (gap ++ text)) ++ trail)) (a : Asm) :
    Emits (mk ns) line a ↔
      ns.length = 1 ∧ a.currentAddr + (mk ns).cells.length ≤ 65536 := by
  have hnotColon {w : List Char} {n : ℕ} (hw : Literal w n) : String.ofList w ≠ ":" := by
    intro hcolon
    have hlist := congrArg String.toList hcolon
    rw [String.toList_ofList] at hlist
    have hw' := hw.wordChar ':' (by rw [hlist]; exact List.mem_singleton_self ':')
    exact absurd hw' (by decide)
  cases h with
  | @last _ n hw =>
      have hparse : parse false line = ([String.ofList name, String.ofList text], false) :=
        (Spaced.blank hname hgap hne (.last hw.solid)).parse_eq hlead htrail hline
      have hrun : doTokens (parse false line).1 = store n := by
        rw [hparse]
        exact (doTokens_of_ne (hnotColon hw) []).trans
          (hone _ n hw.matchToken_nums hw.pyInt_ofList)
      rw [List.length_singleton, and_iff_right rfl, ← hstore, ← hrun]
      exact ⟨Emits.run, fun hok => ⟨hok, by rw [hparse]⟩⟩
  | @cons v sep rest n ns hv hsep hsne hrest =>
      refine iff_of_false (fun hemits => ?_) fun hlen => ?_
      · have hlisted := Listed.cons hv hsep hsne hrest
        obtain ⟨w, ws, hs, ⟨k, hw⟩, hlen, -⟩ := hlisted.spaced
        have hparse := (Spaced.blank hname hgap hne hs).parse_eq hlead htrail hline
        have hrun : doTokens (parse false line).1 a = .ok () a := by
          rw [hparse]
          refine congrFun ((doTokens_of_ne (hnotColon hw) _).trans
            (doLine_dropped hrows ?_)) a
          have hpos : 0 < ns.length := by
            cases hrest <;> exact Nat.succ_pos _
          simp only [List.length_cons, List.length_map, List.length_nil] at hlen ⊢
          omega
        exact hcells n ns (hemits.ne_of_ok hrun rfl)
      · cases hrest <;> simp at hlen

/-- The directive for strings. -/
theorem emits_string_iff {s : List Char} (hs : ∀ c ∈ s, Inscribable c) (hlead : Blank lead)
    (hgap : Blank gap) (hne : gap ≠ []) (htrail : Blank trail)
    (hline : line.toList =
      lead ++ (("STRING".toList ++ (gap ++ ('"' :: (s ++ ['"'])))) ++ trail)) (a : Asm) :
    Emits (.string s) line a ↔ (Data.string s).Handled ∧
      a.currentAddr + (Data.string s).cells.length ≤ 65536 := by
  have hname : Solid "STRING".toList := by decide
  have hcells : (Data.string s).cells ≠ [] := List.concat_ne_nil _ _
  by_cases hhash : '#' ∈ s
  · -- the rest of the line is a comment
    refine iff_of_false (fun hemits => ?_) fun h => h.1.2.1 hhash
    obtain ⟨front, back, rfl, hfront⟩ := List.eq_append_cons_of_mem hhash
    have hopened : line.toList = lead ++ ("STRING".toList ++
        (gap ++ ('"' :: (front ++ '#' :: (back ++ ('"' :: trail)))))) := hline.trans (by simp)
    have hopen := parse_openQuote hname hgap hne
      (fun c hc => ⟨(hs c (List.mem_append_left _ hc)).2.2, fun h => hfront (h ▸ hc)⟩) hlead hopened
    cases hopen.symm.trans hemits.quote
  have hparse := parse_quotes hname hgap hne
    (fun c hc => ⟨(hs c hc).2.2, fun h => hhash (h ▸ hc)⟩) hlead htrail hline
  rw [String.ofList_toList] at hparse
  by_cases hnil : s = []
  · -- there is no token behind the name
    refine iff_of_false (fun hemits => ?_) fun h => h.1.1 hnil
    subst hnil
    have hrows : patterns.filter (fun p => Pattern.heads "STRING" p.1) =
        [([.lit "STRING", .any], doString)] := rfl
    have hdropped : doLine ["STRING"] = pure () := doLine_dropped hrows (by decide)
    have hrun : doTokens (parse false line).1 a = .ok () a := by
      rw [hparse]
      exact congrFun hdropped a
    exact hcells (hemits.ne_of_ok hrun rfl)
  rw [recorded_of_ne_nil hnil] at hparse
  by_cases hcolon : s = [':']
  · -- the name is defined as a label
    refine iff_of_false (fun hemits => ?_) fun h => h.1.2.2 hcolon
    subst hcolon
    have hrun : doTokens (parse false line).1 a = .ok () { a with
        symtab := fun n => if n = "STRING" then some a.currentAddr else a.symtab n } := by
      rw [hparse]
      have hsymbol : doLine ["SYMBOL", "STRING"] = doSym ["SYMBOL", "STRING"] :=
        doLine_symbol (by decide)
      have hlabel : doTokens ["STRING", ":"] =
          doLine ["SYMBOL", "STRING"] >>= fun _ => doLine [] := rfl
      exact (congrFun hlabel a).trans (run_bind_ok (congrFun hsymbol a))
    exact hcells (hemits.ne_of_ok hrun rfl)
  have hne : String.ofList s ≠ ":" := by
    intro h
    have h' := congrArg String.toList h
    rw [String.toList_ofList] at h'
    exact hcolon h'
  have hrun : doTokens (parse false line).1 = storeBytes (Data.string s).cells := by
    rw [hparse]
    refine ((doTokens_of_ne hne []).trans (doLine_string _)).trans ?_
    rw [Command.perform, String.toList_ofList]
    rfl
  have hhandled : (Data.string s).Handled := ⟨hnil, hhash, hcolon⟩
  rw [and_iff_right hhandled, ← storeBytes_ok_iff hcells, ← hrun]
  exact ⟨Emits.run, fun hok => ⟨hok, by rw [hparse]⟩⟩

end Lines

/-- A line of data emits it where the script is able to read the data and there is room. -/
theorem emits_line_iff {d : Data} {line : String} (h : d.Line line) (a : Asm) :
    Emits d line a ↔ d.Handled ∧ a.currentAddr + d.cells.length ≤ 65536 := by
  obtain ⟨lead, gap, text, trail, hlead, hgap, hne, htrail, hops, hline⟩ := h
  cases hops with
  | bytes hlist =>
      refine emits_numbers_iff .bytes "BYTES".toList (by decide) doBytes
        (fun n => storeByte (n % 256)) ?_ ?_ ?_ ?_ hlist hlead hgap hne htrail hline a
      · rw [String.ofList_toList]
        rfl
      · rw [String.ofList_toList]
        exact fun t n ht hn => doLine_bytes ht hn
      · intro n a
        have hsingle : storeBytes [n % 256] = storeByte (n % 256) := by simp [storeBytes]
        rw [← hsingle]
        exact storeBytes_ok_iff (List.cons_ne_nil _ _) a
      · exact fun n ns => List.cons_ne_nil _ _
  | words hlist =>
      refine emits_numbers_iff .words "WORDS".toList (by decide) doWords
        (fun n => storeInsn (n % 65536)) ?_ ?_ ?_ ?_ hlist hlead hgap hne htrail hline a
      · rw [String.ofList_toList]
        rfl
      · rw [String.ofList_toList]
        exact fun t n ht hn => doLine_words ht hn
      · intro n a
        have hcells : (Data.words [n]).cells = wordCells (n % 65536) := by
          have hlow : n % 256 = n % 65536 % 256 := by omega
          have hhigh : n / 256 % 256 = n % 65536 / 256 := by omega
          simp [Data.cells, wordCells, ← hlow, ← hhigh]
        rw [hcells]
        exact storeInsn_ok_iff _ a
      · exact fun n ns => List.cons_ne_nil _ _
  | string hs => exact emits_string_iff hs hlead hgap hne htrail hline a

/-- **A line emits its data** exactly where the script is able to read the data, and the image
has room for it; and behind a line that does, the main loop reads the later lines as if they were
the first, from the state with the data in the image. -/
theorem emits_iff {d : Data} {line : String} (h : d.Line line) (a : Asm) :
    (Emits d line a ↔ d.Handled ∧ a.currentAddr + d.cells.length ≤ 65536) ∧
      (Emits d line a → ∀ (lines : List String) (maxAddr : ℕ),
        mainLoop (line :: lines) false maxAddr a =
          mainLoop lines false (max (a.currentAddr + d.cells.length) maxAddr)
            (a.emitted d.cells)) :=
  ⟨emits_line_iff h a, Emits.mainLoop_eq⟩

/-- `BYTES 0x1F`, with a tab in front of it and a newline behind it, in front of other lines. -/
theorem emits_hex : Emits (.bytes [31]) "\tBYTES 0x1F\n" Asm.start ∧
    ∀ lines : List String, mainLoop ("\tBYTES 0x1F\n" :: lines) false 0 Asm.start =
      mainLoop lines false 1 (Asm.start.emitted [31]) := by
  have hdigits : ∀ c ∈ ['1', 'F'], isHex c := by
    simp only [List.forall_mem_cons, List.not_mem_nil, false_imp_iff, implies_true, and_true]
    decide
  have hlist : Listed [31] ['0', 'x', '1', 'F'] := .last (.hex (List.cons_ne_nil _ _) hdigits)
  have hline : (Data.bytes [31]).Line "\tBYTES 0x1F\n" :=
    ⟨['\t'], [' '], _, ['\n'], by decide, by decide, by decide, by decide, .bytes hlist, rfl⟩
  obtain ⟨hiff, hlater⟩ := emits_iff hline Asm.start
  have hemits := hiff.mpr ⟨rfl, by decide⟩
  exact ⟨hemits, fun lines => hlater hemits lines 0⟩

/-- The two numbers of `BYTES 1, 2` are dropped. -/
theorem not_emits_pair : ¬ ∀ (d : Data) (line : String) (a : Asm), d.Line line →
    a.currentAddr + d.cells.length ≤ 65536 → Emits d line a := by
  intro h
  have hone : Literal ['1'] 1 := .decimal (List.cons_ne_nil _ _) (by simp) (by decide)
  have htwo : Literal ['2'] 2 := .decimal (List.cons_ne_nil _ _) (by simp) (by decide)
  have hsep : Separator [',', ' '] := by
    simp only [Separator, List.forall_mem_cons, List.not_mem_nil, false_imp_iff, implies_true,
      and_true]
    decide
  have hlist : Listed [1, 2] ['1', ',', ' ', '2'] :=
    .cons hone hsep (List.cons_ne_nil _ _) (.last htwo)
  have hline : (Data.bytes [1, 2]).Line "BYTES 1, 2" :=
    ⟨[], [' '], _, [], by decide, by decide, by decide, by decide, .bytes hlist, rfl⟩
  have hemits := h _ _ Asm.start hline (by decide)
  have hparse : (parse false "BYTES 1, 2").1 = ["BYTES", "1", ",", "2"] := by decide
  have hrows : patterns.filter (fun p => Pattern.heads "BYTES" p.1) =
      [([.lit "BYTES", .nums], doBytes)] := rfl
  have hdropped : doLine ["BYTES", "1", ",", "2"] = pure () := doLine_dropped hrows (by decide)
  have hrun : doTokens (parse false "BYTES 1, 2").1 Asm.start = .ok () Asm.start := by
    rw [hparse]
    exact congrFun ((doTokens_of_ne (by decide) _).trans hdropped) Asm.start
  exact List.cons_ne_nil _ _ (hemits.ne_of_ok hrun rfl)

end SystemsProjects.BareMetal
