import Mathlib.Algebra.Ring.Nat
import Mathlib.Tactic.SplitIfs

/-!
# Memories of Bytes, Accessed by Words

A memory of bytes under 64-bit addresses, with the loads and stores of a machine that
keeps its 64-bit words in little-endian order. Addresses wrap around, and a range of bytes
is given by its first address and its length, so that a range may wrap around as well.

A list of words can be stored downwards from an address, each below the one before, as a
stack is pushed, and be found in a memory upwards from an address, as a stack is popped.

## Main definitions

* `load`, `store`: a word read and written.
* `Within`: an address lies in a range of bytes.
* `storeDown`, `Holds`: the words of a list pushed below an address, and found from an
  address on.

## Main results

* `load_store_self`, `load_congr`: what a load sees.
* `storeDown_holds`, `storeDown_apply`: what was pushed is found, and nothing else changed.
* `Holds.congr`: words are found wherever their bytes are.
-/

namespace ByteMemory

/-- A 64-bit address. -/
abbrev Addr := BitVec 64

/-- A 64-bit word. -/
abbrev Word := BitVec 64

/-- A memory: a byte for each address. -/
abbrev Memory := Addr → BitVec 8

/-- The word at an address, lowest byte first. -/
def load (m : Memory) (a : Addr) : Word :=
  let byte k := m (a + BitVec.ofNat 64 k)
  byte 7 ++ byte 6 ++ byte 5 ++ byte 4 ++ byte 3 ++ byte 2 ++ byte 1 ++ byte 0

/-- A word written at an address, lowest byte first. -/
def store (m : Memory) (a : Addr) (v : Word) : Memory := fun x =>
  if (x - a).toNat < 8 then v.extractLsb' (8 * (x - a).toNat) 8 else m x

/-- The address lies in the `n` bytes from `a` on. -/
def Within (x a : Addr) (n : ℕ) : Prop := (x - a).toNat < n

variable {m m' : Memory} {a b x : Addr} {n k : ℕ}

/-- The bytes at small distances above `a` are within the range that starts there. -/
theorem within_add (hk : k < n) (h : n ≤ 2 ^ 64) : Within (a + BitVec.ofNat 64 k) a n := by
  have : (a + BitVec.ofNat 64 k - a).toNat = k := by bv_omega
  rw [Within, this]
  exact hk

/-- A range is contained in every longer one with the same start. -/
theorem Within.mono (h : Within x a n) (hn : n ≤ k) : Within x a k := Nat.lt_of_lt_of_le h hn

/-- A range within a range. -/
theorem Within.sub (h : Within x (b + BitVec.ofNat 64 k) n) {l : ℕ} (hl : k + n ≤ l)
    (hlt : l ≤ 2 ^ 64) : Within x b l := by
  rw [Within] at h ⊢
  bv_omega

/-! ### One word -/

/-- A store of a word changes eight bytes and leaves every other one as it was. -/
theorem store_apply (v : Word) (h : ¬Within x a 8) : store m a v x = m x := if_neg h

/-- The bytes of a stored word, the lowest at the lowest address. -/
theorem store_byte (m : Memory) (a : Addr) (v : Word) (hk : k < 8) :
    store m a v (a + BitVec.ofNat 64 k) = v.extractLsb' (8 * k) 8 := by
  have hx : (a + BitVec.ofNat 64 k - a).toNat = k := by bv_omega
  rw [store, hx, if_pos hk]

/-- A load sees the word stored there. -/
@[simp] theorem load_store_self (m : Memory) (a : Addr) (v : Word) :
    load (store m a v) a = v := by
  have h := fun k hk => store_byte m a v (k := k) hk
  simp only [load]
  rw [h 7 (by omega), h 6 (by omega), h 5 (by omega), h 4 (by omega), h 3 (by omega),
    h 2 (by omega), h 1 (by omega), h 0 (by omega)]
  ext i hi
  refine Eq.trans ?_ (BitVec.getLsbD_eq_getElem (x := v) hi)
  simp only [BitVec.getElem_append, BitVec.getElem_extractLsb']
  split_ifs <;> congr 1 <;> omega

/-- A load depends on its eight bytes only. -/
theorem load_congr (h : ∀ x, Within x a 8 → m x = m' x) : load m a = load m' a := by
  have hb := fun k hk => h (a + BitVec.ofNat 64 k) (within_add (k := k) hk (by omega))
  simp only [load]
  rw [hb 7 (by omega), hb 6 (by omega), hb 5 (by omega), hb 4 (by omega), hb 3 (by omega),
    hb 2 (by omega), hb 1 (by omega), hb 0 (by omega)]

/-! ### Lists of words -/

/-- The words are stored one below the other, the first right below `a`. -/
def storeDown (m : Memory) (a : Addr) : List Word → Memory
  | [] => m
  | v :: vs => storeDown (store m (a - 8) v) (a - 8) vs

/-- The words are found one above the other, the first at `a`. -/
def Holds (m : Memory) (a : Addr) : List Word → Prop
  | [] => True
  | w :: ws => load m a = w ∧ Holds m (a + 8) ws

/-- The lowest address of `n` words stored below `a`. -/
def below (a : Addr) (n : ℕ) : Addr := a - BitVec.ofNat 64 (8 * n)

/-- Zero words below an address is the address. -/
@[simp] theorem below_zero (a : Addr) : below a 0 = a := BitVec.sub_zero a

/-- The first of some words below an address lies right below it, the others below that one. -/
theorem below_succ : below a (n + 1) = below (a - 8) n := by
  simp only [below]
  bv_omega

/-- The last of some words below an address lies below the others. -/
theorem below_succ' : below a (n + 1) = below a n - 8 := by
  simp only [below]
  bv_omega

/-- Going up again over the last of the words. This is how a pop undoes a push. -/
theorem below_add : below a (k + n) + BitVec.ofNat 64 (8 * n) = below a k := by
  simp only [below]
  bv_omega

/-- Words below words are words below the first address. -/
theorem below_below : below (below a k) n = below a (k + n) := by
  simp only [below]
  bv_omega

/-- The sum a `lea` with a negative distance computes is a number of words further down. -/
theorem add_neg_eq_below : a + -BitVec.ofNat 64 (8 * n) = below a n := by
  simp only [below]
  bv_omega

/-- Words below an address are among more words below it. -/
theorem Within.below (h : Within x (below a k) (8 * k)) (hlt : 8 * (k + n) ≤ 2 ^ 64) :
    Within x (ByteMemory.below a (k + n)) (8 * (k + n)) := by
  rw [← below_add (n := n)] at h
  exact h.sub (by omega) hlt

/-- Two lists of words, stored one below the other, are stored one after the other. -/
theorem storeDown_append (vs ws : List Word) :
    storeDown m a (vs ++ ws) = storeDown (storeDown m a vs) (below a vs.length) ws := by
  induction vs generalizing m a with
  | nil => simp [storeDown, below]
  | cons v vs ih => rw [List.cons_append, storeDown, ih, storeDown, List.length_cons, below_succ]

/-- Words pushed below an address leave the bytes outside their range alone. -/
theorem storeDown_apply {vs : List Word} (hn : 8 * vs.length ≤ 2 ^ 64)
    (h : ¬Within x (below a vs.length) (8 * vs.length)) : storeDown m a vs x = m x := by
  induction vs generalizing m a with
  | nil => rfl
  | cons v vs ih =>
      simp only [List.length_cons, below_succ] at hn h
      have hlow : ¬Within x (below (a - 8) vs.length) (8 * vs.length) :=
        fun hx => h (by rw [Within] at hx ⊢; omega)
      have htop : ¬Within x (a - 8) 8 := by
        intro hx
        refine h ?_
        rw [Within, below] at *
        bv_omega
      rw [storeDown, ih (by omega) hlow, store_apply v htop]

/-- Words pushed below an address leave the word at the address alone. -/
theorem load_storeDown {vs : List Word} (hn : 8 * vs.length + 8 ≤ 2 ^ 64) :
    load (storeDown m a vs) a = load m a := by
  refine load_congr fun x hx => storeDown_apply (by omega) fun hx' => ?_
  rw [Within, below] at *
  bv_omega

/-- Two lists of words in memory lie one above the other. -/
theorem holds_append (vs ws : List Word) :
    Holds m a (vs ++ ws) ↔ Holds m a vs ∧ Holds m (a + BitVec.ofNat 64 (8 * vs.length)) ws := by
  induction vs generalizing a with
  | nil => simp [Holds]
  | cons v vs ih =>
      have ha : a + 8 + BitVec.ofNat 64 (8 * vs.length) =
          a + BitVec.ofNat 64 (8 * (vs.length + 1)) := by bv_omega
      rw [List.cons_append, Holds, ih, Holds, ha, List.length_cons, and_assoc]

/-- Words are found wherever their bytes are. -/
theorem Holds.congr {ws : List Word} (h : Holds m a ws) (hn : 8 * ws.length ≤ 2 ^ 64)
    (hm : ∀ x, Within x a (8 * ws.length) → m' x = m x) : Holds m' a ws := by
  induction ws generalizing a with
  | nil => trivial
  | cons w ws ih =>
      obtain ⟨hw, hws⟩ := h
      simp only [List.length_cons] at hn hm
      refine ⟨?_, ih hws (by omega) fun x hx => hm x ?_⟩
      · rw [← hw]
        refine load_congr fun x hx => hm x ?_
        rw [Within] at hx ⊢
        omega
      · exact Within.sub (k := 8) hx (by omega) hn

/-- What was pushed is found, from the last word pushed upwards. -/
theorem storeDown_holds {vs : List Word} (hn : 8 * vs.length ≤ 2 ^ 64) :
    Holds (storeDown m a vs) (below a vs.length) vs.reverse := by
  induction vs generalizing m a with
  | nil => trivial
  | cons v vs ih =>
      simp only [List.length_cons] at hn
      rw [storeDown, List.length_cons, below_succ, List.reverse_cons, holds_append]
      refine ⟨ih (by omega), ?_, trivial⟩
      rw [List.length_reverse, show below (a - 8) vs.length + BitVec.ofNat 64 (8 * vs.length) =
        a - 8 by simp only [below]; bv_omega]
      refine (load_congr fun x hx => ?_).trans (load_store_self m (a - 8) v)
      refine storeDown_apply (by omega) fun hx' => ?_
      rw [Within, below] at *
      bv_omega

end ByteMemory
