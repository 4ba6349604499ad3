import Mathlib.Data.List.Basic
import Mathlib.Logic.Function.Basic

/-!
# Packed Strings

Strings that stand one behind the other in a buffer, each behind its last character ended
by a `nul`, and the string that is read back from the place where one of them begins.

## Main definitions

* `pack nul ts`: the strings, each with its `nul`.
* `Holds buf l`: the buffer begins with `l`.
* `stringAt nul n buf p`: the string at the place `p` of a buffer with `n` places.

## Main results

* `Holds.push`: a character is put behind what the buffer holds.
* `stringAt_pack`: a packed string is read back from where it begins.
-/

namespace CStrings

variable {χ : Type*} {nul c : χ} {ts us : List (List χ)} {t l : List χ} {buf : ℕ → χ}

/-- Strings one behind the other, each ended by `nul`. -/
def pack (nul : χ) (ts : List (List χ)) : List χ := (ts.map (· ++ [nul])).flatten

/-- No texts take no bytes. -/
@[simp] theorem pack_nil : pack nul [] = [] := rfl

/-- Texts are packed in the order in which they come, without anything between them. -/
theorem pack_append : pack nul (ts ++ us) = pack nul ts ++ pack nul us := by
  simp [pack]

/-- A text that comes last is put behind the others, with its end marker. -/
theorem pack_concat : pack nul (ts ++ [t]) = pack nul ts ++ t ++ [nul] := by
  simp [pack]

/-- A text that comes first is put in front of the others, with its end marker. -/
theorem pack_cons : pack nul (t :: ts) = t ++ nul :: pack nul ts := by
  simp [pack]

/-- The buffer begins with `l`. -/
def Holds (buf : ℕ → χ) (l : List χ) : Prop := ∀ k c, l[k]? = some c → buf k = c

/-- Every buffer begins with nothing. -/
theorem Holds.nil : Holds buf [] := by
  intro k c h
  cases h

/-- A character put behind what the buffer holds. -/
theorem Holds.push (h : Holds buf l) (c : χ) :
    Holds (Function.update buf l.length c) (l ++ [c]) := by
  intro k d hk
  rcases Nat.lt_trichotomy k l.length with hlt | rfl | hgt
  · rw [List.getElem?_append_left hlt] at hk
    rw [Function.update_of_ne (Nat.ne_of_lt hlt)]
    exact h k d hk
  · rw [List.getElem?_concat_length] at hk
    rw [Function.update_self]
    exact Option.some.inj hk
  · have hlen : (l ++ [c]).length ≤ k := by
      simp only [List.length_append, List.length_singleton]
      omega
    rw [List.getElem?_eq_none hlen] at hk
    cases hk

/-- What the buffer begins with, it begins with in part. -/
theorem Holds.of_append {l' : List χ} (h : Holds buf (l ++ l')) : Holds buf l := by
  intro k c hk
  obtain ⟨hlt, -⟩ := List.getElem?_eq_some_iff.mp hk
  exact h k c (by rw [List.getElem?_append_left hlt, hk])

section StringAt

variable [DecidableEq χ]

/-- The string at the place `p` of a buffer with `n` places. -/
def stringAt (nul : χ) (n : ℕ) (buf : ℕ → χ) (p : ℕ) : List χ :=
  ((List.range (n - p)).map fun k => buf (p + k)).takeWhile (· ≠ nul)

/-- A string with its `nul` is read back from where it begins. -/
theorem stringAt_of_holds {n : ℕ} (h : Holds buf (l ++ t ++ [nul])) (ht : nul ∉ t)
    (hn : (l ++ t ++ [nul]).length ≤ n) : stringAt nul n buf l.length = t := by
  simp only [List.length_append, List.length_singleton] at hn
  have htake : ((List.range (n - l.length)).map fun k => buf (l.length + k)).take
      (t.length + 1) = t ++ [nul] := by
    refine List.ext_getElem (by simp; omega) fun k hk hk' => ?_
    rw [List.getElem_take, List.getElem_map, List.getElem_range]
    refine h _ _ ?_
    rw [List.append_assoc, List.getElem?_append_right (by omega), Nat.add_sub_cancel_left,
      List.getElem?_eq_getElem hk']
  rw [stringAt, ← List.take_append_drop (t.length + 1) ((List.range _).map _), htake,
    List.append_assoc, List.takeWhile_append_of_pos]
  · simp
  · intro c hc
    simpa using ne_of_mem_of_not_mem hc ht

/-- A packed string is read back from where it begins. -/
theorem stringAt_pack {n : ℕ} (h : Holds buf (pack nul (ts ++ t :: us))) (ht : nul ∉ t)
    (hn : (pack nul (ts ++ [t])).length ≤ n) : stringAt nul n buf (pack nul ts).length = t := by
  rw [List.append_cons, pack_append, pack_concat] at h
  exact stringAt_of_holds h.of_append ht (by rwa [← pack_concat])

end StringAt

end CStrings
