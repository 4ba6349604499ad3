import Mathlib.Data.List.Basic
import Mathlib.Data.Nat.Notation

/-!
# Images With Holes

An image that is built from front to back in a memory, some cells of which are only known
later: something of the same length is written in their place, and the cells are noted as
a patch. Once all is written the patches are made. `Built` is the invariant: with the
patches made, the memory is the image so far.

## Main definitions

* `write`: cells written at an address.
* `make`: patches made one after the other.
* `Built`: the memory and the patches of an image.

## Main results

* `Built.write`, `Built.leave`, `Built.skip`: cells that are known, cells that are left to a
  patch, and cells that keep the blank they have.
-/

namespace Patches

variable {β : Type}

/-- The memory with `cells` from `addr` on. -/
def write (addr : ℕ) (cells : List β) (mem : ℕ → β) : ℕ → β := fun k =>
  if addr ≤ k then cells[k - addr]?.getD (mem k) else mem k

/-- The patches, made one after the other. -/
def make (patches : List (ℕ × List β)) (mem : ℕ → β) : ℕ → β :=
  patches.foldl (fun mem p => write p.1 p.2 mem) mem

/-- A memory with `cells` from 0 on, and `blank` behind them. -/
def image (blank : β) (cells : List β) : ℕ → β := fun k => cells[k]?.getD blank

variable {addr k : ℕ} {blank : β} {cells new hole : List β} {mem : ℕ → β}
  {patches : List (ℕ × List β)}

/-- What is found behind a patch: its own cell where it has one, and the old contents elsewhere. -/
theorem write_apply (addr : ℕ) (cells : List β) (mem : ℕ → β) (k : ℕ) :
    write addr cells mem k = if addr ≤ k then cells[k - addr]?.getD (mem k) else mem k := rfl

/-- A patch leaves the cells in front of it alone. -/
theorem write_of_lt (h : k < addr) : write addr cells mem k = mem k :=
  if_neg (by omega)

/-- A patch leaves the cells behind it alone. -/
theorem write_of_le (h : addr + cells.length ≤ k) : write addr cells mem k = mem k := by
  rw [write, if_pos (by omega), List.getElem?_eq_none (by omega), Option.getD_none]

/-- Writes to different places can be made in any order. -/
theorem write_comm {addr' : ℕ} (h : addr + cells.length ≤ addr') :
    write addr cells (write addr' new mem) = write addr' new (write addr cells mem) := by
  funext k
  by_cases hk : k < addr'
  · have hkeep (m : ℕ → β) : write addr' new m k = m k := write_of_lt hk
    rw [hkeep, write_apply, hkeep, write_apply]
  · have hkeep (m : ℕ → β) : write addr cells m k = m k := write_of_le (by omega)
    rw [hkeep, write_apply, write_apply, hkeep]

/-- What is written over something of the same length is all that is left. -/
theorem write_write (h : hole.length = cells.length) :
    write addr cells (write addr hole mem) = write addr cells mem := by
  funext k
  by_cases hk : addr + cells.length ≤ k
  · rw [write_of_le hk, write_of_le (h ▸ hk), write_of_le hk]
  · by_cases hk' : k < addr
    · rw [write_of_lt hk', write_of_lt hk', write_of_lt hk']
    · have hlt : k - addr < cells.length := by omega
      have hle : addr ≤ k := by omega
      rw [write_apply, write_apply addr cells mem, List.getElem?_eq_getElem hlt, if_pos hle,
        if_pos hle]
      rfl

/-- The cells of an image behind its end are blank. -/
theorem write_image :
    write cells.length new (image blank cells) = image blank (cells ++ new) := by
  funext k
  by_cases hk : k < cells.length
  · rw [write_of_lt hk, image, image, List.getElem?_append_left hk]
  · rw [write, if_pos (by omega), image, image, List.getElem?_append_right (by omega),
      List.getElem?_eq_none (by omega : cells.length ≤ k), Option.getD_none]

/-- Blank cells at the end of an image are the same as none. -/
theorem image_append_replicate (n : ℕ) :
    image blank (cells ++ List.replicate n blank) = image blank cells := by
  funext k
  rw [image, image, List.getElem?_append]
  split
  · rfl
  · rw [List.getElem?_eq_none (by omega : cells.length ≤ k), List.getElem?_replicate]
    split <;> rfl

/-- The last of several patches is written over what the others have left. -/
theorem make_append (patches : List (ℕ × List β)) (p : ℕ × List β) (mem : ℕ → β) :
    make (patches ++ [p]) mem = write p.1 p.2 (make patches mem) := by
  rw [make, List.foldl_append]
  rfl

/-- What is written behind all patches can be written first. -/
theorem make_write (h : ∀ p ∈ patches, p.1 + p.2.length ≤ addr) :
    make patches (write addr new mem) = write addr new (make patches mem) := by
  induction patches generalizing mem with
  | nil => rfl
  | cons p patches ih =>
      have hp := h p List.mem_cons_self
      have hrest : ∀ q ∈ patches, q.1 + q.2.length ≤ addr :=
        fun q hq => h q (List.mem_cons_of_mem p hq)
      change make patches (write p.1 p.2 (write addr new mem)) = _
      rw [write_comm hp, ih hrest]
      rfl

/-- With the patches made the memory is the image, and the patches are within it. -/
structure Built (blank : β) (cells : List β) (patches : List (ℕ × List β)) (mem : ℕ → β) :
    Prop where
  made : make patches mem = image blank cells
  within : ∀ p ∈ patches, p.1 + p.2.length ≤ cells.length

namespace Built

/-- The empty image. -/
theorem nil : Built blank [] [] fun _ => blank :=
  ⟨rfl, fun _ hp => absurd hp List.not_mem_nil⟩

/-- Cells that are known. -/
theorem write (h : Built blank cells patches mem) (new : List β) :
    Built blank (cells ++ new) patches (write cells.length new mem) := by
  refine ⟨?_, fun p hp => ?_⟩
  · rw [make_write h.within, h.made, write_image]
  · have := h.within p hp
    rw [List.length_append]
    omega

/-- Cells that are left to a patch. -/
theorem leave (h : Built blank cells patches mem) (hlen : hole.length = new.length) :
    Built blank (cells ++ new) (patches ++ [(cells.length, new)])
      (Patches.write cells.length hole mem) := by
  refine ⟨?_, fun p hp => ?_⟩
  · rw [make_append, make_write h.within, write_write hlen, h.made, write_image]
  · rw [List.length_append]
    rcases List.mem_append.mp hp with hp | hp
    · have := h.within p hp
      omega
    · cases List.mem_singleton.mp hp
      exact Nat.le_refl _

/-- Cells that stay blank. -/
theorem skip (h : Built blank cells patches mem) (n : ℕ) :
    Built blank (cells ++ List.replicate n blank) patches mem := by
  refine ⟨?_, fun p hp => ?_⟩
  · rw [h.made, image_append_replicate]
  · have := h.within p hp
    rw [List.length_append]
    omega

end Built

end Patches
