import Mathlib.Data.List.Basic
import Mathlib.Logic.Function.Basic

/-!
# Families of Intrusive FIFO Queues

A queue is *intrusive* when its links live in the queued nodes: a header keeps the first
node, the last node and the number of nodes, and every node has one `next` field. A
family of such queues may share the `next` field as long as no node is in two of them.

This module relates such a family to the lists it stands for. `Linked next p l` says that
following `next` from `p` visits exactly `l`; `Represents` adds the header; `Family` is
the joint invariant of all queues over one `next` field. An empty queue constrains
nothing but its size, so headers may start with arbitrary pointers, and a node outside
every queue may keep an arbitrary, stale link.

## Main results

* `Family.push_empty` / `Family.push_nonempty`: the writes of an append at the tail.
* `Family.pop`: the writes of a removal at the head, and what the removed node's stale
  link still tells.
* `Family.lists_eq_walk`: the lists are determined by the links.
-/

namespace IntrusiveQueue

variable {ι κ : Type*}

/-- The header of an intrusive queue. -/
structure Header (ι : Type*) where
  front : Option ι
  end_ : Option ι
  size : ℕ
  deriving DecidableEq

/-- `Linked next p l`: following `next` from `p` visits exactly `l` and then ends. -/
def Linked (next : ι → Option ι) : Option ι → List ι → Prop
  | p, [] => p = none
  | p, x :: xs => p = some x ∧ Linked next (next x) xs

/-- The nodes met when following `next` from `p` for at most `n` nodes. -/
def walk (next : ι → Option ι) : Option ι → ℕ → List ι
  | _, 0 => []
  | none, _ + 1 => []
  | some x, n + 1 => x :: walk next (next x) n

/-! ### Chains -/

/-- A chain is determined by its starting point. -/
theorem Linked.unique {next : ι → Option ι} {p : Option ι} {l l' : List ι}
    (h : Linked next p l) (h' : Linked next p l') : l = l' := by
  induction l generalizing p l' with
  | nil =>
      obtain rfl : p = none := h
      cases l' with
      | nil => rfl
      | cons y ys => cases h'.1
  | cons x xs ih =>
      obtain ⟨rfl, hx⟩ := h
      cases l' with
      | nil => cases h'
      | cons y ys =>
          obtain ⟨hy, hys⟩ := h'
          obtain rfl : x = y := Option.some.inj hy
          rw [ih hx hys]

/-- The tail of a chain that starts at one of its nodes is a chain. -/
theorem Linked.suffix {next : ι → Option ι} {p : Option ι} {l l' : List ι} {x : ι}
    (h : Linked next p (l ++ x :: l')) : Linked next (some x) (x :: l') := by
  induction l generalizing p with
  | nil => exact ⟨rfl, h.2⟩
  | cons y ys ih => exact ih h.2

/-- No node occurs twice in a chain: it would have to continue in two ways. -/
theorem Linked.nodup {next : ι → Option ι} {p : Option ι} {l : List ι}
    (h : Linked next p l) : l.Nodup := by
  induction l generalizing p with
  | nil => exact List.nodup_nil
  | cons x xs ih =>
      refine List.nodup_cons.mpr ⟨fun hx => ?_, ih h.2⟩
      obtain ⟨l₁, l₂, rfl⟩ := List.append_of_mem hx
      have h1 : Linked next (some x) (x :: (l₁ ++ x :: l₂)) := ⟨rfl, h.2⟩
      have h2 : Linked next (some x) (x :: l₂) := Linked.suffix h.2
      have := congrArg List.length (h1.unique h2)
      simp only [List.length_cons, List.length_append] at this
      omega

/-- A chain is read back by walking it. -/
theorem Linked.walk_eq {next : ι → Option ι} {p : Option ι} {l : List ι}
    (h : Linked next p l) : walk next p l.length = l := by
  induction l generalizing p with
  | nil => rw [List.length_nil, walk]
  | cons x xs ih =>
      obtain ⟨rfl, hx⟩ := h
      rw [List.length_cons, walk, ih hx]

/-- Walking on behind the end of a chain adds nothing. -/
theorem Linked.walk_of_le {next : ι → Option ι} {p : Option ι} {l : List ι} {n : ℕ}
    (h : Linked next p l) (hn : l.length ≤ n) : walk next p n = l := by
  induction l generalizing p n with
  | nil =>
      obtain rfl : p = none := h
      cases n <;> rfl
  | cons x xs ih =>
      obtain ⟨rfl, hx⟩ := h
      cases n with
      | zero => cases hn
      | succ n => rw [walk, ih hx (Nat.le_of_succ_le_succ hn)]

/-- The first link of a chain leaves the chain exactly when nothing follows. -/
theorem Linked.next_eq_none_iff {next : ι → Option ι} {x : ι} {xs : List ι}
    (h : Linked next (next x) xs) : next x = none ↔ xs = [] := by
  cases xs with
  | nil => exact ⟨fun _ => rfl, fun _ => h⟩
  | cons y ys => simp [h.1]

/-- A chain runs through the links of its own nodes only. -/
theorem Linked.congr {next next' : ι → Option ι} {p : Option ι} {l : List ι}
    (h : Linked next p l) (hn : ∀ x ∈ l, next' x = next x) : Linked next' p l := by
  induction l generalizing p with
  | nil => exact h
  | cons x xs ih =>
      refine ⟨h.1, ?_⟩
      rw [hn x List.mem_cons_self]
      exact ih h.2 fun y hy => hn y (List.mem_cons_of_mem x hy)

section Update

variable [DecidableEq ι]

/-- Writing the link of a node outside the chain leaves the chain alone. -/
theorem Linked.update_of_notMem {next : ι → Option ι} {p v : Option ι} {l : List ι} {t : ι}
    (h : Linked next p l) (ht : t ∉ l) : Linked (Function.update next t v) p l := by
  induction l generalizing p with
  | nil => exact h
  | cons x xs ih =>
      obtain ⟨htx, hxs⟩ := not_or.mp (mt List.mem_cons.mpr ht)
      refine ⟨h.1, ?_⟩
      rw [Function.update_of_ne (Ne.symm htx)]
      exact ih h.2 hxs

/-- Linking a fresh last node after the old last one. -/
theorem Linked.append {next : ι → Option ι} {p : Option ι} {l : List ι} {r t : ι}
    (h : Linked next p l) (hr : l.getLast? = some r) (ht : t ∉ l) :
    Linked (Function.update (Function.update next t none) r (some t)) p (l ++ [t]) := by
  have hnd := h.nodup
  induction l generalizing p with
  | nil => cases hr
  | cons x xs ih =>
      obtain ⟨htx, hxs⟩ := not_or.mp (mt List.mem_cons.mpr ht)
      refine ⟨h.1, ?_⟩
      cases xs with
      | nil =>
          obtain rfl : x = r := by simpa using hr
          rw [Function.update_self]
          refine ⟨rfl, ?_⟩
          rw [Function.update_of_ne htx, Function.update_self]
          rfl
      | cons y ys =>
          have hr' : (y :: ys).getLast? = some r := by
            rw [← hr, List.getLast?_cons_cons]
          have hxr : x ≠ r := by
            rintro rfl
            exact (List.nodup_cons.mp hnd).1 (List.mem_of_getLast? hr')
          rw [Function.update_of_ne hxr, Function.update_of_ne (Ne.symm htx)]
          exact ih h.2 hr' hxs (List.nodup_cons.mp hnd).2

end Update

/-! ### One queue -/

/-- The header `h` over the links `next` stands for the list `l`. -/
structure Represents (next : ι → Option ι) (h : Header ι) (l : List ι) : Prop where
  size_eq : h.size = l.length
  linked : l ≠ [] → Linked next h.front l
  end_eq : l ≠ [] → h.end_ = l.getLast?

/-- A header of size zero stands for the empty list, whatever its pointers are. -/
theorem Represents.empty (next : ι → Option ι) {h : Header ι} (hs : h.size = 0) :
    Represents next h [] :=
  ⟨hs, fun hne => absurd rfl hne, fun hne => absurd rfl hne⟩

/-- The list of a queue is read back by walking `size` links from the front. -/
theorem Represents.walk_eq {next : ι → Option ι} {h : Header ι} {l : List ι}
    (hr : Represents next h l) : walk next h.front h.size = l := by
  rw [hr.size_eq]
  by_cases hl : l = []
  · subst hl
    rw [List.length_nil, walk]
  · exact (hr.linked hl).walk_eq

/-- A queue holds no node twice. -/
theorem Represents.nodup {next : ι → Option ι} {h : Header ι} {l : List ι}
    (hr : Represents next h l) : l.Nodup := by
  by_cases hl : l = []
  · subst hl
    exact List.nodup_nil
  · exact (hr.linked hl).nodup

/-- The size field tells whether the queue is empty. -/
theorem Represents.size_eq_zero_iff {next : ι → Option ι} {h : Header ι} {l : List ι}
    (hr : Represents next h l) : h.size = 0 ↔ l = [] := by
  rw [hr.size_eq, List.length_eq_zero_iff]

/-- Writing the link of a node outside the queue leaves the queue alone. -/
theorem Represents.update_of_notMem [DecidableEq ι] {next : ι → Option ι} {h : Header ι}
    {l : List ι} {t : ι} {v : Option ι} (hr : Represents next h l) (ht : t ∉ l) :
    Represents (Function.update next t v) h l :=
  ⟨hr.size_eq, fun hl => (hr.linked hl).update_of_notMem ht, hr.end_eq⟩

/-! ### Families sharing one link field -/

/-- All queues of the family stand for their lists, and no node is in two of them. -/
structure Family (next : ι → Option ι) (hdr : κ → Header ι) (lists : κ → List ι) :
    Prop where
  rep : ∀ k, Represents next (hdr k) (lists k)
  disjoint : ∀ k k' x, x ∈ lists k → x ∈ lists k' → k = k'

/-- The lists of a family are determined by its headers and links. -/
theorem Family.lists_eq_walk {next : ι → Option ι} {hdr : κ → Header ι}
    {lists : κ → List ι} (F : Family next hdr lists) :
    lists = fun k => walk next (hdr k).front (hdr k).size :=
  funext fun k => (F.rep k).walk_eq.symm

/-- Writing the link of a node in no queue keeps the family. -/
theorem Family.update_of_notMem [DecidableEq ι] {next : ι → Option ι} {hdr : κ → Header ι}
    {lists : κ → List ι} {t : ι} {v : Option ι} (F : Family next hdr lists)
    (ht : ∀ k, t ∉ lists k) : Family (Function.update next t v) hdr lists :=
  ⟨fun k => (F.rep k).update_of_notMem (ht k), F.disjoint⟩

/-- The queues depend on the links of the nodes in them only. -/
theorem Family.congr {next next' : ι → Option ι} {hdr : κ → Header ι} {lists : κ → List ι}
    (F : Family next hdr lists) (hn : ∀ k, ∀ x ∈ lists k, next' x = next x) :
    Family next' hdr lists :=
  ⟨fun k => ⟨(F.rep k).size_eq, fun hl => ((F.rep k).linked hl).congr (hn k), (F.rep k).end_eq⟩,
    F.disjoint⟩

/-- Replacing an empty queue's header by another one of size zero keeps the family. -/
theorem Family.reset [DecidableEq κ] {next : ι → Option ι} {hdr : κ → Header ι}
    {lists : κ → List ι} {k : κ} {h : Header ι} (F : Family next hdr lists)
    (hk : lists k = []) (hs : h.size = 0) : Family next (Function.update hdr k h) lists := by
  refine ⟨fun j => ?_, F.disjoint⟩
  by_cases hj : j = k
  · subst hj
    rw [Function.update_self, hk]
    exact .empty next hs
  · rw [Function.update_of_ne hj]
    exact F.rep j

section Operations

variable {next : ι → Option ι} {hdr : κ → Header ι} {lists : κ → List ι} {k : κ}

/-- Disjointness survives the append of a node that is in no queue. -/
private theorem disjoint_push [DecidableEq κ] {t : ι}
    (hd : ∀ k k' x, x ∈ lists k → x ∈ lists k' → k = k')
    (ht : ∀ k, t ∉ lists k) (j j' : κ) (x : ι)
    (hj : x ∈ Function.update lists k (lists k ++ [t]) j)
    (hj' : x ∈ Function.update lists k (lists k ++ [t]) j') : j = j' := by
  have key : ∀ i, x ∈ Function.update lists k (lists k ++ [t]) i →
      x ∈ lists i ∨ (i = k ∧ x = t) := by
    intro i hi
    by_cases hik : i = k
    · subst hik
      rw [Function.update_self, List.mem_append, List.mem_singleton] at hi
      exact hi.imp_right fun hx => ⟨rfl, hx⟩
    · rw [Function.update_of_ne hik] at hi
      exact .inl hi
  rcases key j hj with h | ⟨rfl, rfl⟩
  · rcases key j' hj' with h' | ⟨rfl, rfl⟩
    · exact hd j j' x h h'
    · exact absurd h (ht j)
  · rcases key j' hj' with h' | ⟨rfl, -⟩
    · exact absurd h' (ht j')
    · rfl

/-- Appending to an empty queue: the node becomes front and end. -/
theorem Family.push_empty [DecidableEq ι] [DecidableEq κ] {t : ι}
    (F : Family next hdr lists) (hk : (hdr k).size = 0) (ht : ∀ k, t ∉ lists k) :
    Family (Function.update next t none)
      (Function.update hdr k ⟨some t, some t, (hdr k).size + 1⟩)
      (Function.update lists k (lists k ++ [t])) := by
  have hl : lists k = [] := (F.rep k).size_eq_zero_iff.mp hk
  refine ⟨fun j => ?_, disjoint_push F.disjoint ht⟩
  by_cases hj : j = k
  · subst hj
    rw [Function.update_self, Function.update_self, hl, hk]
    exact ⟨rfl, fun _ => ⟨rfl, Function.update_self ..⟩, fun _ => rfl⟩
  · rw [Function.update_of_ne hj, Function.update_of_ne hj]
    exact (F.rep j).update_of_notMem (ht j)

/-- A nonempty queue has a last node, and the end pointer points to it. -/
theorem Family.end_of_size_ne_zero (F : Family next hdr lists) (hk : (hdr k).size ≠ 0) :
    ∃ r, (hdr k).end_ = some r ∧ (lists k).getLast? = some r := by
  have hl : lists k ≠ [] := fun h => hk ((F.rep k).size_eq_zero_iff.mpr h)
  refine ⟨(lists k).getLast hl, ?_, List.getLast?_eq_some_getLast hl⟩
  rw [(F.rep k).end_eq hl, List.getLast?_eq_some_getLast hl]

/-- Appending to a nonempty queue: the old last node is linked to the new one. -/
theorem Family.push_nonempty [DecidableEq ι] [DecidableEq κ] {t r : ι}
    (F : Family next hdr lists)
    (hr : (lists k).getLast? = some r) (ht : ∀ k, t ∉ lists k) :
    Family (Function.update (Function.update next t none) r (some t))
      (Function.update hdr k ⟨(hdr k).front, some t, (hdr k).size + 1⟩)
      (Function.update lists k (lists k ++ [t])) := by
  have hrk : r ∈ lists k := List.mem_of_getLast? hr
  have hl : lists k ≠ [] := List.ne_nil_of_mem hrk
  refine ⟨fun j => ?_, disjoint_push F.disjoint ht⟩
  by_cases hj : j = k
  · subst hj
    rw [Function.update_self, Function.update_self]
    refine ⟨?_, fun _ => ((F.rep j).linked hl).append hr (ht j), fun _ => ?_⟩
    · simp [(F.rep j).size_eq]
    · rw [List.getLast?_append_of_ne_nil _ (List.cons_ne_nil t []), List.getLast?_singleton]
  · rw [Function.update_of_ne hj, Function.update_of_ne hj]
    have hrj : r ∉ lists j := fun h => hj (F.disjoint j k r h hrk)
    exact ((F.rep j).update_of_notMem (ht j)).update_of_notMem hrj

/-- What the header and the links tell about the head of a nonempty queue. -/
theorem Family.head {x : ι} {xs : List ι} (F : Family next hdr lists)
    (hl : lists k = x :: xs) :
    (hdr k).front = some x ∧ (hdr k).size = xs.length + 1 ∧ (next x = none ↔ xs = []) := by
  have hne : lists k ≠ [] := hl ▸ List.cons_ne_nil x xs
  have hlink := (F.rep k).linked hne
  have hsize := (F.rep k).size_eq
  rw [hl] at hlink hsize
  exact ⟨hlink.1, hsize, hlink.2.next_eq_none_iff⟩

/-- Removing the head: front moves to the head's link, the links stay as they are, and
the end pointer is cleared when the queue becomes empty. -/
theorem Family.pop [DecidableEq κ] {x : ι} {xs : List ι} (F : Family next hdr lists)
    (hl : lists k = x :: xs) :
    Family next
      (Function.update hdr k
        ⟨next x, if xs.length = 0 then none else (hdr k).end_, xs.length⟩)
      (Function.update lists k xs) := by
  have hne : lists k ≠ [] := hl ▸ List.cons_ne_nil x xs
  have hlink := (F.rep k).linked hne
  have hend := (F.rep k).end_eq hne
  rw [hl] at hlink hend
  have hsub : ∀ j y, y ∈ Function.update lists k xs j → y ∈ lists j := by
    intro j y hy
    by_cases hj : j = k
    · subst hj
      rw [Function.update_self] at hy
      exact hl ▸ List.mem_cons_of_mem x hy
    · rwa [Function.update_of_ne hj] at hy
  refine ⟨fun j => ?_, fun j j' y h h' => F.disjoint j j' y (hsub j y h) (hsub j' y h')⟩
  by_cases hj : j = k
  · subst hj
    rw [Function.update_self, Function.update_self]
    refine ⟨rfl, fun _ => hlink.2, fun hxs => ?_⟩
    rw [if_neg (by simpa using hxs), hend]
    obtain ⟨y, ys, rfl⟩ := List.exists_cons_of_ne_nil hxs
    rw [List.getLast?_cons_cons]
  · rw [Function.update_of_ne hj, Function.update_of_ne hj]
    exact F.rep j

end Operations

end IntrusiveQueue
