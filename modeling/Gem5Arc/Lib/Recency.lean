import Mathlib.Tactic

/-!
# Lists in the order of recency

A list has the most recent element first. An element that is used moves to the front, and one that
is discarded to the back. This is what it means for the first `k` elements and for the last one of
them.

* `mem_take_toFirst_of_lt` and the lemmas after it: the first `k` elements after a move.
* `lru`: a cache of `k` places that discards the least recent element. The caches of all sizes are
  prefixes of each other (`take_lru`).
-/

universe u

namespace Lib

open List

variable {α : Type u} {a b l : List α} {x y : α} {k : ℕ}

/-! ### The first elements -/

theorem mem_take_succ :
  y ∈ l.take (k + 1) ↔ y ∈ l.take k ∨ l[k]? = some y
  := by
  rw [take_add_one, mem_append, Option.mem_toList]

/-- One element less. -/
theorem mem_take_pred (hl : l.Nodup) :
  y ∈ l.take k ↔ y ∈ l.take (k + 1) ∧ l[k]? ≠ some y
  := by
  rw [mem_take_succ]
  constructor
  · intro hy
    refine ⟨Or.inl hy, ?_⟩
    intro hk
    obtain ⟨i, hi, hget⟩ := mem_take_iff_getElem.mp hy
    obtain ⟨hlt, hget'⟩ := List.getElem?_eq_some_iff.mp hk
    have heq := (hl.getElem_inj_iff).mp (hget.trans hget'.symm)
    omega
  · rintro ⟨hy | hy, hne⟩
    · apply hy
    · exact absurd hy hne

theorem take_of_lt (h : a.length < k) :
  (a ++ x :: b).take k = a ++ x :: b.take (k - a.length - 1)
  := by
  obtain ⟨c, rfl⟩ := Nat.exists_eq_add_of_lt h
  rw [take_append, take_of_length_le (by omega), Nat.add_assoc, Nat.add_sub_cancel_left,
    take_succ_cons, Nat.add_sub_cancel]

/-- Whether an element is among the first ones depends on where it is. -/
theorem mem_take_middle (hl : (a ++ x :: b).Nodup) :
  x ∈ (a ++ x :: b).take k ↔ a.length < k
  := by
  rcases Nat.lt_or_ge a.length k with h | h
  · rw [take_of_lt h]
    simp [h]
  · rw [take_append_of_le_length h]
    have hnot := (nodup_cons.mp (nodup_middle.mp hl)).1
    exact iff_of_false (fun hx => hnot (mem_append_left _ (mem_of_mem_take hx))) (by omega)

/-! ### To the front -/

theorem mem_take_toFirst_of_lt (h : a.length < k) :
  y ∈ (x :: (a ++ b)).take k ↔ y ∈ (a ++ x :: b).take k
  := by
  obtain ⟨c, rfl⟩ := Nat.exists_eq_add_of_lt h
  rw [take_of_lt h, take_succ_cons, take_append, take_of_length_le (by omega)]
  simp only [mem_cons, mem_append, Nat.add_sub_cancel_left, Nat.add_assoc, Nat.add_sub_cancel]
  apply or_left_comm

theorem mem_take_toFirst_of_le (h : k + 1 ≤ a.length) :
  y ∈ (x :: (a ++ b)).take (k + 1) ↔ y = x ∨ y ∈ (a ++ x :: b).take k
  := by
  rw [take_succ_cons, mem_cons, take_append_of_le_length (by omega),
    take_append_of_le_length (by omega)]

/-- The last one of the first elements, if the element that moves is one of them and not the
last. -/
theorem getElem?_toFirst_of_lt (h : a.length < k) :
  (x :: (a ++ b))[k]? = (a ++ x :: b)[k]?
  := by
  obtain ⟨c, rfl⟩ := Nat.exists_eq_add_of_lt h
  rw [getElem?_cons_succ, getElem?_append_right (by omega), getElem?_append_right (by omega),
    Nat.add_sub_cancel_left, Nat.add_assoc, Nat.add_sub_cancel_left, getElem?_cons_succ]

/-- The last one of the first elements, if the element that moves comes from behind it. -/
theorem getElem?_toFirst_of_le (h : k < a.length) :
  (x :: (a ++ b))[k + 1]? = (a ++ x :: b)[k]?
  := by
  rw [getElem?_cons_succ, getElem?_append_left h, getElem?_append_left h]

/-! ### To the back -/

theorem mem_take_toLast_of_lt (h : a.length < k) (hk : k ≤ (a ++ b).length) (hy : y ≠ x) :
  y ∈ (a ++ b ++ [x]).take k ↔ y ∈ (a ++ x :: b).take (k + 1)
  := by
  obtain ⟨c, rfl⟩ := Nat.exists_eq_add_of_lt h
  rw [take_append_of_le_length hk, take_of_lt (by omega), take_append, take_of_length_le (by omega)]
  simp only [mem_append, mem_cons, hy, false_or, Nat.add_assoc, Nat.add_sub_cancel_left]
  rfl

theorem take_toLast_of_le (h : k ≤ a.length) :
  (a ++ b ++ [x]).take k = (a ++ x :: b).take k
  := by
  rw [append_assoc, take_append_of_le_length h, take_append_of_le_length h]

theorem getElem?_toLast_of_le (h : a.length ≤ k) (hk : k < (a ++ b).length) :
  (a ++ b ++ [x])[k]? = (a ++ x :: b)[k + 1]?
  := by
  rw [getElem?_append_left hk, getElem?_append_right h,
    getElem?_append_right (by omega), Nat.succ_sub h, getElem?_cons_succ]

theorem getElem?_toLast_of_lt (h : k < a.length) :
  (a ++ b ++ [x])[k]? = (a ++ x :: b)[k]?
  := by
  rw [append_assoc, getElem?_append_left h, getElem?_append_left h]

/-! ### Caches that discard the least recent element -/

section Lru

variable [DecidableEq α] {m n : ℕ} {xs : List α}

/-- Use an element in a cache of `k` places. -/
def lru (k : ℕ) (l : List α) (x : α) : List α := (x :: l.erase x).take k

theorem lru_of_notMem (h : x ∉ l) :
  lru k l x = (x :: l).take k
  := by
  rw [lru, erase_of_not_mem h]

theorem lru_of_mem (h : (a ++ x :: b).Nodup) :
  lru k (a ++ x :: b) x = (x :: (a ++ b)).take k
  := by
  have hx := (nodup_cons.mp (nodup_middle.mp h)).1
  rw [lru, erase_append_right _ fun ha => hx (mem_append_left _ ha), erase_cons_head]

/-- The number of hits of a cache of `k` places with the elements `l`, if elements are used one
after the other. -/
def lruHits (k : ℕ) : List α → List α → ℕ
  | _, [] => 0
  | l, x :: xs => (if x ∈ l then 1 else 0) + lruHits k (lru k l x) xs

/-- The number of misses. -/
def lruMisses (k : ℕ) : List α → List α → ℕ
  | _, [] => 0
  | l, x :: xs => (if x ∈ l then 0 else 1) + lruMisses k (lru k l x) xs

theorem lru_counts_of_mem (h : x ∈ l) :
  lruHits k l (x :: xs) = lruHits k (lru k l x) xs + 1
    ∧ lruMisses k l (x :: xs) = lruMisses k (lru k l x) xs
  := by
  rw [lruHits, lruMisses, if_pos h, if_pos h, Nat.add_comm, Nat.zero_add]
  exact ⟨rfl, rfl⟩

theorem lru_counts_of_notMem (h : x ∉ l) :
  lruHits k l (x :: xs) = lruHits k (lru k l x) xs
    ∧ lruMisses k l (x :: xs) = lruMisses k (lru k l x) xs + 1
  := by
  rw [lruHits, lruMisses, if_neg h, if_neg h, Nat.zero_add, Nat.add_comm]
  exact ⟨rfl, rfl⟩

theorem lruHits_add_lruMisses (k : ℕ) (l xs : List α) :
  lruHits k l xs + lruMisses k l xs = xs.length
  := by
  induction xs generalizing l with
  | nil => rfl
  | cons x xs ih =>
    rw [lruHits, lruMisses, length_cons, ← ih (lru k l x)]
    split_ifs
    · omega
    · omega

theorem take_erase (l : List α) (x : α) (m : ℕ) :
  (l.erase x).take m = ((l.take (m + 1)).erase x).take m
  := by
  induction l generalizing m with
  | nil => rfl
  | cons y l ih =>
    rw [take_succ_cons, erase_cons, erase_cons]
    split_ifs with h
    · rw [take_take, Nat.min_self]
    · cases m with
      | zero => rfl
      | succ m => rw [take_succ_cons, take_succ_cons, ih]

/-- The first `m` elements of a cache are those of a cache of `m` places. -/
theorem take_lru (h : m ≤ n) (l : List α) (x : α) :
  (lru n l x).take m = lru m (l.take m) x
  := by
  rw [lru, lru, take_take, Nat.min_eq_left h]
  cases m with
  | zero => rfl
  | succ m => rw [take_succ_cons, take_succ_cons, take_erase]

theorem lruHits_take_le (h : m ≤ n) (l xs : List α) :
  lruHits m (l.take m) xs ≤ lruHits n l xs
  := by
  induction xs generalizing l with
  | nil => exact Nat.le_refl 0
  | cons x xs ih =>
    rw [lruHits, lruHits, ← take_lru h]
    apply Nat.add_le_add _ (ih (lru n l x))
    split_ifs with hm hn
    · exact Nat.le_refl 1
    · exact absurd (mem_of_mem_take hm) hn
    · exact Nat.zero_le 1
    · exact Nat.le_refl 0

/-- A smaller cache has as many hits as a larger one exactly if every element that is found in the
larger cache is among its first elements. -/
theorem lruHits_eq_iff (h : m ≤ n) (l xs : List α) :
  lruHits n l xs = lruHits m (l.take m) xs
    ↔ ∀ p x q, xs = p ++ x :: q → x ∈ p.foldl (lru n) l → x ∈ (p.foldl (lru n) l).take m
  := by
  induction xs generalizing l with
  | nil =>
    constructor
    · intro _ p x q hxs
      cases p with
      | nil => cases hxs
      | cons y p => cases hxs
    · intro _
      rfl
  | cons y xs ih =>
    have hle := lruHits_take_le h (lru n l y) xs
    have hsplit : (if y ∈ l then 1 else 0) + lruHits n (lru n l y) xs
        = (if y ∈ l.take m then 1 else 0) + lruHits m ((lru n l y).take m) xs
          ↔ (y ∈ l → y ∈ l.take m)
            ∧ lruHits n (lru n l y) xs = lruHits m ((lru n l y).take m) xs := by
      split_ifs with hn hm hm
      · simp [hn, hm]
      · simp only [hn, hm, true_imp_iff, false_and, iff_false]
        omega
      · exact absurd (mem_of_mem_take hm) hn
      · simp [hn]
    rw [lruHits, lruHits, ← take_lru h, hsplit, ih]
    constructor
    · rintro ⟨hy, hxs⟩ p x q heq
      cases p with
      | nil =>
        cases heq
        apply hy
      | cons z p =>
        cases heq
        apply hxs p x q rfl
    · intro hall
      refine ⟨hall [] y xs rfl, ?_⟩
      intro p x q heq
      apply hall (y :: p) x q
      rw [heq, cons_append]

end Lru

end Lib
