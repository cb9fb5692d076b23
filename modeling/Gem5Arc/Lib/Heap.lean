import Mathlib.Tactic

/-!
# Binary heaps

A vector is a heap with respect to a comparison `gt` if no element is greater than one of its
children, where the parent of position `i` is `(i - 1) / 2`. `HeapOps gt` are operations on heaps
that do what the algorithms of the C++ library promise: `pushHeap` makes a heap of a heap and one
more element at its end, and `popHeap` moves the first element to the end and leaves a heap in
front of it.

The comparison goes by keys from a linear order. Then the first element of a heap has the smallest
key (`IsHeap.le_of_mem`), and sifting elements up and down implements the operations
(`binaryHeap`).
-/

universe u v

namespace Lib

open Equiv List

variable {α : Type u} {K : Type v} [LinearOrder K] {gt : α → α → Bool} {key : α → K} {l : List α}
  {i j k : ℕ} {x : α} {fuel : ℕ}

/-- The parent of a position. -/
def parent (i : ℕ) : ℕ := (i - 1) / 2

theorem parent_lt (hi : 0 < i) :
  parent i < i
  := by
  rw [parent]
  omega

/-- There are elements at the positions, and the first one is greater. -/
def gtAt (gt : α → α → Bool) (l : List α) (i j : ℕ) : Bool :=
  match l[i]?, l[j]? with
  | some x, some y => gt x y
  | _, _ => false

theorem gtAt_of_length_le (hj : l.length ≤ j) :
  gtAt gt l i j = false
  := by
  simp [gtAt, getElem?_eq_none hj]

/-- No element is greater than one of its children. -/
def IsHeap (gt : α → α → Bool) (l : List α) : Prop :=
  ∀ i, 0 < i → gtAt gt l (parent i) i = false

/-- Operations on heaps. -/
structure HeapOps (gt : α → α → Bool) where
  pushHeap : List α → List α
  popHeap : List α → List α
  push_spec : ∀ l x, IsHeap gt l →
    IsHeap gt (pushHeap (l ++ [x])) ∧ (pushHeap (l ++ [x])).Perm (l ++ [x])
  pop_spec : ∀ l x, IsHeap gt (x :: l) → ∃ m, popHeap (x :: l) = m ++ [x] ∧ IsHeap gt m ∧ m.Perm l

namespace HeapOps

variable (H : HeapOps gt)

theorem isHeap_pushHeap (h : IsHeap gt l) (x : α) :
  IsHeap gt (H.pushHeap (l ++ [x]))
  := (H.push_spec l x h).1

/-- The pushed element is added, and no other is lost. -/
theorem pushHeap_perm (h : IsHeap gt l) (x : α) :
  (H.pushHeap (l ++ [x])).Perm (x :: l)
  := (H.push_spec l x h).2.trans (perm_append_singleton x l)

/-- The heap that is left when its first element is taken out. -/
theorem popHeap_spec (h : IsHeap gt l) (hx : l.head? = some x) :
  IsHeap gt (H.popHeap l).dropLast ∧ l.Perm (x :: (H.popHeap l).dropLast)
  := by
  obtain ⟨l, rfl⟩ := head?_eq_some_iff.mp hx
  obtain ⟨m, hpop, hheap, hperm⟩ := H.pop_spec l x h
  rw [hpop, dropLast_concat]
  exact ⟨hheap, hperm.symm.cons x⟩

end HeapOps

theorem isHeap_nil :
  IsHeap gt []
  := by
  intro i _
  rfl

section Order

variable (hgt : ∀ x y, gt x y = true ↔ key y < key x)

include hgt

/-- Positions are in order if their keys are, where there are elements. -/
theorem gtAt_eq_false_iff :
  gtAt gt l i j = false ↔ ∀ x y, l[i]? = some x → l[j]? = some y → key x ≤ key y
  := by
  rw [gtAt]
  cases hi : l[i]? with
  | none => simp
  | some x =>
    cases hj : l[j]? with
    | none => simp
    | some y =>
      rw [← Bool.not_eq_true, hgt, not_lt]
      simp

theorem gtAt_eq_true_iff :
  gtAt gt l i j = true ↔ ∃ x y, l[i]? = some x ∧ l[j]? = some y ∧ key y < key x
  := by
  rw [← Bool.not_eq_false, gtAt_eq_false_iff hgt]
  simp

theorem gtAt_self :
  gtAt gt l i i = false
  := by
  rw [gtAt_eq_false_iff hgt]
  intro x y hx hy
  rw [hx] at hy
  cases hy
  apply le_refl

/-- Of two elements at most one is greater. -/
theorem gtAt_asymm (h : gtAt gt l i j = true) :
  gtAt gt l j i = false
  := by
  obtain ⟨x, y, hx, hy, hlt⟩ := (gtAt_eq_true_iff hgt).mp h
  rw [gtAt_eq_false_iff hgt]
  intro y' x' hy' hx'
  rw [hy] at hy'
  rw [hx] at hx'
  cases hy'
  cases hx'
  apply hlt.le

/-- The order of positions is transitive, if there is an element at the one in between. -/
theorem gtAt_trans (hj : j < l.length) (hij : gtAt gt l i j = false) (hjk : gtAt gt l j k = false) :
  gtAt gt l i k = false
  := by
  rw [gtAt_eq_false_iff hgt] at hij hjk ⊢
  intro x z hx hz
  have hy := getElem?_eq_getElem hj
  apply (hij x _ hx hy).trans (hjk _ z hy hz)

theorem lt_length_of_gtAt (h : gtAt gt l i j = true) :
  i < l.length ∧ j < l.length
  := by
  obtain ⟨x, y, hx, hy, -⟩ := (gtAt_eq_true_iff hgt).mp h
  exact ⟨(List.getElem?_eq_some_iff.mp hx).1, (List.getElem?_eq_some_iff.mp hy).1⟩

/-- The first element of a heap has the smallest key. -/
theorem IsHeap.le_of_mem {x y : α} (h : IsHeap gt (x :: l)) (hy : y ∈ x :: l) :
  key x ≤ key y
  := by
  obtain ⟨i, hi⟩ := mem_iff_getElem?.mp hy
  clear hy
  induction i using Nat.strongRecOn generalizing y with
  | ind i ih =>
    rcases Nat.eq_zero_or_pos i with rfl | hpos
    · cases hi
      apply le_refl
    · have hlt := parent_lt hpos
      have hlength := hlt.trans (List.getElem?_eq_some_iff.mp hi).1
      have hparent := getElem?_eq_getElem hlength
      have hle := (gtAt_eq_false_iff hgt).mp (h i hpos) _ y hparent hi
      apply (ih (parent i) hlt hparent).trans hle

end Order

/-! ### Swapping two elements -/

/-- Swap the elements at two positions. -/
def swap (l : List α) (i j : ℕ) : List α :=
  match l[i]?, l[j]? with
  | some x, some y => (l.set i y).set j x
  | _, _ => l

theorem swap_perm (l : List α) (i j : ℕ) :
  (swap l i j).Perm l
  := by
  rw [swap]
  split
  · rename_i x y hx hy
    obtain ⟨hi, rfl⟩ := List.getElem?_eq_some_iff.mp hx
    obtain ⟨hj, rfl⟩ := List.getElem?_eq_some_iff.mp hy
    apply set_set_perm hi hj
  · apply List.Perm.refl

/-- To look up in the swapped vector is to swap the position. -/
theorem getElem?_swap (hi : i < l.length) (hj : j < l.length) :
  (swap l i j)[k]? = l[Equiv.swap i j k]?
  := by
  rw [swap, getElem?_eq_getElem hi, getElem?_eq_getElem hj, Equiv.swap_apply_def]
  split_ifs
  all_goals grind

/-- To compare in the swapped vector is to swap both positions. -/
theorem gtAt_swap (hi : i < l.length) (hj : j < l.length) (a b : ℕ) :
  gtAt gt (swap l i j) a b = gtAt gt l (Equiv.swap i j a) (Equiv.swap i j b)
  := by
  rw [gtAt, getElem?_swap hi hj, getElem?_swap hi hj, gtAt]

/-! ### Sifting up -/

/-- Swap the element at a position with its parent, as long as that is greater. -/
def siftUp (gt : α → α → Bool) : ℕ → List α → ℕ → List α
  | 0, l, _ => l
  | fuel + 1, l, i =>
    if gtAt gt l (parent i) i then siftUp gt fuel (swap l i (parent i)) (parent i) else l

/-- Sifting up keeps the elements. -/
theorem siftUp_perm (fuel : ℕ) (l : List α) (i : ℕ) :
  (siftUp gt fuel l i).Perm l
  := by
  induction fuel generalizing l i with
  | zero => apply List.Perm.refl
  | succ fuel ih =>
    rw [siftUp]
    split_ifs
    · apply (ih _ _).trans (swap_perm ..)
    · apply List.Perm.refl

/-- Only the element at position `i` may be smaller than its parent. -/
structure UpTo (gt : α → α → Bool) (l : List α) (i : ℕ) : Prop where
  others : ∀ k, 0 < k → k ≠ i → gtAt gt l (parent k) k = false
  below : 0 < i → ∀ k, 0 < k → parent k = i → gtAt gt l (parent i) k = false

section Up

variable (hgt : ∀ x y, gt x y = true ↔ key y < key x)

include hgt

/-- A swap moves the only wrong position up to the parent. -/
theorem UpTo.swap (h : UpTo gt l i) (hi : 0 < i) (hlt : gtAt gt l (parent i) i = true) :
  UpTo gt (swap l i (parent i)) (parent i)
  := by
  obtain ⟨hp, hi'⟩ := lt_length_of_gtAt hgt hlt
  have hparent := parent_lt hi
  constructor
  · intro k hk hne
    rw [gtAt_swap hi' hp, swap_apply_def i (parent i) k, if_neg hne]
    by_cases hki : k = i
    · rw [hki, if_pos rfl, swap_apply_right]
      apply gtAt_asymm hgt hlt
    · rw [if_neg hki]
      have hk' := h.others k hk hki
      by_cases hkp : parent k = i
      · rw [hkp, swap_apply_left]
        apply h.below hi k hk hkp
      · by_cases hkp' : parent k = parent i
        · rw [hkp', swap_apply_right]
          rw [hkp'] at hk'
          apply gtAt_trans hgt hp (gtAt_asymm hgt hlt) hk'
        · rw [swap_apply_of_ne_of_ne hkp hkp']
          apply hk'
  · intro hpos k hk hkp
    have hne := parent_lt hpos
    have habove := h.others (parent i) hpos hparent.ne
    rw [gtAt_swap hi' hp, swap_apply_of_ne_of_ne (hne.trans hparent).ne hne.ne]
    by_cases hki : k = i
    · rw [hki, swap_apply_left]
      apply habove
    · have hk' := h.others k hk hki
      have hkne : k ≠ parent i := by
        rw [← hkp]
        apply (parent_lt hk).ne'
      rw [swap_apply_of_ne_of_ne hki hkne]
      rw [hkp] at hk'
      apply gtAt_trans hgt hp habove hk'

/-- Sifting up repairs the heap, with as much fuel as there are positions above. -/
theorem isHeap_siftUp (h : UpTo gt l i) (hfuel : i ≤ fuel) :
  IsHeap gt (siftUp gt fuel l i)
  := by
  induction fuel generalizing l i with
  | zero =>
    intro k hk
    apply h.others k hk
    omega
  | succ fuel ih =>
    rw [siftUp]
    split_ifs with hlt
    · have hi : 0 < i := by
        apply Nat.pos_of_ne_zero
        rintro rfl
        rw [show parent 0 = 0 from rfl, gtAt_self hgt] at hlt
        cases hlt
      apply ih (h.swap hgt hi hlt)
      have hparent := parent_lt hi
      omega
    · intro k hk
      by_cases hki : k = i
      · rw [hki]
        simpa using hlt
      · apply h.others k hk hki

end Up

/-! ### Sifting down -/

/-- The child of a position that is not greater than the other one. -/
def smallerChild (gt : α → α → Bool) (l : List α) (i : ℕ) : ℕ :=
  if gtAt gt l (2 * i + 1) (2 * i + 2) then 2 * i + 2 else 2 * i + 1

/-- Swap the element at a position with its smaller child, as long as it is greater. -/
def siftDown (gt : α → α → Bool) : ℕ → List α → ℕ → List α
  | 0, l, _ => l
  | fuel + 1, l, i =>
    if gtAt gt l i (smallerChild gt l i) then
      siftDown gt fuel (swap l i (smallerChild gt l i)) (smallerChild gt l i)
    else l

/-- Sifting down keeps the elements. -/
theorem siftDown_perm (fuel : ℕ) (l : List α) (i : ℕ) :
  (siftDown gt fuel l i).Perm l
  := by
  induction fuel generalizing l i with
  | zero => apply List.Perm.refl
  | succ fuel ih =>
    rw [siftDown]
    split_ifs
    · apply (ih _ _).trans (swap_perm ..)
    · apply List.Perm.refl

/-- Only the element at position `i` may be greater than its children. -/
structure DownTo (gt : α → α → Bool) (l : List α) (i : ℕ) : Prop where
  others : ∀ k, 0 < k → parent k ≠ i → gtAt gt l (parent k) k = false
  below : 0 < i → ∀ k, 0 < k → parent k = i → gtAt gt l (parent i) k = false

theorem parent_smallerChild (gt : α → α → Bool) (l : List α) (i : ℕ) :
  parent (smallerChild gt l i) = i
  := by
  rw [smallerChild]
  split_ifs
  · rw [parent]
    omega
  · rw [parent]
    omega

theorem lt_smallerChild (gt : α → α → Bool) (l : List α) (i : ℕ) :
  i < smallerChild gt l i
  := by
  rw [smallerChild]
  split_ifs
  · omega
  · omega

section Down

variable (hgt : ∀ x y, gt x y = true ↔ key y < key x)

include hgt

/-- If there is a child, then there is a smaller child. -/
theorem smallerChild_lt (hk : k < l.length) (hpos : 0 < k) (hparent : parent k = i) :
  smallerChild gt l i < l.length
  := by
  have hchild : k = 2 * i + 1 ∨ k = 2 * i + 2 := by
    rw [parent] at hparent
    omega
  rw [smallerChild]
  split_ifs with hgreater
  · apply (lt_length_of_gtAt hgt hgreater).2
  · omega

/-- The smaller child is not greater than any child. -/
theorem smallerChild_le (hk : 0 < k) (hparent : parent k = i) :
  gtAt gt l (smallerChild gt l i) k = false
  := by
  have hchild : k = 2 * i + 1 ∨ k = 2 * i + 2 := by
    rw [parent] at hparent
    omega
  rw [smallerChild]
  split_ifs with hgreater
  · rcases hchild with rfl | rfl
    · apply gtAt_asymm hgt hgreater
    · apply gtAt_self hgt
  · rcases hchild with rfl | rfl
    · apply gtAt_self hgt
    · simpa using hgreater

/-- A swap moves the only wrong position down to the smaller child. -/
theorem DownTo.swap (h : DownTo gt l i) (hlt : gtAt gt l i (smallerChild gt l i) = true) :
  DownTo gt (swap l i (smallerChild gt l i)) (smallerChild gt l i)
  := by
  obtain ⟨hi, hc⟩ := lt_length_of_gtAt hgt hlt
  have hchild := parent_smallerChild gt l i
  have hlt' := lt_smallerChild gt l i
  have hle (k : ℕ) := smallerChild_le (l := l) (i := i) (k := k) hgt
  generalize smallerChild gt l i = c at *
  constructor
  · intro k hk hne
    rw [gtAt_swap hi hc]
    by_cases hkc : k = c
    · rw [hkc, hchild, swap_apply_left, swap_apply_right]
      apply gtAt_asymm hgt hlt
    · by_cases hki : k = i
      · have hpos : 0 < i := by omega
        have hparent := parent_lt hpos
        rw [hki, swap_apply_left, swap_apply_of_ne_of_ne hparent.ne (hparent.trans hlt').ne]
        apply h.below hpos c (by omega) hchild
      · rw [swap_apply_of_ne_of_ne hki hkc]
        by_cases hkp : parent k = i
        · rw [hkp, swap_apply_left]
          apply hle k hk hkp
        · rw [swap_apply_of_ne_of_ne hkp hne]
          apply h.others k hk hkp
  · intro _ k hk hkp
    have hck : c < k := by
      rw [← hkp]
      apply parent_lt hk
    have hk' := h.others k hk (by omega)
    rw [hkp] at hk'
    rw [gtAt_swap hi hc, hchild, swap_apply_left, swap_apply_of_ne_of_ne (by omega) hck.ne']
    apply hk'

/-- Sifting down repairs the heap, with as much fuel as there are positions below. -/
theorem isHeap_siftDown (h : DownTo gt l i) (hfuel : l.length ≤ i + fuel) :
  IsHeap gt (siftDown gt fuel l i)
  := by
  induction fuel generalizing l i with
  | zero =>
    intro k hk
    rw [siftDown]
    by_cases hki : parent k = i
    · have hparent := parent_lt hk
      apply gtAt_of_length_le (by omega)
    · apply h.others k hk hki
  | succ fuel ih =>
    rw [siftDown]
    split_ifs with hlt
    · have hlt' := lt_smallerChild gt l i
      apply ih (h.swap hgt hlt)
      rw [(swap_perm ..).length_eq]
      omega
    · intro k hk
      by_cases hki : parent k = i
      · apply Bool.eq_false_iff.mpr
        intro hgreater
        have hlength := smallerChild_lt hgt (lt_length_of_gtAt hgt hgreater).2 hk hki
        have hle := gtAt_trans hgt hlength (Bool.eq_false_iff.mpr hlt) (smallerChild_le hgt hk hki)
        rw [hki, hle] at hgreater
        cases hgreater
      · apply h.others k hk hki

end Down

/-! ### The operations -/

/-- A heap with one more element at its end. -/
theorem upTo_append (h : IsHeap gt l) :
  UpTo gt (l ++ [x]) l.length
  := by
  have hgetElem (k : ℕ) (hk : k < l.length) : (l ++ [x])[k]? = l[k]? :=
    getElem?_append_left hk
  constructor
  · intro k hk hne
    have hparent := parent_lt hk
    rcases Nat.lt_or_ge k l.length with hlt | hge
    · rw [gtAt, hgetElem _ (hparent.trans hlt), hgetElem _ hlt]
      apply h k hk
    · apply gtAt_of_length_le
      rw [length_append, length_singleton]
      omega
  · intro _ k hk hkp
    have hparent := parent_lt hk
    apply gtAt_of_length_le
    rw [length_append, length_singleton]
    omega

/-- The last element takes the place of the first. -/
def replaceFirst (l : List α) : List α :=
  match l.getLast? with
  | none => []
  | some x => x :: l.dropLast

theorem replaceFirst_perm (l : List α) :
  (replaceFirst l).Perm l
  := by
  rcases eq_nil_or_concat l with rfl | ⟨l, x, rfl⟩
  · apply List.Perm.refl
  · rw [concat_eq_append, replaceFirst, getLast?_concat, dropLast_concat]
    apply (perm_append_singleton x l).symm

/-- A heap whose first element has been replaced. -/
theorem downTo_replaceFirst (h : IsHeap gt (x :: l)) :
  DownTo gt (replaceFirst l) 0
  := by
  constructor
  · intro k hk hne
    rcases eq_nil_or_concat l with rfl | ⟨m, y, rfl⟩
    · rfl
    · rw [concat_eq_append] at h ⊢
      rw [replaceFirst, getLast?_concat, dropLast_concat]
      have hsame (j : ℕ) (hj : 0 < j) (hlt : j ≤ m.length) :
          (y :: m)[j]? = (x :: (m ++ [y]))[j]? := by
        obtain ⟨j, rfl⟩ := Nat.exists_eq_add_one.mpr hj
        rw [getElem?_cons_succ, getElem?_cons_succ, getElem?_append_left hlt]
      rcases Nat.lt_or_ge m.length k with hlt | hge
      · apply gtAt_of_length_le hlt
      · have hparent := parent_lt hk
        have hk' := h k hk
        rw [gtAt, hsame k hk hge, hsame (parent k) (by omega) (by omega)]
        apply hk'
  · nofun

/-- The operations that sift. -/
def binaryHeap (hgt : ∀ x y, gt x y = true ↔ key y < key x) : HeapOps gt where
  pushHeap l := siftUp gt (l.length - 1) l (l.length - 1)
  popHeap
    | [] => []
    | x :: l => siftDown gt l.length (replaceFirst l) 0 ++ [x]
  push_spec := by
    intro l x h
    have hlength : (l ++ [x]).length - 1 = l.length := by
      simp
    rw [hlength]
    exact ⟨isHeap_siftUp hgt (upTo_append h) (le_refl _), siftUp_perm ..⟩
  pop_spec := by
    intro l x h
    refine ⟨siftDown gt l.length (replaceFirst l) 0, rfl, ?_, ?_⟩
    · apply isHeap_siftDown hgt (downTo_replaceFirst h)
      rw [(replaceFirst_perm l).length_eq, Nat.zero_add]
    · apply (siftDown_perm ..).trans (replaceFirst_perm l)

end Lib

