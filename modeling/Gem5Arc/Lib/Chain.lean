import Mathlib.Tactic

/-!
# Linked lists

Objects `I` point to each other: `next i` is where the pointer of `i` leads, if it is not null.
`Seg next p l r` says that by following the pointers from `p` one passes the objects `l`, in this
order, and then has the pointer `r` at hand; so `Seg next p l none` is a list that ends.

* `seg_append`: segments can be cut and put together.
* `Seg.nodup`: on a list that ends no object occurs twice.
* `Seg.update`, `Seg.redirect`, `Seg.skip`: what writing one pointer does to a segment.
* `Linked`: a list with pointers in both directions; `Linked.unlinkLast`, `Linked.unlinkMiddle` and
  `Linked.pushFirst` take an object out and put one in.
-/

universe u

namespace Lib

open Function List

variable {I : Type u} {next next' : I → Option I} {m : List I} {k : I}

/-- The pointers lead from `p` through the objects `l` to `r`. -/
def Seg (next : I → Option I) : Option I → List I → Option I → Prop
  | p, [], r => p = r
  | p, i :: l, r => p = some i ∧ Seg next (next i) l r

variable {p r : Option I} {l : List I}

@[simp]
theorem seg_nil :
  Seg next p [] r ↔ p = r
  := Iff.rfl

@[simp]
theorem seg_cons {i : I} :
  Seg next p (i :: l) r ↔ p = some i ∧ Seg next (next i) l r
  := Iff.rfl

theorem seg_append :
  Seg next p (l ++ m) r ↔ ∃ q, Seg next p l q ∧ Seg next q m r
  := by
  induction l generalizing p with
  | nil => simp
  | cons i l ih => simp [ih, and_assoc]

namespace Seg

theorem congr (h : Seg next p l r) (hnext : ∀ i ∈ l, next' i = next i) :
  Seg next' p l r
  := by
  induction l generalizing p with
  | nil => apply h
  | cons i l ih =>
    obtain ⟨hp, hl⟩ := h
    refine ⟨hp, ?_⟩
    rw [hnext i (mem_cons_self ..)]
    apply ih hl
    intro j hj
    apply hnext j (mem_cons_of_mem _ hj)

/-- A list that ends starts with its first object. -/
theorem eq_head? (h : Seg next p l none) :
  p = l.head?
  := by
  cases l with
  | nil => apply h
  | cons i l => apply h.1

/-- The pointer of an object on a list that ends leads to the object after it. -/
theorem next_eq {i : I} (h : Seg next p (l ++ i :: m) none) :
  next i = m.head?
  := by
  obtain ⟨_, -, -, hm⟩ := seg_append.mp h
  apply hm.eq_head?

/-- There is only one list that starts with a given pointer and ends. -/
theorem unique (hl : Seg next p l none) (hm : Seg next p m none) :
  l = m
  := by
  induction l generalizing p m with
  | nil =>
    cases hl
    cases m with
    | nil => rfl
    | cons j m => cases hm.1
  | cons i l ih =>
    obtain ⟨rfl, hl⟩ := hl
    cases m with
    | nil => cases hm
    | cons j m =>
      obtain ⟨hij, hm⟩ := hm
      cases hij
      rw [ih hl hm]

/-- On a list that ends no object occurs twice. -/
theorem nodup (h : Seg next p l none) :
  l.Nodup
  := by
  induction l generalizing p with
  | nil => apply nodup_nil
  | cons i l ih =>
    apply nodup_cons.mpr
    refine ⟨?_, ih h.2⟩
    intro hi
    obtain ⟨a, b, rfl⟩ := append_of_mem hi
    obtain ⟨q, -, hb⟩ := seg_append.mp h.2
    have heq := unique h.2 hb.2
    have hlen := congrArg List.length heq
    simp only [List.length_append, length_cons] at hlen
    omega

section Update

variable [DecidableEq I]

/-- Writing the pointer of an object that is not on a segment leaves it alone. -/
theorem update (h : Seg next p l r) (hk : k ∉ l) (p' : Option I) :
  Seg (update next k p') p l r
  := by
  apply h.congr
  intro i hi
  apply update_of_ne
  rintro rfl
  apply hk hi

/-- Writing the pointer of the last object of a segment changes where it leads. -/
theorem redirect (h : Seg next p (l ++ [k]) r) (hk : k ∉ l) (r' : Option I) :
  Seg (Function.update next k r') p (l ++ [k]) r'
  := by
  obtain ⟨q, hl, hq, -⟩ := seg_append.mp h
  apply seg_append.mpr
  refine ⟨q, hl.update hk r', hq, ?_⟩
  simp

/-- Pointing to where the next object points takes this object out. -/
theorem skip {k i : I} (h : Seg next p (l ++ k :: i :: m) r) (hl : k ∉ l) (hm : k ∉ m) :
  Seg (Function.update next k (next i)) p (l ++ k :: m) r
  := by
  rw [List.append_cons, seg_append] at h ⊢
  obtain ⟨q, hk, -, hi⟩ := h
  exact ⟨next i, hk.redirect hl _, hi.update hm _⟩

end Update

end Seg

/-! ### Doubly linked lists -/

theorem notMem_of_nodup (h : (l ++ k :: m).Nodup) :
  k ∉ l ∧ k ∉ m
  := by
  rw [← not_or, ← mem_append]
  apply (nodup_cons.mp (nodup_middle.mp h)).1

/-- The objects `l` are linked in both directions, and `first` and `last` point to the ends. -/
structure Linked (next prev : I → Option I) (first last : Option I) (l : List I) : Prop where
  forward : Seg next first l none
  backward : Seg prev last l.reverse none

namespace Linked

variable {prev : I → Option I} {first last : Option I} {i : I}

section

variable (h : Linked next prev first last l)

include h

/-- A list may be read from its other end. -/
theorem symm :
  Linked prev next last first l.reverse
  := by
  refine ⟨h.backward, ?_⟩
  rw [reverse_reverse]
  apply h.forward

theorem nodup :
  l.Nodup
  := h.forward.nodup

theorem first_eq :
  first = l.head?
  := h.forward.eq_head?

theorem last_eq :
  last = l.getLast?
  := by
  rw [h.symm.first_eq, head?_reverse]

end

section

variable (h : Linked next prev first last (l ++ i :: m))

include h

theorem next_eq :
  next i = m.head?
  := h.forward.next_eq

theorem prev_eq :
  prev i = l.getLast?
  := by
  have hback := h.symm
  rw [reverse_append, reverse_cons, append_assoc, singleton_append] at hback
  rw [hback.next_eq, head?_reverse]

end

theorem next_getElem? {k : ℕ} (h : Linked next prev first last l) (hk : l[k]? = some i) :
  next i = l[k + 1]?
  := by
  obtain ⟨hlt, hget⟩ := List.getElem?_eq_some_iff.mp hk
  have hsplit : l = l.take k ++ i :: l.drop (k + 1) := by
    rw [← hget, getElem_cons_drop, take_append_drop]
  rw [hsplit] at h
  rw [h.next_eq, head?_drop]

theorem prev_getElem? {k : ℕ} (h : Linked next prev first last l) (hk : l[k + 1]? = some i) :
  prev i = l[k]?
  := by
  obtain ⟨hlt, hget⟩ := List.getElem?_eq_some_iff.mp hk
  have hsplit : l = l.take (k + 1) ++ i :: l.drop (k + 1 + 1) := by
    rw [← hget, getElem_cons_drop, take_append_drop]
  rw [hsplit] at h
  rw [h.prev_eq, getLast?_take, if_neg (Nat.succ_ne_zero k), Nat.add_sub_cancel,
    getElem?_eq_getElem (by omega)]
  rfl

section Move

variable [DecidableEq I] {j : I}

/-- Take out the last object. -/
theorem unlinkLast (h : Linked next prev first last (l ++ [k, i])) :
  Linked (Function.update next k none) prev first (some k) (l ++ [k])
  := by
  have hk := (notMem_of_nodup h.nodup).1
  have hback := h.backward
  rw [List.append_cons] at h
  obtain ⟨_, hforward, -⟩ := seg_append.mp h.forward
  constructor
  · apply hforward.redirect hk
  · rw [reverse_append, reverse_cons, reverse_cons, reverse_nil,
      nil_append, singleton_append, cons_append] at hback
    rw [reverse_append, reverse_singleton, singleton_append]
    refine ⟨rfl, hback.2.2⟩

/-- The pointers that lead past an object which is taken out. -/
theorem skip_middle {z : I} (h : Seg next p (l ++ k :: i :: z :: m) none) :
  Seg (Function.update next k (some z)) p (l ++ k :: z :: m) none
  := by
  have hk := notMem_of_nodup h.nodup
  have hnext : next i = some z := by
    rw [List.append_cons] at h
    apply h.next_eq
  rw [← hnext]
  apply h.skip hk.1 (fun hmem => hk.2 (mem_cons_of_mem _ hmem))

/-- Take out an object in the middle. -/
theorem unlinkMiddle {z : I} (h : Linked next prev first last (l ++ k :: i :: z :: m)) :
  Linked (update next k (some z)) (update prev z (some k)) first last
    (l ++ k :: z :: m)
  := by
  refine ⟨skip_middle h.forward, ?_⟩
  have hback := h.backward
  simp only [reverse_append, reverse_cons, append_assoc, singleton_append] at hback ⊢
  apply skip_middle hback

/-- Put an object in front. -/
theorem pushFirst (h : Linked next prev first last l) (hj : l.head? = some j) (hi : i ∉ l) :
  Linked (Function.update next i (some j))
    (Function.update (Function.update prev i none) j (some i)) (some i) last (i :: l)
  := by
  obtain ⟨m, rfl⟩ := head?_eq_some_iff.mp hj
  have hij : i ≠ j := fun heq => hi (heq ▸ mem_cons_self ..)
  have hback := h.backward
  have hnodup := hback.nodup
  rw [reverse_cons] at hback hnodup
  constructor
  · refine ⟨rfl, ?_⟩
    rw [Function.update_self, ← hj, ← h.first_eq]
    apply h.forward.update hi
  · rw [reverse_cons, reverse_cons]
    apply seg_append.mpr
    refine ⟨some i, ?_, rfl, ?_⟩
    · have hskip : Seg (Function.update prev i none) last (m.reverse ++ [j]) none := by
        apply hback.update
        rw [← reverse_cons, mem_reverse]
        apply hi
      apply hskip.redirect (notMem_of_nodup hnodup).1
    · rw [Function.update_of_ne hij, Function.update_self]
      rfl

/-- Take out the first object. -/
theorem unlinkFirst (h : Linked next prev first last (i :: k :: l)) :
  Linked next (update prev k none) (some k) last (k :: l)
  := by
  have hback := h.symm
  rw [reverse_cons, reverse_cons, append_assoc, singleton_append] at hback
  have hsymm := hback.unlinkLast.symm
  rw [reverse_append, reverse_reverse] at hsymm
  apply hsymm

/-- Put an object at the end. -/
theorem pushLast (h : Linked next prev first last l) (hj : l.getLast? = some j) (hi : i ∉ l) :
  Linked (update (update next i none) j (some i))
    (update prev i (some j)) first (some i) (l ++ [i])
  := by
  rw [← head?_reverse] at hj
  rw [← mem_reverse] at hi
  have hsymm := (h.symm.pushFirst hj hi).symm
  rw [reverse_cons, reverse_reverse] at hsymm
  apply hsymm

end Move

end Linked

end Lib
