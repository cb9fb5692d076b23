import Mathlib.Tactic

/-!
# Agendas

An agenda has items `I` that wait to be served, each with a key from a linear order. `pending`
lists the items in the order in which they came, the newest first. An item with the smallest key
is served next, and if there are several, then the newest of them: `IsNext`.

`Ordered key pending order` says that `order` lists the pending items in the order in which they
would be served. It is kept when an item comes (`Ordered.insert`) or leaves (`Ordered.erase`), and
its first item is next (`Ordered.isNext`).
-/

universe u v

namespace Lib

open List

variable {I : Type u} {K : Type v} [LinearOrder K] {key key' : I → K} {pending order : List I}
  {i : I}

/-- The item is the newest of those with the smallest key. -/
structure IsNext (key : I → K) (pending : List I) (i : I) : Prop where
  minimal : ∀ j ∈ pending, key i ≤ key j
  newest : (pending.filter (key · = key i)).head? = some i

/-- The items in the order in which they are served: sorted by their keys, and those with the same
key with the newest first. -/
structure Ordered (key : I → K) (pending order : List I) : Prop where
  sorted : order.Pairwise (key · ≤ key ·)
  newest : ∀ k, order.filter (key · = k) = pending.filter (key · = k)

namespace Ordered

theorem nil :
  Ordered key [] []
  := ⟨List.Pairwise.nil, fun _ => rfl⟩

section

variable (h : Ordered key pending order)

include h

theorem mem_iff :
  i ∈ order ↔ i ∈ pending
  := by
  have hfilter (l : List I) : i ∈ l ↔ i ∈ l.filter (key · = key i) := by
    simp
  rw [hfilter order, hfilter pending, h.newest]

theorem perm [DecidableEq I] :
  order.Perm pending
  := by
  apply perm_iff_count.mpr
  intro i
  have hcount (l : List I) : (l.filter (key · = key i)).count i = l.count i := by
    apply count_filter
    simp
  rw [← hcount, h.newest, hcount]

theorem congr (hkey : ∀ i ∈ pending, key' i = key i) :
  Ordered key' pending order
  := by
  have hkey' (i : I) (hi : i ∈ order) : key' i = key i := hkey i (h.mem_iff.mp hi)
  constructor
  · apply h.sorted.imp_of_mem
    intro i j hi hj hij
    rw [hkey' i hi, hkey' j hj]
    apply hij
  · intro k
    have hfilter (l : List I) (hl : ∀ i ∈ l, key' i = key i) :
        l.filter (key' · = k) = l.filter (key · = k) := by
      apply filter_congr
      intro i hi
      rw [hl i hi]
    rw [hfilter order hkey', hfilter pending hkey, h.newest]

end

/-- A new item goes behind the items with smaller keys and in front of the others. -/
theorem insert {l m : List I} (h : Ordered key pending (l ++ m)) (hl : ∀ j ∈ l, key j < key i)
    (hm : ∀ j ∈ m, key i ≤ key j) :
  Ordered key (i :: pending) (l ++ i :: m)
  := by
  obtain ⟨hsl, hsm, hlm⟩ := pairwise_append.mp h.sorted
  constructor
  · apply pairwise_append.mpr
    refine ⟨hsl, pairwise_cons.mpr ⟨hm, hsm⟩, ?_⟩
    intro j hj
    exact forall_mem_cons.mpr ⟨(hl j hj).le, hlm j hj⟩
  · intro k
    have hk := h.newest k
    rw [filter_append] at hk ⊢
    rw [filter_cons, filter_cons]
    split_ifs with hik
    · have hnil : l.filter (key · = k) = [] := by
        apply filter_eq_nil_iff.mpr
        intro j hj
        rw [← of_decide_eq_true hik]
        simpa using (hl j hj).ne
      rw [hnil, nil_append] at hk ⊢
      rw [hk]
    · apply hk

theorem erase [DecidableEq I] (h : Ordered key pending order) (hnodup : pending.Nodup) (i : I) :
  Ordered key (pending.erase i) (order.erase i)
  := by
  constructor
  · apply h.sorted.sublist erase_sublist
  · intro k
    rw [hnodup.erase_eq_filter, (h.perm.nodup_iff.mpr hnodup).erase_eq_filter, filter_comm,
      h.newest, filter_comm]

/-- The first item is next. -/
theorem isNext {l : List I} (h : Ordered key pending (i :: l)) :
  IsNext key pending i
  := by
  constructor
  · intro j hj
    rcases mem_cons.mp (h.mem_iff.mpr hj) with rfl | hj
    · apply le_refl
    · apply (pairwise_cons.mp h.sorted).1 j hj
  · rw [← h.newest]
    simp

end Ordered

end Lib
