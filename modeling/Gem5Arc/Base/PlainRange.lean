import Gem5Arc.Base.AddrRange

/-!
# Plain ranges

Ranges of `base/addr_range.hh` that are not interleaved, not empty, and do not reach the end of the
address space. For them the functions of the class are comparisons of the ends, and `exclude`
subtracts a list of ranges, which may overlap, from a range (`exclude_covers`).
-/

namespace Gem5Arc.AddrRange

/-- A range that is not interleaved, not empty, and does not reach the end of the address space. -/
structure Plain (r : AddrRange) : Prop where
  masks : r.masks = []
  nonempty : r.start < r.end

/-- The range `r` is inside of the range `s`. -/
def Inside (r s : AddrRange) : Prop :=
  s.start ≤ r.start ∧ r.end ≤ s.end

/-- The ranges have an address in common. -/
def Meeting (r s : AddrRange) : Prop :=
  r.start < s.end ∧ s.start < r.end

instance (r : AddrRange) : DecidablePred (Inside r) := fun s =>
  inferInstanceAs (Decidable (s.start ≤ r.start ∧ r.end ≤ s.end))

instance (r : AddrRange) : DecidablePred (Meeting r) := fun s =>
  inferInstanceAs (Decidable (r.start < s.end ∧ s.start < r.end))

variable {r s : AddrRange}

theorem Inside.meeting (hr : r.Plain) (h : r.Inside s) :
  r.Meeting s
  := by
  obtain ⟨h₁, h₂⟩ := h
  have hne := hr.nonempty
  constructor
  · bv_omega
  · bv_omega

theorem Plain.interleaved (h : r.Plain) :
  r.interleaved = false
  := by
  simp [AddrRange.interleaved, h.masks]

theorem Plain.intersects (hr : r.Plain) (hs : s.Plain) :
  r.intersects s = .ok (decide (r.Meeting s))
  := by
  unfold AddrRange.intersects
  rw [hr.interleaved, hs.interleaved]
  by_cases h : r.Meeting s
  · obtain ⟨h₁, h₂⟩ := id h
    have hapart : ¬ (decide (r.start ≥ s.end) || decide (r.end ≤ s.start)) = true := by
      rw [Bool.or_eq_true, decide_eq_true_iff, decide_eq_true_iff]
      bv_omega
    rw [if_neg hapart, decide_eq_true h]
    rfl
  · have hapart : (decide (r.start ≥ s.end) || decide (r.end ≤ s.start)) = true := by
      rw [Bool.or_eq_true, decide_eq_true_iff, decide_eq_true_iff]
      unfold Meeting at h
      bv_omega
    rw [if_pos hapart, decide_eq_false h]

theorem Plain.isSubset (hr : r.Plain) (hs : s.Plain) :
  r.isSubset s = .ok (decide (r.Inside s))
  := by
  unfold AddrRange.isSubset
  rw [hr.interleaved, hs.interleaved, if_neg Bool.false_ne_true, if_neg Bool.false_ne_true,
    if_neg (BitVec.not_le.mpr hr.nonempty), if_neg (BitVec.not_le.mpr hs.nonempty)]
  congr 1
  rw [Bool.eq_iff_iff, Bool.and_eq_true, decide_eq_true_iff, decide_eq_true_iff, decide_eq_true_iff]
  rfl

theorem Plain.lt (hr : r.Plain) :
  r.lt s = decide (r.start < s.start)
  := by
  unfold AddrRange.lt
  rw [hr.interleaved, Bool.false_and, if_neg Bool.false_ne_true]
  split_ifs with hne
  · rfl
  · rw [not_not] at hne
    rw [hne, decide_eq_false (BitVec.lt_irrefl _)]

/-! ### Subtraction -/

open List

/-- The loop over the sorted ranges. -/
def excludeLoop (r : AddrRange) (nextStart : Addr) : List AddrRange → Except Fault (List AddrRange)
  | [] => .ok (if nextStart < r.end then [plain nextStart r.end] else [])
  | e :: rest => do
    assert !e.interleaved
    if !(← r.intersects e) then excludeLoop r nextStart rest
    else if e.start ≤ nextStart then
      if e.end < r.end then
        excludeLoop r (if nextStart < e.end then e.end else nextStart) rest
      else pure []
    else
      (plain nextStart e.start :: ·) <$>
        if e.end < r.end then excludeLoop r e.end rest else pure []

def exclude (r : AddrRange) (excludeRanges : List AddrRange) : Except Fault (List AddrRange) := do
  assert !r.interleaved
  excludeLoop r r.start (excludeRanges.mergeSort fun e f => !f.lt e)

/-- Ranges in increasing order that have the addresses from `next` to `last` that are in none of the
ranges `l`. -/
structure Covers (next last : Addr) (l out : List AddrRange) : Prop where
  plain : ∀ x ∈ out, x.Plain
  after : ∀ x ∈ out, next ≤ x.start
  sorted : out.Pairwise fun x y => x.end ≤ y.start
  union : ∀ a, (∃ x ∈ out, x.start ≤ a ∧ a < x.end)
    ↔ next ≤ a ∧ a < last ∧ ∀ e ∈ l, a < e.start ∨ e.end ≤ a

variable {e : AddrRange} {next next' last : Addr} {l out : List AddrRange}

theorem Covers.empty :
  Covers last last l []
  := by
  refine ⟨nofun, nofun, .nil, ?_⟩
  intro a
  apply iff_of_false nofun
  bv_omega

/-- The addresses from `next` to `next'` are those of a range. -/
theorem Covers.skip (h : Covers next' last l out) (hle : next ≤ next')
    (hiff : ∀ a, next ≤ a → a < last → (next' ≤ a ↔ a < e.start ∨ e.end ≤ a)) :
  Covers next last (e :: l) out
  := by
  refine ⟨h.plain, fun x hx => BitVec.le_trans hle (h.after x hx), h.sorted, ?_⟩
  intro a
  rw [h.union, forall_mem_cons]
  constructor
  · rintro ⟨hnext, hlast, hl⟩
    have ha := BitVec.le_trans hle hnext
    exact ⟨ha, hlast, (hiff a ha hlast).mp hnext, hl⟩
  · rintro ⟨ha, hlast, he, hl⟩
    exact ⟨(hiff a ha hlast).mpr he, hlast, hl⟩

/-- The addresses from `next` to `next'` are in no range. -/
theorem Covers.cons (h : Covers next' last l out) (hlt : next < next') (hle : next' ≤ last)
    (hl : ∀ e ∈ l, next' ≤ e.start) :
  Covers next last l (AddrRange.plain next next' :: out)
  := by
  have hafter :=  fun x hx => BitVec.le_trans (BitVec.le_of_lt hlt) (h.after x hx)
  refine ⟨forall_mem_cons.mpr ⟨⟨rfl, hlt⟩, h.plain⟩,
    forall_mem_cons.mpr ⟨BitVec.le_refl next, hafter⟩, pairwise_cons.mpr ⟨h.after, h.sorted⟩, ?_⟩
  intro a
  rw [exists_mem_cons_iff, h.union]
  constructor
  · rintro (⟨hnext, ha⟩ | ⟨ha, hrest⟩)
    · change a < next' at ha
      refine ⟨hnext, by bv_omega, ?_⟩
      intro e he
      have hstart := hl e he
      bv_omega
    · exact ⟨by bv_omega, hrest⟩
  · rintro ⟨hnext, hrest⟩
    rcases Nat.lt_or_ge a.toNat next'.toNat with ha | ha
    · exact .inl ⟨hnext, ha⟩
    · exact .inr ⟨ha, hrest⟩

theorem excludeLoop_covers (hr : r.Plain) (hplain : ∀ e ∈ l, e.Plain)
    (hsorted : l.Pairwise fun e f => e.start ≤ f.start) (hstart : r.start ≤ next)
    (hlast : next < r.end) :
  ∃ out, excludeLoop r next l = .ok out ∧ Covers next r.end l out
  := by
  induction l generalizing next with
  | nil =>
    rw [excludeLoop, if_pos hlast]
    exact ⟨_, rfl, Covers.empty.cons hlast (BitVec.le_refl _) nofun⟩
  | cons e l ih =>
    obtain ⟨he, hplain⟩ := forall_mem_cons.mp hplain
    obtain ⟨hfirst, hsorted⟩ := pairwise_cons.mp hsorted
    have hne := he.nonempty
    rw [excludeLoop, he.interleaved, Bool.not_false, assert_true, ok_bind, hr.intersects he,
      ok_bind]
    by_cases hmeet : r.Meeting e
    · obtain ⟨hbelow, habove⟩ := id hmeet
      rw [decide_eq_true hmeet, Bool.not_true, if_neg Bool.false_ne_true]
      split_ifs with hfree hend hlt hend
      · obtain ⟨out, hok, h⟩ := ih hplain hsorted (BitVec.le_of_lt hbelow) hend
        exact ⟨out, hok, h.skip (BitVec.le_of_lt hlt) (by bv_omega)⟩
      · obtain ⟨out, hok, h⟩ := ih hplain hsorted hstart hlast
        exact ⟨out, hok, h.skip (BitVec.le_refl _) (by bv_omega)⟩
      · exact ⟨[], rfl, Covers.empty.skip (BitVec.le_of_lt hlast) (by bv_omega)⟩
      all_goals
        have hnot : ∀ f ∈ e :: l, e.start ≤ f.start :=
          forall_mem_cons.mpr ⟨BitVec.le_refl _, hfirst⟩
      · obtain ⟨out, hok, h⟩ := ih hplain hsorted (BitVec.le_of_lt hbelow) hend
        rw [hok]
        exact ⟨_, rfl, (h.skip (BitVec.le_of_lt hne) (by bv_omega)).cons (BitVec.not_le.mp hfree)
          (BitVec.le_of_lt habove) hnot⟩
      · exact ⟨_, rfl, (Covers.empty.skip (BitVec.le_of_lt habove) (by bv_omega)).cons
          (BitVec.not_le.mp hfree) (BitVec.le_of_lt habove) hnot⟩
    · rw [decide_eq_false hmeet, Bool.not_false, if_pos rfl]
      obtain ⟨out, hok, h⟩ := ih hplain hsorted hstart hlast
      refine ⟨out, hok, h.skip (BitVec.le_refl _) ?_⟩
      unfold Meeting at hmeet
      bv_omega

/-- What is returned are the addresses of the range that are in none of the excluded ranges. -/
theorem exclude_covers (hr : r.Plain) (hplain : ∀ e ∈ l, e.Plain) :
  ∃ out, r.exclude l = .ok out ∧ Covers r.start r.end l out
  := by
  have hsort : l.mergeSort (fun e f => !f.lt e) = l.mergeSort fun e f => e.start ≤ f.start := by
    rw [← map_id (l.mergeSort _), map_mergeSort, map_id]
    intro e _ f hf
    rw [(hplain f hf).lt, ← decide_not]
    apply decide_eq_decide.mpr BitVec.not_lt
  have hsorted : (l.mergeSort fun e f => e.start ≤ f.start).Pairwise
      fun e f => e.start ≤ f.start := by
    refine (pairwise_mergeSort ?_ ?_ l).imp of_decide_eq_true
    · intro e f g hef hfg
      exact decide_eq_true (BitVec.le_trans (of_decide_eq_true hef) (of_decide_eq_true hfg))
    · intro e f
      simpa using BitVec.le_total e.start f.start
  obtain ⟨out, hok, h⟩ := excludeLoop_covers hr (fun e he => hplain e (mem_mergeSort.mp he))
    hsorted (BitVec.le_refl _) hr.nonempty
  refine ⟨out, ?_, h.plain, h.after, h.sorted, ?_⟩
  · rw [exclude, hr.interleaved, Bool.not_false, assert_true, ok_bind, hsort, hok]
  · simpa only [mem_mergeSort] using h.union

/-- Two ranges that overlap are excluded. -/
theorem exclude_covers_two :
  ∃ out, (plain 0 100).exclude [plain 30 50, plain 10 40] = .ok out
    ∧ Covers 0 100 [plain 30 50, plain 10 40] out
  := by
  apply exclude_covers ⟨rfl, by decide⟩
  rw [forall_mem_cons, forall_mem_singleton]
  exact ⟨⟨rfl, by decide⟩, ⟨rfl, by decide⟩⟩

end Gem5Arc.AddrRange
