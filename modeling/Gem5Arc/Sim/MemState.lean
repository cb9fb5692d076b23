import Gem5Arc.Sim.VMA

/-!
# The memory regions of a process

The functions of `sim/mem_state.cc` that map, unmap and move regions of virtual memory. A process
has a list of virtual memory areas. The loops go through the list from the front, change areas where
they are and append new areas to the end, where the loops reach them too. The page table and the
TLBs are left out.

The areas that have an address, with the source of the byte there, are the views of a list at the
address. Unmapping a range takes away the views in it (`unmapLoop_eq`), and moving a range moves the
views in it (`remapLoop_eq`).
-/

namespace Gem5Arc

open List VMA

structure MemState where
  vmaList : List VMA := []

namespace MemState

variable (pageBytes : Addr) {l' : List VMA} {v right left : VMA}

/-- Does an area of the list intersect the range? -/
def anyIntersects (range : AddrRange) : List VMA → Except Fault Bool
  | [] => .ok false
  | vma :: rest => do
      if ← vma.addrRange.intersects range then pure true else anyIntersects range rest

def isUnmapped (startAddr length : Addr) (m : MemState) : Except Fault Bool := do
  let mapped ← anyIntersects (AddrRange.plain startAddr (startAddr + length)) m.vmaList
  pure (!mapped)

def mapRegion (startAddr length : Addr) (regionName : String) (file : Option FileMapping)
    (m : MemState) : Except Fault MemState := do
  let unmapped ← m.isUnmapped startAddr length
  assert unmapped
  let vma ← VMA.create pageBytes (AddrRange.plain startAddr (startAddr + length)) regionName file
  pure { vmaList := m.vmaList ++ [vma] }

/-- Trim an area that overlaps the range from one side. -/
def trim (range : AddrRange) (vma : VMA) : Except Fault VMA :=
  if vma.start < range.start then vma.sliceRegionRight pageBytes range.start
  else vma.sliceRegionLeft pageBytes range.end

/-- The loop of `unmapRegion`. -/
def unmapLoop (range : AddrRange) : List VMA → Except Fault (List VMA)
  | [] => .ok []
  | vma :: rest =>
    if vma.isStrictSuperset range then do
      let back ← vma.sliceRegionRight pageBytes range.start
      let vma ← vma.sliceRegionLeft pageBytes range.end
      pure (vma :: (rest ++ [back]))
    else do
      if ← vma.addrRange.isSubset range then unmapLoop range rest
      else do
        if ← vma.addrRange.intersects range then do
          let vma ← trim pageBytes range vma
          let rest ← unmapLoop range rest
          pure (vma :: rest)
        else do
          let rest ← unmapLoop range rest
          pure (vma :: rest)

def unmapRegion (startAddr length : Addr) (m : MemState) : Except Fault MemState := do
  let vmaList ← unmapLoop pageBytes (AddrRange.plain startAddr (startAddr + length)) m.vmaList
  pure { vmaList }

/-- Move the part of an area in the range, where the area overlaps the range from one side. Returns
the part that stays, and the part that is moved. -/
def moveOverlap (range : AddrRange) (newStart : Addr) (vma : VMA) : Except Fault (VMA × VMA) :=
  if vma.start < range.start then do
    let back ← vma.sliceRegionRight pageBytes range.start
    let vma ← vma.sliceRegionLeft pageBytes range.start
    let vma ← vma.remap pageBytes newStart
    pure (back, vma)
  else do
    let back ← vma.sliceRegionLeft pageBytes range.end
    let vma ← vma.sliceRegionRight pageBytes range.end
    let vma ← vma.remap pageBytes (newStart + vma.start - range.start)
    pure (back, vma)

/-- Move the range out of an area around it. Returns the two parts that stay, and the part that is
moved. -/
def moveInner (range : AddrRange) (newStart : Addr) (vma : VMA) :
    Except Fault (VMA × VMA × VMA) := do
  let right ← vma.sliceRegionRight pageBytes range.start
  let left ← vma.sliceRegionLeft pageBytes range.end
  let vma ← vma.sliceRegionLeft pageBytes range.start
  let vma ← vma.sliceRegionRight pageBytes range.end
  let vma ← vma.remap pageBytes newStart
  pure (right, left, vma)

/-- The loop of `remapRegion`. -/
def remapLoop (range : AddrRange) (newStart : Addr) : ℕ → List VMA → Except Fault (List VMA)
  | _, [] => .ok []
  | 0, _ :: _ => .error .outOfFuel
  | fuel + 1, vma :: rest =>
    if vma.isStrictSuperset range then do
      let (right, left, vma) ← moveInner pageBytes range newStart vma
      pure (vma :: (rest ++ [right, left]))
    else do
      if ← vma.addrRange.isSubset range then do
        let vma ← vma.remap pageBytes (vma.start - range.start + newStart)
        let rest ← remapLoop range newStart fuel rest
        pure (vma :: rest)
      else do
        if ← vma.addrRange.intersects range then do
          let (back, vma) ← moveOverlap pageBytes range newStart vma
          let rest ← remapLoop range newStart fuel (rest ++ [back])
          pure (vma :: rest)
        else do
          let rest ← remapLoop range newStart fuel rest
          pure (vma :: rest)

/-- The loop takes at most two turns for an area of the list. -/
def remapRegion (startAddr newStartAddr length : Addr) (m : MemState) : Except Fault MemState := do
  let vmaList ← remapLoop pageBytes (AddrRange.plain startAddr (startAddr + length)) newStartAddr
    (2 * m.vmaList.length) m.vmaList
  pure { vmaList }

/-! ### What the areas of a list have at an address -/

/-- The sources of the bytes at an address, one for every area that has the address. -/
def views (l : List VMA) (a : Addr) : List (Option (MappedFileBuffer × ℕ)) :=
  l.flatMap fun v => v.at a

theorem views_cons (v : VMA) (l : List VMA) (a : Addr) :
  views (v :: l) a = v.at a ++ views l a
  := flatMap_cons

theorem views_append (l l' : List VMA) (a : Addr) :
  views (l ++ l') a = views l a ++ views l' a
  := flatMap_append

theorem views_singleton (v : VMA) (a : Addr) :
  views [v] a = v.at a
  := by
  exact append_nil _

/-- The areas are as they should be, and no address is in two of them. -/
structure Valid (l : List VMA) : Prop where
  good : ∀ v ∈ l, v.Good pageBytes
  apart : ∀ a, (views l a).length ≤ 1

variable {pageBytes} {l : List VMA} {a : Addr} {w : VMA}

section

variable (h : Valid pageBytes (v :: l))

include h

theorem Valid.tail :
  Valid pageBytes l
  where
  good := (forall_mem_cons.mp h.good).2
  apart := by
    intro a
    have hlen := h.apart a
    rw [views_cons, List.length_append] at hlen
    omega

theorem Valid.head :
  v.Good pageBytes
  := h.good v mem_cons_self

/-- An address of the first area is in no other one. -/
theorem Valid.views_tail (ha : v.Covers a) :
  views l a = []
  := by
  have hlen := h.apart a
  rw [views_cons, at_of_covers ha, List.length_append, length_singleton] at hlen
  exact eq_nil_of_length_eq_zero (by omega)

end

/-- A region of pages. -/
structure Region (pageBytes : Addr) (r : AddrRange) : Prop where
  plain : r.Plain
  alignedStart : r.start % pageBytes = 0
  alignedEnd : r.end % pageBytes = 0

/-- The address is in the range. -/
def Within (r : AddrRange) (a : Addr) : Prop :=
  r.start ≤ a ∧ a < r.end

instance (r : AddrRange) (a : Addr) : Decidable (Within r a) :=
  inferInstanceAs (Decidable (r.start ≤ a ∧ a < r.end))

variable {r : AddrRange}

/-! ### How an area lies to a range -/

theorem isStrictSuperset_iff :
  v.isStrictSuperset r = true ↔ v.start < r.start ∧ r.end < v.end
  := by
  unfold isStrictSuperset
  rw [Bool.and_eq_true, decide_eq_true_iff, decide_eq_true_iff]

/-- An address is before, in, or after a range. -/
inductive Position (r : AddrRange) (a : Addr) : Prop where
  | before (h : a < r.start) (hnot : ¬ Within r a) (hend : ¬ r.end ≤ a)
  | within (h : Within r a) (hstart : ¬ a < r.start) (hend : ¬ r.end ≤ a)
  | after (h : r.end ≤ a) (hnot : ¬ Within r a) (hstart : ¬ a < r.start)

theorem position (hr : r.start < r.end) (a : Addr) :
  Position r a
  := by
  by_cases h₁ : a < r.start
  · apply Position.before h₁
    · rintro ⟨h, -⟩
      bv_omega
    · bv_omega
  · by_cases h₂ : r.end ≤ a
    · apply Position.after h₂ _ h₁
      rintro ⟨-, h⟩
      bv_omega
    · exact .within ⟨BitVec.not_lt.mp h₁, BitVec.not_le.mp h₂⟩ h₁ h₂

/-- The parts of an area before and after a range. -/
theorem at_around (hr : r.start < r.end)
    (hright : ∀ a, right.at a = if a < r.start then v.at a else [])
    (hleft : ∀ a, left.at a = if r.end ≤ a then v.at a else []) (a : Addr) :
  right.at a ++ left.at a = if Within r a then [] else v.at a
  := by
  rw [hright, hleft]
  cases position hr a with
  | before h hnot hend => rw [if_pos h, if_neg hend, if_neg hnot, append_nil]
  | within h hstart hend => rw [if_neg hstart, if_neg hend, if_pos h, append_nil]
  | after h hnot hstart => rw [if_neg hstart, if_pos h, if_neg hnot, nil_append]

/-- The part of an area that is outside of a range. -/
theorem at_cut {p : Addr → Prop} [DecidablePred p] (hw : ∀ a, w.at a = if p a then v.at a else [])
    (hp : ∀ a, v.Covers a → (p a ↔ ¬ Within r a)) (a : Addr) :
  w.at a = if Within r a then [] else v.at a
  := by
  rw [hw]
  by_cases ha : v.Covers a
  · simp only [hp a ha, ite_not]
  · rw [at_of_not_covers ha, ite_self, ite_self]

/-- An area inside of a range has nothing outside of the range. -/
theorem at_inside (h : v.addrRange.Inside r) (a : Addr) :
  (if Within r a then [] else v.at a) = []
  := by
  split_ifs with ha
  · rfl
  · rw [at_of_not_covers]
    rintro ⟨hstart, hend⟩
    obtain ⟨h₁, h₂⟩ := h
    apply ha
    constructor
    · exact BitVec.le_trans h₁ hstart
    · change a < v.addrRange.end at hend
      bv_omega

/-- An area that does not meet a range has nothing in the range. -/
theorem at_apart (h : ¬ v.addrRange.Meeting r) (ha : Within r a) :
  v.at a = []
  := by
  rw [at_of_not_covers]
  rintro ⟨hstart, hend⟩
  obtain ⟨h₁, h₂⟩ := ha
  apply h
  change v.addrRange.start ≤ a at hstart
  change a < v.addrRange.end at hend
  constructor
  · bv_omega
  · bv_omega

/-! ### Unmapping -/

/-- An area that overlaps a range from one side is trimmed. -/
theorem trim_eq (hr : Region pageBytes r) (hv : v.Good pageBytes)
    (hsuper : ¬ v.isStrictSuperset r = true) (hsub : ¬ v.addrRange.Inside r)
    (hmeet : v.addrRange.Meeting r) :
  ∃ w, trim pageBytes r v = .ok w ∧ w.Good pageBytes
    ∧ ∀ a, w.at a = if Within r a then [] else v.at a
  := by
  rw [isStrictSuperset_iff] at hsuper
  obtain ⟨h₁, h₂⟩ := hmeet
  change v.start < r.end at h₁
  change r.start < v.end at h₂
  change ¬ (r.start ≤ v.start ∧ v.end ≤ r.end) at hsub
  have hne := hr.plain.nonempty
  unfold trim
  split_ifs with hstart
  · obtain ⟨w, hok, hgood, -, -, hat⟩ := hv.sliceRegionRight hstart (by bv_omega) hr.alignedStart
    refine ⟨w, hok, hgood, at_cut hat ?_⟩
    rintro a ⟨-, hlt⟩
    unfold Within
    bv_omega
  · obtain ⟨w, hok, hgood, -, -, hat⟩ :=
      hv.sliceRegionLeft (by bv_omega) (by bv_omega) hr.alignedEnd
    refine ⟨w, hok, hgood, at_cut hat ?_⟩
    rintro a ⟨hle, -⟩
    unfold Within
    bv_omega

/-- The sources at an address outside of a range. -/
abbrev outside (r : AddrRange) (f : Addr → List (Option (MappedFileBuffer × ℕ))) (a : Addr) :
    List (Option (MappedFileBuffer × ℕ)) :=
  if Within r a then [] else f a

theorem outside_views_cons (v : VMA) (l : List VMA) (a : Addr) :
  outside r (views (v :: l)) a = outside r v.at a ++ outside r (views l) a
  := by
  unfold outside
  split_ifs
  · rfl
  · exact views_cons v l a

theorem views_cons_perm (hw : w.at a = outside r v.at a)
    (hl : (views l' a).Perm (outside r (views l) a)) :
  (views (w :: l') a).Perm (outside r (views (v :: l)) a)
  := by
  rw [views_cons, outside_views_cons, hw]
  exact hl.append_left _

/-- The areas of a list after a range is taken out of the first one, which is around it. -/
theorem Valid.views_around (hl : Valid pageBytes (v :: l)) (hstart : v.start ≤ r.start)
    (hend : r.end ≤ v.end) (a : Addr) :
  outside r v.at a ++ views l a = outside r (views (v :: l)) a
  := by
  rw [outside_views_cons]
  by_cases ha : Within r a
  · have hcovers : v.Covers a := by
      obtain ⟨h₁, h₂⟩ := ha
      constructor
      · bv_omega
      · bv_omega
    rw [outside, outside, if_pos ha, if_pos ha, hl.views_tail hcovers]
  · rw [outside, outside, if_neg ha, if_neg ha]

/-- The loop of `unmapRegion` takes the range out of every area. -/
theorem unmapLoop_eq (hr : Region pageBytes r) (hl : Valid pageBytes l) :
  ∃ l', unmapLoop pageBytes r l = .ok l' ∧ (∀ w ∈ l', w.Good pageBytes)
    ∧ ∀ a, (views l' a).Perm (outside r (views l) a)
  := by
  induction l with
  | nil =>
    refine ⟨[], rfl, by simp, ?_⟩
    intro a
    unfold outside
    split_ifs
    · exact .refl _
    · exact .refl _
  | cons v l ih =>
    have hv := hl.head
    have hne := hr.plain.nonempty
    obtain ⟨l', hok, hgood, hviews⟩ := ih hl.tail
    rw [unmapLoop]
    by_cases hsuper : v.isStrictSuperset r = true
    · obtain ⟨h₁, h₂⟩ := isStrictSuperset_iff.mp hsuper
      obtain ⟨right, hright, hrgood, -, -, hrat⟩ :=
        hv.sliceRegionRight h₁ (by bv_omega) hr.alignedStart
      obtain ⟨left, hleft, hlgood, -, -, hlat⟩ :=
        hv.sliceRegionLeft (by bv_omega) h₂ hr.alignedEnd
      rw [if_pos hsuper, hright, ok_bind, hleft, ok_bind]
      refine ⟨_, rfl, ?_, ?_⟩
      · intro w hw
        simp only [mem_cons, mem_append, not_mem_nil, or_false] at hw
        rcases hw with rfl | hw | rfl
        · exact hlgood
        · exact hl.tail.good w hw
        · exact hrgood
      · intro a
        rw [← hl.views_around (by bv_omega) (by bv_omega), outside,
          ← at_around hne hrat hlat, views_cons, views_append, views_singleton]
        rw [← append_assoc]
        exact perm_append_comm.trans (by rw [append_assoc])
    · rw [if_neg hsuper, hv.plain.isSubset hr.plain, ok_bind]
      by_cases hsub : v.addrRange.Inside r
      · rw [if_pos (decide_eq_true hsub)]
        refine ⟨l', hok, hgood, ?_⟩
        intro a
        rw [outside_views_cons, outside, at_inside hsub]
        exact hviews a
      · rw [if_neg (by simp [hsub]), hv.plain.intersects hr.plain, ok_bind]
        by_cases hmeet : v.addrRange.Meeting r
        · obtain ⟨w, hw, hwgood, hwat⟩ := trim_eq hr hv hsuper hsub hmeet
          rw [if_pos (decide_eq_true hmeet), hw, ok_bind, hok, ok_bind]
          refine ⟨_, rfl, ?_, fun a => views_cons_perm (hwat a) (hviews a)⟩
          exact forall_mem_cons.mpr ⟨hwgood, hgood⟩
        · rw [if_neg (by simp [hmeet]), hok, ok_bind]
          refine ⟨_, rfl, forall_mem_cons.mpr ⟨hv, hgood⟩, ?_⟩
          intro a
          apply views_cons_perm _ (hviews a)
          unfold outside
          split_ifs with ha
          · exact at_apart hmeet ha
          · rfl

/-! ### Moving -/

section Move

variable {n : Addr}

/-- The address is in the range to which `r` is moved. -/
def Target (r : AddrRange) (n : Addr) (a : Addr) : Prop :=
  n ≤ a ∧ a < n + (r.end - r.start)

instance (r : AddrRange) (n a : Addr) : Decidable (Target r n a) :=
  inferInstanceAs (Decidable (n ≤ a ∧ a < n + (r.end - r.start)))

/-- The address from which an address of the target is moved. -/
def origin (r : AddrRange) (n : Addr) (a : Addr) : Addr :=
  a - n + r.start

/-- A region, and the place to which it is moved. The two are apart. -/
structure Move (pageBytes : Addr) (r : AddrRange) (n : Addr) : Prop extends Region pageBytes r where
  alignedTarget : n % pageBytes = 0
  fits : n.toNat + (r.end - r.start).toNat < 2 ^ 64
  disjoint : ∀ a, Target r n a → ¬ Within r a

/-- The sources at an address after the move. -/
def moved (r : AddrRange) (n : Addr) (f : Addr → List (Option (MappedFileBuffer × ℕ)))
    (a : Addr) : List (Option (MappedFileBuffer × ℕ)) :=
  if Target r n a then f (origin r n a) else outside r f a

section

variable (hr : Move pageBytes r n)

include hr

/-- The numbers of a move, which do not wrap around. -/
theorem Move.toNat :
  r.start.toNat < r.end.toNat ∧ (r.end - r.start).toNat = r.end.toNat - r.start.toNat
    ∧ (n + (r.end - r.start)).toNat = n.toNat + (r.end.toNat - r.start.toNat)
    ∧ n.toNat + (r.end.toNat - r.start.toNat) < 2 ^ 64
  := by
  have hlt := BitVec.lt_def.mp hr.plain.nonempty
  have hsub := BitVec.toNat_sub_of_le (BitVec.le_of_lt hr.plain.nonempty)
  have hfits := hr.fits
  rw [hsub] at hfits
  refine ⟨hlt, hsub, ?_, hfits⟩
  rw [BitVec.toNat_add, hsub, Nat.mod_eq_of_lt hfits]

theorem target_iff :
  Target r n a ↔ n.toNat ≤ a.toNat ∧ a.toNat < n.toNat + (r.end.toNat - r.start.toNat)
  := by
  rw [Target, BitVec.le_def, BitVec.lt_def, hr.toNat.2.2.1]

theorem toNat_origin (ha : Target r n a) :
  (origin r n a).toNat = a.toNat - n.toNat + r.start.toNat
  := by
  obtain ⟨hlt, -, -, hfits⟩ := hr.toNat
  obtain ⟨h₁, h₂⟩ := (target_iff hr).mp ha
  rw [origin, BitVec.toNat_add, BitVec.toNat_sub_of_le ha.1]
  apply Nat.mod_eq_of_lt
  omega

theorem within_origin (ha : Target r n a) :
  Within r (origin r n a)
  := by
  obtain ⟨hlt, -, -, -⟩ := hr.toNat
  obtain ⟨h₁, h₂⟩ := (target_iff hr).mp ha
  rw [Within, BitVec.le_def, BitVec.lt_def, toNat_origin hr ha]
  omega

/-- The numbers of a part that is moved. -/
theorem toNat_part {s e : Addr} (hstart : r.start ≤ s) (hse : s < e) (hend : e ≤ r.end) :
  (s - r.start + n).toNat = s.toNat - r.start.toNat + n.toNat
    ∧ (e - s).toNat = e.toNat - s.toNat
    ∧ (s - r.start + n + (e - s)).toNat = e.toNat - r.start.toNat + n.toNat
  := by
  obtain ⟨hlt, -, -, hfits⟩ := hr.toNat
  have h₁ := BitVec.le_def.mp hstart
  have h₂ := BitVec.lt_def.mp hse
  have h₃ := BitVec.le_def.mp hend
  have hsum : (s - r.start + n).toNat = s.toNat - r.start.toNat + n.toNat := by
    rw [BitVec.toNat_add, BitVec.toNat_sub_of_le hstart]
    apply Nat.mod_eq_of_lt
    omega
  have hsize := BitVec.toNat_sub_of_le (BitVec.le_of_lt hse)
  refine ⟨hsum, hsize, ?_⟩
  rw [BitVec.toNat_add, hsum, hsize, Nat.mod_eq_of_lt (by omega)]
  omega

/-- A part of an area in the range is moved with its bytes. -/
theorem remap_eq (hw : w.Good pageBytes) (hstart : r.start ≤ w.start) (hend : w.end ≤ r.end)
    (hat : ∀ a, Within r a → w.at a = v.at a) :
  ∃ u, w.remap pageBytes (w.start - r.start + n) = .ok u ∧ u.Good pageBytes
    ∧ ∀ a, u.at a = if Target r n a then v.at (origin r n a) else []
  := by
  have hne : w.start < w.end := hw.plain.nonempty
  obtain ⟨hlt, -, -, hfits⟩ := hr.toNat
  obtain ⟨hto, hsize, hto'⟩ := toNat_part hr hstart hne hend
  have h₁ := BitVec.le_def.mp hstart
  have h₃ := BitVec.le_def.mp hend
  have haligned : (w.start - r.start + n) % pageBytes = 0 := by
    rw [aligned_iff, hto]
    exact Nat.dvd_add (Nat.dvd_sub (aligned_iff.mp hw.alignedStart)
      (aligned_iff.mp hr.alignedStart)) (aligned_iff.mp hr.alignedTarget)
  have haligned' : (w.start - r.start + n + (w.end - w.start)) % pageBytes = 0 := by
    rw [aligned_iff, hto']
    exact Nat.dvd_add (Nat.dvd_sub (aligned_iff.mp hw.alignedEnd)
      (aligned_iff.mp hr.alignedStart)) (aligned_iff.mp hr.alignedTarget)
  obtain ⟨u, hok, hgood, -, -, huat⟩ := hw.remap haligned haligned' (by rw [hto, hsize]; omega)
  refine ⟨u, hok, hgood, ?_⟩
  intro a
  have horigin : a - (w.start - r.start + n) + w.start = origin r n a := by
    unfold origin
    abel
  have hin : w.start - r.start + n ≤ a ∧ a < w.start - r.start + n + (w.end - w.start)
      ↔ w.start.toNat - r.start.toNat + n.toNat ≤ a.toNat
        ∧ a.toNat < w.end.toNat - r.start.toNat + n.toNat := by
    rw [BitVec.le_def, BitVec.lt_def, hto, hto']
  rw [huat, horigin]
  by_cases ha : Target r n a
  · obtain ⟨h₄, h₅⟩ := (target_iff hr).mp ha
    rw [if_pos ha, ← hat _ (within_origin hr ha)]
    split_ifs with hpart
    · rfl
    · rw [at_of_not_covers]
      rintro ⟨h₆, h₇⟩
      rw [BitVec.le_def, toNat_origin hr ha] at h₆
      rw [BitVec.lt_def, toNat_origin hr ha] at h₇
      rw [hin] at hpart
      omega
  · rw [if_neg ha, if_neg]
    rw [target_iff hr] at ha
    rw [hin]
    omega

end

theorem moved_views_cons (v : VMA) (l : List VMA) (a : Addr) :
  moved r n (views (v :: l)) a = moved r n v.at a ++ moved r n (views l) a
  := by
  unfold moved
  rw [outside_views_cons, views_cons]
  split_ifs
  · rfl
  · rfl

theorem moved_views_append (l l' : List VMA) (a : Addr) :
  moved r n (views (l ++ l')) a = moved r n (views l) a ++ moved r n (views l') a
  := by
  unfold moved outside
  rw [views_append, views_append]
  split_ifs
  · rfl
  · rfl
  · rfl

section

variable (hr : Move pageBytes r n)

include hr

/-- What is neither in the range nor in the target stays where it is. -/
theorem moved_of_apart {f : Addr → List (Option (MappedFileBuffer × ℕ))}
    (hsource : ∀ a, Within r a → f a = []) (htarget : ∀ a, Target r n a → f a = []) (a : Addr) :
  moved r n f a = f a
  := by
  unfold moved outside
  split_ifs with h₁ h₂
  · rw [hsource _ (within_origin hr h₁), htarget a h₁]
  · exact (hsource a h₂).symm
  · rfl

/-- An area is moved if its part in the range is moved and its other parts stay. -/
theorem moved_at {stay : Addr → List (Option (MappedFileBuffer × ℕ))}
    (hw : ∀ a, w.at a = if Target r n a then v.at (origin r n a) else [])
    (hstay : ∀ a, stay a = outside r v.at a) (hfree : ∀ a, Target r n a → v.at a = []) (a : Addr) :
  moved r n v.at a = w.at a ++ stay a
  := by
  rw [hw, hstay]
  unfold moved
  by_cases ha : Target r n a
  · rw [if_pos ha, if_pos ha, outside, if_neg (hr.disjoint a ha), hfree a ha, append_nil]
  · rw [if_neg ha, if_neg ha, nil_append]

/-- A range inside of an area is moved out of it. -/
theorem moveInner_eq (hv : v.Good pageBytes) (hsuper : v.isStrictSuperset r = true) :
  ∃ right left w, moveInner pageBytes r n v = .ok (right, left, w)
    ∧ right.Good pageBytes ∧ left.Good pageBytes ∧ w.Good pageBytes
    ∧ (∀ a, right.at a ++ left.at a = outside r v.at a)
    ∧ ∀ a, w.at a = if Target r n a then v.at (origin r n a) else []
  := by
  have hne := hr.plain.nonempty
  obtain ⟨h₁, h₂⟩ := isStrictSuperset_iff.mp hsuper
  obtain ⟨right, hright, hrgood, -, -, hrat⟩ :=
    hv.sliceRegionRight h₁ (by bv_omega) hr.alignedStart
  obtain ⟨left, hleft, hlgood, -, -, hlat⟩ :=
    hv.sliceRegionLeft (by bv_omega) h₂ hr.alignedEnd
  obtain ⟨mid, hmid, hmgood, hmstart, hmend, hmat⟩ :=
    hv.sliceRegionLeft (by bv_omega) (by bv_omega) hr.alignedStart
  obtain ⟨part, hpart, hpgood, hpstart, hpend, hpat⟩ :=
    hmgood.sliceRegionRight (by rw [hmstart]; exact hne) (by rw [hmend]; bv_omega) hr.alignedEnd
  have hat : ∀ a, Within r a → part.at a = v.at a := by
    intro a ha
    rw [hpat, if_pos ha.2, hmat, if_pos ha.1]
  obtain ⟨w, hw, hwgood, hwat⟩ := remap_eq hr hpgood
    (by rw [hpstart, hmstart]; exact BitVec.le_refl _) (by rw [hpend]; exact BitVec.le_refl _) hat
  rw [hpstart, hmstart, BitVec.sub_self, BitVec.zero_add] at hw
  refine ⟨right, left, w, ?_, hrgood, hlgood, hwgood, at_around hne hrat hlat, hwat⟩
  unfold moveInner
  rw [hright, ok_bind, hleft, ok_bind, hmid, ok_bind, hpart, ok_bind, hw, ok_bind]
  rfl

/-- The overlap of an area with a range is moved out of it. -/
theorem moveOverlap_eq (hv : v.Good pageBytes) (hsuper : ¬ v.isStrictSuperset r = true)
    (hsub : ¬ v.addrRange.Inside r) (hmeet : v.addrRange.Meeting r) :
  ∃ back w, moveOverlap pageBytes r n v = .ok (back, w) ∧ back.Good pageBytes
    ∧ w.Good pageBytes ∧ (∀ a, back.at a = outside r v.at a)
    ∧ ∀ a, w.at a = if Target r n a then v.at (origin r n a) else []
  := by
  rw [isStrictSuperset_iff] at hsuper
  obtain ⟨h₁, h₂⟩ := hmeet
  change v.start < r.end at h₁
  change r.start < v.end at h₂
  change ¬ (r.start ≤ v.start ∧ v.end ≤ r.end) at hsub
  have hne := hr.plain.nonempty
  unfold moveOverlap
  split_ifs with hstart
  · have hend : v.end ≤ r.end := by bv_omega
    obtain ⟨back, hback, hbgood, -, -, hbat⟩ :=
      hv.sliceRegionRight hstart (by bv_omega) hr.alignedStart
    obtain ⟨part, hpart, hpgood, hpstart, hpend, hpat⟩ :=
      hv.sliceRegionLeft (by bv_omega) h₂ hr.alignedStart
    have hat : ∀ a, Within r a → part.at a = v.at a := by
      intro a ha
      rw [hpat, if_pos ha.1]
    obtain ⟨w, hw, hwgood, hwat⟩ := remap_eq hr hpgood (by rw [hpstart]; exact BitVec.le_refl _)
      (by rw [hpend]; exact hend) hat
    rw [hpstart, BitVec.sub_self, BitVec.zero_add] at hw
    refine ⟨back, w, ?_, hbgood, hwgood, at_cut hbat ?_, hwat⟩
    · rw [hback, ok_bind, hpart, ok_bind, hw, ok_bind]
      rfl
    · rintro a ⟨-, hlt⟩
      unfold Within
      bv_omega
  · have hstart' := BitVec.not_lt.mp hstart
    obtain ⟨back, hback, hbgood, -, -, hbat⟩ :=
      hv.sliceRegionLeft (by bv_omega) (by bv_omega) hr.alignedEnd
    obtain ⟨part, hpart, hpgood, hpstart, hpend, hpat⟩ :=
      hv.sliceRegionRight h₁ (by bv_omega) hr.alignedEnd
    have hat : ∀ a, Within r a → part.at a = v.at a := by
      intro a ha
      rw [hpat, if_pos ha.2]
    obtain ⟨w, hw, hwgood, hwat⟩ := remap_eq hr hpgood (by rw [hpstart]; exact hstart')
      (by rw [hpend]; exact BitVec.le_refl _) hat
    have hplace : n + part.start - r.start = part.start - r.start + n := by abel
    refine ⟨back, w, ?_, hbgood, hwgood, at_cut hbat ?_, hwat⟩
    · rw [hback, ok_bind, hpart, ok_bind, hplace, hw, ok_bind]
      rfl
    · rintro a ⟨hle, -⟩
      unfold Within
      bv_omega

end

/-- The areas that the loop still has to turn to, counting those twice of which a part stays. -/
def turns (r : AddrRange) (l : List VMA) : ℕ :=
  l.length + l.countP fun v => decide (v.addrRange.Meeting r)

theorem turns_le (r : AddrRange) (l : List VMA) :
  turns r l ≤ 2 * l.length
  := by
  have hcount : (l.countP fun v => decide (v.addrRange.Meeting r)) ≤ l.length :=
    countP_le_length
  unfold turns
  omega

variable {fuel : ℕ} {back : VMA}

theorem turns_tail (h : turns r (v :: l) ≤ fuel + 1) :
  turns r l ≤ fuel
  := by
  unfold turns at h ⊢
  rw [length_cons, countP_cons] at h
  omega

/-- An area that meets the range is counted twice, and the part that stays is counted once. -/
theorem turns_append_back (hmeet : v.addrRange.Meeting r) (hback : ¬ back.addrRange.Meeting r)
    (h : turns r (v :: l) ≤ fuel + 1) :
  turns r (l ++ [back]) ≤ fuel
  := by
  unfold turns at h ⊢
  rw [length_cons, countP_cons, if_pos (decide_eq_true hmeet)] at h
  rw [List.length_append, countP_append, length_singleton, countP_singleton,
    if_neg (by simp [hback])]
  omega

/-- The part that stays when an overlap is moved. -/
theorem Valid.append_back (hl : Valid pageBytes (v :: l)) (hback : back.Good pageBytes)
    (hat : ∀ a, back.at a = outside r v.at a) :
  Valid pageBytes (l ++ [back])
  where
  good := by
    exact forall_mem_append.mpr ⟨hl.tail.good, forall_mem_singleton.mpr hback⟩
  apart := by
    intro a
    have hlen := hl.apart a
    rw [views_cons, List.length_append] at hlen
    rw [views_append, views_singleton, List.length_append, hat, outside]
    split_ifs
    · rw [length_nil]
      omega
    · omega

/-- The part that stays does not meet the range. -/
theorem not_meeting_of_at (hw : w.Good pageBytes) (hr : Region pageBytes r)
    (hat : ∀ a, Within r a → w.at a = []) :
  ¬ w.addrRange.Meeting r
  := by
  rintro ⟨h₁, h₂⟩
  have hne := hw.plain.nonempty
  have hne' := hr.plain.nonempty
  by_cases h : w.addrRange.start ≤ r.start
  · apply at_ne_nil.mpr ⟨h, h₂⟩
    exact hat _ ⟨BitVec.le_refl _, hne'⟩
  · have hle := BitVec.le_of_lt (BitVec.not_le.mp h)
    apply at_ne_nil.mpr ⟨BitVec.le_refl _, hne⟩
    exact hat _ ⟨hle, h₁⟩

/-- The areas of the second list are those of the first one after the move. -/
structure Moves (pageBytes : Addr) (r : AddrRange) (n : Addr) (l l' : List VMA) : Prop where
  good : ∀ w ∈ l', w.Good pageBytes
  views : ∀ a, (views l' a).Perm (moved r n (views l) a)

theorem Moves.nil :
  Moves pageBytes r n [] []
  where
  good := by simp
  views := fun a => by simp [moved, outside, MemState.views]

/-- An area that is moved as a whole, or stays as a whole, before areas that are moved. -/
theorem Moves.cons (hw : w.Good pageBytes) (hat : ∀ a, moved r n v.at a = w.at a)
    (h : Moves pageBytes r n l l') :
  Moves pageBytes r n (v :: l) (w :: l')
  where
  good := forall_mem_cons.mpr ⟨hw, h.good⟩
  views := by
    intro a
    rw [moved_views_cons, views_cons, hat]
    exact (h.views a).append_left _

/-- An area of which one part is moved, and the other one is put at the end of the list. -/
theorem Moves.cons_back (hr : Move pageBytes r n) (hw : w.Good pageBytes)
    (hat : ∀ a, moved r n v.at a = w.at a ++ back.at a) (hsource : ∀ a, Within r a → back.at a = [])
    (htarget : ∀ a, Target r n a → back.at a = []) (h : Moves pageBytes r n (l ++ [back]) l') :
  Moves pageBytes r n (v :: l) (w :: l')
  where
  good := forall_mem_cons.mpr ⟨hw, h.good⟩
  views := by
    intro a
    rw [moved_views_cons, views_cons, hat, append_assoc]
    apply List.Perm.append_left
    apply (h.views a).trans
    rw [moved_views_append, funext (views_singleton back), moved_of_apart hr hsource htarget]
    exact perm_append_comm

/-- An area around the range. The other areas are not in the range, and stay. -/
theorem Moves.inner (hr : Move pageBytes r n) (hl : Valid pageBytes (v :: l))
    (hsuper : v.isStrictSuperset r = true) (hfree : ∀ a, Target r n a → MemState.views l a = [])
    (hright : right.Good pageBytes) (hleft : left.Good pageBytes) (hw : w.Good pageBytes)
    (hat : ∀ a, moved r n v.at a = w.at a ++ (right.at a ++ left.at a)) :
  Moves pageBytes r n (v :: l) (w :: (l ++ [right, left]))
  where
  good := by
    intro u hu
    simp only [mem_cons, mem_append, not_mem_nil, or_false] at hu
    rcases hu with rfl | hu | rfl | rfl
    · exact hw
    · exact hl.tail.good u hu
    · exact hright
    · exact hleft
  views := by
    intro a
    have hrest : moved r n (MemState.views l) a = MemState.views l a := by
      apply moved_of_apart hr _ hfree
      intro a ha
      obtain ⟨h₁, h₂⟩ := isStrictSuperset_iff.mp hsuper
      obtain ⟨h₃, h₄⟩ := ha
      apply hl.views_tail
      constructor
      · bv_omega
      · bv_omega
    rw [moved_views_cons, hat, hrest, views_cons, views_append, views_cons, views_singleton,
      append_assoc]
    exact perm_append_comm.append_left _

theorem views_cons_free (h : ∀ a, Target r n a → views (v :: l) a = []) :
  (∀ a, Target r n a → v.at a = []) ∧ ∀ a, Target r n a → views l a = []
  := by
  have hparts : ∀ a, Target r n a → v.at a = [] ∧ views l a = [] := by
    intro a ha
    rw [← append_eq_nil_iff, ← views_cons]
    exact h a ha
  exact ⟨fun a ha => (hparts a ha).1, fun a ha => (hparts a ha).2⟩

/-- The loop of `remapRegion` moves the range. -/
theorem remapLoop_eq (hr : Move pageBytes r n) (hl : Valid pageBytes l)
    (hfree : ∀ a, Target r n a → views l a = []) (hfuel : turns r l ≤ fuel) :
  ∃ l', remapLoop pageBytes r n fuel l = .ok l' ∧ Moves pageBytes r n l l'
  := by
  induction fuel generalizing l with
  | zero =>
    cases l with
    | nil => exact ⟨[], rfl, Moves.nil⟩
    | cons v l =>
      unfold turns at hfuel
      rw [length_cons] at hfuel
      omega
  | succ fuel ih =>
    cases l with
    | nil => exact ⟨[], rfl, Moves.nil⟩
    | cons v l =>
      have hv := hl.head
      obtain ⟨hvfree, hlfree⟩ := views_cons_free hfree
      rw [remapLoop]
      by_cases hsuper : v.isStrictSuperset r = true
      · obtain ⟨right, left, w, hok, hright, hleft, hw, hstay, hwat⟩ :=
          moveInner_eq hr hv hsuper
        rw [if_pos hsuper, hok, ok_bind]
        use w :: (l ++ [right, left]), rfl
        apply Moves.inner hr hl hsuper hlfree hright hleft hw
        exact moved_at hr hwat hstay hvfree
      · rw [if_neg hsuper, hv.plain.isSubset hr.plain, ok_bind]
        by_cases hsub : v.addrRange.Inside r
        · obtain ⟨w, hremap, hw, hwat⟩ := remap_eq hr hv hsub.1 hsub.2 fun _ _ => rfl
          obtain ⟨l', hok, hmoves⟩ := ih hl.tail hlfree (turns_tail hfuel)
          rw [if_pos (decide_eq_true hsub), hremap, ok_bind, hok, ok_bind]
          refine ⟨w :: l', rfl, hmoves.cons hw ?_⟩
          intro a
          rw [moved_at hr hwat (fun a => (at_inside hsub a).symm) hvfree, append_nil]
        · rw [if_neg (by simp [hsub]), hv.plain.intersects hr.plain, ok_bind]
          by_cases hmeet : v.addrRange.Meeting r
          · obtain ⟨back, w, hmove, hback, hw, hbat, hwat⟩ :=
              moveOverlap_eq hr hv hsuper hsub hmeet
            have hsource : ∀ a, Within r a → back.at a = [] := by
              intro a ha
              rw [hbat, outside, if_pos ha]
            have htarget : ∀ a, Target r n a → back.at a = [] := by
              intro a ha
              rw [hbat, outside, hvfree a ha, ite_self]
            have hfree' : ∀ a, Target r n a → views (l ++ [back]) a = [] := by
              intro a ha
              rw [views_append, views_singleton, hlfree a ha, htarget a ha]
              rfl
            have hnot := not_meeting_of_at hback hr.toRegion hsource
            have hturns := turns_append_back hmeet hnot hfuel
            obtain ⟨l', hok, hmoves⟩ := ih (hl.append_back hback hbat) hfree' hturns
            rw [if_pos (decide_eq_true hmeet), hmove, ok_bind]
            change ∃ l'', (remapLoop pageBytes r n fuel (l ++ [back]) >>= _) = _ ∧ _
            rw [hok, ok_bind]
            use w :: l', rfl
            exact hmoves.cons_back hr hw (moved_at hr hwat hbat hvfree) hsource htarget
          · obtain ⟨l', hok, hmoves⟩ := ih hl.tail hlfree (turns_tail hfuel)
            rw [if_neg (by simp [hmeet]), hok, ok_bind]
            use v :: l', rfl
            exact hmoves.cons hv (moved_of_apart hr (fun a ha => at_apart hmeet ha) hvfree)

end Move

end MemState

end Gem5Arc
