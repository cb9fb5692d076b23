import Gem5Arc.Base.AddrRange

/-!
# Interleaved ranges partition their span

The ranges the legacy constructor of `AddrRange` makes for all values of the selector are disjoint
and cover the span: the selector of an address, which is computed with masks and parities, is the
exclusive or of two slices of the address. Merging the ranges in order gives the whole span back.

The constructor accepts high bits for the exclusive or whose slice is not inside of a word. Then it
shifts a word by 64 bits or more. `interleaved_partition_iff` says that the ranges are made, and are
such a partition, exactly if it does not.
-/

namespace Gem5Arc

open BitVec List

namespace AddrRange

/-! ### Parities of masked addresses -/

variable {p high k : ℕ} {h x xor bits : BitVec 8} {start «end» a : Addr} {ranges : List AddrRange}
  {n : ℕ}

theorem getLsbD_oneAt (hp : p < 64) (i : ℕ) :
  (oneAt p).getLsbD i = decide (i = p)
  := by
  rw [oneAt, getLsbD_shiftLeft]
  by_cases hi : i = p
  · subst hi
    simp [hp]
  · by_cases hlt : i < p
    · simp [hi, hlt]
    · have hpos : i - p ≠ 0 := by omega
      simp [hi, hpos]

/-- The parity under a mask with one bit is this bit. -/
theorem popCount_and_one (a : Addr) (hp : p < 64) :
  popCount (a &&& oneAt p) = (a.getLsbD p).toNat
  := by
  have hfilter : ((Finset.range 64).filter fun i => (a &&& oneAt p).getLsbD i)
      = if a.getLsbD p then {p} else ∅ := by
    ext i
    simp only [Finset.mem_filter, Finset.mem_range, getLsbD_and,
      getLsbD_oneAt hp i, Bool.and_eq_true, decide_eq_true_eq]
    split_ifs with ha
    · rw [Finset.mem_singleton]
      constructor
      · rintro ⟨-, -, rfl⟩
        rfl
      · rintro rfl
        exact ⟨hp, ha, rfl⟩
    · constructor
      · rintro ⟨-, hi, rfl⟩
        exact absurd hi ha
      · nofun
  rw [popCount, hfilter]
  cases a.getLsbD p with
  | true => rfl
  | false => rfl

/-- The number of bits under two masks without common bits. -/
theorem popCount_and_or (a m n : Addr) (h : m &&& n = 0) :
  popCount (a &&& (m ||| n)) = popCount (a &&& m) + popCount (a &&& n)
  := by
  rw [popCount, popCount, popCount, ← Finset.card_union_of_disjoint]
  · congr 1
    ext i
    simp only [Finset.mem_union, Finset.mem_filter, Finset.mem_range, getLsbD_and,
      getLsbD_or, Bool.and_eq_true, Bool.or_eq_true]
    tauto
  · rw [Finset.disjoint_left]
    intro i hi hi'
    simp only [Finset.mem_filter, getLsbD_and, Bool.and_eq_true] at hi hi'
    have hbit := congrArg (getLsbD · i) h
    simp [hi.2.2, hi'.2.2] at hbit

/-- The parity under a mask with two bits is their exclusive or. -/
theorem popCount_and_two (a : Addr) {q : ℕ} (hp : p < 64) (hq : q < 64) (hpq : p ≠ q) :
  popCount (a &&& (oneAt p ||| oneAt q)) % 2 = (a.getLsbD p ^^ a.getLsbD q).toNat
  := by
  have hdisjoint : oneAt p &&& oneAt q = 0 := by
    apply eq_of_getLsbD_eq
    intro i _
    rw [getLsbD_and, getLsbD_oneAt hp i, getLsbD_oneAt hq i]
    by_cases hi : i = p
    · simp [hi, hpq]
    · simp [hi]
  rw [popCount_and_or a _ _ hdisjoint, popCount_and_one a hp, popCount_and_one a hq]
  cases a.getLsbD p with
  | true =>
    cases a.getLsbD q with
    | true => rfl
    | false => rfl
  | false =>
    cases a.getLsbD q with
    | true => rfl
    | false => rfl

/-- The bits of the selector are the parities under the masks. -/
theorem testBit_sel (a : Addr) (masks : List Addr) (i acc j : ℕ) :
  (sel a masks i acc).testBit j
    = (acc.testBit j
      || (decide (i ≤ j) && ((masks[j - i]?.map fun mask =>
        decide (popCount (a &&& mask) % 2 = 1)).getD false)))
  := by
  induction masks generalizing i acc with
  | nil => simp [sel]
  | cons mask masks ih =>
    have hmod : popCount (a &&& mask) % 2 < 2 := Nat.mod_lt _ Nat.two_pos
    rw [sel, ih, Nat.testBit_or, Nat.testBit_shiftLeft, Bool.or_assoc]
    congr 1
    rcases Nat.lt_trichotomy j i with hlt | rfl | hgt
    · simp [Nat.not_le.mpr hlt, Nat.not_le.mpr (Nat.lt_succ_of_lt hlt)]
    · simp [Nat.testBit_zero]
    · obtain ⟨n, rfl⟩ := Nat.exists_eq_add_of_lt hgt
      have hindex : i + n + 1 - i = n + 1 := by omega
      have hindex' : i + n + 1 - (i + 1) = n := by omega
      have hhigh : (popCount (a &&& mask) % 2).testBit (n + 1) = false := by
        apply Nat.testBit_lt_two_pow
        exact Nat.lt_of_lt_of_le hmod (Nat.le_self_pow (Nat.succ_ne_zero n) 2)
      rw [hindex, hindex', hhigh]
      simp [Nat.le_of_lt hgt, Nat.succ_le_of_lt hgt]

/-! ### The masks -/

/-- The masks for the slices that end with the bits `high` and, unless it is 0, `xor`. -/
def sliceMasks (high xor k : ℕ) : List Addr :=
  (List.range k).map fun j =>
    if xor = 0 then oneAt (high - (k - 1 - j))
    else oneAt (high - (k - 1 - j)) ||| oneAt (xor - (k - 1 - j))

/-- The bits of `a` from `high + 1 - k` to `high`. -/
def slice (a : Addr) (high k : ℕ) : ℕ :=
  (a.toNat >>> (high + 1 - k)) % 2 ^ k

/-- The value of the selector: a slice of the address, combined with another one unless `xor` is
0. -/
def selected (a : Addr) (high xor k : ℕ) : ℕ :=
  slice a high k ^^^ (if xor = 0 then 0 else slice a xor k)

theorem testBit_slice (a : Addr) (hk : k ≤ high + 1) {j : ℕ} (hj : j < k) :
  (slice a high k).testBit j = a.getLsbD (high - (k - 1 - j))
  := by
  have hindex : high + 1 - k + j = high - (k - 1 - j) := by omega
  rw [slice, Nat.testBit_mod_two_pow, Nat.testBit_shiftRight, hindex, testBit_toNat]
  simp [hj]

theorem slice_lt (a : Addr) (high k : ℕ) :
  slice a high k < 2 ^ k
  := Nat.mod_lt _ (Nat.two_pow_pos k)

theorem selected_lt (a : Addr) (high xor k : ℕ) :
  selected a high xor k < 2 ^ k
  := by
  apply Nat.xor_lt_two_pow (slice_lt a high k)
  split_ifs
  · exact Nat.two_pow_pos k
  · exact slice_lt a xor k

/-- The selector the masks give is the exclusive or of the slices. -/
theorem sel_sliceMasks (a : Addr) {xor : ℕ} (hhigh : k ≤ high + 1) (hhigh' : high < 64)
    (hxor : xor = 0 ∨ (k ≤ xor + 1 ∧ xor < 64 ∧ (xor + k ≤ high ∨ high + k ≤ xor))) :
  sel a (sliceMasks high xor k) 0 0 = selected a high xor k
  := by
  apply Nat.eq_of_testBit_eq
  intro j
  rw [testBit_sel, selected, Nat.testBit_xor]
  by_cases hj : j < k
  · rw [testBit_slice a hhigh hj]
    have hget : (sliceMasks high xor k)[j]? = some (if xor = 0 then oneAt (high - (k - 1 - j))
        else oneAt (high - (k - 1 - j)) ||| oneAt (xor - (k - 1 - j))) := by
      simp [sliceMasks, hj]
    have hbit : high - (k - 1 - j) < 64 := by omega
    simp only [Nat.zero_testBit, Nat.zero_le, decide_true, Bool.true_and, Bool.false_or,
      Nat.sub_zero, hget, Option.map_some, Option.getD_some]
    split_ifs with hzero
    · rw [popCount_and_one a hbit, Nat.zero_testBit, Bool.xor_false]
      cases a.getLsbD (high - (k - 1 - j)) with
      | true => rfl
      | false => rfl
    · obtain ⟨hlow, hhigh64, hapart⟩ := hxor.resolve_left hzero
      have hbit' : xor - (k - 1 - j) < 64 := by omega
      have hne : high - (k - 1 - j) ≠ xor - (k - 1 - j) := by omega
      rw [popCount_and_two a hbit hbit' hne, testBit_slice a hlow hj]
      cases a.getLsbD (high - (k - 1 - j)) ^^ a.getLsbD (xor - (k - 1 - j)) with
      | true => rfl
      | false => rfl
  · have hpow : 2 ^ k ≤ 2 ^ j := Nat.pow_le_pow_right Nat.two_pos (Nat.not_lt.mp hj)
    have hnone : (sliceMasks high xor k)[j]? = none := by
      simp [sliceMasks, Nat.not_lt.mp hj]
    have hslice : ∀ b, (slice a b k).testBit j = false := by
      intro b
      exact Nat.testBit_lt_two_pow ((slice_lt a b k).trans_le hpow)
    simp only [Nat.zero_testBit, Nat.zero_le, decide_true, Bool.true_and, Bool.false_or,
      Nat.sub_zero, hnone, Option.map_none, Option.getD_none, hslice, Bool.false_xor]
    split_ifs
    · rw [Nat.zero_testBit]
    · rw [hslice]

/-- The mask of the loop, if its shifts are defined. -/
theorem loopMask_eq {i : ℕ} (hk : k ≤ 8) (hi : i < k) (hhigh : k ≤ h.toNat + 1)
    (hhigh' : h.toNat < 64) (hxor : x = 0 ∨ (k ≤ x.toNat + 1 ∧ x.toNat < 64)) :
  loopMask h x i
    = .ok (if x.toNat = 0 then oneAt (h.toNat - i) else oneAt (h.toNat - i) ||| oneAt (x.toNat - i))
  := by
  have hsub : ∀ b : BitVec 8, k ≤ b.toNat + 1 → (b - BitVec.ofNat 8 i).toNat = b.toNat - i := by
    intro b hb
    rw [BitVec.toNat_sub, BitVec.toNat_ofNat]
    omega
  have hshift : shiftOne (h - BitVec.ofNat 8 i).toNat = .ok (oneAt (h.toNat - i)) := by
    rw [shiftOne, hsub h hhigh, if_pos (by omega)]
  rw [loopMask, hshift, ok_bind]
  by_cases hzero : x = 0
  · simp [hzero]
  · obtain ⟨hlow, hx⟩ := hxor.resolve_left hzero
    have hpos : x.toNat ≠ 0 := by
      intro hnat
      exact hzero (BitVec.eq_of_toNat_eq hnat)
    have hshift' : shiftOne (x - BitVec.ofNat 8 i).toNat = .ok (oneAt (x.toNat - i)) := by
      rw [shiftOne, hsub x hlow, if_pos (by omega)]
    rw [if_pos hzero, hshift', ok_bind, if_neg hpos]
    rfl

/-- The masks after `n` turns of the loop: the last `n` are filled. -/
theorem fillMasks_turns {f : ℕ → Addr} (hf : ∀ i < k, loopMask h x i = .ok (f i)) (hn : n ≤ k) :
  (List.range n).foldlM
      (fun masks i => do
        let mask ← loopMask h x i
        pure (masks.set (k - i - 1) mask))
      (List.replicate k 0)
    = .ok ((List.range k).map fun j => if k - n ≤ j then f (k - 1 - j) else 0)
  := by
  induction n with
  | zero =>
    rw [range_zero, foldlM_nil, pure_eq_ok]
    congr 1
    apply ext_getElem
    · simp
    · intro j hj _
      rw [length_replicate] at hj
      simp [Nat.not_le.mpr hj]
  | succ n ih =>
    rw [range_succ, foldlM_append, ih (by omega), ok_bind, foldlM_cons,
      hf n (by omega), ok_bind, pure_eq_ok, ok_bind, foldlM_nil, pure_eq_ok]
    congr 1
    apply ext_getElem
    · simp
    · intro j hj _
      simp only [getElem_set, getElem_map, getElem_range]
      by_cases heq : k - n - 1 = j
      · have hindex : k - 1 - j = n := by omega
        rw [if_pos heq, if_pos (by omega), hindex]
      · by_cases hle : k - n ≤ j
        · rw [if_neg heq, if_pos hle, if_pos (by omega)]
        · rw [if_neg heq, if_neg hle, if_neg (by omega)]

/-- The masks the constructor makes, if the shifts are defined. -/
theorem fillMasks_eq (hk : k ≤ 8) (hhigh : k ≤ h.toNat + 1) (hhigh' : h.toNat < 64)
    (hxor : x = 0 ∨ (k ≤ x.toNat + 1 ∧ x.toNat < 64)) :
  fillMasks h x k = .ok (sliceMasks h.toNat x.toNat k)
  := by
  rw [fillMasks, fillMasks_turns (fun i hi => loopMask_eq hk hi hhigh hhigh' hxor) le_rfl]
  congr 1
  apply map_congr_left
  intro j _
  rw [Nat.sub_self, if_pos (Nat.zero_le j)]

/-- A loop that returns has gone through all its turns. -/
theorem foldlM_forall_ok {α β : Type} {f : β → α → Except Fault β} {P : α → Prop}
    (hf : ∀ b a b', f b a = .ok b' → P a) {l : List α} {b b' : β} (h : l.foldlM f b = .ok b') :
  ∀ a ∈ l, P a
  := by
  induction l generalizing b with
  | nil => simp
  | cons a l ih =>
    obtain ⟨c, hc, hrest⟩ := bind_eq_ok.mp h
    rw [forall_mem_cons]
    exact ⟨hf b a c hc, ih hrest⟩

variable {masks : List Addr}

/-- The masks are made only if the slice of the exclusive or is inside of a word. -/
theorem xor_of_fillMasks (hk : 1 ≤ k) (hk' : k ≤ 8) (hfill : fillMasks h x k = .ok masks)
    (hx : x ≠ 0) :
  k ≤ x.toNat + 1 ∧ x.toNat < 64
  := by
  have hshift : ∀ i ∈ List.range k, (x - BitVec.ofNat 8 i).toNat < 64 := by
    apply foldlM_forall_ok (P := fun i => (x - BitVec.ofNat 8 i).toNat < 64) _ hfill
    intro b i b' hturn
    obtain ⟨mask, hmask, -⟩ := bind_eq_ok.mp hturn
    obtain ⟨_, -, hxorBranch⟩ := bind_eq_ok.mp hmask
    rw [if_pos hx] at hxorBranch
    obtain ⟨xorMask, hxorMask, -⟩ := bind_eq_ok.mp hxorBranch
    unfold shiftOne at hxorMask
    split_ifs at hxorMask with hlt
    exact hlt
  have hfirst := hshift 0 (mem_range.mpr hk)
  have hlast := hshift (k - 1) (mem_range.mpr (by omega))
  rw [BitVec.toNat_sub, BitVec.toNat_ofNat] at hfirst hlast
  omega

/-! ### Merging -/

/-- The ranges with the same start, end and masks merge if their matching values are in order. -/
theorem mergeLoop_eq {first : AddrRange}
    (hfirst : first.start = start ∧ first.end = «end» ∧ first.masks = masks)
    (h : ∀ j (hj : j < ranges.length), ranges[j] = ⟨start, «end», masks, BitVec.ofNat 8 (n + j)⟩) :
  mergeLoop first (BitVec.ofNat 8 n) ranges = .ok ()
  := by
  induction ranges generalizing n with
  | nil => rfl
  | cons r ranges ih =>
    have hr : r = ⟨start, «end», masks, BitVec.ofNat 8 n⟩ := h 0 (Nat.succ_pos _)
    obtain ⟨hs, he, hm⟩ := hfirst
    have hmerges : first.mergesWith r = true := by simp [mergesWith, hr, hs, he, hm]
    have hnext : BitVec.ofNat 8 n + 1 = BitVec.ofNat 8 (n + 1) := by
      rw [BitVec.ofNat_add]
      rfl
    rw [mergeLoop, hmerges, hr, hnext, ih]
    · simp [fatalIf]
    · intro j hj
      have hget := h (j + 1) (Nat.succ_lt_succ hj)
      rw [getElem_cons_succ] at hget
      rw [hget, Nat.add_assoc, Nat.add_comm 1 j]

/-- All ranges of an interleaving merge to the whole span. -/
theorem merge_eq (hpos : 1 ≤ masks.length) (hle : masks.length ≤ 8)
    (hlen : ranges.length = 2 ^ masks.length)
    (h : ∀ j (hj : j < ranges.length), ranges[j] = ⟨start, «end», masks, BitVec.ofNat 8 j⟩) :
  merge ranges = .ok (plain start «end»)
  := by
  have htwo : 2 ≤ 2 ^ masks.length := Nat.le_self_pow (by omega) 2
  match ranges with
  | [] =>
    rw [← hlen] at htwo
    simp at htwo
  | [r] =>
    rw [← hlen] at htwo
    simp at htwo
  | first :: second :: rest =>
    have hfirst : first = ⟨start, «end», masks, 0⟩ := h 0 (Nat.succ_pos _)
    have hshift : shiftOne first.masks.length = .ok (oneAt masks.length) := by
      rw [hfirst, shiftOne, if_pos (by show masks.length < 64; omega)]
    have hstripes : (BitVec.ofNat 64 (first :: second :: rest).length : Addr)
        = oneAt masks.length := by
      apply BitVec.eq_of_toNat_eq
      rw [hlen, oneAt, BitVec.toNat_shiftLeft, BitVec.toNat_ofNat, Nat.shiftLeft_eq]
      simp
    have hloop : mergeLoop first 0 (first :: second :: rest) = .ok () := by
      have hsame : first.start = start ∧ first.end = «end» ∧ first.masks = masks := by
        rw [hfirst]
        exact ⟨rfl, rfl, rfl⟩
      apply mergeLoop_eq hsame
      intro j hj
      rw [Nat.zero_add]
      exact h j hj
    rw [merge, hshift, ok_bind, hstripes, hloop]
    simp [fatalIf, hfirst, plain]

/-! ### The partition -/

/-- The constructor makes a range for every value of the selector. The ranges are disjoint, their
union is the span, and each address of the span is in the range of its selected value. Merging them
in order gives a range that contains exactly the span. -/
def Partitions (start «end» : Addr) (high xor bits : BitVec 8) : Prop :=
  ∃ range : ℕ → AddrRange,
    (∀ m < 2 ^ bits.toNat,
      legacy start «end» high xor bits (BitVec.ofNat 8 m) = .ok (range m))
    ∧ (∀ m < 2 ^ bits.toNat, ∀ n < 2 ^ bits.toNat, m ≠ n →
      ∀ a, ¬ ((range m).contains a = true ∧ (range n).contains a = true))
    ∧ (∀ a, (∃ m < 2 ^ bits.toNat, (range m).contains a = true) ↔ start ≤ a ∧ a < «end»)
    ∧ (∀ m < 2 ^ bits.toNat, ∀ a, start ≤ a → a < «end» →
      ((range m).contains a = true ↔ m = selected a high.toNat xor.toNat bits.toNat))
    ∧ ∃ whole, merge ((List.range (2 ^ bits.toNat)).map range) = .ok whole
      ∧ ∀ a, whole.contains a = true ↔ start ≤ a ∧ a < «end»

theorem sanityChecks_eq_ok {high «match» : BitVec 8} :
  sanityChecks high xor bits «match» = .ok ()
    ↔ checkMatch bits «match» = .ok () ∧ checkXor high xor bits = .ok ()
  := by
  rw [sanityChecks, bind_eq_ok]
  constructor
  · rintro ⟨⟨⟩, hmatch, hxor⟩
    exact ⟨hmatch, hxor⟩
  · rintro ⟨hmatch, hxor⟩
    exact ⟨(), hmatch, hxor⟩

/-- The XOR high bits that are accepted are far enough from the interleaving bits. -/
theorem apart_of_checkXor {high : BitVec 8} (h : checkXor high xor bits = .ok ()) (hbits : bits ≠ 0)
    (hxor : xor ≠ 0) :
  xor.toNat + bits.toNat ≤ high.toNat ∨ high.toNat + bits.toNat ≤ xor.toNat
  := by
  unfold checkXor at h
  rw [decide_eq_false hbits, decide_eq_false hxor, if_neg (by decide)] at h
  split_ifs at h with heq hgt
  · unfold fatalIf at h
    split_ifs at h with hnear
    simp only [decide_eq_true_eq] at hnear
    omega
  · unfold fatalIf at h
    split_ifs at h with hnear
    simp only [decide_eq_true_eq] at hnear
    omega

theorem contains_iff {m : BitVec 8} :
  (AddrRange.mk start «end» masks m).contains a = true
    ↔ (start ≤ a ∧ a < «end») ∧ sel a masks 0 0 = m.toNat
  := by
  unfold contains
  split_ifs with h
  all_goals
    simp only [ge_iff_le, Bool.and_eq_true, decide_eq_true_eq] at h
    simp [h]

/-- Take ranges from `start` to `end` with up to eight interleaving bits, inside of a word, and XOR
bits the legacy constructor accepts. The ranges for all matching values partition the span, and
merge to it, exactly if XOR is disabled or its bits are inside of a word too. -/
theorem interleaved_partition_iff {start «end» : Addr} {high xor bits : BitVec 8}
    (hbits : 1 ≤ bits.toNat) (hbits' : bits.toNat ≤ 8)
    (hhigh : bits.toNat - 1 ≤ high.toNat) (hhigh' : high.toNat ≤ 63)
    (haccepted : ∀ m < 2 ^ bits.toNat, sanityChecks high xor bits (BitVec.ofNat 8 m) = .ok ()) :
  Partitions start «end» high xor bits
    ↔ xor = 0 ∨ (bits.toNat - 1 ≤ xor.toNat ∧ xor.toNat ≤ 63)
  := by
  have hpow := Nat.pow_le_pow_right Nat.two_pos hbits'
  constructor
  · rintro ⟨range, hrange, -⟩
    by_cases hxor : xor = 0
    · exact .inl hxor
    · right
      obtain ⟨-, -, h⟩ := bind_eq_ok.mp (hrange 0 (Nat.two_pow_pos _))
      obtain ⟨masks, hmasks, -⟩ := bind_eq_ok.mp h
      obtain ⟨hlow, hlt⟩ := xor_of_fillMasks hbits hbits' hmasks hxor
      omega
  · intro hxor
    have hne : bits ≠ 0 := by
      rintro rfl
      simp at hbits
    have hxor' : xor = 0 ∨ (bits.toNat ≤ xor.toNat + 1 ∧ xor.toNat < 64) := by
      rcases hxor with hxor | hxor
      · exact .inl hxor
      · right
        omega
    have hapart : xor.toNat = 0 ∨ (bits.toNat ≤ xor.toNat + 1 ∧ xor.toNat < 64
        ∧ (xor.toNat + bits.toNat ≤ high.toNat ∨ high.toNat + bits.toNat ≤ xor.toNat)) := by
      by_cases hzero : xor = 0
      · left
        rw [hzero]
        rfl
      · obtain ⟨hlow, hlt⟩ := hxor'.resolve_left hzero
        have hcheck := (sanityChecks_eq_ok.mp (haccepted 0 (Nat.two_pow_pos _))).2
        exact .inr ⟨hlow, hlt, apart_of_checkXor hcheck hne hzero⟩
    let range (m : ℕ) : AddrRange :=
      ⟨start, «end», sliceMasks high.toNat xor.toNat bits.toNat, BitVec.ofNat 8 m⟩
    have hcontains : ∀ m < 2 ^ bits.toNat, ∀ a, (range m).contains a = true
        ↔ (start ≤ a ∧ a < «end») ∧ m = selected a high.toNat xor.toNat bits.toNat := by
      intro m hm a
      rw [contains_iff, sel_sliceMasks a (by omega) (by omega) hapart, BitVec.toNat_ofNat,
        Nat.mod_eq_of_lt (hm.trans_le hpow), eq_comm]
    refine ⟨range, ?_, ?_, ?_, ?_, plain start «end», ?_, ?_⟩
    · intro m hm
      rw [legacy, haccepted m hm, ok_bind, fillMasks_eq hbits' (by omega) (by omega) hxor', ok_bind]
      rfl
    · rintro m hm n hn hmn a ⟨hma, hna⟩
      rw [hcontains m hm] at hma
      rw [hcontains n hn] at hna
      exact hmn (hma.2.trans hna.2.symm)
    · intro a
      constructor
      · rintro ⟨m, hm, hma⟩
        exact ((hcontains m hm a).mp hma).1
      · intro ha
        refine ⟨selected a high.toNat xor.toNat bits.toNat, selected_lt _ _ _ _, ?_⟩
        exact (hcontains _ (selected_lt _ _ _ _) a).mpr ⟨ha, rfl⟩
    · intro m hm a hstart hend
      rw [hcontains m hm]
      simp [hstart, hend]
    · have hlen : (sliceMasks high.toNat xor.toNat bits.toNat).length = bits.toNat := by
        simp [sliceMasks]
      apply merge_eq (hbits.trans_eq hlen.symm) (hlen.trans_le hbits')
      · simp [hlen]
      · intro j hj
        simp [range]
    · intro a
      rw [plain, contains_iff]
      simp [sel]

/-- Three interleaving bits from bit 10 down, and XOR bits from bit 70 down. The checks pass, and
the loop shifts a word by 70 bits. So no ranges are made. -/
theorem legacy_undefined :
  (∀ m < 2 ^ 3, sanityChecks 10 70 3 (BitVec.ofNat 8 m) = .ok ())
    ∧ legacy 0 4096 10 70 3 0 = .error .overflow ∧ ¬ Partitions 0 4096 10 70 3
  := by
  have hlegacy : legacy 0 4096 10 70 3 0 = .error .overflow := rfl
  refine ⟨by decide, hlegacy, ?_⟩
  rintro ⟨range, hrange, -⟩
  cases hlegacy.symm.trans (hrange 0 (by decide))

/-- Three interleaving bits from bit 10 down with XOR bits from bit 20 down. -/
theorem interleaved_partition_iff_eight :
  Partitions 0 4096 10 20 3
  := by
  apply (interleaved_partition_iff (by decide) (by decide) (by decide) (by decide) ?_).mpr
  · exact .inr ⟨by decide, by decide⟩
  · decide

end AddrRange

end Gem5Arc
