import Gem5Arc.Basic

/-!
# Bit fields

The parts of `base/bitfield.hh` and `base/intmath.hh` that address arithmetic uses: masks,
bit fields of a word, and the integer logarithm `floorLog2`, which finds the highest set bit
by halving the number of bits in which to look.
-/

namespace Gem5Arc

open BitVec

/-! ### Fields of a word -/

/-- A mask of `nbits` ones, right justified. -/
def mask (nbits : ℕ) : Addr :=
  if nbits ≥ 64 then BitVec.allOnes 64 else (1#64 <<< nbits) - 1#64

/-- The bit field from position `first` down to `last`, right justified. -/
def bits (val : Addr) (first last : ℕ) : Addr :=
  let nbits := first - last + 1
  (val >>> last) &&& mask nbits

/-- The bits of a word from position `first` down to `last`, where they are. -/
def mbits (val : Addr) (first last : ℕ) : Addr :=
  val &&& (mask (first + 1) &&& ~~~mask last)

/-- A word with its bits from position `first` down to `last` replaced by the lowest bits of
another word. -/
def insertBits (val : Addr) (first last : ℕ) (bitVal : Addr) : Addr :=
  let bmask := mbits (BitVec.allOnes 64) first last
  (val &&& ~~~bmask) ||| ((bitVal <<< last) &&& bmask)

/-- The sign extension of an `n`-bit value to 64 bits, if the bits past the sign are 0. -/
def sext (n : ℕ) (val : Addr) : Addr :=
  if bits val (n - 1) (n - 1) ≠ 0#64 then val ||| ~~~mask n else val

/-- The sign extension of an `n`-bit value to 64 bits, whatever the bits past the sign are. -/
def szext (n : ℕ) (val : Addr) : Addr :=
  if bits val (n - 1) (n - 1) ≠ 0#64 then val ||| ~~~mask n else val &&& mask n

/-- Whether a number is a power of two. -/
def isPowerOf2 (n : ℕ) : Bool := n ≠ 0 && n &&& (n - 1) = 0

/-- The next highest power of two, or the number itself if it is one. -/
def alignToPowerOfTwo (val : Addr) : Addr :=
  let val := val - 1#64
  let val := val ||| val >>> 1
  let val := val ||| val >>> 2
  let val := val ||| val >>> 4
  let val := val ||| val >>> 8
  let val := val ||| val >>> 16
  let val := val ||| val >>> 32
  val + 1#64

theorem mask_toNat {nbits : ℕ} (h : nbits < 64) :
  (mask nbits).toNat = 2 ^ nbits - 1
  := by
  have hlt : 2 ^ nbits < 2 ^ 64 := Nat.pow_lt_pow_right (by decide) h
  have hpos : 0 < 2 ^ nbits := Nat.two_pow_pos nbits
  rw [mask, if_neg (by omega), toNat_sub, toNat_shiftLeft]
  simp only [toNat_ofNat, Nat.one_mod, Nat.reducePow, Nat.shiftLeft_eq, one_mul] at hlt ⊢
  omega

/-- A bit field of `nbits` bits is the remainder by `2 ^ nbits`. -/
theorem and_mask_toNat (val : Addr) (nbits : ℕ) :
  (val &&& mask nbits).toNat = val.toNat % 2 ^ nbits
  := by
  rcases Nat.lt_or_ge nbits 64 with h | h
  · rw [toNat_and, mask_toNat h, Nat.and_two_pow_sub_one_eq_mod]
  · rw [mask, if_pos h, and_allOnes, Nat.mod_eq_of_lt]
    apply val.isLt.trans_le (Nat.pow_le_pow_right (by decide) h)

theorem getLsbD_mask (nbits i : ℕ) :
  (mask nbits).getLsbD i = decide (i < nbits ∧ i < 64)
  := by
  rcases Nat.lt_or_ge nbits 64 with h | h
  · rw [← testBit_toNat, mask_toNat h, Nat.testBit_two_pow_sub_one]
    apply decide_eq_decide.mpr
    omega
  · rw [mask, if_pos h, getLsbD_allOnes]
    apply decide_eq_decide.mpr
    omega

theorem getLsbD_bits (val : Addr) {first last : ℕ} (h : last ≤ first) (i : ℕ) :
  (bits val first last).getLsbD i = (val.getLsbD (last + i) && decide (last + i ≤ first))
  := by
  rw [bits, getLsbD_and, getLsbD_ushiftRight, getLsbD_mask]
  by_cases hi : last + i < 64
  · congr 1
    apply decide_eq_decide.mpr
    omega
  · rw [getLsbD_of_ge _ _ (by omega), Bool.false_and, Bool.false_and]

theorem getLsbD_mbits (val : Addr) (first last i : ℕ) :
  (mbits val first last).getLsbD i = (val.getLsbD i && decide (last ≤ i ∧ i ≤ first))
  := by
  rw [mbits, getLsbD_and, getLsbD_and, getLsbD_not, getLsbD_mask, getLsbD_mask]
  by_cases hi : i < 64
  · by_cases hlast : last ≤ i
    · simp [hi, hlast, not_lt.mpr hlast]
    · simp [hi, hlast, not_le.mp hlast]
  · rw [getLsbD_of_ge val _ (by omega), Bool.false_and, Bool.false_and]

theorem getLsbD_insertBits (val bitVal : Addr) (first last : ℕ) {i : ℕ} (hi : i < 64) :
  (insertBits val first last bitVal).getLsbD i
    = if last ≤ i ∧ i ≤ first then bitVal.getLsbD (i - last) else val.getLsbD i
  := by
  rw [insertBits, getLsbD_or, getLsbD_and, getLsbD_and, getLsbD_not,
    getLsbD_mbits, getLsbD_shiftLeft, getLsbD_allOnes]
  split_ifs with h
  · simp [hi, h]
  · simp [hi, h]

theorem bit_ne_zero (val : Addr) (i : ℕ) :
  bits val i i ≠ 0#64 ↔ val.getLsbD i = true
  := by
  constructor
  · intro h
    by_contra hi
    apply h
    apply eq_of_getLsbD_eq
    intro j _
    rw [getLsbD_bits val le_rfl, getLsbD_zero]
    by_cases hj : j = 0
    · subst hj
      simpa using hi
    · rw [decide_eq_false (by omega), Bool.and_false]
  · intro h hzero
    have hbit := getLsbD_bits val (le_refl i) 0
    rw [hzero, getLsbD_zero, Nat.add_zero, h] at hbit
    simp at hbit

theorem getLsbD_szext (n : ℕ) (val : Addr) {i : ℕ} (hi : i < 64) :
  (szext n val).getLsbD i = if i < n then val.getLsbD i else val.getLsbD (n - 1)
  := by
  rw [szext]
  split_ifs with hsign hn hn
  · rw [getLsbD_or, getLsbD_not, getLsbD_mask]
    simp [hn, hi]
  · rw [getLsbD_or, getLsbD_not, getLsbD_mask, (bit_ne_zero val (n - 1)).mp hsign]
    simp [hn, hi]
  · rw [getLsbD_and, getLsbD_mask]
    simp [hn, hi]
  · have hbit := Bool.eq_false_iff.mpr (mt (bit_ne_zero val (n - 1)).mpr hsign)
    rw [getLsbD_and, getLsbD_mask, hbit]
    simp [hn]

variable {n : ℕ}

/-- The sign extension of a value depends on its low bits only. -/
theorem szext_congr (hn : 0 < n) {v v' : Addr} (h : ∀ i < n, v.getLsbD i = v'.getLsbD i) :
  szext n v = szext n v'
  := by
  apply eq_of_getLsbD_eq
  intro i hi
  rw [getLsbD_szext n v hi, getLsbD_szext n v' hi]
  split_ifs with hin
  · apply h i hin
  · apply h (n - 1) (by omega)

theorem mask_or_shift (nbits k : ℕ) :
  mask nbits ||| mask nbits >>> k = mask nbits
  := by
  apply eq_of_getLsbD_eq
  intro i _
  rw [getLsbD_or, getLsbD_ushiftRight, getLsbD_mask, getLsbD_mask, ← Bool.decide_or]
  apply decide_eq_decide.mpr
  omega

theorem alignToPowerOfTwo_shift {k : ℕ} (h : k < 64) :
  alignToPowerOfTwo (1#64 <<< k) = 1#64 <<< k
  := by
  have hmask : 1#64 <<< k - 1#64 = mask k := by
    rw [mask, if_neg (by omega)]
  rw [alignToPowerOfTwo, hmask]
  simp only [mask_or_shift]
  rw [← hmask, BitVec.sub_add_cancel]

/-! ### The integer logarithm -/

/-- One step of the search for the highest set bit: if some of the bits `m` of the second
component are set, add `k` to the first and shift the second by `k`. -/
def floorLog2Step (s : ℕ × ℕ) (mk : ℕ × ℕ) : ℕ × ℕ :=
  if s.2 &&& mk.1 ≠ 0 then (s.1 + mk.2, s.2 >>> mk.2) else s

/-- `floorLog2(x)`, for numbers of at most 64 bits. -/
def floorLog2 (x : ℕ) : ℕ :=
  ([(0xffffffff00000000, 32), (0xffff0000, 16), (0xff00, 8), (0xf0, 4), (0xc, 2), (0x2, 1)].foldl
    floorLog2Step (0, x)).1

/-- `ceilLog2(n)`, for a positive number. -/
def ceilLog2 (n : ℕ) : ℕ := if n = 1 then 0 else floorLog2 (n - 1) + 1

/-- `y` bits of `x` have been counted, and what is left of it is `ux`, which has at most `n`
bits. -/
structure Counted (x n : ℕ) (s : ℕ × ℕ) : Prop where
  pos : 0 < s.2
  lt : s.2 < 2 ^ n
  div : s.2 = x / 2 ^ s.1

/-- The mask of a step tests the upper half of the bits that are left. -/
private theorem and_upper_eq_zero {ux k : ℕ} (h : ux < 2 ^ (k + k)) :
  ux &&& ((2 ^ k - 1) <<< k) = 0 ↔ ux < 2 ^ k
  := by
  have hand : ux &&& ((2 ^ k - 1) <<< k) = (ux / 2 ^ k % 2 ^ k) <<< k := by
    apply Nat.eq_of_testBit_eq
    intro i
    rw [Nat.testBit_and, Nat.testBit_shiftLeft, Nat.testBit_shiftLeft,
      ← Nat.and_two_pow_sub_one_eq_mod, Nat.testBit_and, Nat.testBit_div_two_pow]
    by_cases hi : k ≤ i
    · simp [hi]
    · simp [hi]
  have hdiv : ux / 2 ^ k < 2 ^ k := by
    apply Nat.div_lt_of_lt_mul
    rw [← pow_add]
    apply h
  rw [hand, Nat.mod_eq_of_lt hdiv, Nat.shiftLeft_eq, Nat.mul_eq_zero,
    or_iff_left (Nat.two_pow_pos k).ne', Nat.div_eq_zero_iff_lt (Nat.two_pow_pos k)]

private theorem counted_step {x : ℕ} (k : ℕ) {s : ℕ × ℕ} (h : Counted x (k + k) s) :
  Counted x k (floorLog2Step s ((2 ^ k - 1) <<< k, k))
  := by
  rw [floorLog2Step]
  split_ifs with hbits
  · have hge : 2 ^ k ≤ s.2 := by
      rw [← not_lt]
      apply mt (and_upper_eq_zero h.lt).mpr hbits
    rw [Nat.shiftRight_eq_div_pow]
    constructor
    · apply Nat.div_pos hge (Nat.two_pow_pos k)
    · apply Nat.div_lt_of_lt_mul
      rw [← pow_add]
      apply h.lt
    · rw [h.div, Nat.div_div_eq_div_mul, ← pow_add]
  · constructor
    · apply h.pos
    · apply (and_upper_eq_zero h.lt).mp
      simpa using hbits
    · apply h.div

theorem exists_of_isPowerOf2 (h : isPowerOf2 n = true) :
  ∃ k, n = 2 ^ k
  := by
  rw [isPowerOf2, Bool.and_eq_true, decide_eq_true_iff, decide_eq_true_iff] at h
  apply Nat.ne_zero_and_sub_one_eq_zero_iff_isPowerOfTwo.mp h

/-- The search finds the integer logarithm. -/
theorem floorLog2_eq_log {x : ℕ} (hpos : 0 < x) (hlt : x < 2 ^ 64) :
  floorLog2 x = Nat.log 2 x
  := by
  have h32 := counted_step 32 (⟨hpos, hlt, by simp⟩ : Counted x 64 (0, x))
  have h8 := counted_step 8 (counted_step 16 h32)
  have h2 := counted_step 2 (counted_step 4 h8)
  have h1 := counted_step 1 h2
  have hdiv := h1.div
  have hle : 2 ^ floorLog2 x ≤ x := by
    apply (Nat.div_pos_iff.mp (hdiv ▸ h1.pos)).2
  have hgt : x < 2 ^ (floorLog2 x + 1) := by
    rw [pow_succ', ← Nat.div_lt_iff_lt_mul (Nat.two_pow_pos _)]
    apply hdiv ▸ h1.lt
  apply (Nat.log_eq_of_pow_le_of_lt_pow hle hgt).symm

end Gem5Arc
