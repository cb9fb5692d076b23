import Gem5Arc.Base.Bits
import Gem5Arc.Cache.Tags
import Gem5Arc.Lib.ShiftRegister

/-!
# Skewed-associative indexing

The indexing policy `SkewedAssociative` of `mem/cache/tags/indexing_policies`. An address belongs to
a different set for each way. The set comes from the set bits and the lower tag bits of the
address, by a function of the way that is built from a shift register (`hash`) and its inverse
(`dehash`).

The functions are reversible: an address can be regenerated from its tag and the set and the way of
the entry that holds it (`regenerateAddr_extractSet`). For the odd ways this rests on what the
register does when it has shifted as often as it has bits.
-/

namespace Gem5Arc

open BitVec Function

/-- A skewed-associative policy, with the checks of its constructor. -/
structure SkewedAssociative where
  assoc : BitVec 32
  numSets : BitVec 32
  /-- The amount to shift the address to get the set. -/
  setShift : ℕ
  numSets_isPowerOf2 : isPowerOf2 numSets.toNat = true
  two_lt_numSets : 2 < numSets.toNat
  bits_le : setShift + 2 * (floorLog2 numSets.toNat - 1 + 1) ≤ 64

namespace SkewedAssociative

/-- The constructor, for a cache of `size` bytes with entries of `entrySize` bytes. -/
def make (size entrySize : ℕ) (assoc : BitVec 32) : Except Fault SkewedAssociative := do
  let numEntries := BitVec.ofNat 32 (← divide size entrySize)
  let numSets := BitVec.ofNat 32 (← divide numEntries.toNat assoc.toNat)
  let setShift := floorLog2 entrySize
  if hpow : isPowerOf2 numSets.toNat = true then
    if hbits : setShift + 2 * (floorLog2 numSets.toNat - 1 + 1) ≤ 64 then
      if htwo : 2 < numSets.toNat then
        pure ⟨assoc, numSets, setShift, hpow, htwo, hbits⟩
      else .error (.fatal "The number of sets must be greater than 2")
    else .error (.panic "Unsuported number of bits for the skewing functions.")
  else .error (.fatal "# of sets must be non-zero and a power of 2")

/-- The amount to shift a set index to get its MSB. -/
def msbShift (s : SkewedAssociative) : ℕ := floorLog2 s.numSets.toNat - 1

/-- The amount to shift the address to get the tag. -/
def tagShift (s : SkewedAssociative) : ℕ := s.setShift + floorLog2 s.numSets.toNat

/-- The bits that are part of a set index. -/
def setMask (s : SkewedAssociative) : Addr := (s.numSets - 1#32).setWidth 64

/-- Shift off the LSB, and set the MSB as the sum of the old LSB and MSB. -/
def hash (s : SkewedAssociative) (addr : Addr) : Addr :=
  let lsb := bits addr 0 0
  let msb := bits addr s.msbShift s.msbShift
  let xorBit := msb ^^^ lsb
  insertBits (addr >>> 1) s.msbShift s.msbShift xorBit

/-- The inverse of `hash`. -/
def dehash (s : SkewedAssociative) (addr : Addr) : Addr :=
  let msb := bits addr (s.msbShift - 1) (s.msbShift - 1)
  let xorBit := bits addr s.msbShift s.msbShift
  let lsb := msb ^^^ xorBit
  let addrNoMsb := mbits addr (s.msbShift - 1) 0
  insertBits (addrNoMsb <<< 1) 0 0 lsb

/-- The set bits of a shifted address. -/
def addr1 (s : SkewedAssociative) (addr : Addr) : Addr := bits addr s.msbShift 0

/-- The tag bits of a shifted address that are used for skewing. -/
def addr2 (s : SkewedAssociative) (addr : Addr) : Addr :=
  bits addr (2 * (s.msbShift + 1) - 1) (s.msbShift + 1)

/-- The eight skewing functions. -/
def skewFunction (s : SkewedAssociative) (addr1 addr2 : Addr) : ℕ → Addr
  | 0 => s.hash addr1 ^^^ s.hash addr2 ^^^ addr2
  | 1 => s.hash addr1 ^^^ s.hash addr2 ^^^ addr1
  | 2 => s.hash addr1 ^^^ s.dehash addr2 ^^^ addr2
  | 3 => s.hash addr1 ^^^ s.dehash addr2 ^^^ addr1
  | 4 => s.dehash addr1 ^^^ s.hash addr2 ^^^ addr2
  | 5 => s.dehash addr1 ^^^ s.hash addr2 ^^^ addr1
  | 6 => s.dehash addr1 ^^^ s.dehash addr2 ^^^ addr2
  | _ => s.dehash addr1 ^^^ s.dehash addr2 ^^^ addr1

/-- Apply the skewing function for a way. From the ninth way on, hashes are piled up. -/
def skew (s : SkewedAssociative) (addr : Addr) (way : ℕ) : Addr :=
  s.hash^[way / 8] (s.skewFunction (s.addr1 addr) (s.addr2 addr) (way % 8))

/-- The inverses of the eight skewing functions. -/
def deskewFunction (s : SkewedAssociative) (addr1 addr2 : Addr) : ℕ → Addr
  | 0 => s.dehash (addr1 ^^^ s.hash addr2 ^^^ addr2)
  | 1 => s.hash^[s.msbShift] (addr1 ^^^ s.hash addr2)
  | 2 => s.dehash (addr1 ^^^ s.dehash addr2 ^^^ addr2)
  | 3 => s.hash^[s.msbShift] (addr1 ^^^ s.dehash addr2)
  | 4 => s.hash (addr1 ^^^ s.hash addr2 ^^^ addr2)
  | 5 => s.hash^[s.msbShift + 1] (addr1 ^^^ s.hash addr2)
  | 6 => s.hash (addr1 ^^^ s.dehash addr2 ^^^ addr2)
  | _ => s.hash^[s.msbShift + 1] (addr1 ^^^ s.dehash addr2)

/-- Unpile the hashes, and apply the inverse of the skewing function for a way. -/
def deskew (s : SkewedAssociative) (addr : Addr) (way : ℕ) : Addr :=
  let addr1 := if way ≥ 8 then s.dehash^[way / 8] (s.addr1 addr) else s.addr1 addr
  s.deskewFunction addr1 (s.addr2 addr) (way % 8)

def extractTag (s : SkewedAssociative) (addr : Addr) : Addr := addr >>> s.tagShift

def extractSet (s : SkewedAssociative) (addr : Addr) (way : ℕ) : ℕ :=
  (s.skew (addr >>> s.setShift) way &&& s.setMask).toNat

def regenerateAddr (s : SkewedAssociative) (tag : Addr) (entry : ReplaceableEntry) : Addr :=
  let addrSet := (tag <<< (s.msbShift + 1)) ||| BitVec.ofNat 64 entry.set
  (tag <<< s.tagShift) ||| ((s.deskew addrSet entry.way &&& s.setMask) <<< s.setShift)

/-! ### The number of set bits -/

variable (s : SkewedAssociative) {x y : Addr}

theorem numSets_eq :
  s.numSets.toNat = 2 ^ (s.msbShift + 1) ∧ floorLog2 s.numSets.toNat = s.msbShift + 1
    ∧ 0 < s.msbShift
  := by
  obtain ⟨k, hk⟩ := exists_of_isPowerOf2 s.numSets_isPowerOf2
  have htwo := s.two_lt_numSets
  have hlog : floorLog2 s.numSets.toNat = k := by
    rw [floorLog2_eq_log (by omega) (by omega), hk, Nat.log_pow (by decide)]
  have hk1 : 1 < k := by
    rw [hk] at htwo
    apply (Nat.pow_lt_pow_iff_right (by decide : 1 < 2)).mp htwo
  rw [msbShift, hlog, Nat.sub_add_cancel (by omega)]
  exact ⟨hk, rfl, by omega⟩

theorem msbShift_pos :
  0 < s.msbShift
  := s.numSets_eq.2.2

theorem shift_le :
  s.setShift + 2 * (s.msbShift + 1) ≤ 64
  := s.bits_le

theorem tagShift_eq :
  s.tagShift = s.setShift + (s.msbShift + 1)
  := by
  rw [tagShift, s.numSets_eq.2.1]

theorem setMask_eq :
  s.setMask = mask (s.msbShift + 1)
  := by
  have hle := s.shift_le
  have htwo := s.two_lt_numSets
  apply eq_of_toNat_eq
  rw [mask_toNat (by omega), ← s.numSets_eq.1, setMask, toNat_setWidth, toNat_sub, toNat_ofNat]
  omega

/-! ### The register -/

/-- The word has set bits only. -/
def Fits (x : Addr) : Prop := ∀ i, s.msbShift < i → x.getLsbD i = false

variable {s}

theorem Fits.xor (hx : s.Fits x) (hy : s.Fits y) :
  s.Fits (x ^^^ y)
  := by
  intro i hi
  rw [getLsbD_xor, hx i hi, hy i hi]
  rfl

variable (s)

theorem fits_addr1 (addr : Addr) :
  s.Fits (s.addr1 addr)
  := by
  intro i hi
  rw [addr1, getLsbD_bits _ (Nat.zero_le _), decide_eq_false (by omega), Bool.and_false]

theorem fits_addr2 (addr : Addr) :
  s.Fits (s.addr2 addr)
  := by
  intro i hi
  rw [addr2, getLsbD_bits _ (by omega), decide_eq_false (by omega), Bool.and_false]

theorem getLsbD_hash (x : Addr) (i : ℕ) :
  (s.hash x).getLsbD i
    = if i = s.msbShift then xor (x.getLsbD i) (x.getLsbD 0) else x.getLsbD (i + 1)
  := by
  have hle := s.shift_le
  rcases Nat.lt_or_ge i 64 with hi | hi
  · rw [hash, getLsbD_insertBits _ _ _ _ hi]
    split_ifs with h₁ h₂ h₂
    · subst h₂
      rw [getLsbD_xor, getLsbD_bits _ (le_refl _), getLsbD_bits _ (le_refl _), Nat.sub_self]
      simp
    · omega
    · omega
    · rw [getLsbD_ushiftRight, Nat.add_comm]
  · rw [if_neg (by omega), getLsbD_of_ge _ _ hi, getLsbD_of_ge _ _ (by omega)]

theorem getLsbD_dehash (x : Addr) (i : ℕ) :
  (s.dehash x).getLsbD i
    = if i = 0 then xor (x.getLsbD (s.msbShift - 1)) (x.getLsbD s.msbShift)
      else x.getLsbD (i - 1) && decide (i ≤ s.msbShift)
  := by
  have hle := s.shift_le
  rcases Nat.lt_or_ge i 64 with hi | hi
  · rw [dehash, getLsbD_insertBits _ _ _ _ hi]
    split_ifs with h₁ h₂ h₂
    · subst h₂
      rw [getLsbD_xor, getLsbD_bits _ (le_refl _), getLsbD_bits _ (le_refl _), Nat.sub_self]
      simp
    · omega
    · omega
    · rw [getLsbD_shiftLeft, getLsbD_mbits]
      have hone : ¬i < 1 := by omega
      have hiff : i - 1 ≤ s.msbShift - 1 ↔ i ≤ s.msbShift := by
        have hpos := s.msbShift_pos
        omega
      simp [hi, hone, hiff]
  · rw [if_neg (by omega), getLsbD_of_ge _ _ hi, decide_eq_false (by omega), Bool.and_false]

variable {s}

theorem Fits.hash (hx : s.Fits x) :
  s.Fits (s.hash x)
  := by
  intro i hi
  rw [getLsbD_hash, if_neg (by omega), hx (i + 1) (by omega)]

theorem fits_dehash :
  s.Fits (s.dehash x)
  := by
  intro i hi
  rw [getLsbD_dehash, if_neg (by omega), decide_eq_false (by omega), Bool.and_false]

theorem Fits.iterate_hash (hx : s.Fits x) (k : ℕ) :
  s.Fits (s.hash^[k] x)
  := by
  induction k generalizing x with
  | zero => apply hx
  | succ k ih => apply ih hx.hash

theorem hash_xor (x y : Addr) :
  s.hash (x ^^^ y) = s.hash x ^^^ s.hash y
  := by
  apply eq_of_getLsbD_eq
  intro i _
  rw [getLsbD_xor, getLsbD_hash, getLsbD_hash, getLsbD_hash]
  split_ifs
  · rw [getLsbD_xor, getLsbD_xor, Bool.xor_assoc, Bool.xor_assoc, Bool.xor_left_comm (y.getLsbD i)]
  · rw [getLsbD_xor]

theorem iterate_hash_xor (k : ℕ) (x y : Addr) :
  s.hash^[k] (x ^^^ y) = s.hash^[k] x ^^^ s.hash^[k] y
  := by
  induction k generalizing x y with
  | zero => rfl
  | succ k ih =>
    rw [iterate_succ_apply, hash_xor, ih]
    rfl

section

variable (hx : s.Fits x)

include hx

/-- `dehash` is a left inverse of `hash`. -/
theorem dehash_hash :
  s.dehash (s.hash x) = x
  := by
  have hpos := s.msbShift_pos
  apply eq_of_getLsbD_eq
  intro i _
  rw [getLsbD_dehash]
  split_ifs with hi
  · rw [getLsbD_hash, getLsbD_hash, if_neg (by omega), if_pos rfl, Nat.sub_add_cancel hpos, hi,
      ← Bool.xor_assoc, Bool.xor_self, Bool.false_xor]
  · by_cases hle : i ≤ s.msbShift
    · rw [getLsbD_hash, if_neg (by omega), Nat.sub_add_cancel (Nat.pos_of_ne_zero hi),
        decide_eq_true hle, Bool.and_true]
    · rw [decide_eq_false hle, Bool.and_false, hx i (by omega)]

/-- `dehash` is a right inverse of `hash`. -/
theorem hash_dehash :
  s.hash (s.dehash x) = x
  := by
  have hpos := s.msbShift_pos
  apply eq_of_getLsbD_eq
  intro i _
  rw [getLsbD_hash]
  split_ifs with hi
  · rw [getLsbD_dehash, getLsbD_dehash, if_neg (by omega), if_pos rfl, hi,
      decide_eq_true (le_refl _), Bool.and_true, ← Bool.xor_assoc, Bool.xor_self, Bool.false_xor]
  · rw [getLsbD_dehash, if_neg (by omega), Nat.add_sub_cancel]
    by_cases hlt : i < s.msbShift
    · rw [decide_eq_true (by omega), Bool.and_true]
    · rw [hx i (by omega), Bool.false_and]

theorem iterate_dehash_hash (k : ℕ) :
  s.dehash^[k] (s.hash^[k] x) = x
  := by
  induction k with
  | zero => rfl
  | succ k ih =>
    rw [iterate_succ_apply, iterate_succ_apply' s.hash, dehash_hash (hx.iterate_hash k), ih]

/-- What the register does when it has shifted as often as it has bits. -/
theorem iterate_hash_succ :
  s.hash^[s.msbShift + 1] x ^^^ s.hash^[s.msbShift] x = x
  := by
  have hshift (y : Addr) : Lib.Shift s.msbShift y.getLsbD (s.hash y).getLsbD := by
    constructor
    · intro i hi
      rw [getLsbD_hash, if_neg (by omega)]
    · rw [getLsbD_hash, if_pos rfl]
  apply eq_of_getLsbD_eq
  intro i _
  rw [getLsbD_xor]
  by_cases hi : i ≤ s.msbShift
  · rw [Lib.shift_iterate BitVec.getLsbD hshift x hi, Bool.xor_comm, ← Bool.xor_assoc,
      Bool.xor_self, Bool.false_xor]
  · rw [hx.iterate_hash _ i (by omega), hx.iterate_hash _ i (by omega), hx i (by omega)]
    rfl

end

/-! ### The skewing functions -/

/-- The inverse of the even functions, which add tag bits only. -/
theorem xor_cancel_right (x c d : Addr) :
  x ^^^ c ^^^ d ^^^ c ^^^ d = x
  := by
  rw [BitVec.xor_assoc x, BitVec.xor_assoc, BitVec.xor_assoc, BitVec.xor_self, xor_zero]

section

variable (hx : s.Fits x)

include hx

/-- The inverse of the odd functions with `hash`, which add the set bits once more. -/
theorem iterate_hash_hash (c : Addr) :
  s.hash^[s.msbShift] (s.hash x ^^^ c ^^^ x ^^^ c) = x
  := by
  have hxor : s.hash x ^^^ c ^^^ x ^^^ c = s.hash x ^^^ x := by
    rw [BitVec.xor_assoc (s.hash x), BitVec.xor_assoc, BitVec.xor_comm c x, BitVec.xor_assoc,
      BitVec.xor_self, xor_zero]
  rw [hxor, iterate_hash_xor, ← iterate_succ_apply, iterate_hash_succ hx]

/-- The inverse of the odd functions with `dehash`. -/
theorem iterate_hash_dehash (c : Addr) :
  s.hash^[s.msbShift + 1] (s.dehash x ^^^ c ^^^ x ^^^ c) = x
  := by
  have hxor : s.dehash x ^^^ c ^^^ x ^^^ c = s.dehash x ^^^ x := by
    rw [BitVec.xor_assoc (s.dehash x), BitVec.xor_assoc, BitVec.xor_comm c x, BitVec.xor_assoc,
      BitVec.xor_self, xor_zero]
  rw [hxor, iterate_hash_xor, iterate_succ_apply, hash_dehash hx, BitVec.xor_comm,
    iterate_hash_succ hx]

theorem fits_skewFunction (hy : s.Fits y) (r : ℕ) :
  s.Fits (s.skewFunction x y r)
  := by
  rw [skewFunction.eq_def]
  split
  · apply (hx.hash.xor hy.hash).xor hy
  · apply (hx.hash.xor hy.hash).xor hx
  · apply (hx.hash.xor fits_dehash).xor hy
  · apply (hx.hash.xor fits_dehash).xor hx
  · apply (fits_dehash.xor hy.hash).xor hy
  · apply (fits_dehash.xor hy.hash).xor hx
  · apply (fits_dehash.xor fits_dehash).xor hy
  · apply (fits_dehash.xor fits_dehash).xor hx

theorem deskewFunction_skewFunction (y : Addr) (r : ℕ) :
  s.deskewFunction (s.skewFunction x y r) y r = x
  := by
  match r with
  | 0 => rw [skewFunction, deskewFunction, xor_cancel_right, dehash_hash hx]
  | 1 => rw [skewFunction, deskewFunction, iterate_hash_hash hx]
  | 2 => rw [skewFunction, deskewFunction, xor_cancel_right, dehash_hash hx]
  | 3 => rw [skewFunction, deskewFunction, iterate_hash_hash hx]
  | 4 => rw [skewFunction, deskewFunction, xor_cancel_right, hash_dehash hx]
  | 5 => rw [skewFunction, deskewFunction, iterate_hash_dehash hx]
  | 6 => rw [skewFunction, deskewFunction, xor_cancel_right, hash_dehash hx]
  | r + 7 => apply iterate_hash_dehash hx

end

theorem fits_skew (addr : Addr) (way : ℕ) :
  s.Fits (s.skew addr way)
  := (fits_skewFunction (s.fits_addr1 addr) (s.fits_addr2 addr) _).iterate_hash _

/-- Skewing is reversible for every way, if the tag bits are the same. -/
theorem deskew_of_skew {addr addr' : Addr} {way : ℕ} (h₁ : s.addr1 addr' = s.skew addr way)
    (h₂ : s.addr2 addr' = s.addr2 addr) :
  s.deskew addr' way = s.addr1 addr
  := by
  have hfits := fits_skewFunction (s.fits_addr1 addr) (s.fits_addr2 addr) (way % 8)
  have hunpile : (if way ≥ 8 then s.dehash^[way / 8] (s.addr1 addr') else s.addr1 addr')
      = s.skewFunction (s.addr1 addr) (s.addr2 addr) (way % 8) := by
    rw [h₁, skew]
    split_ifs with h
    · apply iterate_dehash_hash hfits
    · rw [Nat.div_eq_of_lt (not_le.mp h)]
      rfl
  rw [deskew, hunpile, h₂]
  apply deskewFunction_skewFunction (s.fits_addr1 addr)

/-! ### Addresses -/

theorem addr1_insertBits (addr : Addr) (hx : s.Fits x) :
  s.addr1 (insertBits addr s.msbShift 0 x) = x
  := by
  apply eq_of_getLsbD_eq
  intro i hi
  rw [addr1, getLsbD_bits _ (Nat.zero_le _), Nat.zero_add, getLsbD_insertBits _ _ _ _ hi]
  by_cases hmsb : i ≤ s.msbShift
  · rw [if_pos ⟨Nat.zero_le i, hmsb⟩, decide_eq_true hmsb, Bool.and_true]
    rfl
  · rw [decide_eq_false hmsb, Bool.and_false, hx i (by omega)]

theorem addr2_insertBits (addr x : Addr) :
  s.addr2 (insertBits addr s.msbShift 0 x) = s.addr2 addr
  := by
  apply eq_of_getLsbD_eq
  intro i hi
  rw [addr2, addr2, getLsbD_bits _ (by omega), getLsbD_bits _ (by omega)]
  by_cases hlt : s.msbShift + 1 + i < 64
  · rw [getLsbD_insertBits _ _ _ _ hlt, if_neg (by omega)]
  · rw [getLsbD_of_ge _ _ (by omega), getLsbD_of_ge _ _ (by omega)]

variable (s)

/-- The address that `regenerateAddr` deskews has the skewed set bits, and the same tag bits. -/
theorem addr_regenerated (addr : Addr) (way : ℕ) :
  let addrSet := (s.extractTag addr <<< (s.msbShift + 1))
    ||| BitVec.ofNat 64 (s.extractSet addr way)
  s.addr1 addrSet = s.skew (addr >>> s.setShift) way
    ∧ s.addr2 addrSet = s.addr2 (addr >>> s.setShift)
  := by
  have hle := s.shift_le
  have hset (i : ℕ) : (BitVec.ofNat 64 (s.extractSet addr way)).getLsbD i
      = (s.skew (addr >>> s.setShift) way).getLsbD i := by
    rw [extractSet, ofNat_toNat, setWidth_eq, setMask_eq, getLsbD_and, getLsbD_mask]
    by_cases hi : i ≤ s.msbShift
    · rw [decide_eq_true (by omega), Bool.and_true]
    · rw [fits_skew _ _ i (by omega), Bool.false_and]
  constructor
  · apply eq_of_getLsbD_eq
    intro i hi
    rw [addr1, getLsbD_bits _ (Nat.zero_le _), Nat.zero_add, getLsbD_or, hset, getLsbD_shiftLeft]
    by_cases hmsb : i ≤ s.msbShift
    · simp [hmsb, Nat.lt_succ_iff.mpr hmsb]
    · rw [decide_eq_false hmsb, Bool.and_false, fits_skew _ _ i (by omega)]
  · apply eq_of_getLsbD_eq
    intro i hi
    rw [addr2, addr2, getLsbD_bits _ (by omega), getLsbD_bits _ (by omega), getLsbD_or, hset,
      fits_skew _ _ _ (by omega), Bool.or_false, getLsbD_shiftLeft, extractTag,
      getLsbD_ushiftRight, getLsbD_ushiftRight, tagShift_eq, Nat.add_sub_cancel_left,
      decide_eq_false (by omega : ¬s.msbShift + 1 + i < s.msbShift + 1), Nat.add_assoc s.setShift]
    by_cases hlt : s.msbShift + 1 + i ≤ 2 * (s.msbShift + 1) - 1
    · rw [decide_eq_true (by omega : s.msbShift + 1 + i < 64)]
      rfl
    · rw [decide_eq_false hlt, Bool.and_false, Bool.and_false]

/-- The address is made from its tag and its set bits. -/
theorem tag_or_set (addr : Addr) :
  (s.extractTag addr <<< s.tagShift)
      ||| ((s.addr1 (addr >>> s.setShift) &&& s.setMask) <<< s.setShift)
    = addr &&& ~~~mask s.setShift
  := by
  apply eq_of_getLsbD_eq
  intro i hi
  rw [getLsbD_or, getLsbD_shiftLeft, getLsbD_shiftLeft, getLsbD_and, getLsbD_and, getLsbD_not,
    getLsbD_mask, setMask_eq, getLsbD_mask, addr1, getLsbD_bits _ (Nat.zero_le _), extractTag,
    getLsbD_ushiftRight, getLsbD_ushiftRight, tagShift_eq, decide_eq_true hi, Nat.zero_add]
  rcases Nat.lt_or_ge i s.setShift with hoffset | hoffset
  · simp [hoffset, hi, Nat.lt_add_right _ hoffset]
  · rw [decide_eq_false (not_lt.mpr hoffset),
      decide_eq_false (by omega : ¬(i < s.setShift ∧ i < 64)), Nat.add_sub_cancel' hoffset]
    rcases Nat.lt_or_ge i (s.setShift + (s.msbShift + 1)) with htag | htag
    · rw [decide_eq_true htag, decide_eq_true (by omega : i - s.setShift ≤ s.msbShift),
        decide_eq_true (by omega)]
      simp
    · rw [decide_eq_false (not_lt.mpr htag),
        decide_eq_false (by omega : ¬i - s.setShift ≤ s.msbShift), Nat.add_sub_cancel' htag]
      simp

/-- An address without its block offset is regenerated from its tag and the set and the way of its
entry. This is since the skewing function of each way is reversed. -/
theorem regenerateAddr_extractSet (addr : Addr) (way : ℕ) :
  s.regenerateAddr (s.extractTag addr) { set := s.extractSet addr way, way := way }
      = addr &&& ~~~mask s.setShift
    ∧ s.deskew (insertBits addr s.msbShift 0 (s.skew addr way)) way = bits addr s.msbShift 0
  := by
  constructor
  · obtain ⟨h₁, h₂⟩ := s.addr_regenerated addr way
    rw [regenerateAddr, deskew_of_skew h₁ h₂]
    apply s.tag_or_set
  · apply deskew_of_skew
    · apply addr1_insertBits _ (fits_skew addr way)
    · apply addr2_insertBits

example : (make 16384 64 4).toOption.map msbShift = some 5
  := by rfl

end SkewedAssociative

end Gem5Arc
