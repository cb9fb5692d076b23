import Gem5Arc.Base.Bits
import Gem5Arc.Cache.Tags

/-!
# Set-associative indexing

The indexing policy `SetAssociative` of `mem/cache/tags/indexing_policies`. The lowest bits of an
address are the offset in its block, the next ones the set, and the others the tag.

The address of a block is put together again from the tag and the set of its entry. But the set is
a number of 32 bits, and so is what is left of it after it has been shifted to its place. So an
address is regenerated exactly if its bits below the tag fit in 32 bits (`regenerates_iff`), and all
addresses are exactly if the tag starts at bit 32 or below (`regenerates_all_iff`).
-/

namespace Gem5Arc

open BitVec

/-- `val << n`, which is undefined if there are not as many bits. -/
def shiftLeft {w : ℕ} (val : BitVec w) (n : ℕ) : Except Fault (BitVec w) :=
  if n < w then .ok (val <<< n) else .error .overflow

/-- `val >> n` of an unsigned number, which is undefined if there are not as many bits. -/
def shiftRight {w : ℕ} (val : BitVec w) (n : ℕ) : Except Fault (BitVec w) :=
  if n < w then .ok (val >>> n) else .error .overflow

/-- A set-associative policy, with the checks of its constructor. -/
structure SetAssociative where
  assoc : BitVec 32
  numSets : BitVec 32
  /-- The amount to shift the address to get the set. -/
  setShift : ℕ
  numSets_isPowerOf2 : isPowerOf2 numSets.toNat = true
  assoc_pos : 0 < assoc.toNat

namespace SetAssociative

/-- The constructor, for a cache of `size` bytes with entries of `entrySize` bytes. -/
def make (size entrySize : ℕ) (assoc : BitVec 32) : Except Fault SetAssociative := do
  let numEntries := BitVec.ofNat 32 (← divide size entrySize)
  let numSets := BitVec.ofNat 32 (← divide numEntries.toNat assoc.toNat)
  let setShift := floorLog2 entrySize
  assert (0 < numSets.toNat)
  if hpow : isPowerOf2 numSets.toNat = true then
    if hassoc : 0 < assoc.toNat then
      pure ⟨assoc, numSets, setShift, hpow, hassoc⟩
    else .error (.fatal "associativity must be greater than zero")
  else .error (.fatal "# of sets must be non-zero and a power of 2")

/-- The bits that are part of a set index. -/
def setMask (s : SetAssociative) : BitVec 32 := s.numSets - 1#32

/-- The amount to shift the address to get the tag. -/
def tagShift (s : SetAssociative) : ℕ := s.setShift + floorLog2 s.numSets.toNat

def extractTag (s : SetAssociative) (addr : Addr) : Except Fault Addr :=
  shiftRight addr s.tagShift

def extractSet (s : SetAssociative) (addr : Addr) : Except Fault (BitVec 32) := do
  let shifted ← shiftRight addr s.setShift
  pure ((shifted &&& s.setMask.setWidth 64).setWidth 32)

/-- The address of the block with a tag in an entry. The set of the entry is shifted as a number of
32 bits. -/
def regenerateAddr (s : SetAssociative) (tag : Addr) (entry : ReplaceableEntry) :
    Except Fault Addr := do
  let tagBits ← shiftLeft tag s.tagShift
  let setBits ← shiftLeft (BitVec.ofNat 32 entry.set) s.setShift
  pure (tagBits ||| setBits.setWidth 64)

/-- The address that is regenerated for an address, from its tag and an entry of its set. -/
def regenerated (s : SetAssociative) (addr : Addr) (way : ℕ) : Except Fault Addr := do
  let tag ← s.extractTag addr
  let set ← s.extractSet addr
  s.regenerateAddr tag { set := set.toNat, way := way }

/-- An address without its offset bits. -/
def blockAddr (s : SetAssociative) (addr : Addr) : Addr := (addr >>> s.setShift) <<< s.setShift

/-! ### The bits of the parts -/

variable (s : SetAssociative) {i k : ℕ}

theorem exists_numSets :
  ∃ k < 32, s.numSets.toNat = 2 ^ k ∧ s.tagShift = s.setShift + k
  := by
  obtain ⟨k, hk⟩ := exists_of_isPowerOf2 s.numSets_isPowerOf2
  have hlt := s.numSets.isLt
  have hlog : floorLog2 s.numSets.toNat = k := by
    rw [floorLog2_eq_log (by rw [hk]; exact Nat.two_pow_pos k) (by omega), hk,
      Nat.log_pow (by decide)]
  rw [hk] at hlt
  exact ⟨k, (Nat.pow_lt_pow_iff_right (by decide)).mp hlt, hk, by rw [tagShift, hlog]⟩

theorem getLsbD_setMask (hk : s.numSets.toNat = 2 ^ k) (i : ℕ) :
  s.setMask.getLsbD i = decide (i < k)
  := by
  have hpos := Nat.two_pow_pos k
  have hlt := s.numSets.isLt
  have hmask : s.setMask.toNat = 2 ^ k - 1 := by
    rw [setMask, toNat_sub, hk]
    change (2 ^ 32 - 1 + 2 ^ k) % 2 ^ 32 = 2 ^ k - 1
    omega
  rw [BitVec.getLsbD, hmask, Nat.testBit_two_pow_sub_one]

/-- The set of an address, as it is shifted back to its place. -/
def setBits (addr : Addr) : BitVec 32 :=
  ((addr >>> s.setShift) &&& s.setMask.setWidth 64).setWidth 32 <<< s.setShift

/-- Of the set that is shifted back only the bits below 32 are left. -/
theorem getLsbD_setBits (hk : s.numSets.toNat = 2 ^ k) (addr : Addr) (hi : i < 64) :
  ((s.setBits addr).setWidth 64).getLsbD i
    = (addr.getLsbD i && decide (s.setShift ≤ i ∧ i < s.setShift + k ∧ i < 32))
  := by
  rw [setBits, getLsbD_setWidth, getLsbD_shiftLeft]
  by_cases hlow : i < s.setShift
  · simp [hlow]
  · rw [getLsbD_setWidth, getLsbD_and, getLsbD_ushiftRight, getLsbD_setWidth, s.getLsbD_setMask hk,
      show s.setShift + (i - s.setShift) = i by omega]
    by_cases h32 : i < 32
    · have hsub : i - s.setShift < 32 := by omega
      have hset : i - s.setShift < k ↔ i < s.setShift + k := by omega
      simp [hi, h32, hlow, hsub, hset, show i - s.setShift < 64 by omega,
        show s.setShift ≤ i by omega]
    · simp [h32]

section

variable (addr : Addr)

/-- A number that is shifted to the right and back loses its lowest bits. -/
theorem getLsbD_shifted (n : ℕ) (hi : i < 64) :
  ((addr >>> n) <<< n).getLsbD i = (addr.getLsbD i && decide (n ≤ i))
  := by
  rw [getLsbD_shiftLeft, getLsbD_ushiftRight]
  by_cases hlow : i < n
  · simp [hlow]
  · rw [show n + (i - n) = i by omega]
    simp [hi, hlow, Nat.le_of_not_lt hlow]

/-- The bits of the address that is regenerated. -/
theorem getLsbD_regenerated (hi : i < 64) :
  ((addr >>> s.tagShift) <<< s.tagShift ||| (s.setBits addr).setWidth 64).getLsbD i
    = (addr.getLsbD i && decide (s.tagShift ≤ i ∨ s.setShift ≤ i ∧ i < s.tagShift ∧ i < 32))
  := by
  obtain ⟨k, -, hk, htagShift⟩ := s.exists_numSets
  rw [getLsbD_or, s.getLsbD_setBits hk addr hi, getLsbD_shifted addr s.tagShift hi,
    ← htagShift, ← Bool.and_or_distrib_left, Bool.decide_or]

/-- The bits of a number below a position fit in 32 bits exactly if those from 32 on are 0. -/
theorem mod_two_pow_lt_iff (n : ℕ) :
  addr.toNat % 2 ^ n < 2 ^ 32 ↔ ∀ i, 32 ≤ i → i < n → addr.getLsbD i = false
  := by
  constructor
  · intro h i h32 hn
    have hlt := Nat.lt_of_lt_of_le h (Nat.pow_le_pow_right (by decide) h32)
    have hbit := Nat.testBit_lt_two_pow hlt
    rw [Nat.testBit_mod_two_pow, decide_eq_true hn, Bool.true_and] at hbit
    exact hbit
  · intro h
    apply Nat.lt_pow_two_of_testBit
    intro i h32
    rw [Nat.testBit_mod_two_pow]
    by_cases hn : i < n
    · rw [decide_eq_true hn, Bool.true_and]
      exact h i h32 hn
    · rw [decide_eq_false hn, Bool.false_and]

/-! ### Regenerated addresses -/

/-- The set of an address is shifted out of range if the entries have 2 ^ 32 bytes or more. -/
theorem regenerated_ne_ok (way : ℕ) (h : 32 ≤ s.setShift) (a : Addr) :
  s.regenerated addr way ≠ .ok a
  := by
  intro hok
  obtain ⟨tag, -, hok⟩ := bind_eq_ok.mp hok
  obtain ⟨set, -, hok⟩ := bind_eq_ok.mp hok
  obtain ⟨tagBits, -, hok⟩ := bind_eq_ok.mp hok
  obtain ⟨setBits, hset, -⟩ := bind_eq_ok.mp hok
  rw [shiftLeft, if_neg (Nat.not_lt.mpr h)] at hset
  cases hset

theorem regenerated_eq (way : ℕ) (h : s.setShift < 32) (htag : s.tagShift ≤ 64) :
  s.regenerated addr way
    = .ok ((addr >>> s.tagShift) <<< s.tagShift ||| (s.setBits addr).setWidth 64)
  := by
  obtain ⟨k, hk, -, htagShift⟩ := s.exists_numSets
  have hlt : s.tagShift < 64 := by omega
  rw [regenerated, extractTag, shiftRight, if_pos hlt, ok_bind, extractSet, shiftRight,
    if_pos (by omega), ok_bind, pure_eq_ok, ok_bind, regenerateAddr, shiftLeft, if_pos hlt, ok_bind,
    shiftLeft, if_pos h, ok_bind, ofNat_toNat, setWidth_eq, setBits]
  rfl

end

/-- The address of a block is regenerated exactly if its bits below the tag fit in 32 bits, and a
number of 32 bits can be shifted by the offset bits. -/
theorem regenerates_iff (htag : s.tagShift ≤ 64) (addr : Addr) (way : ℕ) :
  s.regenerated addr way = .ok (s.blockAddr addr)
    ↔ s.setShift < 32 ∧ addr.toNat % 2 ^ s.tagShift < 2 ^ 32
  := by
  by_cases h : s.setShift < 32
  · rw [s.regenerated_eq addr way h htag, Except.ok.injEq, mod_two_pow_lt_iff, blockAddr]
    constructor
    · intro heq
      refine ⟨h, ?_⟩
      intro i h32 hn
      have hi := congrArg (fun a : Addr => a.getLsbD i) heq
      rw [s.getLsbD_regenerated addr (by omega), getLsbD_shifted addr s.setShift (by omega),
        decide_eq_false (by omega), decide_eq_true (by omega), Bool.and_false, Bool.and_true] at hi
      exact hi.symm
    · rintro ⟨-, hzero⟩
      apply eq_of_getLsbD_eq
      intro i hi
      rw [s.getLsbD_regenerated addr hi, getLsbD_shifted addr s.setShift hi]
      by_cases hmiddle : 32 ≤ i ∧ i < s.tagShift
      · rw [hzero i hmiddle.1 hmiddle.2, Bool.false_and, Bool.false_and]
      · obtain ⟨k, -, -, htagShift⟩ := s.exists_numSets
        congr 1
        rw [decide_eq_decide]
        omega
  · apply iff_of_false _ fun h' => h h'.1
    apply s.regenerated_ne_ok addr way (Nat.le_of_not_lt h)

/-- All addresses are regenerated exactly if the tag starts at bit 32 or below. -/
theorem regenerates_all_iff (htag : s.tagShift ≤ 64) :
  (∀ addr way, s.regenerated addr way = .ok (s.blockAddr addr))
    ↔ s.setShift < 32 ∧ s.tagShift ≤ 32
  := by
  simp only [s.regenerates_iff htag]
  constructor
  · intro h
    refine ⟨(h 0 0).1, ?_⟩
    by_contra hlt
    have hones := (mod_two_pow_lt_iff (BitVec.allOnes 64) s.tagShift).mp
      (h (BitVec.allOnes 64) 0).2 32 (le_refl _) (by omega)
    simp at hones
  · rintro ⟨hset, htag'⟩ addr -
    refine ⟨hset, ?_⟩
    apply Nat.lt_of_lt_of_le (Nat.mod_lt _ (Nat.two_pow_pos _))
    exact Nat.pow_le_pow_right (by decide) htag'

/-- A cache of 32 KiB with blocks of 64 bytes and 8 ways regenerates all addresses. -/
theorem regenerates_all_l1 :
  ∃ s, make 0x8000 64 8#32 = .ok s ∧ ∀ addr way, s.regenerated addr way = .ok (s.blockAddr addr)
  := by
  have hmake : ∃ s, make 0x8000 64 8#32 = .ok s ∧ s.setShift = 6 ∧ s.tagShift = 12
    := ⟨_, rfl, rfl, rfl⟩
  obtain ⟨s, hmake, hset, htag⟩ := hmake
  refine ⟨s, hmake, ?_⟩
  exact (s.regenerates_all_iff (by omega)).mpr (by omega)

/-- A direct-mapped cache of 8 GiB with blocks of 64 bytes has 27 set bits. The highest of them is
lost when the set is shifted to its place. -/
theorem regenerates_other_address :
  ∃ s, make 0x200000000 64 1#32 = .ok s ∧ s.tagShift = 33
    ∧ s.regenerated 0x100000000#64 0 = .ok 0#64 ∧ s.blockAddr 0x100000000#64 = 0x100000000#64
  := ⟨_, rfl, rfl, rfl, rfl⟩

/-! ### Sectors -/

/-- The place of a block in its sector, `SectorTags::extractSectorOffset`. -/
def extractSectorOffset (sectorShift : ℕ) (numBlocksPerSector : BitVec 32) (addr : Addr) :
    BitVec 32 :=
  ((addr >>> sectorShift) &&& (numBlocksPerSector - 1#32).setWidth 64).setWidth 32

/-- The address of the block at a place of a sector, `SectorTags::regenerateBlkAddr`. -/
def regenerateBlkAddr (sectorShift : ℕ) (tag : Addr) (secBlk : ReplaceableEntry)
    (sectorOffset : BitVec 32) : Except Fault Addr := do
  let secAddr ← s.regenerateAddr tag secBlk
  pure (secAddr ||| sectorOffset.signExtend 64 <<< sectorShift)

/-- The address that is regenerated for the block of an address, from its place. -/
def regeneratedBlk (sectorShift : ℕ) (numBlocksPerSector : BitVec 32) (addr : Addr) (way : ℕ) :
    Except Fault Addr := do
  let tag ← s.extractTag addr
  let set ← s.extractSet addr
  s.regenerateBlkAddr sectorShift tag { set := set.toNat, way := way }
    (extractSectorOffset sectorShift numBlocksPerSector addr)

variable {sectorShift : ℕ} {numBlocksPerSector : BitVec 32}

theorem getLsbD_sectorOffset (hk : numBlocksPerSector.toNat = 2 ^ k) (addr : Addr) (hi : i < 64) :
  ((extractSectorOffset sectorShift numBlocksPerSector addr).signExtend 64
      <<< sectorShift).getLsbD i
    = (addr.getLsbD i && decide (sectorShift ≤ i ∧ i < sectorShift + k))
  := by
  have hlt := numBlocksPerSector.isLt
  rw [hk] at hlt
  have hk32 := (Nat.pow_lt_pow_iff_right (by decide)).mp hlt
  have hmask : (numBlocksPerSector - 1#32).setWidth 64 = mask k := by
    apply eq_of_toNat_eq
    rw [mask_toNat (by omega), toNat_setWidth, toNat_sub, hk]
    change (2 ^ 32 - 1 + 2 ^ k) % 2 ^ 32 % 2 ^ 64 = 2 ^ k - 1
    have hpos := Nat.two_pow_pos k
    omega
  have hmsb : (extractSectorOffset sectorShift numBlocksPerSector addr).msb = false := by
    rw [extractSectorOffset, hmask, msb_eq_getLsbD_last, getLsbD_setWidth, getLsbD_and,
      getLsbD_mask]
    simp [show ¬ 31 < k by omega]
  rw [signExtend_eq_setWidth_of_msb_false hmsb, extractSectorOffset, hmask, getLsbD_shiftLeft,
    getLsbD_setWidth, getLsbD_setWidth, getLsbD_and, getLsbD_ushiftRight, getLsbD_mask]
  by_cases hlow : i < sectorShift
  · simp [hlow]
  · rw [show sectorShift + (i - sectorShift) = i by omega]
    have hoffset : i - sectorShift < k ↔ i < sectorShift + k := by omega
    by_cases hhigh : i < sectorShift + k
    · simp [hi, hlow, hhigh, hoffset, show i - sectorShift < 32 by omega,
        show i - sectorShift < 64 by omega, show sectorShift ≤ i by omega]
    · simp [hhigh, hoffset]

/-- If the entries are sectors, then the addresses of their blocks are regenerated. -/
theorem regeneratedBlk_eq (hk : numBlocksPerSector.toNat = 2 ^ k)
    (hset : s.setShift = sectorShift + k) (hshift : s.setShift < 32) (htag : s.tagShift ≤ 32)
    (addr : Addr) (way : ℕ) :
  s.regeneratedBlk sectorShift numBlocksPerSector addr way
    = .ok ((addr >>> sectorShift) <<< sectorShift)
  := by
  have hsector : s.regeneratedBlk sectorShift numBlocksPerSector addr way
      = s.regenerated addr way >>= fun secAddr => pure (secAddr |||
        (extractSectorOffset sectorShift numBlocksPerSector addr).signExtend 64 <<< sectorShift)
      := by
    simp only [regenerated, bind_assoc]
    rfl
  rw [hsector, s.regenerated_eq addr way hshift (by omega), ok_bind, pure_eq_ok, Except.ok.injEq]
  apply eq_of_getLsbD_eq
  intro i hi
  rw [getLsbD_or, s.getLsbD_regenerated addr hi, getLsbD_sectorOffset hk addr hi,
    getLsbD_shifted addr sectorShift hi, ← Bool.and_or_distrib_left, ← Bool.decide_or]
  have hle : s.setShift ≤ s.tagShift := Nat.le_add_right ..
  congr 2
  apply propext
  omega

/-- Sectors of four blocks of 64 bytes, in a cache of 32 KiB with 8 ways. -/
theorem regeneratedBlk_eq_four :
  ∃ s, make 0x8000 256 8#32 = .ok s
    ∧ ∀ addr way, s.regeneratedBlk 6 4#32 addr way = .ok ((addr >>> 6) <<< 6)
  := by
  have hmake : ∃ s, make 0x8000 256 8#32 = .ok s ∧ s.setShift = 8 ∧ s.tagShift = 12
    := ⟨_, rfl, rfl, rfl⟩
  obtain ⟨s, hmake, hset, htag⟩ := hmake
  exact ⟨s, hmake, s.regeneratedBlk_eq (k := 2) rfl hset (by omega) (by omega)⟩

end SetAssociative

end Gem5Arc
