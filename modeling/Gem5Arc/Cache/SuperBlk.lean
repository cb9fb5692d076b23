import Gem5Arc.Base.Bits
import Gem5Arc.Lib.Run

/-!
# Compressed superblocks

A superblock of `CompressedTags`: it has room for one block, or for several that are compressed.
`CompressionBlk::setSizeBits` records the size of a block that is inserted, and the first block of a
superblock fixes its compression factor. More blocks are added as long as there are less of them
than this factor, and their sizes are at most that fraction of a block (`canCoAllocate`).

The factor comes from the quotient of the sizes, which is rounded up to a power of two. If the
quotient is not a power of two, the first block is larger than its share, and the blocks of a
superblock can be larger than a block (`superBlk_overflows`). If it is for every block that is
inserted into an empty superblock, they are not (`sizes_le`).

Tags are left out; they can only keep a block from being added.
-/

namespace Gem5Arc

open BitVec Finset Lib

/-- A block of a superblock. -/
structure CompressionBlk where
  valid : Bool := false
  /-- The size of the compressed data in bits. -/
  size : ℕ := 0
  compressed : Bool := false

/-- A superblock with `n` blocks. -/
structure SuperBlk (n : ℕ) where
  blks : Fin n → CompressionBlk := fun _ => {}
  validCounter : BitVec 8 := 0
  compressionFactor : BitVec 8 := 1

namespace SuperBlk

variable {n : ℕ} (blkSize : BitVec 32)

/-- The size of an uncompressed block in bits. -/
def blkSizeBits : ℕ := 8 * blkSize.toNat

/-- Whether the superblock has compressed blocks. The first valid block decides, and without one
it can be compressed. -/
def isCompressed (ignoredBlk : Option (Fin n)) (b : SuperBlk n) : Bool :=
  match (List.finRange n).find? fun k => (b.blks k).valid && some k != ignoredBlk with
  | some k => (b.blks k).compressed
  | none => true

/-- Whether a block of the given size can be added. -/
def canCoAllocate (compressedSize : ℕ) (b : SuperBlk n) : Bool :=
  b.validCounter < b.compressionFactor
    && compressedSize ≤ blkSizeBits blkSize / b.compressionFactor.toNat

/-- The compression factor for a block of the given size. The quotient of the sizes is computed in
floating point, which is exact for sizes of this magnitude. -/
def calculateCompressionFactor (n size : ℕ) : BitVec 8 :=
  let compressionFactor :=
    if size > blkSizeBits blkSize then 1
    else if size = 0 then blkSizeBits blkSize
    else (alignToPowerOfTwo (BitVec.ofNat 64 (blkSizeBits blkSize / size))).toNat
  BitVec.ofNat 8 (min compressionFactor n)

/-- Set the compression factor, unless there are other blocks. -/
def setCompressionFactor (compressionFactor : BitVec 8) (b : SuperBlk n) : SuperBlk n :=
  { b with
    compressionFactor := if b.validCounter ≤ 1 then compressionFactor else b.compressionFactor }

/-- Rewrite a block. -/
def edit (k : Fin n) (f : CompressionBlk → CompressionBlk) (b : SuperBlk n) : SuperBlk n :=
  { b with blks := Function.update b.blks k (f (b.blks k)) }

/-- Set the size of a block after its insertion. -/
def setSizeBits (k : Fin n) (size : ℕ) (b : SuperBlk n) : Except Fault (SuperBlk n) := do
  let b := b.edit k fun blk => { blk with size := size }
  let compressionFactor := calculateCompressionFactor blkSize n size
  let b := b.setCompressionFactor compressionFactor
  assert (b.validCounter ≥ 1)
  let compressed :=
    if b.validCounter = 1 then compressionFactor ≠ 1 else b.isCompressed (some k)
  pure (b.edit k fun blk => { blk with compressed := compressed })

/-- Make a block valid, and count it. -/
def insert (k : Fin n) (b : SuperBlk n) : SuperBlk n :=
  { b.edit k fun blk => { blk with valid := true } with validCounter := b.validCounter + 1 }

/-- Invalidate a block. When no valid block is left, so is the superblock. -/
def invalidate (k : Fin n) (b : SuperBlk n) : SuperBlk n :=
  let validCounter := b.validCounter - 1
  { b.edit k fun blk => { blk with valid := false, compressed := false } with
    validCounter := validCounter
    compressionFactor := if validCounter = 0 then 1 else b.compressionFactor }

/-! ### Runs -/

/-- What happens to the blocks of a superblock. -/
inductive Op (n : ℕ) where
  | insert (k : Fin n) (size : ℕ)
  | invalidate (k : Fin n)

/-- A block is added on the conditions of `findVictim`, or alone into an empty superblock, or it is
invalidated. -/
inductive Step : SuperBlk n → Op n → SuperBlk n → Prop
  | coAllocate {b b' : SuperBlk n} {k : Fin n} {size : ℕ} : 0 < b.validCounter →
      (b.blks k).valid = false → b.isCompressed none = true →
      b.canCoAllocate blkSize size = true → (b.insert k).setSizeBits blkSize k size = .ok b' →
      Step b (.insert k size) b'
  | alone {b b' : SuperBlk n} {k : Fin n} {size : ℕ} : (∀ j, (b.blks j).valid = false) →
      (b.insert k).setSizeBits blkSize k size = .ok b' → Step b (.insert k size) b'
  | invalidate {b : SuperBlk n} {k : Fin n} : (b.blks k).valid = true →
      Step b (.invalidate k) (b.invalidate k)

/-- A block that is inserted into an empty superblock has a good size: it is empty, or larger than
an uncompressed block, or the quotient of the sizes is a power of two or at least the number of
blocks. -/
def Op.GoodSize (op : Op n) (b : SuperBlk n) : Prop :=
  match op with
  | .insert _ size =>
    (∀ j, (b.blks j).valid = false) → size = 0 ∨ blkSizeBits blkSize < size
      ∨ isPowerOf2 (blkSizeBits blkSize / size) = true ∨ n ≤ blkSizeBits blkSize / size
  | .invalidate _ => True

/-- The valid blocks. -/
def validBlks (b : SuperBlk n) : Finset (Fin n) := Finset.univ.filter fun k => (b.blks k).valid

variable {blkSize} {b b' : SuperBlk n} {k : Fin n} {size : ℕ}

/-! ### The compression factor -/

theorem factor_le_of_isPowerOf2 (h : isPowerOf2 (blkSizeBits blkSize / size) = true) :
  (calculateCompressionFactor blkSize n size).toNat ≤ blkSizeBits blkSize / size
  := by
  obtain ⟨e, he⟩ := exists_of_isPowerOf2 h
  have hpos : 0 < blkSizeBits blkSize / size := by
    rw [he]
    apply Nat.two_pow_pos
  obtain ⟨hsize, hle⟩ := Nat.div_pos_iff.mp hpos
  have hquot : blkSizeBits blkSize / size < 2 ^ 64 := by
    apply lt_of_le_of_lt (Nat.div_le_self _ _)
    rw [blkSizeBits]
    omega
  have he64 : e < 64 := by
    rw [he] at hquot
    apply (Nat.pow_lt_pow_iff_right (by decide)).mp hquot
  have hshift : BitVec.ofNat 64 (2 ^ e) = 1#64 <<< e := by
    apply eq_of_toNat_eq
    rw [toNat_shiftLeft, toNat_ofNat, toNat_ofNat, Nat.shiftLeft_eq, Nat.one_mod, Nat.one_mul]
  rw [calculateCompressionFactor, if_neg (by omega), if_neg (by omega), he, hshift,
    alignToPowerOfTwo_shift he64, ← hshift, toNat_ofNat, toNat_ofNat]
  apply (Nat.mod_le _ _).trans
  apply (Nat.min_le_left _ _).trans
  apply Nat.mod_le

/-- A good size is at most the share of a block. -/
theorem factor_mul_le
    (h : size = 0 ∨ blkSizeBits blkSize < size ∨ isPowerOf2 (blkSizeBits blkSize / size) = true
      ∨ n ≤ blkSizeBits blkSize / size)
    (hfactor : 1 < (calculateCompressionFactor blkSize n size).toNat) :
  size ≤ blkSizeBits blkSize / (calculateCompressionFactor blkSize n size).toNat
  := by
  rw [Nat.le_div_iff_mul_le (by omega), Nat.mul_comm]
  have hquot : blkSizeBits blkSize / size * size ≤ blkSizeBits blkSize := Nat.div_mul_le_self ..
  rcases h with rfl | hlarge | hpow | hn
  · omega
  · rw [calculateCompressionFactor, if_pos hlarge] at hfactor
    rw [toNat_ofNat] at hfactor
    omega
  · apply (Nat.mul_le_mul_right size _).trans hquot
    apply factor_le_of_isPowerOf2 hpow
  · apply (Nat.mul_le_mul_right size _).trans hquot
    apply ((Nat.mod_le _ _).trans (Nat.min_le_right _ _)).trans hn

/-! ### The invariant -/

/-- The number of valid blocks is right, and there is either at most one of them, or they are not
more than the compression factor and each has at most its share. -/
structure Shared (blkSize : BitVec 32) (b : SuperBlk n) : Prop where
  counter : b.validCounter.toNat = b.validBlks.card
  factor : b.validBlks.card ≤ 1 ∨ b.validBlks.card ≤ b.compressionFactor.toNat
  share : 1 < b.compressionFactor.toNat →
    ∀ k ∈ b.validBlks, (b.blks k).size ≤ blkSizeBits blkSize / b.compressionFactor.toNat

/-- What setting the size of a block does. -/
theorem setSizeBits_eq_ok (h : b.setSizeBits blkSize k size = .ok b') :
  b'.validBlks = b.validBlks ∧ b'.validCounter = b.validCounter
    ∧ b'.compressionFactor = (if b.validCounter ≤ 1 then calculateCompressionFactor blkSize n size
        else b.compressionFactor)
    ∧ (b'.blks k).size = size ∧ ∀ j, j ≠ k → (b'.blks j).size = (b.blks j).size
  := by
  obtain ⟨-, h⟩ := assert_bind_eq_ok.mp h
  cases h
  refine ⟨?_, rfl, rfl, ?_, ?_⟩
  · apply filter_congr
    intro j _
    by_cases hj : j = k
    · subst hj
      simp [edit, setCompressionFactor]
    · simp [edit, setCompressionFactor, hj]
  · simp [edit, setCompressionFactor]
  · intro j hj
    simp [edit, setCompressionFactor, hj]

theorem mem_validBlks {j : Fin n} :
  j ∈ b.validBlks ↔ (b.blks j).valid = true
  := by
  rw [validBlks, mem_filter_univ]

theorem validBlks_insert (hk : (b.blks k).valid = false) :
  (b.insert k).validBlks = Insert.insert k b.validBlks ∧ k ∉ b.validBlks
  := by
  constructor
  · ext j
    by_cases hj : j = k
    · subst hj
      simp [mem_validBlks, insert, edit]
    · simp [mem_validBlks, insert, edit, hj]
  · simp [mem_validBlks, hk]

theorem validBlks_invalidate :
  (b.invalidate k).validBlks = b.validBlks.erase k
  := by
  ext j
  by_cases hj : j = k
  · subst hj
    simp [mem_validBlks, invalidate, edit]
  · simp [mem_validBlks, invalidate, edit, hj]

theorem size_invalidate (j : Fin n) :
  ((b.invalidate k).blks j).size = (b.blks j).size
  := by
  by_cases hj : j = k
  · subst hj
    simp [invalidate, edit]
  · simp [invalidate, edit, hj]

theorem validBlks_eq_empty (h : ∀ j, (b.blks j).valid = false) :
  b.validBlks = ∅
  := by
  apply filter_eq_empty_iff.mpr
  intro j _
  rw [h j]
  decide

section

variable (hb : Shared blkSize b)

include hb

/-- A block that is added has at most its share. -/
theorem Shared.coAllocate (hpos : 0 < b.validCounter) (hk : (b.blks k).valid = false)
    (hroom : b.canCoAllocate blkSize size = true)
    (h : (b.insert k).setSizeBits blkSize k size = .ok b') :
  Shared blkSize b'
  := by
  rw [canCoAllocate, Bool.and_eq_true, decide_eq_true_iff, decide_eq_true_iff, lt_def,
    hb.counter] at hroom
  obtain ⟨hinsert, hnew⟩ := validBlks_insert hk
  obtain ⟨hvalid, hcounter, hfactor, hsize, hother⟩ := setSizeBits_eq_ok h
  have hcard₀ : 0 < b.validBlks.card := by
    rw [← hb.counter]
    apply hpos
  have hcard : b'.validBlks.card = b.validBlks.card + 1 := by
    rw [hvalid, hinsert, card_insert_of_notMem hnew]
  have hcounter' : b'.validCounter.toNat = b.validBlks.card + 1 := by
    rw [hcounter, insert, toNat_add, hb.counter]
    apply Nat.mod_eq_of_lt
    change _ + 1 < _
    omega
  have hsame : b'.compressionFactor = b.compressionFactor := by
    rw [hfactor, if_neg]
    · rfl
    · rw [← hcounter, le_def, hcounter']
      apply Nat.not_le_of_lt
      apply Nat.succ_lt_succ hcard₀
  refine ⟨?_, ?_, ?_⟩
  · rw [hcounter', hcard]
  · right
    rw [hcard, hsame]
    omega
  · intro hone j hj
    rw [hsame] at hone ⊢
    by_cases hjk : j = k
    · rw [hjk, hsize]
      apply hroom.2
    · rw [hother j hjk]
      have hj' : j ∈ b.validBlks := by
        rw [hvalid, hinsert] at hj
        apply mem_of_mem_insert_of_ne hj hjk
      simp only [insert, edit, Function.update_of_ne hjk]
      apply hb.share hone j hj'

/-- The first block of a superblock has at most its share, if its size is good. -/
theorem Shared.alone (hempty : ∀ j, (b.blks j).valid = false)
    (hgood : Op.GoodSize blkSize (.insert k size) b)
    (h : (b.insert k).setSizeBits blkSize k size = .ok b') :
  Shared blkSize b'
  := by
  obtain ⟨hinsert, -⟩ := validBlks_insert (hempty k)
  obtain ⟨hvalid, hcounter, hfactor, hsize, -⟩ := setSizeBits_eq_ok h
  have hcounter' : b'.validCounter.toNat = 1 := by
    rw [hcounter, insert, toNat_add, hb.counter, validBlks_eq_empty hempty]
    rfl
  rw [validBlks_eq_empty hempty] at hinsert
  rw [if_pos] at hfactor
  · refine ⟨?_, ?_, ?_⟩
    · rw [hcounter', hvalid, hinsert]
      rfl
    · left
      rw [hvalid, hinsert]
      rfl
    · intro hone j hj
      rw [hvalid, hinsert] at hj
      obtain rfl := mem_singleton.mp hj
      rw [hfactor] at hone ⊢
      rw [hsize]
      apply factor_mul_le (hgood hempty) hone
  · rw [← hcounter, le_def, hcounter']
    rfl

theorem Shared.invalidate (hk : (b.blks k).valid = true) :
  Shared blkSize (b.invalidate k)
  := by
  have hmem := mem_validBlks.mpr hk
  have hpos := card_pos.mpr ⟨k, hmem⟩
  have hcounter : (b.invalidate k).validCounter.toNat = b.validBlks.card - 1 := by
    have hb := hb.counter
    change (b.validCounter - 1).toNat = _
    change (2 ^ 8 - 1 + _) % 2 ^ 8 = _
    omega
  have hcard : (b.invalidate k).validBlks.card = b.validBlks.card - 1 := by
    rw [validBlks_invalidate, card_erase_of_mem hmem]
  have hfactor : (b.invalidate k).compressionFactor
      = if (b.invalidate k).validCounter = 0 then 1 else b.compressionFactor := rfl
  refine ⟨?_, ?_, ?_⟩
  · rw [hcounter, hcard]
  · rw [hfactor, hcard]
    split_ifs with hzero
    · left
      rw [hzero] at hcounter
      rw [← hcounter]
      decide
    · rcases hb.factor with h | h
      · left
        omega
      · right
        omega
  · intro hone j hj
    rw [validBlks_invalidate] at hj
    rw [size_invalidate]
    rw [hfactor] at hone ⊢
    split_ifs at hone ⊢ with hzero
    · exact absurd hone (by decide)
    · apply hb.share hone j (mem_of_mem_erase hj)

end

theorem Shared.step {op : Op n} (hb : Shared blkSize b) (hgood : op.GoodSize blkSize b)
    (h : Step blkSize b op b') :
  Shared blkSize b'
  := by
  cases h with
  | coAllocate hpos hk _ hroom h => apply hb.coAllocate hpos hk hroom h
  | alone hempty h => apply hb.alone hempty hgood h
  | invalidate hk => apply hb.invalidate hk

/-- Two blocks or more that have at most their shares fit into a block. -/
theorem Shared.sum_le (hb : Shared blkSize b) (htwo : 2 ≤ b.validBlks.card) :
  ∑ k ∈ b.validBlks, (b.blks k).size ≤ blkSizeBits blkSize
  := by
  have hfactor : b.validBlks.card ≤ b.compressionFactor.toNat := by
    rcases hb.factor with h | h
    · omega
    · apply h
  calc
    ∑ k ∈ b.validBlks, (b.blks k).size
      ≤ b.validBlks.card • (blkSizeBits blkSize / b.compressionFactor.toNat) := by
        apply sum_le_card_nsmul
        apply hb.share
        omega
    _ ≤ b.compressionFactor.toNat * (blkSizeBits blkSize / b.compressionFactor.toNat) := by
        apply Nat.mul_le_mul_right _ hfactor
    _ ≤ blkSizeBits blkSize := Nat.mul_div_le ..

/-- In every run in which the first block of the superblock always has a good size, two valid blocks
or more fit into a block. -/
theorem sizes_le {l : List (Op n)}
    (hrun : Run (fun b op b' => op.GoodSize blkSize b ∧ Step blkSize b op b') {} l b)
    (htwo : 2 ≤ b.validBlks.card) :
  ∑ k ∈ b.validBlks, (b.blks k).size ≤ 8 * blkSize.toNat
  := by
  have hb : Shared blkSize b := by
    apply hrun.invariant (P := Shared blkSize)
    · rintro b op b' hb ⟨hgood, hstep⟩
      apply hb.step hgood hstep
    · have hempty : (({} : SuperBlk n)).validBlks = ∅ := validBlks_eq_empty fun _ => rfl
      refine ⟨?_, ?_, ?_⟩
      · rw [hempty]
        rfl
      · left
        rw [hempty]
        apply Nat.zero_le
      · intro hone
        exact absurd hone (lt_irrefl 1)
  apply hb.sum_le htwo

/-- Two blocks of half the size. -/
theorem sizes_le_two :
  ∃ b : SuperBlk 4, Run (fun b op b' => op.GoodSize 64 b ∧ Step 64 b op b') {}
      [.insert 0 256, .insert 1 250] b
    ∧ b.validBlks.card = 2 ∧ ∑ k ∈ b.validBlks, (b.blks k).size ≤ 512
  := by
  have hrun : Run (fun b op b' => op.GoodSize 64 b ∧ Step 64 b op b') ({} : SuperBlk 4)
      [.insert 0 256, .insert 1 250] _ :=
    .cons ⟨fun _ => .inr (.inr (.inl rfl)), .alone (fun _ => rfl) rfl⟩
      (.single ⟨fun h => absurd (h 0) (by decide), .coAllocate (by decide) rfl rfl rfl rfl⟩)
  exact ⟨_, hrun, rfl, sizes_le hrun (by decide)⟩

/-- Blocks of 64 bytes, with four blocks for a superblock. The first block has 170 bits. The
quotient 512 / 170 is 3, so the compression factor is 4, and three more blocks of 128 bits are
added. -/
theorem superBlk_overflows :
  ∃ b : SuperBlk 4, Run (Step 64) {} [.insert 0 170, .insert 1 128, .insert 2 128, .insert 3 128] b
    ∧ b.validBlks.card = 4 ∧ ∑ k ∈ b.validBlks, (b.blks k).size = 554
  := ⟨_, .cons (.alone (fun _ => rfl) rfl)
      (.cons (.coAllocate (by decide) rfl rfl rfl rfl)
        (.cons (.coAllocate (by decide) rfl rfl rfl rfl)
          (.single (.coAllocate (by decide) rfl rfl rfl rfl)))), rfl, rfl⟩

end SuperBlk

end Gem5Arc
