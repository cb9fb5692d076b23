import Gem5Arc.Base.Bits

/-!
# Data blocks and line addresses

A data block has the bytes of a cache line. A line has `2 ^ b` bytes, for a number `b` of bits of an
address that `floorLog2` gives. The address of a byte is split in the address of its line and its
offset.
-/

namespace Gem5Arc

open BitVec

/-- The bytes of a line of `2 ^ b` bytes. -/
abbrev DataBlock (b : ℕ) : Type := Fin (2 ^ b) → BitVec 8

variable {b : ℕ}

/-- `DataBlock::clear`. -/
def DataBlock.clear : DataBlock b := fun _ => 0#8

/-- The block with the bytes `[offset, offset + len)` of another one. -/
def DataBlock.overlay (block : DataBlock b) (offset len : ℕ) (source : DataBlock b) : DataBlock b :=
  fun i => if offset ≤ i ∧ i < offset + len then source i else block i

/-- All bytes of the other block. -/
theorem DataBlock.overlay_all (block source : DataBlock b) :
  block.overlay 0 (2 ^ b) source = source
  := by
  funext i
  rw [overlay, if_pos]
  refine ⟨Nat.zero_le _, ?_⟩
  rw [Nat.zero_add]
  exact i.isLt

/-- `DataBlock::setData`: write the first `len` bytes of an array at an offset. -/
def DataBlock.setData (block : DataBlock b) (data : ℕ → BitVec 8) (offset len : ℕ) : DataBlock b :=
  fun i => if offset ≤ i ∧ i < offset + len then data (i - offset) else block i

/-- The offset of an address in its line. For lines of one byte the number of bits that `bits` takes
wraps around to 0. -/
def getOffset (b : ℕ) (addr : Addr) : Addr := if b = 0 then 0#64 else bits addr (b - 1) 0

def makeLineAddress (b : ℕ) (addr : Addr) : Addr := mbits addr 63 b

theorem getOffset_eq (addr : Addr) :
  getOffset b addr = addr &&& mask b
  := by
  rw [getOffset]
  split_ifs with hb
  · rw [hb]
    exact and_zero.symm
  · have hnbits : b - 1 - 0 + 1 = b := by
      omega
    rw [bits, hnbits, ushiftRight_zero]

/-- The address of a line has offset 0. -/
theorem getOffset_makeLineAddress (addr : Addr) :
  getOffset b (makeLineAddress b addr) = 0#64
  := by
  rw [getOffset]
  split_ifs with hb
  · rfl
  apply eq_of_getLsbD_eq
  intro i _
  rw [makeLineAddress, getLsbD_bits _ (Nat.zero_le _), getLsbD_mbits, getLsbD_zero, Nat.zero_add]
  by_cases hi : i ≤ b - 1
  · rw [decide_eq_false (by omega), Bool.and_false, Bool.false_and]
  · rw [decide_eq_false hi, Bool.and_false]

theorem getOffset_toNat (addr : Addr) :
  (getOffset b addr).toNat = addr.toNat % 2 ^ b
  := by
  rw [getOffset_eq, and_mask_toNat]

/-- The addresses with offset 0 are those of the lines. -/
theorem makeLineAddress_eq_self_iff {addr : Addr} :
  makeLineAddress b addr = addr ↔ (getOffset b addr).toNat = 0
  := by
  constructor
  · intro h
    rw [← h, getOffset_makeLineAddress]
    rfl
  · intro h
    rw [getOffset_toNat] at h
    apply eq_of_getLsbD_eq
    intro i hi
    rw [makeLineAddress, getLsbD_mbits]
    by_cases hb : b ≤ i
    · rw [decide_eq_true ⟨hb, by omega⟩, Bool.and_true]
    · have hbit := congrArg (fun n : ℕ => n.testBit i) h
      simp only [Nat.testBit_mod_two_pow, decide_eq_true (not_le.mp hb), Bool.true_and,
        Nat.zero_testBit] at hbit
      rw [getLsbD, hbit, Bool.false_and]

/-- Addresses with the same line number are in the same line. -/
theorem makeLineAddress_congr {addr addr' : Addr} (h : addr.toNat / 2 ^ b = addr'.toNat / 2 ^ b) :
  makeLineAddress b addr = makeLineAddress b addr'
  := by
  apply eq_of_getLsbD_eq
  intro i _
  rw [makeLineAddress, makeLineAddress, getLsbD_mbits, getLsbD_mbits]
  by_cases hi : b ≤ i
  · have hbit := congrArg (fun n : ℕ => n.testBit (i - b)) h
    simp only [Nat.testBit_div_two_pow, Nat.sub_add_cancel hi] at hbit
    rw [getLsbD, getLsbD, hbit]
  · rw [decide_eq_false (by omega), Bool.and_false, Bool.and_false]

/-- The bytes of a line after the one at an address, which do not wrap around. -/
theorem getOffset_add (hb : b ≤ 64) (addr : Addr) {i : ℕ}
    (hi : (getOffset b addr).toNat + i < 2 ^ b) :
  makeLineAddress b (addr + BitVec.ofNat 64 i) = makeLineAddress b addr
    ∧ (getOffset b (addr + BitVec.ofNat 64 i)).toNat = (getOffset b addr).toNat + i
  := by
  rw [getOffset_toNat] at hi ⊢
  have hpos : 0 < 2 ^ b := Nat.two_pow_pos b
  have hnumber : addr.toNat / 2 ^ b < 2 ^ (64 - b) := by
    apply Nat.div_lt_of_lt_mul
    rw [← pow_add, Nat.add_sub_cancel' hb]
    apply addr.isLt
  have hend : (addr.toNat / 2 ^ b + 1) * 2 ^ b ≤ 2 ^ 64 := by
    calc (addr.toNat / 2 ^ b + 1) * 2 ^ b
        ≤ 2 ^ (64 - b) * 2 ^ b := Nat.mul_le_mul_right _ hnumber
      _ = 2 ^ 64 := by rw [← pow_add, Nat.sub_add_cancel hb]
  have haddr := Nat.div_add_mod' addr.toNat (2 ^ b)
  rw [Nat.add_mul, Nat.one_mul] at hend
  have hsum : (addr + BitVec.ofNat 64 i).toNat = addr.toNat + i := by
    rw [toNat_add, toNat_ofNat, Nat.add_mod_mod]
    apply Nat.mod_eq_of_lt
    omega
  have hdiv : (addr.toNat + i) / 2 ^ b = addr.toNat / 2 ^ b := by
    rw [← haddr, Nat.add_assoc, Nat.mul_comm, Nat.mul_add_div hpos, Nat.div_eq_of_lt hi,
      Nat.add_zero, Nat.mul_comm, haddr]
  constructor
  · apply makeLineAddress_congr
    rw [hsum, hdiv]
  · rw [getOffset_toNat, hsum]
    have hmod := Nat.div_add_mod' (addr.toNat + i) (2 ^ b)
    rw [hdiv] at hmod
    omega

theorem makeLineAddress_makeLineAddress (addr : Addr) :
  makeLineAddress b (makeLineAddress b addr) = makeLineAddress b addr
  := by
  rw [makeLineAddress, makeLineAddress, mbits, mbits, BitVec.and_assoc, BitVec.and_self]

end Gem5Arc
