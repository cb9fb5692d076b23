import Gem5Arc.Basic

/-!
# Products of words

The multiplication of 64-bit words of `base/intmath.hh` that makes the product from the products of
the halves. The two words it returns are the exact product (`mulManual_exact`).
-/

namespace Gem5Arc.IntMath

/-- A word cut to its lower half. -/
def toUInt32 (val : BitVec 64) : BitVec 64 := (val.setWidth 32).setWidth 64

def mulUnsignedManual (val_a val_b : BitVec 64) : BitVec 64 × BitVec 64 :=
  let low := val_a * val_b
  let A := toUInt32 (val_a >>> 32)
  let a := toUInt32 val_a
  let B := toUInt32 (val_b >>> 32)
  let b := toUInt32 val_b
  let ab := a * b
  let Ab := A * b
  let aB := a * B
  let AB := A * B
  let c1 := toUInt32 (ab >>> 32)
  let c2 := (c1 >>> 1) + (Ab >>> 1) + (aB >>> 1)
  let c2 := c2 + (((c1 &&& 0x1) + (Ab &&& 0x1) + (aB &&& 0x1)) >>> 1)
  let c2 := c2 >>> 31
  (AB + c2, low)

/-- The multiplication, with 128-bit integers if the compiler has them. -/
def mulUnsigned (int128 : Bool) (val_a val_b : BitVec 64) : BitVec 64 × BitVec 64 :=
  if int128 then
    let val := val_a.setWidth 128 * val_b.setWidth 128
    ((val >>> 64).setWidth 64, val.setWidth 64)
  else mulUnsignedManual val_a val_b

def mulSignedManual (int128 : Bool) (val_a val_b : BitVec 64) : BitVec 64 × BitVec 64 :=
  let (u_high, u_low) := mulUnsigned int128 val_a val_b
  let u_high := if val_a.toInt < 0 then u_high - val_b else u_high
  let u_high := if val_b.toInt < 0 then u_high - val_a else u_high
  (u_high, u_low)

/-- The number of which the two words are the high and the low half. -/
def unsigned (words : BitVec 64 × BitVec 64) : ℕ := words.1.toNat * 2 ^ 64 + words.2.toNat

/-- The number of which the two words are the two's complement. -/
def signed (words : BitVec 64 × BitVec 64) : ℤ := words.1.toInt * 2 ^ 64 + words.2.toNat

/-- A product from the products of the halves. -/
theorem mul_eq_halves (m n : ℕ) :
  m * n = m / 2 ^ 32 * (n / 2 ^ 32) * 2 ^ 64
    + (m / 2 ^ 32 * (n % 2 ^ 32) + m % 2 ^ 32 * (n / 2 ^ 32)) * 2 ^ 32
    + m % 2 ^ 32 * (n % 2 ^ 32)
  := by
  calc
    m * n = (m / 2 ^ 32 * 2 ^ 32 + m % 2 ^ 32) * (n / 2 ^ 32 * 2 ^ 32 + n % 2 ^ 32) := by
      rw [Nat.div_add_mod', Nat.div_add_mod']
    _ = _ := by ring

theorem unsigned_mulUnsignedManual (a b : BitVec 64) :
  unsigned (mulUnsignedManual a b) = a.toNat * b.toNat
  := by
  have hle : ∀ {m n}, m < 2 ^ 32 → n < 2 ^ 32 → m * n ≤ (2 ^ 32 - 1) * (2 ^ 32 - 1) := by
    intro m n hm hn
    apply Nat.mul_le_mul
    · omega
    · omega
  have hA : a.toNat / 2 ^ 32 < 2 ^ 32 := Nat.div_lt_of_lt_mul a.isLt
  have hB : b.toNat / 2 ^ 32 < 2 ^ 32 := Nat.div_lt_of_lt_mul b.isLt
  have ha := Nat.mod_lt a.toNat (Nat.two_pow_pos 32)
  have hb := Nat.mod_lt b.toNat (Nat.two_pow_pos 32)
  have hAB := hle hA hB
  have hAb := hle hA hb
  have haB := hle ha hB
  have hab := hle ha hb
  have hprod := mul_eq_halves a.toNat b.toNat
  norm_num at *
  simp only [unsigned, mulUnsignedManual, toUInt32]
  simp [Nat.shiftRight_eq_div_pow, Nat.mod_eq_of_lt hA, Nat.mod_eq_of_lt hB]
  generalize a.toNat * b.toNat = p at *
  omega

theorem unsigned_mulUnsigned (int128 : Bool) (a b : BitVec 64) :
  unsigned (mulUnsigned int128 a b) = a.toNat * b.toNat
  := by
  cases int128 with
  | false => apply unsigned_mulUnsignedManual
  | true =>
    have hlt := Nat.mul_lt_mul'' a.isLt b.isLt
    simp [unsigned, mulUnsigned, Nat.shiftRight_eq_div_pow]
    omega

theorem toNat_eq_toInt_add (a : BitVec 64) :
  (a.toNat : ℤ) = a.toInt + if a.toInt < 0 then 2 ^ 64 else 0
  := by
  have h := BitVec.toInt_eq_toNat_cond a
  have hlt := a.isLt
  split_ifs at h ⊢ <;> omega

/-- Two words are the two's complement of the number in range that they are congruent to. -/
theorem signed_eq (words : BitVec 64 × BitVec 64) {p : ℤ} (hp : p.natAbs ≤ 2 ^ 63 * 2 ^ 63)
    (h : (unsigned words - p) % 2 ^ 128 = 0) :
  signed words = p
  := by
  have hhigh := toNat_eq_toInt_add words.1
  have hle := words.1.le_toInt
  have hlt := words.1.toInt_lt
  have hlow := words.2.isLt
  simp only [unsigned, signed] at h ⊢
  split_ifs at hhigh <;> omega

theorem signed_mulSignedManual (int128 : Bool) (a b : BitVec 64) :
  signed (mulSignedManual int128 a b) = a.toInt * b.toInt
  := by
  have ha := toNat_eq_toInt_add a
  have hb := toNat_eq_toInt_add b
  have h := unsigned_mulUnsigned int128 a b
  zify at h
  rw [ha, hb, mul_add, add_mul, add_mul] at h
  apply signed_eq
  · have hale := a.le_toInt
    have halt := a.toInt_lt
    have hble := b.le_toInt
    have hblt := b.toInt_lt
    rw [Int.natAbs_mul]
    apply Nat.mul_le_mul
    · omega
    · omega
  · have halt := a.isLt
    have hblt := b.isLt
    simp only [unsigned, mulSignedManual] at h ⊢
    generalize mulUnsigned int128 a b = words at h ⊢
    generalize a.toInt * b.toInt = p at h ⊢
    split_ifs at h ha hb ⊢
    · rw [BitVec.toNat_sub, BitVec.toNat_sub]
      omega
    · rw [BitVec.toNat_sub]
      omega
    · rw [BitVec.toNat_sub]
      omega
    · omega

/-- The words of the product from the halves are the exact product, and so are the words of the
signed product, whatever the signs are. -/
theorem mulManual_exact :
  (∀ a b, unsigned (mulUnsignedManual a b) = a.toNat * b.toNat)
    ∧ ∀ int128 a b, signed (mulSignedManual int128 a b) = a.toInt * b.toInt
  := ⟨unsigned_mulUnsignedManual, signed_mulSignedManual⟩

end Gem5Arc.IntMath
