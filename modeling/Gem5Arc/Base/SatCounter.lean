import Gem5Arc.Basic
import Gem5Arc.Lib.Run

/-!
# Saturating counters

`GenericSatCounter` of `base/sat_counter.hh`. Its operators give the exact result clamped to the
range of the counter, but for a shift to the left that loses bits of the type before the result is
compared with the maximum (`saturates_iff`).
-/

namespace Gem5Arc

/-- A counter in an unsigned type of `width` bits. -/
structure GenericSatCounter (width : ℕ) where
  maxVal : ℕ
  counter : ℕ

namespace GenericSatCounter

/-- The constructor. A shift of `1ULL` by 64 bits is undefined. -/
def new (width bits initial_val : ℕ) : Except Fault (GenericSatCounter width) := do
  let one ← if bits < 64 then .ok (2 ^ bits) else .error .overflow
  let maxVal := (one - 1) % 2 ^ width
  fatalIf (bits > width) "Number of bits exceeds counter size"
  fatalIf (initial_val > maxVal) "Saturating counter's initial value exceeds max value."
  return { maxVal, counter := initial_val }

inductive Op where
  | incr
  | decr
  | shr (shift : ℕ)
  | shl (shift : ℕ)
  | add (value : ℤ)
  | sub (value : ℤ)

variable {width bits : ℕ}

/-- `operator+=` with a value that is not negative. -/
def add (c : GenericSatCounter width) (value : ℕ) : ℕ :=
  if c.maxVal - c.counter ≥ value then (c.counter + value) % 2 ^ width else c.maxVal

/-- `operator-=` with a value that is not negative. -/
def sub (c : GenericSatCounter width) (value : ℕ) : ℕ :=
  if c.counter > value then c.counter - value else 0

/-- The value after an operator. Of a negative value the opposite is subtracted or added. -/
def value (c : GenericSatCounter width) : Op → ℕ
  | .incr => if c.counter < c.maxVal then (c.counter + 1) % 2 ^ width else c.counter
  | .decr => if c.counter > 0 then c.counter - 1 else c.counter
  | .shr shift => c.counter >>> shift
  | .shl shift =>
    let counter := (c.counter <<< shift) % 2 ^ width
    if counter > c.maxVal then c.maxVal else counter
  | .add value => if value ≥ 0 then c.add value.toNat else c.sub (-value).toNat
  | .sub value => if value ≥ 0 then c.sub value.toNat else c.add (-value).toNat

def step (op : Op) (c : GenericSatCounter width) : Except Fault (GenericSatCounter width) :=
  .ok { c with counter := c.value op }

/-! ### Saturation -/

/-- The exact result of an operator. -/
def Op.exact (n : ℕ) : Op → ℤ
  | .incr => n + 1
  | .decr => n - 1
  | .shr shift => (n / 2 ^ shift : ℕ)
  | .shl shift => (n * 2 ^ shift : ℕ)
  | .add value => n + value
  | .sub value => n - value

/-- The value after an operator is the exact result clamped to the range of `bits` bits. -/
def Saturates (bits : ℕ) (op : Op) (c : GenericSatCounter width) : Prop :=
  c.value op = max 0 (min (op.exact c.counter) (2 ^ bits - 1 : ℕ))

/-- A shift to the left loses no bits, or what it leaves is not below the maximum. -/
def ShiftFits : Op → GenericSatCounter width → Prop
  | .shl shift, c => c.counter * 2 ^ shift < 2 ^ width
    ∨ c.maxVal ≤ c.counter * 2 ^ shift % 2 ^ width
  | _, _ => True

variable {c : GenericSatCounter width}

theorem add_eq (h : c.counter ≤ c.maxVal) (hlt : c.maxVal < 2 ^ width) (n : ℕ) :
  c.add n = min (c.counter + n) c.maxVal
  := by
  unfold add
  split_ifs
  · rw [Nat.mod_eq_of_lt (by omega)]
    omega
  · omega

theorem sub_eq (n : ℕ) :
  c.sub n = c.counter - n
  := by
  unfold sub
  split_ifs
  · rfl
  · omega

theorem saturates_iff_fits (h : c.counter ≤ c.maxVal) (hlt : c.maxVal < 2 ^ width)
    (hmax : c.maxVal = 2 ^ bits - 1) (op : Op) :
  Saturates bits op c ↔ ShiftFits op c
  := by
  rw [Saturates, ← hmax]
  cases op with
  | incr =>
    simp only [value, Op.exact, ShiftFits, iff_true]
    split_ifs
    · rw [Nat.mod_eq_of_lt (by omega)]
      omega
    · omega
  | decr =>
    simp only [value, Op.exact, ShiftFits, iff_true]
    split_ifs
    · omega
    · omega
  | shr shift =>
    have hle := Nat.div_le_self c.counter (2 ^ shift)
    simp only [value, Op.exact, ShiftFits, iff_true, Nat.shiftRight_eq_div_pow]
    generalize c.counter / 2 ^ shift = n at hle ⊢
    omega
  | shl shift =>
    simp only [value, Op.exact, ShiftFits, Nat.shiftLeft_eq]
    generalize c.counter * 2 ^ shift = n
    by_cases hn : n < 2 ^ width
    · rw [Nat.mod_eq_of_lt hn]
      split_ifs
      · omega
      · omega
    · split_ifs
      · omega
      · omega
  | add | sub =>
    simp only [value, Op.exact, ShiftFits, iff_true, add_eq h hlt, sub_eq]
    split_ifs
    · omega
    · omega

/-- A new counter saturates at every operator of a run exactly if its maximum can be computed and no
shift to the left loses bits that count. -/
theorem saturates_iff {initial_val : ℕ} {ops : List Op} (hbits : bits ≤ width)
    (hinit : initial_val ≤ 2 ^ bits - 1) :
  (∃ c, new width bits initial_val = .ok c ∧ Lib.Meets step (Saturates bits) ops c)
    ↔ bits < 64 ∧ Lib.Meets step ShiftFits ops
      (⟨2 ^ bits - 1, initial_val⟩ : GenericSatCounter width)
  := by
  have hpow := Nat.pow_le_pow_right Nat.two_pos hbits
  have hpos := Nat.two_pow_pos bits
  have hlt : 2 ^ bits - 1 < 2 ^ width := by omega
  by_cases h64 : bits < 64
  · have hnew : new width bits initial_val = .ok ⟨2 ^ bits - 1, initial_val⟩ := by
      simp [new, fatalIf, h64, Nat.mod_eq_of_lt hlt, Nat.not_lt.mpr hbits, Nat.not_lt.mpr hinit]
    simp only [hnew, Except.ok.injEq, exists_eq_left', h64, true_and]
    apply Lib.meets_iff_meets (Q := fun c => c.counter ≤ c.maxVal ∧ c.maxVal = 2 ^ bits - 1)
      _ _ ⟨hinit, rfl⟩ (Lib.meets_of_forall (A := fun _ => True) (by simp) _)
    · rintro c op ⟨hc, hmax⟩ -
      exact saturates_iff_fits hc (hmax ▸ hlt) hmax op
    · rintro c op _ ⟨hc, hmax⟩ - hsat ⟨⟩
      rw [Saturates, ← hmax] at hsat
      exact ⟨by simp only; omega, hmax⟩
  · simp [new, h64]

/-- An 8-bit counter of 8 bits is shifted from 128 to 0. -/
theorem shl_wraps :
  ¬ ∃ c, new 8 8 128 = .ok c ∧ Lib.Meets step (Saturates 8) [.shl 1] c
  := by
  rintro ⟨c, hc, h, -⟩
  cases hc
  revert h
  simp [Saturates, value, Op.exact]

theorem saturates_iff_shifted :
  ∃ c, new 8 2 1 = .ok c ∧ Lib.Meets step (Saturates 2) [.shl 7] c
  := (saturates_iff (by decide) (by decide)).mpr
    ⟨by decide, .of_cons (.inl (by decide)) rfl trivial⟩

end GenericSatCounter

end Gem5Arc
