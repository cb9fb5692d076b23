import Mathlib.Tactic

/-!
# Shift registers

A shift register with `n + 1` bits, whose lowest bit is shifted out while the sum of its lowest and
its highest bit is shifted in. The bits that it ever shifts out are those it contains at first,
followed by the solution of a linear recurrence (`feedback`), and each step drops the first of them
(`feedback_iterate`).

So the register after `n + 1` steps is the sum of the register after `n` steps and the register at
first (`shift_iterate`). For the linear map `H` of a step this says that `H ^ (n + 1) = H ^ n + 1`.
-/

namespace Lib

/-- The bits that a register shifts out, if it contains the bits `a` up to `a n`. -/
def feedback (n : ℕ) (a : ℕ → Bool) (k : ℕ) : Bool :=
  if k ≤ n then a k else xor (feedback n a (k - 1)) (feedback n a (k - (n + 1)))
termination_by k

variable {n : ℕ} {a b : ℕ → Bool}

theorem feedback_of_le {k : ℕ} (h : k ≤ n) :
  feedback n a k = a k
  := by
  rw [feedback, if_pos h]

theorem feedback_add (n : ℕ) (a : ℕ → Bool) (k : ℕ) :
  feedback n a (k + (n + 1)) = xor (feedback n a (k + n)) (feedback n a k)
  := by
  rw [feedback, if_neg (by omega), Nat.add_sub_cancel, Nat.add_sub_assoc (by omega)]
  rfl

/-- A step from a register with the bits `a` to one with the bits `b`. -/
structure Shift (n : ℕ) (a b : ℕ → Bool) : Prop where
  low : ∀ i < n, b i = a (i + 1)
  high : b n = xor (a n) (a 0)

/-- A step drops the first bit. -/
theorem Shift.feedback (h : Shift n a b) (k : ℕ) :
  feedback n b k = feedback n a (k + 1)
  := by
  induction k using Nat.strongRecOn with
  | ind k ih =>
    rcases Nat.lt_trichotomy k n with hlt | rfl | hgt
    · rw [feedback_of_le hlt.le, feedback_of_le hlt, h.low k hlt]
    · rw [feedback_of_le (le_refl k), h.high, ← Nat.zero_add (k + 1), feedback_add, Nat.zero_add,
        feedback_of_le (le_refl k), feedback_of_le (Nat.zero_le k)]
    · obtain ⟨j, rfl⟩ := Nat.exists_eq_add_of_le' hgt
      rw [feedback_add, ih (j + n) (by omega), ih j (by omega), Nat.add_right_comm j (n + 1) 1,
        feedback_add, Nat.add_right_comm j 1 n]

section Iterate

variable {σ : Type*} {f : σ → σ} (bit : σ → ℕ → Bool) (h : ∀ s, Shift n (bit s) (bit (f s)))

include h

theorem feedback_iterate (k : ℕ) (s : σ) (i : ℕ) :
  feedback n (bit (f^[k] s)) i = feedback n (bit s) (i + k)
  := by
  induction k generalizing s with
  | zero => rfl
  | succ k ih =>
    rw [Function.iterate_succ_apply, ih, (h s).feedback]
    rfl

theorem shift_iterate (s : σ) {i : ℕ} (hi : i ≤ n) :
  bit (f^[n + 1] s) i = xor (bit (f^[n] s) i) (bit s i)
  := by
  rw [← feedback_of_le (a := bit (f^[n + 1] s)) hi, ← feedback_of_le (a := bit (f^[n] s)) hi,
    ← feedback_of_le (a := bit s) hi, feedback_iterate bit h, feedback_iterate bit h, feedback_add]

end Iterate

end Lib
