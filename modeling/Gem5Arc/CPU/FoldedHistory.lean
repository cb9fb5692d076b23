import Gem5Arc.CPU.TAGEBase

/-!
# Folded histories

A folded history of the TAGE predictor compresses the last `origLength` outcomes into `compLength`
bits. It is the exclusive or of the outcomes, the one of `j` steps ago at position
`j % compLength` (`fold`). An update rotates the register, enters the newest outcome at the low end
and removes the outcome that has become too old (`update_eq`).
-/

namespace Gem5Arc.FoldedParams

open BitVec ThreadHistory

/-- `FoldedHistory::init`. -/
def init (originalLength compressedLength : ℕ) : FoldedParams where
  origLength := originalLength
  compLength := compressedLength
  outpoint := originalLength % compressedLength

/-- The last outcomes after `n` branches, the newest one first, from the history of zeros. -/
def history (outcomes : ℕ → Bool) : ℕ → ℕ → Bool
  | 0 => fun _ => false
  | n + 1 => push (outcomes n) (history outcomes n)

/-- The register after the updates of `n` branches. -/
def compAfter (f : FoldedParams) (outcomes : ℕ → Bool) : ℕ → BitVec 32
  | 0 => 0
  | n + 1 =>
    let h := history outcomes (n + 1)
    f.update (f.compAfter outcomes n) (h 0) (h f.origLength)

/-- An outcome at a position. -/
def place (outcome : Bool) (i : ℕ) : BitVec 32 := (BitVec.ofBool outcome).setWidth 32 <<< i

/-- The exclusive or of the first `L` outcomes, each at its position modulo `c`. -/
def fold (L c : ℕ) (h : ℕ → Bool) : BitVec 32 :=
  (List.range L).foldl (fun v j => v ^^^ place (h j) (j % c)) 0

/-- The low `c` bits of a register, with the bits from `c` on added at the low end. -/
def reduce (c : ℕ) (v : BitVec 32) : BitVec 32 :=
  (v ^^^ (v >>> c)) &&& BitVec.ofNat 32 (2 ^ c - 1)

theorem fold_succ (L c : ℕ) (h : ℕ → Bool) :
  fold (L + 1) c h = fold L c h ^^^ place (h L) (L % c)
  := by
  rw [fold, List.range_succ, List.foldl_append]
  rfl

theorem reduce_xor (c : ℕ) (v w : BitVec 32) :
  reduce c (v ^^^ w) = reduce c v ^^^ reduce c w
  := by
  apply eq_of_getLsbD_eq
  intro j hj
  simp only [reduce, ushiftRight_xor_distrib, getLsbD_xor, getLsbD_and,
    ← Bool.and_xor_distrib_right]
  congr 1
  simp only [Bool.xor_assoc, Bool.xor_left_comm]

/-- A position below `c` stays, and is moved to the next one in a cycle of `c` positions. -/
theorem reduce_place :
  ∀ c < 32, ∀ i < c, ∀ outcome, reduce c (place outcome i) = place outcome i
    ∧ reduce c (place outcome i <<< 1) = place outcome ((i + 1) % c)
    ∧ (place outcome i).toNat < 2 ^ c
  := by decide +kernel

theorem shift_or_eq_xor (v : BitVec 32) (newest : Bool) :
  (v <<< 1) ||| (ofBool newest).setWidth 32 = (v <<< 1) ^^^ place newest 0
  := by
  apply eq_of_getLsbD_eq
  intro j hj
  rw [place, shiftLeft_zero, getLsbD_or, getLsbD_xor,
    getLsbD_shiftLeft, getLsbD_setWidth, getLsbD_ofBool]
  cases j with
  | zero => simp
  | succ j => simp

section Lengths

variable {L c : ℕ} (hpos : 1 ≤ c) (hc : c < 32)

include hpos hc

/-- An update rotates the register, enters the newest outcome and removes the oldest one. -/
theorem update_eq (v : BitVec 32) (newest oldest : Bool) :
  (init L c).update v newest oldest
    = reduce c (v <<< 1) ^^^ place newest 0 ^^^ place oldest (L % c)
  := by
  rw [update, shift_or_eq_xor]
  change reduce c ((v <<< 1) ^^^ place newest 0 ^^^ place oldest (L % c)) = _
  rw [reduce_xor, reduce_xor, (reduce_place c hc 0 hpos newest).1,
    (reduce_place c hc (L % c) (Nat.mod_lt L hpos) oldest).1]

/-- One more outcome moves the last one to the next position. -/
theorem reduce_fold_succ (h : ℕ → Bool) :
  reduce c (fold (L + 1) c h <<< 1)
    = reduce c (fold L c h <<< 1) ^^^ place (h L) ((L + 1) % c)
  := by
  rw [fold_succ, shiftLeft_xor_distrib, reduce_xor,
    (reduce_place c hc (L % c) (Nat.mod_lt L hpos) (h L)).2.1, Nat.mod_add_mod]

theorem fold_push (newest : Bool) (h : ℕ → Bool) :
  fold (L + 1) c (push newest h) = reduce c (fold L c h <<< 1) ^^^ place newest 0
  := by
  induction L with
  | zero => simp [fold, push, reduce]
  | succ L ih =>
    rw [fold_succ, ih, reduce_fold_succ hpos hc, push, BitVec.xor_assoc,
      BitVec.xor_assoc, BitVec.xor_comm (place newest 0)]

theorem fold_lt (h : ℕ → Bool) :
  (fold L c h).toNat < 2 ^ c
  := by
  induction L with
  | zero => exact Nat.two_pow_pos c
  | succ L ih =>
    rw [fold_succ, toNat_xor]
    exact Nat.xor_lt_two_pow ih (reduce_place c hc (L % c) (Nat.mod_lt L hpos) (h L)).2.2

/-- A folded history is the exclusive or of the outcomes it is made from. -/
theorem compAfter_eq (hL : 1 ≤ L) (outcomes : ℕ → Bool) (n : ℕ) :
  (init L c).compAfter outcomes n = fold L c (history outcomes n)
    ∧ ((init L c).compAfter outcomes n).toNat < 2 ^ c
  := by
  have heq : (init L c).compAfter outcomes n = fold L c (history outcomes n) := by
    induction n with
    | zero =>
      clear hL
      induction L with
      | zero => rfl
      | succ L ih =>
        rw [fold_succ, ← ih]
        simp [compAfter, history, place]
    | succ n ih =>
      obtain ⟨k, rfl⟩ := Nat.exists_eq_add_of_le' hL
      rw [compAfter, ih, update_eq hpos hc, history, fold_push hpos hc, reduce_fold_succ hpos hc]
      change _ ^^^ place (history outcomes n k) _ ^^^ place (outcomes n) 0
        ^^^ place (history outcomes n k) _ = _
      rw [BitVec.xor_assoc, BitVec.xor_assoc, BitVec.xor_comm (place (history outcomes n k) _),
        BitVec.xor_assoc, BitVec.xor_self, xor_zero]
  exact ⟨heq, heq ▸ fold_lt hpos hc _⟩

end Lengths

/-- Three outcomes, folded into two bits. -/
theorem compAfter_eq_three :
  (init 3 2).compAfter (fun i => i % 2 = 0) 3 = fold 3 2 (history (fun i => i % 2 = 0) 3)
    ∧ ((init 3 2).compAfter (fun i => i % 2 = 0) 3).toNat < 2 ^ 2
  := compAfter_eq (by decide) (by decide) (by decide) _ 3

end Gem5Arc.FoldedParams
