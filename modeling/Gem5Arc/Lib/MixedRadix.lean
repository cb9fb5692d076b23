import Mathlib.Tactic

/-!
# Mixed radices

The digits of a number in a mixed radix, from the lowest one, are what is left over by successive
divisions. When some of the digits are given, the numbers with these digits are as many as there are
choices for the other ones.
-/

namespace Lib.MixedRadix

open Finset

/-- Radices, with the digits that are given. -/
abbrev DigitPattern : Type := List (ℕ × Option ℕ)

namespace DigitPattern

/-- The number has the given digits. -/
def Matches : DigitPattern → ℕ → Prop
  | [], _ => True
  | (d, digit) :: l, n => (∀ v ∈ digit, n % d = v) ∧ Matches l (n / d)

instance decidableMatches : ∀ (l : DigitPattern) (n : ℕ), Decidable (l.Matches n)
  | [], _ => inferInstanceAs (Decidable True)
  | (_, none) :: l, _ =>
    have := decidableMatches l
    inferInstanceAs (Decidable (_ ∧ _))
  | (_, some _) :: l, _ =>
    have := decidableMatches l
    inferInstanceAs (Decidable (_ ∧ _))

/-- How many numbers have digits in these radices. -/
def size (l : DigitPattern) : ℕ := (l.map Prod.fst).prod

/-- How many choices there are for the digits that are not given. -/
def choices (l : DigitPattern) : ℕ := (l.map fun x => if x.2 = none then x.1 else 1).prod

/-- The given digits are below their radices. -/
def Valid (l : DigitPattern) : Prop := ∀ x ∈ l, ∀ v ∈ x.2, v < x.1

private theorem card_digit {d : ℕ} {digit : Option ℕ} (h : ∀ v ∈ digit, v < d) :
  ((Finset.range d).filter fun x => ∀ v ∈ digit, x = v).card = if digit = none then d else 1
  := by
  cases digit with
  | none => simp
  | some v =>
    have hsingle : (Finset.range d).filter (fun x => ∀ w ∈ some v, x = w) = {v} := by
      ext x
      simp only [Finset.mem_filter, Finset.mem_range, Option.mem_some_iff, forall_eq',
        Finset.mem_singleton]
      constructor
      · apply And.right
      · rintro rfl
        exact ⟨h x rfl, rfl⟩
    rw [hsingle]
    rfl

theorem card_matches {l : DigitPattern} (hl : l.Valid) :
  ((Finset.range l.size).filter l.Matches).card = l.choices
  := by
  induction l with
  | nil => rfl
  | cons x l ih =>
    obtain ⟨d, digit⟩ := x
    obtain ⟨hdigit, hl⟩ := List.forall_mem_cons.mp hl
    have hmod {a m : ℕ} (ha : a < d) : (a + d * m) % d = a := by
      rw [Nat.add_mul_mod_self_left, Nat.mod_eq_of_lt ha]
    have hdiv {a m : ℕ} (ha : a < d) : (a + d * m) / d = m := by
      rw [Nat.add_mul_div_left _ _ (by omega), Nat.div_eq_of_lt ha, Nat.zero_add]
    have hcard : ((Finset.range (size ((d, digit) :: l))).filter
        (Matches ((d, digit) :: l))).card
        = (((Finset.range d).filter fun x => ∀ v ∈ digit, x = v)
          ×ˢ ((Finset.range (size l)).filter (Matches l))).card := by
      apply card_nbij' (fun n => (n % d, n / d)) (fun x => x.1 + d * x.2)
      · intro n hn
        simp only [coe_filter, mem_range, Set.mem_ofPred_eq, size, List.map_cons,
          List.prod_cons] at hn
        have hd : 0 < d := by
          apply Nat.pos_of_ne_zero
          rintro rfl
          simp at hn
        simp only [coe_product, coe_filter, mem_range, Set.mem_prod, Set.mem_ofPred_eq]
        exact ⟨⟨Nat.mod_lt n hd, hn.2.1⟩, Nat.div_lt_of_lt_mul hn.1, hn.2.2⟩
      · rintro ⟨a, m⟩ h
        simp only [coe_product, coe_filter, mem_range, Set.mem_prod, Set.mem_ofPred_eq] at h
        obtain ⟨⟨ha, hdigits⟩, hm, hmatches⟩ := h
        simp only [coe_filter, mem_range, Set.mem_ofPred_eq, size, List.map_cons,
          List.prod_cons, Matches, hmod ha, hdiv ha]
        refine ⟨?_, hdigits, hmatches⟩
        calc a + d * m < d + d * m := Nat.add_lt_add_right ha _
          _ = d * (m + 1) := by rw [Nat.mul_succ, Nat.add_comm]
          _ ≤ d * size l := Nat.mul_le_mul_left d hm
      · intro n _
        apply Nat.mod_add_div
      · rintro ⟨a, m⟩ h
        simp only [coe_product, coe_filter, mem_range, Set.mem_prod, Set.mem_ofPred_eq] at h
        exact Prod.ext (hmod h.1.1) (hdiv h.1.1)
    rw [hcard, card_product, card_digit hdigit, ih hl]
    rfl

end DigitPattern

end Lib.MixedRadix
