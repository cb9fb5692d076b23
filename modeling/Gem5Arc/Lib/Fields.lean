import Mathlib.Tactic

/-!
# Words as lists of fields

A word of `W` bits is cut into fields of `w` bits, the least significant field first, by taking
the low bits and shifting the word down (`split`), and is put together again by shifting up and
adding the fields from the most significant one on (`join`). Both are read bit by bit: bit `j` of
the word is bit `j % w` of field `j / w`.
-/

namespace Lib

open BitVec List

variable {w W : ℕ}

/-- The `k` low fields of a word, the least significant one first. -/
def split (w : ℕ) : ℕ → BitVec W → List (BitVec w)
  | 0, _ => []
  | k + 1, v => v.setWidth w :: split w k (v >>> w)

/-- The word with the given fields, the least significant one first. -/
def join (W : ℕ) (fields : List (BitVec w)) : BitVec W :=
  fields.foldr (fun field v => (v <<< w) ||| field.setWidth W) 0#W

@[simp]
theorem length_split (k : ℕ) (v : BitVec W) :
  (split w k v).length = k
  := by
  induction k generalizing v with
  | zero => rfl
  | succ k ih => rw [split, length_cons, ih]

variable {k : ℕ} {v : BitVec W}

theorem getElem?_split {i : ℕ} (hi : i < k) (v : BitVec W) :
  (split w k v)[i]? = some ((v >>> (i * w)).setWidth w)
  := by
  induction k generalizing v i with
  | zero => omega
  | succ k ih =>
    cases i with
    | zero => simp [split]
    | succ i =>
      rw [split, getElem?_cons_succ, ih (by omega), Nat.succ_mul, Nat.add_comm, shiftRight_add]

theorem getLsbD_join (hw : 0 < w) (fields : List (BitVec w)) (j : ℕ) :
  (join W fields).getLsbD j
    = (decide (j < W) && ((fields[j / w]?).getD 0#w).getLsbD (j % w))
  := by
  induction fields generalizing j with
  | nil => simp [join]
  | cons field fields ih =>
    have hcons : join W (field :: fields) = (join W fields <<< w) ||| field.setWidth W := rfl
    rw [hcons, getLsbD_or, getLsbD_shiftLeft, getLsbD_setWidth, ih]
    by_cases hjw : j < w
    · rw [Nat.div_eq_of_lt hjw, Nat.mod_eq_of_lt hjw]
      simp [hjw]
    · have hdiv : j / w = (j - w) / w + 1 := by
        rw [← Nat.add_div_right _ hw, Nat.sub_add_cancel (by omega)]
      have hmod : j % w = (j - w) % w := Nat.mod_eq_sub_mod (by omega)
      have hlt : j < W → j - w < W := by omega
      rw [getLsbD_of_ge field j (by omega), hdiv, hmod, getElem?_cons_succ]
      by_cases hjW : j < W
      · simp [hjW, hjw, hlt hjW]
      · simp [hjW]

/-- A word is put together again from its fields. -/
theorem join_split (hw : 0 < w) (hk : W ≤ k * w) (v : BitVec W) :
  join W (split w k v) = v
  := by
  apply eq_of_getLsbD_eq
  intro j hj
  have hfield : j / w < k := (Nat.div_lt_iff_lt_mul hw).mpr (by omega)
  rw [getLsbD_join hw, getElem?_split hfield, Option.getD_some, getLsbD_setWidth,
    getLsbD_ushiftRight, decide_eq_true (Nat.mod_lt j hw), Bool.true_and, Nat.div_add_mod',
    decide_eq_true hj, Bool.true_and]

/-- A word all of whose fields are the same is that field repeated. -/
theorem join_replicate (hw : 0 < w) (hk : W ≤ k * w) {field : BitVec w}
    (h : ∀ f ∈ split w k v, f = field) :
  join W (List.replicate k field) = v
  := by
  have hall : split w k v = List.replicate k field := by
    rw [eq_replicate_iff]
    exact ⟨length_split k v, h⟩
  rw [← hall, join_split hw hk]

theorem getLsbD_foldl_or (f : ℕ → BitVec W) (l : List ℕ) (v : BitVec W) (b : ℕ) :
  (l.foldl (fun v i => v ||| f i) v).getLsbD b
    = (v.getLsbD b || l.any fun i => (f i).getLsbD b)
  := by
  induction l generalizing v with
  | nil => simp
  | cons i l ih =>
    rw [foldl_cons, ih, getLsbD_or, any_cons, Bool.or_assoc]

/-- A word is the union of its fields, each shifted to its place. -/
theorem foldl_or_fields (hw : 0 < w) (hk : W ≤ k * w) {field : ℕ → BitVec w}
    (h : ∀ i < k, field i = (v >>> (i * w)).setWidth w) :
  (List.range k).reverse.foldl (fun u i => u ||| (field i).setWidth W <<< (i * w)) 0#W = v
  := by
  have hbit (i b : ℕ) (hi : i < k) (hb : b < W) :
      ((field i).setWidth W <<< (i * w)).getLsbD b = (decide (b / w = i) && v.getLsbD b) := by
    have hdiv : decide (b / w = i) = decide (i * w ≤ b ∧ b < i * w + w) := by
      apply decide_eq_decide.mpr
      rw [Nat.div_eq_iff hw]
      omega
    rw [h i hi, getLsbD_shiftLeft, getLsbD_setWidth, getLsbD_setWidth, getLsbD_ushiftRight, hdiv]
    by_cases hle : i * w ≤ b
    · by_cases hlt : b - i * w < w
      · simp [hb, hle, hlt, show b - i * w < W by omega, show b < i * w + w by omega]
      · simp [hlt, show ¬ b < i * w + w by omega]
    · simp [hle, show b < i * w by omega]
  apply eq_of_getLsbD_eq
  intro b hb
  have hfield : b / w < k := (Nat.div_lt_iff_lt_mul hw).mpr (by omega)
  rw [getLsbD_foldl_or, getLsbD_zero, Bool.false_or, any_reverse, Bool.eq_iff_iff, any_eq_true]
  constructor
  · rintro ⟨i, hi, hbi⟩
    rw [hbit i b (mem_range.mp hi) hb, Bool.and_eq_true] at hbi
    apply hbi.2
  · intro hv
    refine ⟨b / w, mem_range.mpr hfield, ?_⟩
    rw [hbit _ b hfield hb, hv, decide_eq_true rfl, Bool.true_and]

end Lib
