import Mathlib.Data.Nat.Bitwise
import Mathlib.Tactic

/-!
# Code trees

A binary tree gives each of its leaves a code word: the path that leads to it, where `false` is a
step to the left and `true` one to the right. No code word is the start of another one
(`CodeTree.eq_of_isPrefix`).

A code word can be kept as a number and a length (`bitsOf_wordValue`). The number alone does not
tell it from another one that has zeros in front (`eq_of_wordValue`).
-/

universe u v w

namespace Lib

open List

/-! ### Words and their numbers -/

/-- The number a word stands for, most significant bit first. -/
def wordValue (word : List Bool) : ℕ := word.foldl (fun n b => 2 * n + b.toNat) 0

/-- The lowest bits of a number, most significant bit first. -/
def bitsOf (n length : ℕ) : List Bool :=
  (List.range length).map fun i => n.testBit (length - 1 - i)

theorem wordValue_concat (word : List Bool) (b : Bool) :
  wordValue (word ++ [b]) = 2 * wordValue word + b.toNat
  := by
  rw [wordValue, foldl_concat]
  rfl

theorem wordValue_cons (b : Bool) (word : List Bool) :
  wordValue (b :: word) = b.toNat * 2 ^ word.length + wordValue word
  := by
  induction word using List.reverseRecOn with
  | nil => simp [wordValue]
  | append_singleton word c ih =>
    rw [← cons_append, wordValue_concat, wordValue_concat, ih, List.length_append, length_singleton,
      Nat.pow_succ, Nat.mul_add, Nat.add_assoc, Nat.mul_left_comm, Nat.mul_comm 2]

theorem wordValue_lt (word : List Bool) :
  wordValue word < 2 ^ word.length
  := by
  induction word with
  | nil => simp [wordValue]
  | cons b word ih =>
    have hb : b.toNat * 2 ^ word.length ≤ 1 * 2 ^ word.length :=
      Nat.mul_le_mul_right _ (Bool.toNat_le b)
    rw [wordValue_cons, length_cons, Nat.pow_succ]
    omega

/-- Zeros in front of a word do not change its number. -/
theorem wordValue_replicate_append (k : ℕ) (word : List Bool) :
  wordValue (List.replicate k false ++ word) = wordValue word
  := by
  induction k with
  | zero => rfl
  | succ k ih =>
    rw [replicate_succ, cons_append, wordValue_cons, ih]
    simp

/-- Two words with one number differ in the zeros in front. -/
theorem eq_of_wordValue {p q : List Bool} (h : wordValue p = wordValue q)
    (hle : p.length ≤ q.length) :
  q = List.replicate (q.length - p.length) false ++ p
  := by
  induction q generalizing p with
  | nil => simpa using hle
  | cons b q ih =>
    have hq := wordValue_lt q
    rw [wordValue_cons] at h
    rcases Nat.lt_or_ge q.length p.length with hlt | hge
    · cases p with
      | nil => simp at hlt
      | cons c p =>
        have hlength : p.length = q.length := by
          simp only [length_cons] at hle hlt
          omega
        have hp := wordValue_lt p
        rw [wordValue_cons, hlength] at h
        rw [hlength] at hp
        have hc : c = b := by
          cases b <;> cases c <;> simp at h ⊢ <;> omega
        subst hc
        have htail := ih (Nat.add_left_cancel h) (by omega)
        rw [hlength, Nat.sub_self] at htail
        simp only [length_cons, hlength, Nat.sub_self]
        rw [htail]
        rfl
    · have hp := Nat.lt_of_lt_of_le (wordValue_lt p) (Nat.pow_le_pow_right (by decide) hge)
      have hb : b = false := by
        cases b with
        | false => rfl
        | true =>
          simp only [Bool.toNat_true, Nat.one_mul] at h
          omega
      subst hb
      have htail := ih (by simpa using h) hge
      rw [length_cons, Nat.succ_sub hge, replicate_succ, cons_append, ← htail]

/-- A word is what is left of it when it is kept as a number and a length. -/
theorem bitsOf_wordValue (word : List Bool) :
  bitsOf (wordValue word) word.length = word
  := by
  induction word using List.reverseRecOn with
  | nil => rfl
  | append_singleton word b ih =>
    rw [bitsOf, List.length_append, length_singleton, range_succ, map_append, wordValue_concat]
    congr 1
    · conv_rhs => rw [← ih, bitsOf]
      apply map_congr_left
      intro i hi
      have hlt := mem_range.mp hi
      rw [show word.length + 1 - 1 - i = word.length - 1 - i + 1 by omega, Nat.testBit_succ]
      congr 1
      have hb := Bool.toNat_le b
      omega
    · rw [map_singleton, Nat.add_sub_cancel, Nat.sub_self, Nat.testBit_zero]
      cases b <;> simp

/-! ### Trees -/

/-- A binary tree with data at its leaves. -/
inductive CodeTree (α : Type u) where
  | leaf (a : α)
  | node (left right : CodeTree α)

namespace CodeTree

variable {α : Type u} {t : CodeTree α}

/-- The code words and the data of the leaves, from right to left. -/
def words : CodeTree α → List (List Bool × α)
  | leaf a => [([], a)]
  | node left right =>
    right.words.map (fun p => (true :: p.1, p.2)) ++ left.words.map fun p => (false :: p.1, p.2)

/-- The data of the leaves, from right to left. -/
def leaves : CodeTree α → List α
  | leaf a => [a]
  | node left right => right.leaves ++ left.leaves

theorem map_snd_words (t : CodeTree α) :
  t.words.map Prod.snd = t.leaves
  := by
  induction t with
  | leaf a => rfl
  | node left right ihleft ihright =>
    rw [words, leaves, map_append, map_map, map_map, ← ihleft, ← ihright]
    rfl

/-- No code word is the start of another one. -/
theorem eq_of_isPrefix {p q : List Bool × α} (hp : p ∈ t.words) (hq : q ∈ t.words)
    (h : p.1 <+: q.1) :
  p = q
  := by
  induction t generalizing p q with
  | leaf a =>
    rw [words, mem_singleton] at hp hq
    rw [hp, hq]
  | node left right ihleft ihright =>
    rw [words, mem_append, mem_map, mem_map] at hp hq
    rcases hp with ⟨p, hp, rfl⟩ | ⟨p, hp, rfl⟩
    · rcases hq with ⟨q, hq, rfl⟩ | ⟨q, hq, rfl⟩
      · rw [ihright hp hq (cons_prefix_cons.mp h).2]
      · exact absurd (cons_prefix_cons.mp h).1 (by decide)
    · rcases hq with ⟨q, hq, rfl⟩ | ⟨q, hq, rfl⟩
      · exact absurd (cons_prefix_cons.mp h).1 (by decide)
      · rw [ihleft hp hq (cons_prefix_cons.mp h).2]

end CodeTree

/-! ### Tables that are filled one entry after another -/

/-- In a table that is filled from a list, a key has the value of some entry for it, or the one it
had before if there is none. -/
theorem foldl_update_cases {ι : Type u} {κ : Type v} {β : Type w} [DecidableEq κ] (key : ι → κ)
    (val : ι → β) (l : List ι) (f : κ → Option β) (a : κ) :
  (∃ e ∈ l, key e = a
      ∧ l.foldl (fun f e => Function.update f (key e) (some (val e))) f a = some (val e))
    ∨ ((∀ e ∈ l, key e ≠ a)
      ∧ l.foldl (fun f e => Function.update f (key e) (some (val e))) f a = f a)
  := by
  induction l using List.reverseRecOn with
  | nil => exact .inr ⟨by simp, rfl⟩
  | append_singleton l e ih =>
    rw [foldl_concat]
    by_cases ha : key e = a
    · left
      exact ⟨e, by simp, ha, by rw [← ha, Function.update_self]⟩
    · rw [Function.update_of_ne (Ne.symm ha)]
      rcases ih with ⟨e', he', hkey, hvalue⟩ | ⟨hnone, hvalue⟩
      · exact .inl ⟨e', mem_append_left _ he', hkey, hvalue⟩
      · refine .inr ⟨?_, hvalue⟩
        exact forall_mem_append.mpr ⟨hnone, forall_mem_singleton.mpr ha⟩

end Lib
