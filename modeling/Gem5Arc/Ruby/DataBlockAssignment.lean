import Gem5Arc.Basic

/-!
# Assignments of data blocks

The assignment of data blocks of `mem/ruby/common/DataBlock.cc`, with the logs of their atomic
operations. The blocks are objects of a store, so that one can be assigned to itself. The loop over
the log runs with fuel. An array is a function, of which the first bytes count.
-/

namespace Gem5Arc

structure LoggedBlock where
  data : ℕ → BitVec 8
  isAlloc : Bool
  blockSize : ℕ
  atomicLog : List (ℕ → BitVec 8)

namespace LoggedBlock

open Function List

def memcpy (dest source : ℕ → BitVec 8) (n : ℕ) : ℕ → BitVec 8 :=
  fun i => if i < n then source i else dest i

def alloc (a : LoggedBlock) : Except Fault LoggedBlock := do
  assert (!a.isAlloc)
  if a.blockSize = 0 then pure a
  else pure { a with data := fun _ => 0, isAlloc := true }

/-- The bytes agree, and the logs have as many entries, which agree. -/
def equal (a obj : LoggedBlock) : Except Fault Bool := do
  assert a.isAlloc
  assert (0 < a.blockSize)
  pure ((∀ i < a.blockSize, a.data i = obj.data i)
    ∧ a.atomicLog.Forall₂ (fun x y => ∀ i < a.blockSize, x i = y i) obj.atomicLog : Bool)

variable {O : Type} [DecidableEq O] (this obj : O)

/-- The loop that copies the log, from the entry `i` on. -/
def copyLog (blockBytes : ℕ) : ℕ → ℕ → (O → LoggedBlock) → Except Fault (O → LoggedBlock)
  | 0, _, _ => .error .outOfFuel
  | fuel + 1, i, store =>
    match (store obj).atomicLog[i]? with
    | none => .ok store
    | some entry => copyLog blockBytes fuel (i + 1) (update store this { store this with
        atomicLog := (store this).atomicLog ++ [memcpy (fun _ => 0) entry blockBytes] })

/-- The part of the assignment after the block is allocated. -/
def copy (fuel : ℕ) (store : O → LoggedBlock) : Except Fault (O → LoggedBlock) := do
  let a := store this
  assert (0 < a.blockSize)
  copyLog this obj a.blockSize fuel 0
    (update store this { a with data := memcpy a.data (store obj).data a.blockSize })

/-- `operator=`. -/
def assign (fuel : ℕ) (store : O → LoggedBlock) : Except Fault (O → LoggedBlock) := do
  let blockSize := (store obj).blockSize
  if (store this).isAlloc && (store this).blockSize ≠ blockSize then
    let a ← alloc { store this with blockSize }
    copy this obj fuel (update store this a)
  else if !(store this).isAlloc then
    let a ← alloc { store this with blockSize }
    if blockSize = 0 then pure (update store this a) else copy this obj fuel (update store this a)
  else copy this obj fuel store

variable {this obj} {store t : O → LoggedBlock} {blockBytes i : ℕ}

/-- A log that is copied to itself never ends. -/
theorem copyLog_self (hi : i < (store this).atomicLog.length) (fuel : ℕ) :
  copyLog this this blockBytes fuel i store = .error .outOfFuel
  := by
  induction fuel generalizing i store with
  | zero => rfl
  | succ fuel ih =>
    rw [copyLog, getElem?_eq_getElem hi]
    apply ih
    rw [update_self, length_append]
    exact Nat.add_lt_add_right hi 1

/-- The log of another block is copied behind the entries that are there. -/
theorem copyLog_eq_ok (hne : obj ≠ this) {fuel : ℕ} (hi : i ≤ (store obj).atomicLog.length) :
  copyLog this obj blockBytes fuel i store = .ok t
    ↔ (store obj).atomicLog.length < fuel + i ∧ update store this { store this with
        atomicLog := (store this).atomicLog
          ++ ((store obj).atomicLog.drop i).map (memcpy (fun _ => 0) · blockBytes) } = t
  := by
  induction fuel generalizing i store with
  | zero =>
    constructor
    · nofun
    · rintro ⟨h, -⟩
      omega
  | succ fuel ih =>
    rw [copyLog]
    cases hentry : (store obj).atomicLog[i]? with
    | none =>
      rw [getElem?_eq_none_iff] at hentry
      rw [drop_eq_nil_of_le hentry, map_nil, append_nil, update_eq_self]
      simp
      omega
    | some e =>
      obtain ⟨hlt, rfl⟩ := List.getElem?_eq_some_iff.mp hentry
      dsimp only
      rw [ih, update_of_ne hne, update_self, update_idem, append_assoc, singleton_append,
        drop_eq_getElem_cons hlt, map_cons, Nat.add_right_comm fuel, Nat.add_assoc]
      rw [update_of_ne hne]
      exact hlt

theorem equal_eq_ok {a b : LoggedBlock} (ha : a.isAlloc = true) (hpos : 0 < a.blockSize) :
  equal a b = .ok true ↔ (∀ i < a.blockSize, a.data i = b.data i)
    ∧ a.atomicLog.Forall₂ (fun x y => ∀ i < a.blockSize, x i = y i) b.atomicLog
  := by
  simp [equal, ha, hpos, pure_eq_ok]

section

variable (hthis : (store this).isAlloc = true) (hpos : 0 < (store this).blockSize)

include hthis hpos

theorem assign_eq (hsize : (store this).blockSize = (store obj).blockSize) (fuel : ℕ) :
  assign this obj fuel store = copyLog this obj (store this).blockSize fuel 0
    (update store this { store this with
      data := memcpy (store this).data (store obj).data (store this).blockSize })
  := by
  simp [assign, copy, hthis, hsize, hsize ▸ hpos]

/-- The assignment ends, makes the blocks equal and keeps the other one exactly if they are of one
size and the log that is assigned to is empty. -/
theorem assign_equal_iff :
  (∃ fuel t, assign this obj fuel store = .ok t ∧ equal (t this) (t obj) = .ok true
      ∧ t obj = store obj)
    ↔ (store this).blockSize = (store obj).blockSize ∧ (store this).atomicLog = []
  := by
  by_cases hsize : (store this).blockSize = (store obj).blockSize
  · simp only [assign_eq hthis hpos hsize, and_iff_right hsize]
    by_cases hne : obj = this
    · subst hne
      have hself : memcpy (store obj).data (store obj).data (store obj).blockSize
          = (store obj).data := funext fun _ => ite_self _
      rw [hself, update_eq_self]
      cases hlog : (store obj).atomicLog with
      | nil =>
        refine iff_of_true ⟨1, store, ?_, ?_, rfl⟩ rfl
        · rw [copyLog, hlog]
          rfl
        · simp [equal_eq_ok hthis hpos, hlog]
      | cons e l =>
        have hlt : 0 < (store obj).atomicLog.length := by
          rw [hlog]
          exact Nat.succ_pos _
        simp [copyLog_self hlt]
    · simp only [copyLog_eq_ok hne (Nat.zero_le _), update_of_ne hne, update_self, update_idem,
        drop_zero]
      constructor
      · rintro ⟨fuel, t, ⟨-, rfl⟩, hequal, -⟩
        rw [update_self, update_of_ne hne, equal_eq_ok (by exact hthis) (by exact hpos)] at hequal
        simpa using hequal.2.length_eq
      · intro hlog
        refine ⟨_, _, ⟨Nat.lt_succ_self _, rfl⟩, ?_, update_of_ne hne ..⟩
        rw [update_self, update_of_ne hne, equal_eq_ok (by exact hthis) (by exact hpos)]
        simp +contextual [memcpy, hlog, forall₂_map_left_iff, forall₂_same]
  · have hfails (fuel : ℕ) : assign this obj fuel store = .error .assertion := by
      simp [assign, hthis, hsize, alloc, assert]
    simp [hfails, hsize]

end

/-- An allocated block of one byte with a log. -/
def blockOf (byte : BitVec 8) (log : List (BitVec 8)) : LoggedBlock :=
  ⟨fun _ => byte, true, 1, log.map fun b _ => b⟩

theorem assign_equal_iff_logged :
  ∃ fuel t, assign true false fuel (cond · (blockOf 1 []) (blockOf 2 [3])) = .ok t
    ∧ equal (t true) (t false) = .ok true ∧ t false = blockOf 2 [3]
  := (assign_equal_iff rfl (Nat.zero_lt_one)).mpr ⟨rfl, rfl⟩

/-- The entries of the log stay, and a log that is assigned to itself never ends. -/
theorem assign_unequal :
  (∃ t, assign true false 2 (cond · (blockOf 1 [4]) (blockOf 2 [3])) = .ok t
      ∧ equal (t true) (t false) = .ok false)
    ∧ ∀ fuel, assign () () fuel (fun _ => blockOf 1 [4]) = .error .outOfFuel
  := by
  refine ⟨⟨_, rfl, rfl⟩, ?_⟩
  intro fuel
  rw [assign_eq rfl Nat.zero_lt_one rfl, copyLog_self (by decide)]

end LoggedBlock

end Gem5Arc
