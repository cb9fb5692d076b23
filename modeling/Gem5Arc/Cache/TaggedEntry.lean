import Gem5Arc.Basic

/-!
# Entries with a tag

An entry is looked up with an address and a secure bit. It has the tag of the address, which it
extracts with a function that has to be registered with it.
-/

namespace Gem5Arc

/-- The address that marks an entry without a tag. -/
def maxAddr : Addr := BitVec.allOnes 64

/-- What an entry is looked up with. -/
structure KeyType where
  address : Addr
  secure : Bool := false

/-- An entry with a tag. -/
structure TaggedEntry where
  valid : Bool := false
  secure : Bool := false
  tag : Addr := maxAddr

/-- Write the tag of an entry: `TaggedEntry::insert` after `setValid`. -/
def TaggedEntry.withTag (tag : Addr) (key : KeyType) (entry : TaggedEntry) : TaggedEntry :=
  { entry with tag := tag, secure := entry.secure || key.secure }

/-- A tag that is cut out of an address is not the mark. -/
theorem shift_ne_maxAddr {addr : Addr} (h : addr ≠ maxAddr) (k : ℕ) :
  addr >>> k ≠ maxAddr
  := by
  rcases Nat.eq_zero_or_pos k with rfl | hk
  · rw [BitVec.ushiftRight_zero]
    apply h
  · intro hmax
    have hbit := congrArg (BitVec.getLsbD · 63) hmax
    simp only [BitVec.getLsbD_ushiftRight, maxAddr] at hbit
    rw [BitVec.getLsbD_of_ge _ _ (by omega)] at hbit
    cases hbit

end Gem5Arc
