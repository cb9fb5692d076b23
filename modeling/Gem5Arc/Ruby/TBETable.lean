import Gem5Arc.Ruby.DataBlock
import Mathlib.Data.List.AList

/-!
# Tables of transactions

A `TBETable` has an entry for each line with a transaction, under the address of the line. Its
functions assert that the address is one of a line and that the table is not larger than it may be,
so that a table has both as fields. A lookup asserts nothing: it finds no entry for an address that
is not the address of a line.
-/

namespace Gem5Arc

open AList

variable {α : Type} {b numberOfTBEs : ℕ}

/-- A table with at most `numberOfTBEs` entries. -/
structure TBETable (α : Type) (b numberOfTBEs : ℕ) where
  map : AList fun _ : Addr => α
  aligned : ∀ addr ∈ map, makeLineAddress b addr = addr
  size_le : map.keys.length ≤ numberOfTBEs

namespace TBETable

/-- The table at the start. -/
def empty : TBETable α b numberOfTBEs where
  map := ∅
  aligned _ h := (AList.notMem_empty _ h).elim
  size_le := Nat.zero_le _

/-- `m_map.size()`. -/
def size (table : TBETable α b numberOfTBEs) : ℕ := table.map.keys.length

/-- `TBETable::lookup`, which returns a null pointer if there is no entry. -/
def lookup (table : TBETable α b numberOfTBEs) (addr : Addr) : Option α := table.map.lookup addr

/-- `TBETable::allocate`. -/
def allocate (table : TBETable α b numberOfTBEs) (addr : Addr) (entry : α) :
    Except Fault (TBETable α b numberOfTBEs) :=
  if h : makeLineAddress b addr = addr ∧ addr ∉ table.map ∧ table.size < numberOfTBEs then
    .ok {
      map := table.map.insert addr entry
      aligned := by
        intro addr' haddr'
        rcases (AList.mem_insert _).mp haddr' with rfl | haddr'
        · exact h.1
        · exact table.aligned _ haddr'
      size_le := by
        rw [AList.keys_insert, List.erase_of_not_mem (mt AList.mem_keys.mpr h.2.1)]
        exact h.2.2 }
  else .error .assertion

/-- `TBETable::deallocate`. -/
def deallocate (table : TBETable α b numberOfTBEs) (addr : Addr) :
    Except Fault (TBETable α b numberOfTBEs) :=
  if addr ∈ table.map then
    .ok {
      map := table.map.erase addr
      aligned := fun _ h => table.aligned _ (AList.mem_erase.mp h).2
      size_le := by
        rw [AList.keys_erase]
        exact (List.length_erase_le).trans table.size_le }
  else .error .assertion

/-- The fields of an entry are set. -/
def modify (table : TBETable α b numberOfTBEs) (addr : Addr) (f : α → α) :
    TBETable α b numberOfTBEs :=
  match h : table.map.lookup addr with
  | none => table
  | some entry =>
    have haddr : addr ∈ table.map := by
      rw [← AList.lookup_isSome, h]
      rfl
    { map := table.map.insert addr (f entry)
      aligned := by
        intro addr' haddr'
        rcases (AList.mem_insert _).mp haddr' with rfl | haddr'
        · exact table.aligned _ haddr
        · exact table.aligned _ haddr'
      size_le := by
        rw [AList.keys_insert, List.length_cons,
          List.length_erase_add_one (AList.mem_keys.mp haddr)]
        exact table.size_le }

variable {table table' : TBETable α b numberOfTBEs} {addr addr' : Addr} {entry : α}

/-- An entry is kept under the address of a line. -/
theorem aligned_of_lookup (h : table.lookup addr = some entry) :
  makeLineAddress b addr = addr
  := by
  apply table.aligned
  rw [← lookup_isSome]
  exact Option.isSome_of_mem h

theorem allocate_eq_ok (h : table.allocate addr entry = .ok table') :
  makeLineAddress b addr = addr ∧ table.lookup addr = none
    ∧ (∀ addr', table'.lookup addr' = if addr' = addr then some entry else table.lookup addr')
  := by
  rw [allocate] at h
  split_ifs at h with hassert
  cases h
  refine ⟨hassert.1, lookup_eq_none.mpr hassert.2.1, ?_⟩
  intro addr'
  split_ifs with haddr
  · rw [haddr]
    apply lookup_insert
  · apply lookup_insert_ne haddr

/-- When an entry can be allocated. -/
theorem exists_allocate_eq_ok_iff :
  (∃ table', table.allocate addr entry = .ok table')
    ↔ makeLineAddress b addr = addr ∧ table.lookup addr = none ∧ table.size < numberOfTBEs
  := by
  rw [allocate, lookup, lookup_eq_none]
  split_ifs with hassert
  · simp [hassert]
  · simp [hassert]

theorem deallocate_eq_ok (h : table.deallocate addr = .ok table') :
  (table.lookup addr).isSome
    ∧ (∀ addr', table'.lookup addr' = if addr' = addr then none else table.lookup addr')
  := by
  rw [deallocate] at h
  split_ifs at h with hassert
  cases h
  refine ⟨lookup_isSome.mpr hassert, ?_⟩
  intro addr'
  split_ifs with haddr
  · rw [haddr]
    apply lookup_erase
  · apply lookup_erase_ne haddr

theorem exists_deallocate_eq_ok (h : table.lookup addr = some entry) :
  ∃ table', table.deallocate addr = .ok table'
  := by
  rw [deallocate, if_pos]
  · exact ⟨_, rfl⟩
  · rw [← lookup_isSome]
    exact Option.isSome_of_mem h

theorem lookup_modify (f : α → α) :
  (table.modify addr f).lookup addr'
    = if addr' = addr then (table.lookup addr').map f else table.lookup addr'
  := by
  rw [modify]
  split
  · next hnone =>
      split_ifs with haddr
      · rw [haddr, lookup, hnone]
        rfl
      · rfl
  · next entry hsome =>
      split_ifs with haddr
      · rw [haddr, lookup, lookup, lookup_insert, hsome]
        rfl
      · apply lookup_insert_ne haddr

end TBETable

end Gem5Arc
