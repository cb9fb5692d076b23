import Gem5Arc.Basic
import Gem5Arc.Lib.Update

/-!
# Register renaming

The rename stage of the out-of-order CPU (`cpu/o3/rename.cc`, `rename_map.hh`, `free_list.hh`) maps
the architectural registers of a thread to physical registers. A destination register of an
instruction gets a physical register from the free list of its class, and the history buffer
records the new register and the previous one. When an instruction is squashed, its mappings are
undone and the new registers wait in `freeingInProgress` for the squash to be over; when it is
committed, the previous registers go to the free list. A register with pinned writes left is not
renamed, and the registers of the miscellaneous class never are.

A class has `N c` architectural registers. The threads share the free lists. The scoreboard and the
counts of pinned writes to complete are left out.
-/

namespace Gem5Arc.O3

/-! ### Registers -/

inductive RegClass where
  | int | float | vec | vecElem | vecPred | mat | cc
deriving DecidableEq, Repr

instance : Fintype RegClass where
  elems := {.int, .float, .vec, .vecElem, .vecPred, .mat, .cc}
  complete := by
    intro c
    cases c <;> decide

/-- A physical register of a class, a miscellaneous register, or the invalid one. -/
inductive PhysReg where
  | reg (c : RegClass) (index : ℕ)
  | misc (index : ℕ)
  | invalid
deriving DecidableEq, Repr

def PhysReg.is (p : PhysReg) (c : RegClass) : Bool :=
  match p with
  | .reg c' _ => c' = c
  | _ => false

variable {N : RegClass → ℕ}

/-- An architectural register of a class that is renamed. -/
abbrev ArchReg (N : RegClass → ℕ) : Type := Σ c, Fin (N c)

inductive RegId (N : RegClass → ℕ) where
  | reg (a : ArchReg N)
  | misc (index : ℕ)
  | invalid

/-- A destination register of an instruction, after flattening. -/
structure Dest (N : RegClass → ℕ) where
  reg : RegId N
  numPinnedWrites : ℤ := 0

structure DynInst (N : RegClass → ℕ) where
  seqNum : ℕ
  dests : List (Dest N)

/-! ### The state of the stage -/

structure RenameHistory (N : RegClass → ℕ) where
  instSeqNum : ℕ
  archReg : RegId N
  newPhysReg : PhysReg
  prevPhysReg : PhysReg

/-- What a thread has of its own. The history buffer has the newest entry first. -/
structure Thread (N : RegClass → ℕ) where
  map : ArchReg N → PhysReg
  historyBuffer : List (RenameHistory N) := []
  freeingInProgress : List PhysReg := []

/-- What the threads share: the free lists, and the pinned writes of the physical registers. -/
structure Pool where
  freeLists : RegClass → List PhysReg
  numPinnedWrites : PhysReg → ℤ := fun _ => 0

/-- A thread and what it shares with the others. -/
structure View (N : RegClass → ℕ) where
  thread : Thread N
  pool : Pool

def Pool.getReg (pool : Pool) (c : RegClass) : Except Fault (PhysReg × Pool) :=
  match pool.freeLists c with
  | [] => .error .assertion
  | p :: l => .ok (p, { pool with freeLists := Function.update pool.freeLists c l })

/-- There is no free list for the miscellaneous class. -/
def Pool.addReg (pool : Pool) (p : PhysReg) : Except Fault Pool :=
  match p with
  | .reg c _ =>
    .ok { pool with freeLists := Function.update pool.freeLists c (pool.freeLists c ++ [p]) }
  | _ => .error .outOfBounds

def Pool.addRegs : List PhysReg → Pool → Except Fault Pool
  | [], pool => .ok pool
  | p :: l, pool => do
      let pool ← pool.addReg p
      Pool.addRegs l pool

/-! ### Renaming -/

/-- `SimpleRenameMap::rename`: the new register and the previous one. -/
def renameReg (a : ArchReg N) (numPinnedWrites : ℤ) (v : View N) :
    Except Fault ((PhysReg × PhysReg) × View N) :=
  let prev := v.thread.map a
  if 0 < v.pool.numPinnedWrites prev then do
    assert (numPinnedWrites = 0)
    let pool := { v.pool with
      numPinnedWrites :=
        Function.update v.pool.numPinnedWrites prev (v.pool.numPinnedWrites prev - 1) }
    .ok ((prev, prev), { v with pool := pool })
  else do
    let (renamed, pool) ← v.pool.getReg a.1
    let pool := { pool with
      numPinnedWrites := Function.update pool.numPinnedWrites renamed numPinnedWrites }
    let thread := { v.thread with map := Function.update v.thread.map a renamed }
    .ok ((renamed, prev), ⟨thread, pool⟩)

/-- `UnifiedRenameMap::rename`. -/
def rename (d : Dest N) (v : View N) : Except Fault ((PhysReg × PhysReg) × View N) :=
  match d.reg with
  | .reg a => renameReg a d.numPinnedWrites v
  | .misc index => .ok ((.misc index, .misc index), v)
  | .invalid => .ok ((.invalid, .invalid), v)

def Thread.record (th : Thread N) (h : RenameHistory N) : Thread N :=
  { th with historyBuffer := h :: th.historyBuffer }

/-- One turn of the loop of `renameDestRegs`. -/
def renameDestReg (seqNum : ℕ) (d : Dest N) (v : View N) : Except Fault (View N) := do
  let (r, v) ← rename d v
  .ok { v with thread := v.thread.record ⟨seqNum, d.reg, r.1, r.2⟩ }

def renameDestRegs (seqNum : ℕ) : List (Dest N) → View N → Except Fault (View N)
  | [], v => .ok v
  | d :: ds, v => do
      let v ← renameDestReg seqNum d v
      renameDestRegs seqNum ds v

/-- Whether a destination register is of a class that is renamed. -/
def Dest.ofClass (d : Dest N) (c : RegClass) : Bool :=
  match d.reg with
  | .reg a => a.1 = c
  | _ => false

/-- Whether there are free registers for all destinations. -/
def canRename (dests : List (Dest N)) (pool : Pool) : Prop :=
  ∀ c, dests.countP (·.ofClass c) ≤ (pool.freeLists c).length

/-! ### Squashing -/

/-- `UnifiedRenameMap::setEntry`. -/
def setEntry (r : RegId N) (p : PhysReg) (m : ArchReg N → PhysReg) :
    Except Fault (ArchReg N → PhysReg) :=
  match r with
  | .reg a => do
      assert (p.is a.1)
      .ok (Function.update m a p)
  | .misc index => do
      assert (p = .misc index)
      .ok m
  | .invalid => do
      assert (p = .invalid)
      .ok m

/-- Undo what the newest entry of the history has done. -/
def Thread.undoEntry (h : RenameHistory N) (th : Thread N) : Except Fault (Thread N) :=
  if h.newPhysReg ≠ h.prevPhysReg then do
    let map ← setEntry h.archReg h.prevPhysReg th.map
    .ok { th with map := map, freeingInProgress := th.freeingInProgress ++ [h.newPhysReg] }
  else .ok th

/-- The loop of `doSquash`, over the history that is left. -/
def squashLoop (squashed : ℕ) : List (RenameHistory N) → Thread N → Except Fault (Thread N)
  | [], th => .ok { th with historyBuffer := [] }
  | h :: hs, th =>
    if squashed < h.instSeqNum then do
      let th ← th.undoEntry h
      squashLoop squashed hs th
    else .ok { th with historyBuffer := h :: hs }

def doSquash (squashed : ℕ) (th : Thread N) : Except Fault (Thread N) :=
  squashLoop squashed th.historyBuffer th

/-! ### Committing -/

/-- The loop of `removeFromHistory`, over the history that is left, oldest entry first. -/
def commitLoop (seqNum : ℕ) :
    List (RenameHistory N) → Pool → Except Fault (List (RenameHistory N) × Pool)
  | [], pool => .ok ([], pool)
  | h :: hs, pool =>
    if h.instSeqNum ≤ seqNum then do
      let pool ← if h.newPhysReg ≠ h.prevPhysReg then pool.addReg h.prevPhysReg else .ok pool
      commitLoop seqNum hs pool
    else .ok (h :: hs, pool)

def removeFromHistory (seqNum : ℕ) (v : View N) : Except Fault (View N) := do
  let (left, pool) ← commitLoop seqNum v.thread.historyBuffer.reverse v.pool
  .ok ⟨{ v.thread with historyBuffer := left.reverse }, pool⟩

/-- The registers of squashed instructions go to the free lists. -/
def releaseFreeing (v : View N) : Except Fault (View N) := do
  let pool ← v.pool.addRegs v.thread.freeingInProgress
  .ok ⟨{ v.thread with freeingInProgress := [] }, pool⟩

/-! ### The places of the physical registers -/

/-- The previous registers of the entries that have changed the map. -/
def displaced (history : List (RenameHistory N)) : List PhysReg :=
  (history.filter fun h => h.newPhysReg ≠ h.prevPhysReg).map (·.prevPhysReg)

/-- The physical registers in the image of the map, in `freeingInProgress`, and those displaced. -/
def Thread.places (th : Thread N) : Multiset PhysReg :=
  (∑ a, {th.map a}) + ↑th.freeingInProgress + ↑(displaced th.historyBuffer)

def Pool.places (pool : Pool) : Multiset PhysReg := ∑ c, ↑(pool.freeLists c)

def View.places (v : View N) : Multiset PhysReg := v.thread.places + v.pool.places

/-- Mapping an architectural register anew replaces its physical register in the image. -/
theorem image_update (m : ArchReg N → PhysReg) (a : ArchReg N) (p : PhysReg) :
  (∑ a', ({Function.update m a p a'} : Multiset PhysReg)) + {m a} = (∑ a', {m a'}) + {p}
  := Lib.sum_update (fun q => ({q} : Multiset PhysReg)) m a p

/-- Changing one free list. -/
theorem free_update (pool : Pool) (c : RegClass) (l : List PhysReg) :
  Pool.places { pool with freeLists := Function.update pool.freeLists c l } + ↑(pool.freeLists c)
    = pool.places + ↑l
  := Lib.sum_update (fun q : List PhysReg => (↑q : Multiset PhysReg)) pool.freeLists c l

end Gem5Arc.O3
