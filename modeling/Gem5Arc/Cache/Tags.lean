import Gem5Arc.Arc.Policy
import Gem5Arc.Lib.Program

/-!
# The tag stores of the classic caches

The stores `BaseSetAssoc`, `SectorTags` and `CompressedTags` of `mem/cache/tags`, as far as
they deal with ARC as their replacement policy: how they make the replacement data of their
entries and tell the entries their positions (`tagsInit`), and when they call the policy
afterwards.

Operations are programs on a `TagStore`, which has all objects they point to. Replacement data
is numbered in the order in which it is made. A pointer to an entry is a `TagEntry`. The tags
and contents of blocks, statistics and partitioning are left out; inserting a block into a
sector is taken to succeed, as far as the tag of the sector is concerned. The field `resets`
is not in the code: it collects the calls of `reset` a store makes.
-/

namespace Gem5Arc

/-- A call of `ARC::reset` for the replacement data of an entry, with what it reads. -/
structure ResetCall (E : Type) where
  /-- The set numbers of the entries. -/
  getSet : E → ℕ
  /-- The entry whose replacement data is reset. -/
  entry : E
  /-- Its replacement data. -/
  data : ARCReplData E
  now : Tick
  arc : ARC

/-- Parameters of a tag store. The entries of its indexing policy are the blocks, or the
sectors, of the store; their number is `numSets * assoc`. -/
structure TagParams where
  assoc : ℕ
  numSets : ℕ
  numBlocksPerSector : ℕ
  assoc_pos : 0 < assoc
  numSets_pos : 0 < numSets
  numBlocksPerSector_pos : 0 < numBlocksPerSector

/-- The number of entries of the indexing policy. -/
def TagParams.numEntries (p : TagParams) : ℕ := p.numSets * p.assoc

inductive TagEntry where
  /-- A block, which in a sector store is a sub-block. -/
  | blk (i : ℕ)
  /-- A sector. -/
  | sector (i : ℕ)
deriving DecidableEq

/-- A replaceable entry, with the values its constructor gives. -/
structure ReplaceableEntry where
  set : ℕ := 0
  way : ℕ := 0
  /-- Which replacement data the entry has. -/
  replacementData : Option ℕ := none

structure TagStore where
  entries : TagEntry → ReplaceableEntry := fun _ => {}
  /-- The replacement data made so far. -/
  data : ℕ → ARCReplData TagEntry := fun _ => {}
  numData : ℕ := 0
  /-- Which blocks are valid. -/
  valid : ℕ → Bool := fun _ => false
  /-- The number of valid sub-blocks of a sector, an unsigned byte. -/
  validCounter : ℕ → BitVec 8 := fun _ => 0
  policy : ARC := ARC.empty
  resets : List (ResetCall TagEntry) := []

abbrev TagM : Type → Type := EStateM Fault TagStore

namespace TagStore

def getSet (s : TagStore) (e : TagEntry) : ℕ := (s.entries e).set

/-- The replacement data of an entry that has some. -/
def replacementData (s : TagStore) (e : TagEntry) : ARCReplData TagEntry :=
  match (s.entries e).replacementData with
  | none => {}
  | some d => s.data d

/-- Set both the set and the way of an entry. If it has replacement data, this is linked to
the entry: `ReplaceableEntry::setPosition`. -/
def position (set way : ℕ) (e : TagEntry) (s : TagStore) : TagStore :=
  { s with
    entries := Function.update s.entries e { s.entries e with set := set, way := way }
    data :=
      match (s.entries e).replacementData with
      | none => s.data
      | some d => Function.update s.data d { s.data d with entry := some e } }

/-- Give an entry new replacement data. -/
def instantiate (e : TagEntry) (s : TagStore) : TagStore :=
  { s with
    entries := Function.update s.entries e
      { s.entries e with replacementData := some s.numData }
    data := Function.update s.data s.numData ARC.instantiateEntry
    numData := s.numData + 1 }

/-- Give a block the replacement data of its sector. -/
def share (sector blk : TagEntry) (s : TagStore) : TagStore :=
  { s with
    entries := Function.update s.entries blk
      { s.entries blk with replacementData := (s.entries sector).replacementData } }

def setData (d : ℕ) (data : ARCReplData TagEntry) (s : TagStore) : TagStore :=
  { s with data := Function.update s.data d data }

end TagStore

namespace TagM

/-- `assert(cond)`. -/
def check (cond : Bool) : TagM Unit := if cond then pure () else throw .assertion

/-- The replacement data of an entry, which the policy follows. -/
def dataOf (e : TagEntry) : TagM ℕ := do
  let s ← get
  match (s.entries e).replacementData with
  | none => throw .nullPointer
  | some d => pure d

/-! ### Calls of the policy -/

/-- `replacementPolicy->invalidate(e->replacementData)`. -/
def policyInvalidate (e : TagEntry) : TagM Unit := do
  let d ← dataOf e
  modify fun s => s.setData d (ARC.invalidate (s.data d))

/-- `replacementPolicy->touch(e->replacementData)`. -/
def policyTouch (e : TagEntry) (now : Tick) : TagM Unit := do
  let d ← dataOf e
  modify fun s => s.setData d (ARC.touch now (s.data d))

/-- `replacementPolicy->reset(e->replacementData)`. -/
def policyReset (e : TagEntry) (now : Tick) : TagM Unit := do
  let d ← dataOf e
  modify fun s => { s with resets := ⟨s.getSet, e, s.data d, now, s.policy⟩ :: s.resets }
  let s ← get
  match ARC.reset s.getSet now (s.data d) s.policy with
  | .error f => throw f
  | .ok (data, policy) => set { s.setData d data with policy := policy }

/-- `replacementPolicy->getVictim(candidates)`. -/
def policyGetVictim (candidates : List TagEntry) (now : Tick) : TagM (Option TagEntry) := do
  let s ← get
  let (victim, policy) := ARC.getVictim s.getSet s.replacementData now candidates s.policy
  set { s with policy := policy }
  pure victim

/-! ### Positions -/

/-- The sub-blocks of a sector. -/
def subBlks (p : TagParams) (i : ℕ) : List TagEntry :=
  (List.range p.numBlocksPerSector).map fun k => .blk (i * p.numBlocksPerSector + k)

/-- Set the position of an entry; a sector passes it on to its sub-blocks. -/
def setPosition (p : TagParams) (set way : ℕ) : TagEntry → TagM Unit
  | .blk i => modify (TagStore.position set way (.blk i))
  | .sector i => do
      modify (TagStore.position set way (.sector i))
      forM (subBlks p i) fun blk => modify (TagStore.position set way blk)

/-- Link an entry to the indexing policy. -/
def setEntry (p : TagParams) (e : TagEntry) (index : ℕ) : TagM Unit := do
  let set := index / p.assoc
  let way := index % p.assoc
  check (decide (set < p.numSets))
  setPosition p set way e

end TagM

/-- The calls a cache makes to a tag store with `n` blocks. -/
inductive TagOp (n numSets : ℕ) where
  | insertBlock (i : Fin n) (now : Tick)
  | invalidate (i : Fin n)
  | moveBlock (src dest : Fin n) (now : Tick)
  | accessBlock (i : Fin n) (now : Tick)
  | findVictim (set : Fin numSets) (now : Tick)

/-! ### A set-associative store -/

namespace BaseSetAssoc

open TagM

/-- Initialize all blocks. -/
def tagsInit (p : TagParams) : TagM Unit :=
  forM (List.range p.numEntries) fun blkIndex => do
    setEntry p (.blk blkIndex) blkIndex
    modify (TagStore.instantiate (.blk blkIndex))

def insertBlock (i : ℕ) (now : Tick) : TagM Unit := do
  let s ← get
  check (!s.valid i)
  modify fun s => { s with valid := Function.update s.valid i true }
  policyReset (.blk i) now

/-- Invalidate a block. -/
def invalidate (i : ℕ) : TagM Unit := do
  let s ← get
  check (s.valid i)
  modify fun s => { s with valid := Function.update s.valid i false }
  policyInvalidate (.blk i)

/-- Move a block into an invalid one. -/
def moveBlock (src dest : ℕ) (now : Tick) : TagM Unit := do
  let s ← get
  check (!s.valid dest)
  check (s.valid src)
  modify fun s => { s with valid := Function.update (Function.update s.valid dest true) src false }
  policyInvalidate (.blk src)
  policyReset (.blk dest) now

/-- Access a block, which updates its replacement data if it is there. -/
def accessBlock (i : ℕ) (now : Tick) : TagM Unit := do
  let s ← get
  if s.valid i then policyTouch (.blk i) now else pure ()

def findVictim (p : TagParams) (set : ℕ) (now : Tick) : TagM Unit := do
  let _ ← policyGetVictim ((List.range p.assoc).map fun way => .blk (set * p.assoc + way)) now
  pure ()

/-- The operations a cache calls. -/
def run (p : TagParams) : TagOp p.numEntries p.numSets → TagM Unit
  | .insertBlock i now => insertBlock i now
  | .invalidate i => invalidate i
  | .moveBlock src dest now => moveBlock src dest now
  | .accessBlock i now => accessBlock i now
  | .findVictim set now => findVictim p set now

end BaseSetAssoc

/-! ### Stores with sectors -/

namespace SectorTags

open TagM

/-- Create the sectors of a store and their blocks. -/
def initSectors (p : TagParams) : TagM Unit :=
  forM (List.range p.numEntries) fun secBlkIndex => do
    modify (TagStore.instantiate (.sector secBlkIndex))
    forM (subBlks p secBlkIndex) fun blk => modify (TagStore.share (.sector secBlkIndex) blk)
    setEntry p (.sector secBlkIndex) secBlkIndex

/-- Initialize all blocks. -/
def tagsInit (p : TagParams) : TagM Unit := initSectors p

def sectorOf (p : TagParams) (i : ℕ) : ℕ := i / p.numBlocksPerSector

/-- Whether any of the blocks in a sector is valid. -/
def isValid (p : TagParams) (i : ℕ) (s : TagStore) : Bool :=
  s.validCounter (sectorOf p i) != 0

/-- Make a sub-block valid or invalid, and count it. -/
def setValid (p : TagParams) (i : ℕ) (valid : Bool) (s : TagStore) : TagStore :=
  { s with
    valid := Function.update s.valid i valid
    validCounter := Function.update s.validCounter (sectorOf p i)
      (if valid then s.validCounter (sectorOf p i) + 1 else s.validCounter (sectorOf p i) - 1) }

/-- Invalidate the replacement data of the sector of a block, if no block in it is valid. -/
def invalidateEmpty (p : TagParams) (i : ℕ) : TagM Unit := do
  let s ← get
  if isValid p i s then pure () else policyInvalidate (.sector (sectorOf p i))

/-- Update the replacement data of a sector that a block is brought into: it is touched if the
sector was valid, and else reset. -/
def update (p : TagParams) (i : ℕ) (wasValid : Bool) (now : Tick) : TagM Unit :=
  if wasValid then policyTouch (.sector (sectorOf p i)) now
  else policyReset (.sector (sectorOf p i)) now

/-- Invalidate a block, and with the last one its sector. -/
def invalidate (p : TagParams) (i : ℕ) : TagM Unit := do
  let s ← get
  check (s.valid i)
  modify (setValid p i false)
  invalidateEmpty p i

/-- Access a block, which updates the replacement data of its sector if it is there. -/
def accessBlock (p : TagParams) (i : ℕ) (now : Tick) : TagM Unit := do
  let s ← get
  if s.valid i then policyTouch (.sector (sectorOf p i)) now else pure ()

def insertBlock (p : TagParams) (i : ℕ) (now : Tick) : TagM Unit := do
  let s ← get
  update p i (isValid p i s) now
  check (!s.valid i)
  modify (setValid p i true)

/-- Move a block into an invalid one. -/
def moveBlock (p : TagParams) (src dest : ℕ) (now : Tick) : TagM Unit := do
  let s ← get
  check (!s.valid dest)
  check (s.valid src)
  modify (setValid p dest true)
  modify (setValid p src false)
  invalidateEmpty p src
  update p dest (isValid p dest s) now

/-- Find a victim in a set, when the sector of the new block is not present. -/
def findVictim (p : TagParams) (set : ℕ) (now : Tick) : TagM Unit := do
  let _ ← policyGetVictim ((List.range p.assoc).map fun way => .sector (set * p.assoc + way)) now
  pure ()

/-- The operations a cache calls. -/
def run (p : TagParams) : TagOp (p.numEntries * p.numBlocksPerSector) p.numSets → TagM Unit
  | .insertBlock i now => insertBlock p i now
  | .invalidate i => invalidate p i
  | .moveBlock src dest now => moveBlock p src dest now
  | .accessBlock i now => accessBlock p i now
  | .findVictim set now => findVictim p set now

end SectorTags

namespace CompressedTags

/-- Initialize all blocks; the superblocks are sectors. -/
def tagsInit (p : TagParams) : TagM Unit := SectorTags.initSectors p

/-- The operations a cache calls. They are those of a sector store; `findVictim` can also find
room in a superblock that is present, and does not call the policy then. -/
def run (p : TagParams) : TagOp (p.numEntries * p.numBlocksPerSector) p.numSets → TagM Unit :=
  SectorTags.run p

end CompressedTags

end Gem5Arc
