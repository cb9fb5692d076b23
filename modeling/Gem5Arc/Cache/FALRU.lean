import Gem5Arc.Base.Bits
import Gem5Arc.Cache.TaggedEntry
import Gem5Arc.Lib.Program

/-!
# A fully associative store

The tags of `FALRU`. The blocks are on one doubly linked list in the order of their last use, and a
hash table has the valid ones. The store also keeps track of smaller caches: for each of them it has
a pointer to the last block that would be in it (`boundaries`), and each block has a mask that says
in which of them it would be. When a block is moved to the head or the tail of the list, these are
updated (`moveBlockToHead`, `moveBlockToTail`).

A block is given by its number in the array `blks`. The positions and contents of the blocks are
left out, and of the statistics only those that the store itself keeps are there.
-/

namespace Gem5Arc

open Lib

/-- A mask of tracked caches. The lowest bit is for the smallest cache. -/
abbrev CachesMask : Type := BitVec 32

/-- A block of a fully associative store. -/
structure FALRUBlk extends TaggedEntry where
  /-- The previous block in the order of use. -/
  prev : Option ℕ := none
  /-- The next block in the order of use. -/
  next : Option ℕ := none
  /-- The caches that fit this block. -/
  inCachesMask : CachesMask := 0

/-- The parameters of a fully associative store, with what its constructor checks. -/
structure FALRUParams where
  blkSize : ℕ
  size : ℕ
  minTrackedSize : ℕ
  blkSize_isPowerOf2 : isPowerOf2 blkSize = true
  size_isPowerOf2 : isPowerOf2 size = true
  /-- Sizes are unsigned integers. -/
  size_lt : size < 2 ^ 32
  /-- The tag extractor that has been registered with the blocks. `tagsInit` registers none. -/
  tagExtractor : Option (Addr → Addr) := none

namespace FALRUParams

variable (p : FALRUParams)

/-- The number of blocks. -/
def numBlocks : ℕ := p.size / p.blkSize

def numTrackedCaches : ℕ :=
  if p.size > p.minTrackedSize then floorLog2 p.size - floorLog2 p.minTrackedSize else 0

def inAllCachesMask : CachesMask := (mask p.numTrackedCaches).setWidth 32

def blkAlign (addr : Addr) : Addr := addr &&& ~~~BitVec.ofNat 64 (p.blkSize - 1)

/-- What the hash table is looked up with. -/
def hashKey (key : KeyType) : Addr × Bool := (p.blkAlign key.address, key.secure)

end FALRUParams

/-- A fully associative store. -/
structure FALRU where
  blks : ℕ → FALRUBlk := fun _ => {}
  /-- The most recently used block. -/
  head : ℕ := 0
  /-- The least recently used block. -/
  tail : ℕ := 0
  /-- The last block that is in a tracked cache. -/
  boundaries : ℕ → Option ℕ := fun _ => none
  tagHash : Addr × Bool → Option ℕ := fun _ => none
  tagsInUse : ℤ := 0
  hits : ℕ → ℕ := fun _ => 0
  misses : ℕ → ℕ := fun _ => 0
  accesses : ℕ := 0

/-- A program of a fully associative store. -/
abbrev FALRUM : Type → Type := EStateM Fault FALRU

namespace FALRU

/-- Rewrite a block. -/
def editBlk (blk : ℕ) (f : FALRUBlk → FALRUBlk) (s : FALRU) : FALRU :=
  { s with blks := Function.update s.blks blk (f (s.blks blk)) }

def setPrev (blk : ℕ) (prev : Option ℕ) : FALRU → FALRU :=
  editBlk blk fun b => { b with prev := prev }

def setNext (blk : ℕ) (next : Option ℕ) : FALRU → FALRU :=
  editBlk blk fun b => { b with next := next }

def setMask (blk : ℕ) (f : CachesMask → CachesMask) : FALRU → FALRU :=
  editBlk blk fun b => { b with inCachesMask := f b.inCachesMask }

def setBoundary (i : ℕ) (blk : Option ℕ) (s : FALRU) : FALRU :=
  { s with boundaries := Function.update s.boundaries i blk }

def cacheMask (i : ℕ) : CachesMask := 1#32 <<< i

end FALRU

namespace FALRUM

open FALRU TaggedEntry

/-- `assert(cond)`. -/
def check (cond : Bool) : FALRUM Unit := if cond then pure () else throw .assertion

def follow (pointer : Option ℕ) : FALRUM ℕ :=
  match pointer with
  | none => throw .nullPointer
  | some blk => pure blk

variable (p : FALRUParams)

/-! ### Tracking the smaller caches -/

/-- The loop of `CacheTracking::init`, which goes through the blocks. -/
def initLoop : ℕ → Option ℕ → ℕ → ℕ → CachesMask → ℕ → FALRUM Unit
  | _, none, _, _, _, _ => pure ()
  | 0, some _, _, _, _, _ => throw .outOfFuel
  | fuel + 1, some blk, currSize, trackedCacheSize, inCachesMask, j => do
      modify (setMask blk fun _ => inCachesMask)
      let s ← get
      let currSize := (currSize + p.blkSize) % 2 ^ 32
      if currSize = trackedCacheSize ∧ blk ≠ s.tail then do
        modify (setBoundary j (some blk))
        initLoop fuel (s.blks blk).next currSize (trackedCacheSize <<< 1 % 2 ^ 32)
          (inCachesMask &&& ~~~cacheMask j) (j + 1)
      else initLoop fuel (s.blks blk).next currSize trackedCacheSize inCachesMask j

/-- Initialize the masks of the blocks and the boundaries of the caches. -/
def init : FALRUM Unit := do
  let s ← get
  initLoop p p.numBlocks (if p.numTrackedCaches ≠ 0 then some s.head else none) 0
    p.minTrackedSize p.inAllCachesMask 0

/-- Update one cache before a block is moved to the head. -/
def boundaryToHead (blk : ℕ) (updateCachesMask : CachesMask) (i : ℕ) : FALRUM Unit := do
  let s ← get
  if cacheMask i &&& updateCachesMask ≠ 0 then do
    let boundary ← follow (s.boundaries i)
    modify (setMask boundary fun mask => mask &&& ~~~cacheMask i)
    modify (setBoundary i (s.blks boundary).prev)
  else if s.boundaries i = some blk then modify (setBoundary i (s.blks blk).prev)
  else pure ()

/-- Update the caches before a block is moved to the head. -/
def moveBlockToHead (blk : ℕ) : FALRUM Unit := do
  let s ← get
  let updateCachesMask := p.inAllCachesMask ^^^ (s.blks blk).inCachesMask
  forM (List.range p.numTrackedCaches) (boundaryToHead blk updateCachesMask)
  modify (setMask blk fun _ => p.inAllCachesMask)

/-- Update one cache before a block is moved to the tail. -/
def boundaryToTail (blk : ℕ) (updateCachesMask : CachesMask) (i : ℕ) : FALRUM Unit := do
  let s ← get
  if cacheMask i &&& updateCachesMask ≠ 0 then do
    let boundary ← follow (s.boundaries i)
    let next := if (s.blks boundary).next = some blk then (s.blks blk).next
      else (s.blks boundary).next
    modify (setBoundary i next)
    let boundary ← follow next
    modify (setMask boundary fun mask => mask ||| cacheMask i)
  else pure ()

/-- Update the caches before a block is moved to the tail. -/
def moveBlockToTail (blk : ℕ) : FALRUM Unit := do
  let s ← get
  let updateCachesMask := (s.blks blk).inCachesMask
  forM (List.range p.numTrackedCaches) (boundaryToTail blk updateCachesMask)
  modify (setMask blk fun _ => 0)

/-- Whether an access to a block is a hit in a cache. The last cache is the store itself. -/
def isHit (blk : Option ℕ) (s : FALRU) (i : ℕ) : Bool :=
  match blk with
  | none => false
  | some blk =>
    if i < p.numTrackedCaches then cacheMask i &&& (s.blks blk).inCachesMask ≠ 0
    else (s.blks blk).valid

/-- Count an access to a block, for all caches. -/
def recordAccess (blk : Option ℕ) (s : FALRU) : FALRU :=
  { s with
    hits := fun i => if i ≤ p.numTrackedCaches ∧ isHit p blk s i then s.hits i + 1 else s.hits i
    misses := fun i =>
      if i ≤ p.numTrackedCaches ∧ ¬isHit p blk s i then s.misses i + 1 else s.misses i
    accesses := s.accesses + 1 }

/-! ### The list of blocks -/

/-- Link the neighbours of a block to each other. -/
def linkNeighbours (blk : ℕ) : FALRUM Unit := do
  let s ← get
  let prev ← follow (s.blks blk).prev
  modify (setNext prev (s.blks blk).next)
  let s ← get
  let next ← follow (s.blks blk).next
  modify (setPrev next (s.blks blk).prev)

/-- Take a block that moves to the head from its place. -/
def unlinkForHead (blk : ℕ) : FALRUM Unit := do
  let s ← get
  if blk = s.tail then do
    check ((s.blks blk).next == none)
    let prev ← follow (s.blks blk).prev
    modify fun s => { s with tail := prev }
    modify (setNext prev none)
  else linkNeighbours blk

/-- Move a block to the head of the list. -/
def moveToHead (blk : ℕ) : FALRUM Unit := do
  let s ← get
  if blk ≠ s.head then do
    moveBlockToHead p blk
    unlinkForHead blk
    let s ← get
    modify (setNext blk (some s.head))
    modify (setPrev blk none)
    modify (setPrev s.head (some blk))
    modify fun s => { s with head := blk }
  else pure ()

/-- Take a block that moves to the tail from its place. -/
def unlinkForTail (blk : ℕ) : FALRUM Unit := do
  let s ← get
  if blk = s.head then do
    check ((s.blks blk).prev == none)
    let next ← follow (s.blks blk).next
    modify fun s => { s with head := next }
    modify (setPrev next none)
  else linkNeighbours blk

/-- Move a block to the tail of the list. -/
def moveToTail (blk : ℕ) : FALRUM Unit := do
  let s ← get
  if blk ≠ s.tail then do
    moveBlockToTail p blk
    unlinkForTail blk
    let s ← get
    modify (setPrev blk (some s.tail))
    modify (setNext blk none)
    modify (setNext s.tail (some blk))
    modify fun s => { s with tail := blk }
  else pure ()

/-! ### The calls of a cache -/

/-- Set the neighbours of a block. -/
def setLinks (blk : ℕ) (prev next : Option ℕ) : FALRUM Unit :=
  modify (editBlk blk fun b => { b with prev := prev, next := next })

/-- Initialize the store. -/
def tagsInit : FALRUM Unit := do
  modify fun s => { s with head := 0 }
  setLinks 0 none (some 1)
  forM (List.range' 1 (p.numBlocks - 2)) fun i => setLinks i (some (i - 1)) (some (i + 1))
  modify fun s => { s with tail := p.numBlocks - 1 }
  setLinks (p.numBlocks - 1) (some (p.numBlocks - 2)) none
  init p

/-- Find a block, and check that it has the tag. -/
def findBlock (key : KeyType) : FALRUM (Option ℕ) := do
  let s ← get
  match s.tagHash (p.hashKey key) with
  | none => pure none
  | some blk => do
      check (!(s.blks blk).valid || (s.blks blk).tag == p.blkAlign key.address)
      check (!(s.blks blk).valid || (s.blks blk).secure == key.secure)
      pure (some blk)

/-- A block that has been found becomes the most recently used one. The result is in which caches it
was. -/
def touchBlock : Option ℕ → FALRUM CachesMask
  | none => pure 0
  | some blk => do
      let s ← get
      if (s.blks blk).valid then do
        moveToHead p blk
        pure (s.blks blk).inCachesMask
      else pure 0

/-- Access a block. The access is counted after the block has been moved. -/
def accessBlock (key : KeyType) : FALRUM (Option ℕ × CachesMask) := do
  let blk ← findBlock p key
  let mask ← touchBlock p blk
  modify (recordAccess p blk)
  pure (blk, mask)

/-- The victim is the block at the tail. -/
def findVictim : FALRUM ℕ := do
  let s ← get
  pure s.tail

def extractTag (addr : Addr) : FALRUM Addr :=
  match p.tagExtractor with
  | none => throw .badFunctionCall
  | some extract => pure (extract addr)

/-- Write the tag of a block: `BaseTags::insertBlock`. -/
def insertTag (blk : ℕ) (key : KeyType) : FALRUM Unit := do
  let s ← get
  check (!(s.blks blk).valid)
  modify (editBlk blk fun b => { b with valid := true })
  let tag ← extractTag p key.address
  modify (editBlk blk fun b => { b with toTaggedEntry := withTag tag key b.toTaggedEntry })

def insertBlock (blk : ℕ) (key : KeyType) : FALRUM Unit := do
  let s ← get
  check ((s.blks blk).inCachesMask == 0)
  insertTag p blk key
  modify fun s => { s with tagsInUse := s.tagsInUse + 1 }
  moveToHead p blk
  modify fun s =>
    { s with tagHash := Function.update s.tagHash ((s.blks blk).tag, (s.blks blk).secure) blk }

/-- Invalidate a block. -/
def invalidate (blk : ℕ) : FALRUM Unit := do
  let s ← get
  let key := ((s.blks blk).tag, (s.blks blk).secure)
  modify fun s => { s with tagHash := Function.update s.tagHash key none }
  check (s.tagHash key).isSome
  check (s.blks blk).valid
  modify (editBlk blk fun b => { b with toTaggedEntry := {} })
  modify fun s => { s with tagsInUse := s.tagsInUse - 1 }
  moveToTail p blk

end FALRUM

end Gem5Arc
