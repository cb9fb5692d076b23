import Gem5Arc.Arc.Policy
import Gem5Arc.Base.Bits
import Gem5Arc.Lib.Run

/-!
# The Ruby cache

The set-associative cache of `mem/ruby/structures/CacheMemory.cc`, over an arbitrary
replacement policy. Its lines are in a table of sets and ways (`cache`), and a map from
addresses to ways (`tagIndex`) is there to find them. The replacement data of the policy is
in a table of the same shape.

A pointer to an entry of the cache is the slot the entry is in. Every caller of `allocate`
passes an entry it has just made, so an entry is in at most one slot. The replacement data of
an entry is that of its slot, since `allocate` writes this pointer and nobody else does.

The block data of a line, statistics, the banks of the data and tag arrays and transactional
memory play no part in what is proved here, and are left out.
-/

namespace Gem5Arc

/-! ### Geometry -/

/-- The parameters of a cache, with what `init` asserts about them. They are C integers. -/
structure Geometry where
  cacheSize : ℕ
  cacheAssoc : ℕ
  blockSize : ℕ
  startIndexBit : ℕ
  cacheSize_lt : cacheSize < 2 ^ 31
  one_lt_cacheNumSets : 1 < cacheSize / cacheAssoc / blockSize

namespace Geometry

/-- The number of sets. -/
def cacheNumSets (g : Geometry) : ℕ := g.cacheSize / g.cacheAssoc / g.blockSize

/-- The number of address bits that select a set. -/
def cacheNumSetBits (g : Geometry) : ℕ := floorLog2 g.cacheNumSets

def makeLineAddress (g : Geometry) (address : Addr) : Addr :=
  mbits address 63 (floorLog2 g.blockSize)

def isLineAddress (g : Geometry) (address : Addr) : Bool := address == g.makeLineAddress address

def cacheSet (g : Geometry) (address : Addr) : ℕ :=
  (bits address (g.startIndexBit + g.cacheNumSetBits - 1) g.startIndexBit).toNat

/-- Convert the address of a line to its set in the cache. -/
def addressToCacheSet (g : Geometry) (address : Addr) : Except Fault ℕ := do
  assert (g.isLineAddress address)
  pure (g.cacheSet address)

section

variable (g : Geometry)

theorem cacheNumSets_lt :
  g.cacheNumSets < 2 ^ 64
  := by
  have hsize := g.cacheSize_lt
  calc
    g.cacheNumSets ≤ g.cacheSize / g.cacheAssoc := Nat.div_le_self ..
    _ ≤ g.cacheSize := Nat.div_le_self ..
    _ < 2 ^ 64 := by omega

theorem cacheNumSets_pos :
  0 < g.cacheNumSets
  := lt_trans one_pos g.one_lt_cacheNumSets

theorem cacheNumSetBits_eq_log :
  g.cacheNumSetBits = Nat.log 2 g.cacheNumSets
  := floorLog2_eq_log g.cacheNumSets_pos g.cacheNumSets_lt

/-- What `init` asserts last: some bit selects the set. -/
theorem cacheNumSetBits_pos :
  0 < g.cacheNumSetBits
  := by
  rw [cacheNumSetBits_eq_log]
  apply Nat.log_pos (by decide) g.one_lt_cacheNumSets

/-- The set of an address is one of the cache, also when the number of sets is not a power of
two. -/
theorem cacheSet_lt (address : Addr) :
  g.cacheSet address < g.cacheNumSets
  := by
  have hbits := g.cacheNumSetBits_pos
  calc
    g.cacheSet address < 2 ^ (g.startIndexBit + g.cacheNumSetBits - 1 - g.startIndexBit + 1) :=
      (and_mask_toNat ..).trans_lt (Nat.mod_lt _ (Nat.two_pow_pos _))
    _ = 2 ^ Nat.log 2 g.cacheNumSets := by
      rw [← cacheNumSetBits_eq_log]
      congr 1
      omega
    _ ≤ g.cacheNumSets := Nat.pow_log_le_self 2 g.cacheNumSets_pos.ne'

end

theorem addressToCacheSet_eq_ok {g : Geometry} {address : Addr} {set : ℕ} :
  g.addressToCacheSet address = .ok set ↔ g.isLineAddress address = true ∧ g.cacheSet address = set
  := by
  simp [addressToCacheSet, assert_bind_eq_ok]

end Geometry

/-! ### Entries and replacement policies -/

inductive AccessPermission where
  | readOnly
  | readWrite
  | maybeStale
  | backingStore
  | backingStoreBusy
  | invalid
  | notPresent
  | busy
deriving DecidableEq

/-- The types of requests, as far as an access of the cache tells them apart. -/
inductive RubyRequestType where
  | ld
  | ifetch
  | other
deriving DecidableEq

/-- A place in the table of sets and ways. -/
structure Slot where
  set : ℕ
  way : ℕ
deriving DecidableEq

/-- A cache entry, with the values its constructor gives. -/
structure AbstractCacheEntry where
  address : Addr := 0
  permission : AccessPermission := .notPresent
  locked : ℤ := -1
  lastTouchTick : Tick := 0
  set : ℕ := 0
  way : ℕ := 0

def AbstractCacheEntry.changePermission (newPerm : AccessPermission) (entry : AbstractCacheEntry) :
    AbstractCacheEntry :=
  { entry with
    permission := newPerm
    locked := if newPerm = .invalid ∨ newPerm = .notPresent then -1 else entry.locked }

/-- A replacement policy for entries `E`, with replacement data `D` and a state `P` of its own.
A policy that follows pointers to entries is given what it reads there: the set numbers of
the entries, and their replacement data. -/
structure ReplacementPolicy (E D P : Type) where
  init : P
  /-- The data made by the call number `n`, counted from 0. -/
  instantiateEntry : ℕ → D
  /-- `replacementData->entry = this`, in `setPosition`. -/
  link : E → D → D
  invalidate : D → P → D × P
  touch : Tick → D → P → D × P
  reset : (getSet : E → ℕ) → Tick → D → P → Except Fault (D × P)
  /-- The victim, and what is left of the data and the state. -/
  getVictim : (getSet : E → ℕ) → (replacementData : E → D) → Tick → (candidates : List E) → P →
    Option E × (E → D) × P

def ARC.replacementPolicy (E : Type) : ReplacementPolicy E (ARCReplData E) ARC where
  init := ARC.empty
  instantiateEntry _ := ARC.instantiateEntry
  link entry data := { data with entry := some entry }
  invalidate data arc := (ARC.invalidate data, arc)
  touch now data arc := (ARC.touch now data, arc)
  reset := ARC.reset
  getVictim getSet replacementData now candidates arc :=
    let (victim, arc) := ARC.getVictim getSet replacementData now candidates arc
    (victim, replacementData, arc)

/-! ### The cache -/

/-- The state of a cache whose policy has replacement data `D` and state `P`. -/
structure CacheMemory (D P : Type) where
  /-- The entry in a slot, if there is one. -/
  cache : Slot → Option AbstractCacheEntry
  /-- The way of an address. -/
  tagIndex : Addr → Option ℕ
  /-- The replacement data of a slot. -/
  replacementData : Slot → D
  /-- The state of the replacement policy. -/
  policy : P

namespace CacheMemory

variable {D P : Type} (g : Geometry) (rp : ReplacementPolicy Slot D P)

/-- The cache after `init`. -/
def init : CacheMemory D P where
  cache _ := none
  tagIndex _ := none
  replacementData slot := rp.instantiateEntry (slot.set * g.cacheAssoc + slot.way)
  policy := rp.init

/-- The set number of the entry in a slot; a pointer to a slot without an entry is never
followed. -/
def getSet (m : CacheMemory D P) (slot : Slot) : ℕ :=
  match m.cache slot with
  | none => 0
  | some entry => entry.set

/-- Given a set: the way of a tag, or `none` if it is not found. -/
def findTagInSet (cacheSet : ℕ) (tag : Addr) (m : CacheMemory D P) : Except Fault (Option ℕ) := do
  assert (g.isLineAddress tag)
  match m.tagIndex tag with
  | none => pure none
  | some way =>
    let entry ← deref (m.cache ⟨cacheSet, way⟩)
    pure (if entry.permission ≠ .notPresent then some way else none)

def lookup (address : Addr) (m : CacheMemory D P) : Except Fault (Option Slot) := do
  assert (g.isLineAddress address)
  let cacheSet ← g.addressToCacheSet address
  let loc ← m.findTagInSet g cacheSet address
  pure (loc.map fun way => ⟨cacheSet, way⟩)

def isTagPresent (address : Addr) (m : CacheMemory D P) : Except Fault Bool := do
  let entry ← m.lookup g address
  pure entry.isSome

/-- Whether a slot is unused or has the line of an address. -/
def isAvail (address : Addr) (m : CacheMemory D P) (slot : Slot) : Bool :=
  match m.cache slot with
  | none => true
  | some entry => entry.address == address || entry.permission == .notPresent

/-- Whether there is a tag match on an address, or an unused line in its set. -/
def cacheAvail (address : Addr) (m : CacheMemory D P) : Except Fault Bool := do
  assert (g.isLineAddress address)
  let cacheSet ← g.addressToCacheSet address
  pure ((List.range g.cacheAssoc).any fun i => m.isAvail address ⟨cacheSet, i⟩)

/-- Whether a slot can take a new entry. -/
def isOpen (m : CacheMemory D P) (slot : Slot) : Bool :=
  match m.cache slot with
  | none => true
  | some entry => entry.permission == .notPresent

/-- Put an entry for an address into a slot. -/
def place (slot : Slot) (address : Addr) (entry : AbstractCacheEntry) (now : Tick)
    (m : CacheMemory D P) : CacheMemory D P :=
  { m with
    cache := Function.update m.cache slot (some
      { entry with
        address := address
        permission := .invalid
        locked := -1
        set := slot.set
        way := slot.way
        lastTouchTick := now })
    tagIndex := Function.update m.tagIndex address (some slot.way) }

theorem place_cache (slot : Slot) (address : Addr) (entry : AbstractCacheEntry) (now : Tick)
    (m : CacheMemory D P) (slot' : Slot) :
  (m.place slot address entry now).cache slot'
    = if slot' = slot then
        some
          { address := address
            permission := .invalid
            set := slot.set
            way := slot.way
            lastTouchTick := now }
      else
        m.cache slot'
  := Function.update_apply ..

theorem place_tagIndex (slot : Slot) (address : Addr) (entry : AbstractCacheEntry) (now : Tick)
    (m : CacheMemory D P) (address' : Addr) :
  (m.place slot address entry now).tagIndex address'
    = if address' = address then some slot.way else m.tagIndex address'
  := Function.update_apply ..

/-- Put an entry for an address into a slot, and tell the policy. -/
def insertAt (slot : Slot) (address : Addr) (entry : AbstractCacheEntry) (now : Tick)
    (m : CacheMemory D P) : Except Fault (CacheMemory D P) := do
  let m := m.place slot address entry now
  let data := rp.link slot (m.replacementData slot)
  let (data, policy) ← rp.reset m.getSet now data m.policy
  pure { m with replacementData := Function.update m.replacementData slot data, policy := policy }

/-- The first way of a set that can take a new entry. -/
def openWay (cacheSet : ℕ) (m : CacheMemory D P) : Option ℕ :=
  (List.range g.cacheAssoc).find? fun i => m.isOpen ⟨cacheSet, i⟩

/-- Find an unused slot for an address and put an entry there. -/
def allocate (address : Addr) (entry : AbstractCacheEntry) (now : Tick) (m : CacheMemory D P) :
    Except Fault (Slot × CacheMemory D P) := do
  assert (g.isLineAddress address)
  let present ← m.isTagPresent g address
  assert (!present)
  let avail ← m.cacheAvail g address
  assert avail
  let cacheSet ← g.addressToCacheSet address
  match m.openWay g cacheSet with
  | none => .error (.panic "Allocate didn't find an available entry")
  | some i =>
    let m ← m.insertAt rp ⟨cacheSet, i⟩ address entry now
    pure (⟨cacheSet, i⟩, m)

/-- Have the policy update the replacement data of a slot. -/
def updateData (f : D → P → D × P) (slot : Slot) (m : CacheMemory D P) : CacheMemory D P :=
  { m with
    replacementData :=
      Function.update m.replacementData slot (f (m.replacementData slot) m.policy).1
    policy := (f (m.replacementData slot) m.policy).2 }

theorem updateData_replacementData (f : D → P → D × P) (slot : Slot) (m : CacheMemory D P)
    (slot' : Slot) :
  (m.updateData f slot).replacementData slot'
    = if slot' = slot then (f (m.replacementData slot) m.policy).1 else m.replacementData slot'
  := Function.update_apply ..

/-- Free up an address. -/
def deallocate (address : Addr) (m : CacheMemory D P) : Except Fault (CacheMemory D P) := do
  let pointer ← m.lookup g address
  assert pointer.isSome
  let slot ← deref pointer
  let entry ← deref (m.cache slot)
  let m := m.updateData rp.invalidate slot
  pure
    { m with
      cache := Function.update m.cache ⟨entry.set, entry.way⟩ none
      tagIndex := Function.update m.tagIndex address none }

def candidates (cacheSet : ℕ) : List Slot := (List.range g.cacheAssoc).map fun i => ⟨cacheSet, i⟩

/-- The address of the line that conflicts with an address. -/
def cacheProbe (address : Addr) (now : Tick) (m : CacheMemory D P) :
    Except Fault (Addr × CacheMemory D P) := do
  assert (g.isLineAddress address)
  let avail ← m.cacheAvail g address
  assert (!avail)
  let cacheSet ← g.addressToCacheSet address
  let (victim, data, policy) :=
    rp.getVictim m.getSet m.replacementData now (candidates g cacheSet) m.policy
  let pointer ← deref victim
  let victim ← deref (m.cache pointer)
  let entry ← deref (m.cache ⟨cacheSet, victim.way⟩)
  pure (entry.address, { m with replacementData := data, policy := policy })

def editEntry (f : AbstractCacheEntry → AbstractCacheEntry) (slot : Slot) (m : CacheMemory D P) :
    Except Fault (CacheMemory D P) := do
  let entry ← deref (m.cache slot)
  pure { m with cache := Function.update m.cache slot (some (f entry)) }

/-- Touch the entry of a slot: the overload of `setMRU` for an entry. -/
def setMRUEntry (slot : Slot) (now : Tick) (m : CacheMemory D P) :
    Except Fault (CacheMemory D P) := do
  assert (m.cache slot).isSome
  (m.updateData (rp.touch now) slot).editEntry (fun entry => { entry with lastTouchTick := now })
    slot

/-- Set the most recently used bit for the line of an address. -/
def setMRU (address : Addr) (now : Tick) (m : CacheMemory D P) :
    Except Fault (CacheMemory D P) := do
  let pointer ← m.lookup g (g.makeLineAddress address)
  match pointer with
  | none => pure m
  | some slot => m.setMRUEntry rp slot now

/-- Touch the entry of an address if there is one, and say what `allowed` says of it. -/
def access (allowed : AccessPermission → Bool) (address : Addr) (now : Tick)
    (m : CacheMemory D P) : Except Fault (Bool × CacheMemory D P) := do
  let pointer ← m.lookup g address
  match pointer with
  | none => pure (false, m)
  | some slot =>
    let entry ← deref (m.cache slot)
    let m ← m.setMRUEntry rp slot now
    pure (allowed entry.permission, m)

/-- Perform a cache access and say whether it hits. -/
def tryCacheAccess (address : Addr) (type : RubyRequestType) (now : Tick) (m : CacheMemory D P) :
    Except Fault (Bool × CacheMemory D P) :=
  m.access g rp
    (fun permission => permission == .readWrite
      || (permission == .readOnly && (type == .ld || type == .ifetch)))
    address now

/-- Similar to `tryCacheAccess`, without the full access check. -/
def testCacheAccess (address : Addr) (now : Tick) (m : CacheMemory D P) :
    Except Fault (Bool × CacheMemory D P) :=
  m.access g rp (fun permission => permission != .notPresent) address now

/-- Rewrite the lock of the line of an address. -/
def lock (context : ℤ) (address : Addr) (m : CacheMemory D P) :
    Except Fault (CacheMemory D P) := do
  let pointer ← m.lookup g address
  assert pointer.isSome
  let slot ← deref pointer
  m.editEntry (fun entry => { entry with locked := context }) slot

def setLocked (address : Addr) (context : ℤ) (m : CacheMemory D P) :
    Except Fault (CacheMemory D P) :=
  m.lock g context address

def clearLocked (address : Addr) (m : CacheMemory D P) : Except Fault (CacheMemory D P) :=
  m.lock g (-1) address

def clearLockedAll (context : ℤ) (m : CacheMemory D P) : CacheMemory D P :=
  { m with
    cache := fun slot => (m.cache slot).map fun entry =>
      if entry.locked = context then { entry with locked := -1 } else entry }

/-! ### Runs -/

/-- The calls a controller makes. -/
inductive Op where
  | allocate (address : Addr) (entry : AbstractCacheEntry) (now : Tick)
  | deallocate (address : Addr)
  | lookup (address : Addr)
  | isTagPresent (address : Addr)
  | cacheAvail (address : Addr)
  | cacheProbe (address : Addr) (now : Tick)
  | setMRU (address : Addr) (now : Tick)
  | setMRUEntry (slot : Slot) (now : Tick)
  | tryCacheAccess (address : Addr) (type : RubyRequestType) (now : Tick)
  | testCacheAccess (address : Addr) (now : Tick)
  | changePermission (slot : Slot) (newPerm : AccessPermission)
  | setLocked (address : Addr) (context : ℤ)
  | clearLocked (address : Addr)
  | clearLockedAll (context : ℤ)

def call : Op → CacheMemory D P → Except Fault (CacheMemory D P)
  | .allocate address entry now, m => Prod.snd <$> m.allocate g rp address entry now
  | .deallocate address, m => m.deallocate g rp address
  | .lookup address, m => (fun _ => m) <$> m.lookup g address
  | .isTagPresent address, m => (fun _ => m) <$> m.isTagPresent g address
  | .cacheAvail address, m => (fun _ => m) <$> m.cacheAvail g address
  | .cacheProbe address now, m => Prod.snd <$> m.cacheProbe g rp address now
  | .setMRU address now, m => m.setMRU g rp address now
  | .setMRUEntry slot now, m => m.setMRUEntry rp slot now
  | .tryCacheAccess address type now, m => Prod.snd <$> m.tryCacheAccess g rp address type now
  | .testCacheAccess address now, m => Prod.snd <$> m.testCacheAccess g rp address now
  | .changePermission slot newPerm, m =>
    m.editEntry (AbstractCacheEntry.changePermission newPerm) slot
  | .setLocked address context, m => m.setLocked g address context
  | .clearLocked address, m => m.clearLocked g address
  | .clearLockedAll context, m => pure (m.clearLockedAll context)

/-- No entry is given the permission `notPresent`. -/
def Op.KeepsPresent : Op → Prop
  | .changePermission _ newPerm => newPerm ≠ .notPresent
  | _ => True

/-- A call that stops nowhere and leaves no entry `notPresent`. -/
def Step (m : CacheMemory D P) (op : Op) (m' : CacheMemory D P) : Prop :=
  op.KeepsPresent ∧ call g rp op m = .ok m'

/-- The states a controller can bring the cache to, when it leaves no entry `notPresent`. -/
def Reachable (m : CacheMemory D P) : Prop :=
  Lib.Reachable (Step g rp) (init g rp) m

variable {g rp} in
theorem Reachable.call {m m' : CacheMemory D P} {op : Op} (h : Reachable g rp m)
    (hcall : call g rp op m = .ok m') (hop : op.KeepsPresent) :
  Reachable g rp m'
  := Lib.Reachable.step h ⟨hop, hcall⟩

end CacheMemory

end Gem5Arc
