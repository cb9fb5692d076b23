import Gem5Arc.Cache.MaxCapacity
import Gem5Arc.Lib.Update

/-!
# A cache partitioned by maximum capacity

The calls `BaseSetAssoc` makes to the maximum capacity policy. To bring in a block, the cache lets
the policy filter the candidates, evicts the victim, which releases a block of its partition, and
inserts the new block, which acquires one. A block that is invalid has the greatest identifier as
its partition.

`partitioned_within_capacity_iff` says which allocations keep the configured partitions within their
maximum, while the recorded numbers of blocks are right and no assertion fails.
-/

namespace Gem5Arc

open Function

/-- What the policy reads of a block. -/
structure PartitionedBlk where
  valid : Bool
  partitionId : PartitionId

/-- A block that `CacheBlk::invalidate` has cleared. -/
def PartitionedBlk.invalid : PartitionedBlk where
  valid := false
  partitionId := BitVec.allOnes 64

/-- The blocks of a `BaseSetAssoc` tag store with its partitioning policy. -/
structure PartitionedTags (B : Type) where
  blks : B → PartitionedBlk
  policy : MaxCapacityPartitioningPolicy

namespace PartitionedTags

open MaxCapacityPartitioningPolicy

variable {B K : Type} [DecidableEq B] (getPossibleEntries : K → List B)

/-- The store before any block is inserted. -/
def initial (policy : MaxCapacityPartitioningPolicy) : PartitionedTags B where
  blks := fun _ => .invalid
  policy := policy

/-- The block to be replaced, which the replacement policy chooses with `getVictim` from the
candidates the partitioning policy leaves. -/
def findVictim (key : K) (partitionId : PartitionId) (getVictim : List B → B)
    (s : PartitionedTags B) : Option B :=
  let entries := s.policy.filterByPartition (fun b => (s.blks b).partitionId)
    (getPossibleEntries key) partitionId
  if entries.isEmpty then none else some (getVictim entries)

def invalidate (blk : B) (s : PartitionedTags B) : Except Fault (PartitionedTags B) := do
  let policy ← s.policy.notifyRelease (s.blks blk).partitionId
  pure { blks := Function.update s.blks blk .invalid, policy }

def insertBlock (partitionId : PartitionId) (blk : B) (s : PartitionedTags B) :
    Except Fault (PartitionedTags B) := do
  assert (!(s.blks blk).valid)
  let policy ← s.policy.notifyAcquire partitionId
  pure { blks := Function.update s.blks blk ⟨true, partitionId⟩, policy }

def moveBlock (src dest : B) (s : PartitionedTags B) : Except Fault (PartitionedTags B) := do
  assert (!(s.blks dest).valid)
  assert (s.blks src).valid
  let blks := Function.update s.blks dest ⟨true, (s.blks src).partitionId⟩
  pure { s with blks := Function.update blks src .invalid }

/-- Make room in the place of a victim. -/
def evict (victim : B) (s : PartitionedTags B) : Except Fault (PartitionedTags B) :=
  if (s.blks victim).valid then s.invalidate victim else .ok s

/-- What the cache does to bring in a block: it finds a victim, invalidates it if it is valid, and
inserts the new block in its place. Without a victim nothing is inserted. -/
def allocate (key : K) (partitionId : PartitionId) (getVictim : List B → B)
    (s : PartitionedTags B) : Except Fault (PartitionedTags B) :=
  match s.findVictim getPossibleEntries key partitionId getVictim with
  | none => .ok s
  | some victim => do
      let s ← s.evict victim
      s.insertBlock partitionId victim

/-- An operation of the cache on its tags. -/
inductive Op (B K : Type) where
  | allocate (key : K) (partitionId : PartitionId) (getVictim : List B → B)
  | invalidate (blk : B)
  | moveBlock (src dest : B)

def step : Op B K → PartitionedTags B → Except Fault (PartitionedTags B)
  | .allocate key partitionId getVictim, s =>
    s.allocate getPossibleEntries key partitionId getVictim
  | .invalidate blk, s => s.invalidate blk
  | .moveBlock src dest, s => s.moveBlock src dest

/-- The operations that occur: the replacement policy returns one of its candidates, valid blocks
are invalidated, and a valid block is moved to an invalid one. -/
def Occurs : Op B K → PartitionedTags B → Prop
  | .allocate _ _ getVictim, _ => ∀ entries, entries ≠ [] → getVictim entries ∈ entries
  | .invalidate blk, s => (s.blks blk).valid = true
  | .moveBlock src dest, s => (s.blks src).valid = true ∧ (s.blks dest).valid = false

variable [Fintype B]

/-- The number of valid blocks of a partition. -/
def owned (blks : B → PartitionedBlk) (id : PartitionId) : ℕ :=
  (Finset.univ.filter fun b => (blks b).valid ∧ (blks b).partitionId = id).card

/-- The recorded numbers of blocks are right, and no configured partition has more blocks than its
maximum. -/
structure WithinCapacity (conf : PartitionId → Option ℕ) (s : PartitionedTags B) : Prop where
  recorded : ∀ id, s.policy.held id = owned s.blks id
  bounded : ∀ id max, conf id = some max → owned s.blks id ≤ max

/-- When an operation keeps the partitions within their capacity: blocks are only brought in for
partitions without a maximum of 0; and if the partition has the identifier of the invalid blocks,
then it replaces a valid block or has fewer blocks than its maximum, which is 1 if none is
configured. -/
def Policed (conf : PartitionId → Option ℕ) : Op B K → PartitionedTags B → Prop
  | .allocate key partitionId getVictim, s =>
    ∀ victim, s.findVictim getPossibleEntries key partitionId getVictim = some victim →
      conf partitionId ≠ some 0
        ∧ (partitionId = BitVec.allOnes 64 →
          (s.blks victim).valid = true ∨ owned s.blks partitionId < (conf partitionId).getD 1)
  | _, _ => True

/-! ### Counting the blocks of a partition -/

variable {s t : PartitionedTags B} {conf : PartitionId → Option ℕ} {id : PartitionId}

/-- Exchanging a block exchanges its contribution to the number of blocks of a partition. -/
theorem owned_update (blks : B → PartitionedBlk) (b : B) (x : PartitionedBlk) (id : PartitionId) :
  owned (update blks b x) id
      + (if (blks b).valid ∧ (blks b).partitionId = id then 1 else 0)
    = owned blks id + (if x.valid ∧ x.partitionId = id then 1 else 0)
  := by
  simp only [owned, Finset.card_filter]
  apply Lib.sum_update (fun x : PartitionedBlk => if x.valid ∧ x.partitionId = id then 1 else 0)

theorem owned_invalidate (blks : B → PartitionedBlk) (b : B) (id : PartitionId) :
  owned (update blks b .invalid) id
    = owned blks id - (if (blks b).valid ∧ (blks b).partitionId = id then 1 else 0)
  := by
  have h := owned_update blks b .invalid id
  simp only [PartitionedBlk.invalid, Bool.false_eq_true, false_and, if_false, add_zero] at h
  rw [← h, Nat.add_sub_cancel]
  rfl

variable {blks : B → PartitionedBlk}

theorem owned_insert {b : B} (hb : (blks b).valid = false) (p id : PartitionId) :
  owned (update blks b ⟨true, p⟩) id = owned blks id + (if p = id then 1 else 0)
  := by
  have h := owned_update blks b ⟨true, p⟩ id
  simpa [hb] using h

omit [DecidableEq B] in
theorem owned_pos {b : B} (hb : (blks b).valid = true) :
  0 < owned blks (blks b).partitionId
  := Finset.card_pos.mpr ⟨b, by simp [hb]⟩

variable {src dest v : B} {pp : MaxCapacityPartitioningPolicy} {getVictim : List B → B} {key : K}
  {entries : List B} {op : Op B K}

theorem owned_move (hsrc : (blks src).valid = true) (hdest : (blks dest).valid = false)
    (id : PartitionId) :
  owned (update (update blks dest ⟨true, (blks src).partitionId⟩) src .invalid) id
    = owned blks id
  := by
  have hne : src ≠ dest := by
    rintro rfl
    rw [hsrc] at hdest
    cases hdest
  rw [owned_invalidate, owned_insert hdest, update_of_ne hne]
  simp [hsrc]

/-! ### Steps -/

/-- What else is known while the partitions are within their capacity. -/
structure Tracked (conf : PartitionId → Option ℕ) (s : PartitionedTags B) : Prop where
  policy : Extends conf s.policy
  /-- Invalid blocks have the identifier they were cleared with. -/
  cleared : ∀ b, (s.blks b).valid = false → s.blks b = .invalid
  /-- A partition without a maximum has one block at most. -/
  single : ∀ id, conf id = none → owned s.blks id ≤ 1
  /-- A partition with the maximum 0 has not used the cache. -/
  unused : ∀ id, conf id = some 0 → s.policy.partitionIdCurCapacity id = none

omit [DecidableEq B] in
theorem withinCapacity_initial (hpp : pp.partitionIdCurCapacity = fun _ => none) :
  WithinCapacity conf (initial pp : PartitionedTags B)
  := by
  have hzero : ∀ id, owned (initial pp : PartitionedTags B).blks id = 0 := by
    intro id
    simp [owned, initial, PartitionedBlk.invalid]
  constructor
  · intro id
    rw [hzero]
    simp [held, initial, hpp]
  · intro id max _
    rw [hzero]
    apply Nat.zero_le

omit [DecidableEq B] in
theorem tracked_initial (hext : Extends conf pp) (hpp : pp.partitionIdCurCapacity = fun _ => none) :
  Tracked conf (initial pp : PartitionedTags B)
  := by
  refine ⟨hext, ?_, ?_, ?_⟩
  · intro b _
    rfl
  · intro id _
    simp [owned, initial, PartitionedBlk.invalid]
  · intro id _
    simp [initial, hpp]

omit [Fintype B] in
theorem moveBlock_eq (hsrc : (s.blks src).valid = true) (hdest : (s.blks dest).valid = false) :
  s.moveBlock src dest = .ok { s with
    blks := update (update s.blks dest ⟨true, (s.blks src).partitionId⟩) src
      .invalid }
  := by
  rw [moveBlock, hsrc, hdest]
  rfl

omit [DecidableEq B] [Fintype B] in
/-- The victim is one of the candidates the policy leaves. -/
theorem mem_of_findVictim (hchoice : ∀ entries, entries ≠ [] → getVictim entries ∈ entries)
    (hv : s.findVictim getPossibleEntries key id getVictim = some v) :
  v ∈ s.policy.filterByPartition (fun b => (s.blks b).partitionId) (getPossibleEntries key) id
  := by
  simp only [findVictim] at hv
  split_ifs at hv with hempty
  cases hv
  apply hchoice
  intro hnil
  rw [hnil] at hempty
  exact hempty rfl

omit [Fintype B] in
theorem allocate_eq (hv : s.findVictim getPossibleEntries key id getVictim = some v) :
  s.allocate getPossibleEntries key id getVictim
    = (s.evict v >>= fun s => s.insertBlock id v)
  := by
  rw [allocate, hv]

section

variable (hs : WithinCapacity conf s) (ht : Tracked conf s)

include hs ht

variable {b : B}

/-- Invalidating a valid block passes the assertion and keeps what is known. -/
theorem WithinCapacity.invalidate (hb : (s.blks b).valid = true) :
  ∃ t, s.invalidate b = .ok t ∧ WithinCapacity conf t ∧ Tracked conf t
    ∧ t.blks = update s.blks b .invalid
  := by
  have hheld : 0 < s.policy.held (s.blks b).partitionId := by
    rw [hs.recorded]
    exact owned_pos hb
  have hok := notifyRelease_eq_ok.mpr ⟨hheld, rfl⟩
  have hle : ∀ id, owned (update s.blks b .invalid) id ≤ owned s.blks id := by
    intro id
    rw [owned_invalidate]
    apply Nat.sub_le
  refine ⟨⟨update s.blks b .invalid, s.policy.released (s.blks b).partitionId⟩, ?_,
    ⟨?_, ?_⟩, ⟨?_, ?_, ?_, ?_⟩, rfl⟩
  · rw [PartitionedTags.invalidate, hok]
    rfl
  · intro id
    rw [held_released, owned_invalidate]
    by_cases hid : id = (s.blks b).partitionId
    · subst hid
      simp [hb, hs.recorded]
    · simp [hid, Ne.symm hid, hs.recorded]
  · intro id max hmax
    exact (hle id).trans (hs.bounded id max hmax)
  · exact ht.policy.released hheld
  · intro c hc
    by_cases hcb : c = b
    · simp [hcb]
    · simp only [update_of_ne hcb] at hc ⊢
      exact ht.cleared c hc
  · intro id hid
    exact (hle id).trans (ht.single id hid)
  · intro id hid
    have hne : id ≠ (s.blks b).partitionId := by
      rintro rfl
      have hbound := hs.bounded _ 0 hid
      have hpos := owned_pos hb
      omega
    simpa [released, hne] using ht.unused id hid

theorem WithinCapacity.evict (v : B) :
  ∃ t, s.evict v = .ok t ∧ WithinCapacity conf t ∧ Tracked conf t
    ∧ t.blks = update s.blks v .invalid
  := by
  rw [PartitionedTags.evict]
  cases hv : (s.blks v).valid with
  | true => exact hs.invalidate ht hv
  | false =>
    refine ⟨s, rfl, hs, ht, ?_⟩
    rw [← ht.cleared v hv, update_eq_self]

/-- A block inserted in the place of an invalid one is within capacity exactly if its partition had
fewer blocks than its maximum, or none if it has no maximum. -/
theorem WithinCapacity.insertBlock_iff (hb : (s.blks b).valid = false) :
  (∃ t, s.insertBlock id b = .ok t ∧ WithinCapacity conf t)
    ↔ owned s.blks id < (conf id).getD 1
  := by
  have hrun : s.insertBlock id b
      = (s.policy.notifyAcquire id >>= fun policy =>
          pure ⟨update s.blks b ⟨true, id⟩, policy⟩) := by
    rw [insertBlock, hb]
    rfl
  constructor
  · rintro ⟨t, hok, hwithin⟩
    rw [hrun] at hok
    obtain ⟨policy, hpolicy, hok⟩ := bind_eq_ok.mp hok
    cases hok
    cases hconf : conf id with
    | some max =>
      have hbound := hwithin.bounded id max hconf
      rw [owned_insert hb, if_pos rfl] at hbound
      exact hbound
    | none =>
      obtain ⟨hle, -⟩ := notifyAcquire_eq_ok.mp hpolicy
      rw [ht.policy.maxCapacity_getD, hconf, hs.recorded] at hle
      exact Nat.lt_succ_of_le hle
  · intro hlt
    have hle : s.policy.held id ≤ (s.policy.partitionIdMaxCapacity id).getD 0 := by
      rw [ht.policy.maxCapacity_getD, hs.recorded]
      cases hconf : conf id with
      | some max =>
        rw [hconf] at hlt
        exact Nat.le_of_lt hlt
      | none =>
        rw [hconf] at hlt
        exact Nat.le_of_lt_succ hlt
    have hok := notifyAcquire_eq_ok.mpr ⟨hle, rfl⟩
    refine ⟨⟨update s.blks b ⟨true, id⟩, s.policy.acquired id⟩, ?_, ?_, ?_⟩
    · rw [hrun, hok]
      rfl
    · intro p
      rw [held_acquired, owned_insert hb]
      by_cases hp : p = id
      · subst hp
        simp [hs.recorded]
      · simp [hp, Ne.symm hp, hs.recorded]
    · intro p max hmax
      rw [owned_insert hb]
      by_cases hp : id = p
      · subst hp
        rw [hmax] at hlt
        rw [if_pos rfl]
        exact hlt
      · simpa [hp] using hs.bounded p max hmax

theorem Tracked.insertBlock (hok : s.insertBlock id b = .ok t) (hwithin : WithinCapacity conf t) :
  Tracked conf t
  := by
  obtain ⟨hb, hok⟩ := assert_bind_eq_ok.mp hok
  obtain ⟨policy, hpolicy, hok⟩ := bind_eq_ok.mp hok
  cases hok
  obtain ⟨hle, rfl⟩ := notifyAcquire_eq_ok.mp hpolicy
  have hb : (s.blks b).valid = false := by simpa using hb
  refine ⟨ht.policy.acquired id, ?_, ?_, ?_⟩
  · intro c hc
    by_cases hcb : c = b
    · simp [hcb] at hc
    · simp only [update_of_ne hcb] at hc ⊢
      exact ht.cleared c hc
  · intro p hp
    rw [owned_insert hb]
    by_cases hid : id = p
    · subst hid
      rw [ht.policy.maxCapacity_getD, hp, hs.recorded] at hle
      simpa using hle
    · simpa [hid] using ht.single p hp
  · intro p hp
    have hne : p ≠ id := by
      rintro rfl
      have hbound := hwithin.bounded p 0 hp
      simp [owned_insert hb] at hbound
    simpa [acquired, hne] using ht.unused p hp

omit [DecidableEq B] in
/-- The victim of a partition that has reached its maximum has the identifier of the partition. -/
theorem partitionId_of_full
    (hv : v ∈ s.policy.filterByPartition (fun b => (s.blks b).partitionId) entries id)
    (hpos : 0 < owned s.blks id) (hfull : (conf id).getD 0 ≤ owned s.blks id) :
  (s.blks v).partitionId = id
  := by
  have hheld := hs.recorded id
  cases hcur : s.policy.partitionIdCurCapacity id with
  | none =>
    rw [held, hcur] at hheld
    simp only [Option.getD_none] at hheld
    omega
  | some cur =>
    rw [held, hcur] at hheld
    have hle := hfull.trans_eq hheld.symm
    rw [filterByPartition_of_full (ht.policy.maxCapacity_eq_some hcur) hcur hle] at hv
    simpa using List.of_mem_filter hv

/-- After the eviction of the victim, the partition has room for a block exactly if the allocation
is policed. -/
theorem room_iff
    (hv : v ∈ s.policy.filterByPartition (fun b => (s.blks b).partitionId) entries id) :
  owned (update s.blks v .invalid) id < (conf id).getD 1
    ↔ conf id ≠ some 0
      ∧ (id = BitVec.allOnes 64 →
        (s.blks v).valid = true ∨ owned s.blks id < (conf id).getD 1)
  := by
  rw [owned_invalidate]
  constructor
  · intro hlt
    refine ⟨?_, ?_⟩
    · intro hzero
      simp [hzero] at hlt
    · intro _
      cases hvalid : (s.blks v).valid with
      | true => exact .inl rfl
      | false =>
        right
        simpa [hvalid] using hlt
  · rintro ⟨hzero, hall⟩
    by_cases hfew : owned s.blks id < (conf id).getD 1
    · omega
    · have hmax : 0 < (conf id).getD 1 ∧ (conf id).getD 0 ≤ (conf id).getD 1
          ∧ owned s.blks id ≤ (conf id).getD 1 := by
        cases hconf : conf id with
        | none => exact ⟨Nat.one_pos, Nat.zero_le _, ht.single id hconf⟩
        | some max =>
          refine ⟨?_, le_rfl, hs.bounded id max hconf⟩
          apply Nat.pos_of_ne_zero
          rintro rfl
          exact hzero hconf
      have hid : (s.blks v).partitionId = id := by
        apply partitionId_of_full hs ht hv
        · omega
        · omega
      cases hvalid : (s.blks v).valid with
      | true =>
        simp only [hid, and_self, if_true]
        omega
      | false =>
        rw [ht.cleared v hvalid] at hid
        rcases hall hid.symm with h | h
        · rw [hvalid] at h
          cases h
        · exact absurd h hfew

/-- An operation that occurs succeeds and keeps the partitions within their capacity exactly if it
is policed. -/
theorem WithinCapacity.step_iff (hop : Occurs op s) :
  (∃ t, step getPossibleEntries op s = .ok t ∧ WithinCapacity conf t)
    ↔ Policed getPossibleEntries conf op s
  := by
  cases op with
  | invalidate b =>
    obtain ⟨t, hok, hwithin, -⟩ := hs.invalidate ht hop
    exact iff_of_true ⟨t, hok, hwithin⟩ trivial
  | moveBlock src dest =>
    obtain ⟨hsrc, hdest⟩ := hop
    refine iff_of_true ⟨_, moveBlock_eq hsrc hdest, ?_, ?_⟩ trivial
    · intro id
      rw [owned_move hsrc hdest]
      exact hs.recorded id
    · intro id max hmax
      rw [owned_move hsrc hdest]
      exact hs.bounded id max hmax
  | allocate key id getVictim =>
    cases hv : s.findVictim getPossibleEntries key id getVictim with
    | none =>
      refine ⟨?_, fun _ => ⟨s, ?_, hs⟩⟩
      · intro _ v hv'
        rw [hv] at hv'
        cases hv'
      · rw [step, allocate, hv]
    | some v =>
      obtain ⟨s', hevict, hs', ht', hblks⟩ := hs.evict ht v
      have hb : (s'.blks v).valid = false := by
        rw [hblks, update_self]
        rfl
      rw [step, allocate_eq getPossibleEntries hv, hevict, ok_bind, hs'.insertBlock_iff ht' hb,
        hblks, room_iff hs ht (mem_of_findVictim getPossibleEntries hop hv)]
      constructor
      · intro h v' hv'
        cases hv.symm.trans hv'
        exact h
      · intro h
        exact h v hv

theorem Tracked.step (hop : Occurs op s) (hok : step getPossibleEntries op s = .ok t)
    (hwithin : WithinCapacity conf t) :
  Tracked conf t
  := by
  cases op with
  | invalidate b =>
    obtain ⟨t', hok', -, htracked, -⟩ := hs.invalidate ht hop
    cases hok.symm.trans hok'
    exact htracked
  | moveBlock src dest =>
    obtain ⟨hsrc, hdest⟩ := hop
    cases hok.symm.trans (moveBlock_eq hsrc hdest)
    refine ⟨ht.policy, ?_, ?_, ht.unused⟩
    · intro c hc
      by_cases hcs : c = src
      · simp [hcs]
      · by_cases hcd : c = dest
        · subst hcd
          simp [hcs] at hc
        · simp only [update_of_ne hcs, update_of_ne hcd] at hc ⊢
          exact ht.cleared c hc
    · intro id hid
      rw [owned_move hsrc hdest]
      exact ht.single id hid
  | allocate key id getVictim =>
    cases hv : s.findVictim getPossibleEntries key id getVictim with
    | none =>
      rw [PartitionedTags.step, allocate, hv] at hok
      cases hok
      exact ht
    | some v =>
      obtain ⟨s', hevict, hs', ht', -⟩ := hs.evict ht v
      rw [PartitionedTags.step, allocate_eq getPossibleEntries hv, hevict, ok_bind] at hok
      exact ht'.insertBlock hs' hok hwithin

end

/-- In every sequence of operations on a cache, no assertion fails, the recorded numbers of blocks
are right and the configured partitions stay within their maximum, exactly if blocks are only
brought in for partitions whose maximum is not 0, and a partition with the identifier of the invalid
blocks replaces a valid block whenever it has reached its maximum. -/
theorem partitioned_within_capacity_iff {blockCount : ℚ → ℕ → ℕ} {cacheSize blkSize : ℕ}
    {partitionIDs : List PartitionId} {capacities : List ℚ} {pp : MaxCapacityPartitioningPolicy}
    (hpp : construct blockCount cacheSize blkSize partitionIDs capacities = .ok pp)
    {ops : List (Op B K)} (hops : Lib.Meets (step getPossibleEntries) Occurs ops (initial pp)) :
  Lib.Always (step getPossibleEntries) (WithinCapacity pp.partitionIdMaxCapacity) ops (initial pp)
    ↔ Lib.Meets (step getPossibleEntries) (Policed getPossibleEntries pp.partitionIdMaxCapacity) ops
        (initial pp)
  := by
  have hcur := curCapacity_of_construct hpp
  apply Lib.always_iff_meets_under (Q := Tracked pp.partitionIdMaxCapacity) _ _ _ _ hops
  · intro s op ht hs hop
    exact hs.step_iff getPossibleEntries ht hop
  · intro s op t ht hs hop hok hwithin
    exact ht.step getPossibleEntries hs hop hok hwithin
  · exact tracked_initial (extends_of_construct hpp) hcur
  · exact withinCapacity_initial hcur

/-- The first candidate. -/
def firstVictim (entries : List (Fin 2)) : Fin 2 :=
  entries.headD 0

theorem firstVictim_mem (entries : List (Fin 2)) (h : entries ≠ []) :
  firstVictim entries ∈ entries
  := by
  cases entries with
  | nil => exact absurd rfl h
  | cons e entries => exact List.mem_cons_self ..

/-- The policy of a cache with two blocks, where partition 0 may have `max` of them. -/
def policyOfTwo (max : ℕ) : MaxCapacityPartitioningPolicy where
  totalBlockCount := 2
  partitionIdMaxCapacity := emplace (fun _ => none) 0 max

theorem construct_of_two {blockCount : ℚ → ℕ → ℕ} {share : ℚ} (h : 0 ≤ share ∧ share ≤ 1) :
  construct blockCount 128 64 [0] [share] = .ok (policyOfTwo (blockCount share 2))
  := by
  have hpanic : (!(decide (0 ≤ share) && decide (share ≤ 1))) = false := by simp [h]
  simp only [construct, configurePartition, List.zip_cons_cons, List.foldlM_cons, hpanic]
  rfl

/-- A share of a quarter of a cache with two blocks rounds down to no block, and the partition gets
a block nevertheless. -/
theorem allocate_over_capacity :
  ∃ s : PartitionedTags (Fin 2),
    construct (fun share n => ⌊share * n⌋₊) 128 64 [0] [1 / 4] = .ok (policyOfTwo 0)
      ∧ (policyOfTwo 0).partitionIdMaxCapacity 0 = some 0
      ∧ Lib.exec (step fun _ : Unit => [0, 1]) [.allocate () 0 firstVictim]
          (initial (policyOfTwo 0)) = .ok s
      ∧ owned s.blks 0 = 1
  := by
  refine ⟨_, ?_, rfl, rfl, ?_⟩
  · have hfloor : ⌊(1 / 4 : ℚ) * (2 : ℕ)⌋₊ = 0 := by
      norm_num
    rw [construct_of_two (by norm_num), hfloor]
  · decide

/-- A partition with all of a cache of two blocks brings in three blocks. -/
theorem partitioned_within_capacity_iff_whole :
  construct (fun share n => ⌊share * n⌋₊) 128 64 [0] [1] = .ok (policyOfTwo 2)
    ∧ Lib.Always (step fun _ : Unit => [0, 1])
        (WithinCapacity (policyOfTwo 2).partitionIdMaxCapacity)
        (List.replicate 3 (.allocate () 0 firstVictim)) (initial (policyOfTwo 2))
  := by
  have hpp : construct (fun share n => ⌊share * n⌋₊) 128 64 [0] [1] = .ok (policyOfTwo 2) := by
    rw [construct_of_two (by norm_num)]
    norm_num
  refine ⟨hpp, (partitioned_within_capacity_iff _ hpp ?_).mpr ?_⟩
  · refine ⟨firstVictim_mem, fun _ _ => ⟨firstVictim_mem, fun _ _ => ⟨firstVictim_mem, ?_⟩⟩⟩
    intro _ _
    trivial
  · have hpoliced : ∀ s : PartitionedTags (Fin 2),
        Policed (fun _ : Unit => [0, 1]) (policyOfTwo 2).partitionIdMaxCapacity
          (.allocate () 0 firstVictim) s := by
      intro s v _
      refine ⟨by decide, ?_⟩
      nofun
    refine ⟨hpoliced _, fun _ _ => ⟨hpoliced _, fun _ _ => ⟨hpoliced _, ?_⟩⟩⟩
    intro _ _
    trivial

end PartitionedTags

end Gem5Arc
