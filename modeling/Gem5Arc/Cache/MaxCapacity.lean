import Gem5Arc.Basic
import Gem5Arc.Lib.Run

/-!
# Partitioning a cache by maximum capacity

The partitioning policy of `mem/cache/tags/partitioning_policies/max_capacity_pp.cc`. It keeps two
maps from partition ids, one to the number of blocks a partition may have and one to the number it
has. A subscript of either map makes the entry it reads, so the assertion of `notifyAcquire` gives
every partition that acquires a block a maximum, which is 0 if none was configured.

`policyCalls_unrestricted_iff` says which calls of the policy pass their assertions and do not
restrict the partitions without a configured maximum.
-/

namespace Gem5Arc

/-- The identifier of a partition. -/
abbrev PartitionId : Type := BitVec 64

/-- The policy. Its maps are functions, with `none` where a map has no entry. -/
structure MaxCapacityPartitioningPolicy where
  totalBlockCount : ℕ
  partitionIdMaxCapacity : PartitionId → Option ℕ := fun _ => none
  partitionIdCurCapacity : PartitionId → Option ℕ := fun _ => none

namespace MaxCapacityPartitioningPolicy

/-- `map[id]`: the value of an entry, which is made with the value 0 if it is absent. -/
def subscript (map : PartitionId → Option ℕ) (id : PartitionId) :
    (PartitionId → Option ℕ) × ℕ :=
  let value := (map id).getD 0
  (Function.update map id (some value), value)

/-- `map.emplace(id, value)`, which keeps an entry that is there. -/
def emplace (map : PartitionId → Option ℕ) (id : PartitionId) (value : ℕ) :
    PartitionId → Option ℕ :=
  match map id with
  | some _ => map
  | none => Function.update map id (some value)

/-- Give a partition its share `capFrac` of the blocks. The product of the share, a floating-point
number, and the number of blocks, truncated to an integer, is `blockCount`. -/
def configurePartition (blockCount : ℚ → ℕ → ℕ) (partitionId : PartitionId) (capFrac : ℚ)
    (pp : MaxCapacityPartitioningPolicy) : Except Fault MaxCapacityPartitioningPolicy := do
  panicIf (!(0 ≤ capFrac && capFrac ≤ 1))
    ("MaxCapacity Partitioning Policy for PartitionID %d has " ++
      "Capacity Fraction %f outside of [0,1] range")
  let allocatedBlockCnt := blockCount capFrac pp.totalBlockCount
  pure { pp with
    partitionIdMaxCapacity := emplace pp.partitionIdMaxCapacity partitionId allocatedBlockCnt }

def construct (blockCount : ℚ → ℕ → ℕ) (cacheSize blkSize : ℕ) (partitionIDs : List PartitionId)
    (capacities : List ℚ) : Except Fault MaxCapacityPartitioningPolicy := do
  let totalBlockCount ← divide cacheSize blkSize
  fatalIf (partitionIDs.length ≠ capacities.length)
    ("MaxCapacity Partitioning Policy configuration invalid: ids and " ++
      "capacities arrays are not equal lengths")
  (partitionIDs.zip capacities).foldlM (fun pp c => configurePartition blockCount c.1 c.2 pp)
    { totalBlockCount }

/-- Remove the candidates of other partitions once the partition has as many blocks as it may
have. -/
def filterByPartition {E : Type} (getPartitionId : E → PartitionId) (entries : List E)
    (id : PartitionId) (pp : MaxCapacityPartitioningPolicy) : List E :=
  match pp.partitionIdMaxCapacity id, pp.partitionIdCurCapacity id with
  | some max, some cur =>
    if entries.isEmpty || cur < max then entries
    else entries.filter (fun entry => getPartitionId entry = id)
  | _, _ => entries

def notifyAcquire (partitionId : PartitionId) (pp : MaxCapacityPartitioningPolicy) :
    Except Fault MaxCapacityPartitioningPolicy := do
  let (curCapacity, cur) := subscript pp.partitionIdCurCapacity partitionId
  let (maxCapacity, max) := subscript pp.partitionIdMaxCapacity partitionId
  assert (cur ≤ max)
  pure { pp with
    partitionIdCurCapacity := Function.update curCapacity partitionId (some (cur + 1))
    partitionIdMaxCapacity := maxCapacity }

def notifyRelease (partitionId : PartitionId) (pp : MaxCapacityPartitioningPolicy) :
    Except Fault MaxCapacityPartitioningPolicy := do
  let (curCapacity, cur) := subscript pp.partitionIdCurCapacity partitionId
  assert (0 < cur)
  pure { pp with
    partitionIdCurCapacity := Function.update curCapacity partitionId (some (cur - 1)) }

/-! ### What the notifications do -/

/-- The number of blocks the policy has recorded for a partition. -/
def held (pp : MaxCapacityPartitioningPolicy) (id : PartitionId) : ℕ :=
  (pp.partitionIdCurCapacity id).getD 0

/-- The policy after a partition has acquired a block. -/
def acquired (pp : MaxCapacityPartitioningPolicy) (id : PartitionId) :
    MaxCapacityPartitioningPolicy :=
  { pp with
    partitionIdCurCapacity := Function.update pp.partitionIdCurCapacity id (some (pp.held id + 1))
    partitionIdMaxCapacity := Function.update pp.partitionIdMaxCapacity id
      (some ((pp.partitionIdMaxCapacity id).getD 0)) }

/-- The policy after a partition has released a block. -/
def released (pp : MaxCapacityPartitioningPolicy) (id : PartitionId) :
    MaxCapacityPartitioningPolicy :=
  { pp with
    partitionIdCurCapacity := Function.update pp.partitionIdCurCapacity id (some (pp.held id - 1)) }

variable {pp pp' : MaxCapacityPartitioningPolicy} {id p : PartitionId}

theorem notifyAcquire_eq_ok :
  pp.notifyAcquire id = .ok pp'
    ↔ pp.held id ≤ (pp.partitionIdMaxCapacity id).getD 0 ∧ pp' = pp.acquired id
  := by
  simp only [notifyAcquire, subscript, assert_bind_eq_ok, Function.update_idem]
  apply and_congr decide_eq_true_iff
  constructor
  · rintro ⟨⟩
    rfl
  · rintro rfl
    rfl

theorem notifyRelease_eq_ok :
  pp.notifyRelease id = .ok pp' ↔ 0 < pp.held id ∧ pp' = pp.released id
  := by
  simp only [notifyRelease, subscript, assert_bind_eq_ok, Function.update_idem]
  apply and_congr decide_eq_true_iff
  constructor
  · rintro ⟨⟩
    rfl
  · rintro rfl
    rfl

theorem held_acquired (p : PartitionId) :
  (pp.acquired id).held p = if p = id then pp.held id + 1 else pp.held p
  := by
  by_cases hp : p = id
  · simp [held, acquired, hp]
  · simp [held, acquired, hp]

theorem held_released (p : PartitionId) :
  (pp.released id).held p = if p = id then pp.held id - 1 else pp.held p
  := by
  by_cases hp : p = id
  · simp [held, released, hp]
  · simp [held, released, hp]

section Filter

variable {E : Type} {getPartitionId : E → PartitionId} {entries : List E} {e : E}

/-- A partition that has a maximum, and has a record of as many blocks, is left with its own
entries. -/
theorem filterByPartition_of_full {max cur : ℕ} (hmax : pp.partitionIdMaxCapacity id = some max)
    (hcur : pp.partitionIdCurCapacity id = some cur) (hfull : max ≤ cur) :
  pp.filterByPartition getPartitionId entries id
    = entries.filter (fun entry => getPartitionId entry = id)
  := by
  unfold filterByPartition
  rw [hmax, hcur]
  cases entries with
  | nil => rfl
  | cons e entries => simp [hfull]

end Filter

/-! ### Configured partitions -/

/-- What the policy knows in a run that started with the maxima `conf`: the configured ones are as
they were. A partition without one has no record at all until it acquires a block, and a maximum
of 0 from then on. -/
structure Extends (conf : PartitionId → Option ℕ) (pp : MaxCapacityPartitioningPolicy) : Prop where
  configured : ∀ id max, conf id = some max → pp.partitionIdMaxCapacity id = some max
  unconfigured : ∀ id, conf id = none →
    (pp.partitionIdMaxCapacity id = none ∧ pp.partitionIdCurCapacity id = none)
      ∨ (pp.partitionIdMaxCapacity id = some 0 ∧ ∃ cur, pp.partitionIdCurCapacity id = some cur)

namespace Extends

variable {conf : PartitionId → Option ℕ}

section

variable (h : Extends conf pp)

include h

theorem maxCapacity_getD (id : PartitionId) :
  (pp.partitionIdMaxCapacity id).getD 0 = (conf id).getD 0
  := by
  cases hconf : conf id with
  | some max => rw [h.configured id max hconf]
  | none =>
    rcases h.unconfigured id hconf with ⟨hmax, -⟩ | ⟨hmax, -⟩
    · rw [hmax]
    · rw [hmax]
      rfl

/-- A partition with a record of blocks has a maximum. -/
theorem maxCapacity_eq_some {cur : ℕ} (hcur : pp.partitionIdCurCapacity id = some cur) :
  pp.partitionIdMaxCapacity id = some ((conf id).getD 0)
  := by
  cases hconf : conf id with
  | some max => exact h.configured id max hconf
  | none =>
    rcases h.unconfigured id hconf with ⟨-, hnone⟩ | ⟨hmax, -⟩
    · rw [hnone] at hcur
      cases hcur
    · exact hmax

theorem acquired (id : PartitionId) :
  Extends conf (pp.acquired id)
  := by
  constructor
  · intro p max hp
    by_cases hid : p = id
    · subst hid
      simp [MaxCapacityPartitioningPolicy.acquired, h.configured p max hp]
    · simp [MaxCapacityPartitioningPolicy.acquired, hid, h.configured p max hp]
  · intro p hp
    by_cases hid : p = id
    · subst hid
      right
      have hmax := h.maxCapacity_getD p
      rw [hp] at hmax
      simp [MaxCapacityPartitioningPolicy.acquired, hmax]
    · simpa [MaxCapacityPartitioningPolicy.acquired, hid] using h.unconfigured p hp

theorem released (hheld : 0 < pp.held id) :
  Extends conf (pp.released id)
  := by
  constructor
  · exact h.configured
  · intro p hp
    by_cases hid : p = id
    · subst hid
      right
      rcases h.unconfigured p hp with ⟨-, hnone⟩ | ⟨hmax, -⟩
      · simp [held, hnone] at hheld
      · exact ⟨hmax, by simp [MaxCapacityPartitioningPolicy.released]⟩
    · simpa [MaxCapacityPartitioningPolicy.released, hid] using h.unconfigured p hp

end

end Extends

variable {blockCount : ℚ → ℕ → ℕ}

/-- The loop of the constructor does not record any blocks. -/
theorem foldlM_configurePartition_curCapacity {confs : List (PartitionId × ℚ)}
    (h : confs.foldlM (fun pp c => configurePartition blockCount c.1 c.2 pp) pp = .ok pp') :
  pp'.partitionIdCurCapacity = pp.partitionIdCurCapacity
  := by
  induction confs generalizing pp with
  | nil =>
    cases h
    rfl
  | cons c confs ih =>
    obtain ⟨next, hnext, hrest⟩ := bind_eq_ok.mp h
    obtain ⟨-, hnext⟩ := panicIf_bind_eq_ok.mp hnext
    cases hnext
    rw [ih hrest]

variable {cacheSize blkSize : ℕ} {partitionIDs : List PartitionId} {capacities : List ℚ}

section

variable (h : construct blockCount cacheSize blkSize partitionIDs capacities = .ok pp)

include h

/-- No partition has used the cache when the policy is made. -/
theorem curCapacity_of_construct :
  pp.partitionIdCurCapacity = fun _ => none
  := by
  obtain ⟨total, -, h⟩ := bind_eq_ok.mp h
  obtain ⟨-, -, h⟩ := bind_eq_ok.mp h
  exact foldlM_configurePartition_curCapacity h

theorem extends_of_construct :
  Extends pp.partitionIdMaxCapacity pp
  := by
  constructor
  · intro id max hmax
    exact hmax
  · intro id hmax
    left
    rw [curCapacity_of_construct h]
    exact ⟨hmax, rfl⟩

end

/-! ### Calls of the policy -/

section Calls

variable {E : Type} (getPartitionId : E → PartitionId)

/-- A call of the policy. -/
inductive Call (E : Type) where
  | notifyAcquire (partitionId : PartitionId)
  | notifyRelease (partitionId : PartitionId)
  | filterByPartition (entries : List E) (id : PartitionId)

def call : Call E → MaxCapacityPartitioningPolicy → Except Fault MaxCapacityPartitioningPolicy
  | .notifyAcquire id, pp => pp.notifyAcquire id
  | .notifyRelease id, pp => pp.notifyRelease id
  | .filterByPartition _ _, pp => .ok pp

/-- The calls the cache makes: it releases only blocks that were acquired. -/
def Made : Call E → MaxCapacityPartitioningPolicy → Prop
  | .notifyRelease id, pp => 0 < pp.held id
  | _, _ => True

/-- A call does not fail, and does not take candidates away from a partition without a configured
maximum. -/
def Unrestricted (conf : PartitionId → Option ℕ) (c : Call E)
    (pp : MaxCapacityPartitioningPolicy) : Prop :=
  (∃ pp', call c pp = .ok pp')
    ∧ ∀ entries id, c = .filterByPartition entries id → conf id = none →
      pp.filterByPartition getPartitionId entries id = entries

/-- When a call is unrestricted. A partition without a configured maximum may acquire a block only
while it has none, and may look for a victim only if it has never had a block or all candidates are
its own. -/
def Permitted (conf : PartitionId → Option ℕ) : Call E → MaxCapacityPartitioningPolicy → Prop
  | .notifyAcquire id, pp => pp.held id ≤ (conf id).getD 0
  | .notifyRelease _, _ => True
  | .filterByPartition entries id, pp =>
    conf id = none → pp.partitionIdCurCapacity id = none ∨ ∀ e ∈ entries, getPartitionId e = id

variable {getPartitionId} {conf : PartitionId → Option ℕ} {c : Call E}

theorem Extends.call (h : Extends conf pp) (hok : call c pp = .ok pp') :
  Extends conf pp'
  := by
  cases c with
  | notifyAcquire id =>
    obtain ⟨-, rfl⟩ := notifyAcquire_eq_ok.mp hok
    exact h.acquired id
  | notifyRelease id =>
    obtain ⟨hheld, rfl⟩ := notifyRelease_eq_ok.mp hok
    exact h.released hheld
  | filterByPartition entries id =>
    cases hok
    exact h

theorem Extends.filterByPartition_eq_iff (h : Extends conf pp) (hid : conf id = none)
    (entries : List E) :
  pp.filterByPartition getPartitionId entries id = entries
    ↔ pp.partitionIdCurCapacity id = none ∨ ∀ e ∈ entries, getPartitionId e = id
  := by
  rcases h.unconfigured id hid with ⟨hmax, hcur⟩ | ⟨hmax, cur, hcur⟩
  · simp [filterByPartition, hmax, hcur]
  · rw [filterByPartition_of_full hmax hcur (Nat.zero_le cur), hcur]
    simp

theorem Extends.unrestricted_iff (h : Extends conf pp) (hc : Made c pp) :
  Unrestricted getPartitionId conf c pp ↔ Permitted getPartitionId conf c pp
  := by
  cases c with
  | notifyAcquire id =>
    constructor
    · rintro ⟨⟨pp', hok⟩, -⟩
      obtain ⟨hheld, -⟩ := notifyAcquire_eq_ok.mp hok
      rwa [h.maxCapacity_getD] at hheld
    · intro hheld
      refine ⟨⟨_, notifyAcquire_eq_ok.mpr ⟨?_, rfl⟩⟩, ?_⟩
      · rwa [h.maxCapacity_getD]
      · rintro _ _ ⟨⟩
  | notifyRelease id =>
    refine iff_of_true ⟨⟨_, notifyRelease_eq_ok.mpr ⟨hc, rfl⟩⟩, ?_⟩ trivial
    rintro _ _ ⟨⟩
  | filterByPartition entries id =>
    constructor
    · rintro ⟨-, hsame⟩ hid
      exact (h.filterByPartition_eq_iff hid entries).mp (hsame entries id rfl hid)
    · intro hpermitted
      refine ⟨⟨pp, rfl⟩, ?_⟩
      rintro _ _ ⟨⟩ hid
      exact (h.filterByPartition_eq_iff hid entries).mpr (hpermitted hid)

/-- In a sequence of calls the cache makes to a policy, no assertion fails and no partition without
a configured maximum is restricted, exactly if no partition acquires a block while it has more than
its configured maximum, or, without one, while it has any, and the partitions without a maximum look
for victims only before they first acquire a block or among their own blocks. -/
theorem policyCalls_unrestricted_iff {blockCount : ℚ → ℕ → ℕ} {cacheSize blkSize : ℕ}
    {partitionIDs : List PartitionId} {capacities : List ℚ}
    (hpp : construct blockCount cacheSize blkSize partitionIDs capacities = .ok pp)
    {calls : List (Call E)} (hcalls : Lib.Meets call Made calls pp) :
  Lib.Meets call (Unrestricted getPartitionId pp.partitionIdMaxCapacity) calls pp
    ↔ Lib.Meets call (Permitted getPartitionId pp.partitionIdMaxCapacity) calls pp
  := by
  apply Lib.meets_iff_meets (Q := Extends pp.partitionIdMaxCapacity) _ _ _ hcalls
  · intro s c hs hc
    exact hs.unrestricted_iff hc
  · intro s c t hs _ _ hok
    exact hs.call hok
  · exact extends_of_construct hpp

/-- A cache without configured partitions, where partition 0 gets a block and then looks for a
victim in the same set: the other block of the set is no longer a candidate. The number of a block
stands next to its partition. -/
theorem filterByPartition_restricts :
  ∃ pp pp' : MaxCapacityPartitioningPolicy,
    construct (fun _ _ => 0) 128 64 [] [] = .ok pp ∧ pp.partitionIdMaxCapacity 0 = none
      ∧ Lib.exec (call (E := PartitionId × ℕ))
          [.filterByPartition [(BitVec.allOnes 64, 0), (BitVec.allOnes 64, 1)] 0, .notifyAcquire 0]
          pp = .ok pp'
      ∧ pp'.filterByPartition Prod.fst [(0, 0), (BitVec.allOnes 64, 1)] 0 = [(0, 0)]
  := ⟨_, _, rfl, rfl, rfl, rfl⟩

/-- A configured partition that looks for a victim, gets a block and looks for another one. -/
theorem policyCalls_unrestricted_iff_configured :
  ∃ pp : MaxCapacityPartitioningPolicy,
    construct (fun _ n => n) 128 64 [0] [1] = .ok pp
      ∧ Lib.Meets call (Unrestricted (E := PartitionId × ℕ) Prod.fst pp.partitionIdMaxCapacity)
          [.filterByPartition [(BitVec.allOnes 64, 0)] 0, .notifyAcquire 0,
            .filterByPartition [(BitVec.allOnes 64, 1)] 0] pp
  := by
  have hpp : construct (fun _ n => n) 128 64 [0] [1] = .ok _ := rfl
  refine ⟨_, hpp, (policyCalls_unrestricted_iff hpp ?_).mpr ?_⟩
  · simp [Lib.Meets, Made]
  · refine ⟨fun _ => .inl rfl, ?_⟩
    rintro t ⟨⟩
    refine ⟨Nat.zero_le _, ?_⟩
    rintro t ⟨⟩
    refine ⟨?_, fun _ _ => trivial⟩
    rintro ⟨⟩

end Calls

end MaxCapacityPartitioningPolicy

end Gem5Arc
