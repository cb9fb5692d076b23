import Gem5Arc.Arc.SetState
import Gem5Arc.Ruby.Index

/-!
# ARC in the Ruby cache

What the calls of the Ruby cache do when its replacement policy is ARC. Two facts hold in
every reachable state (`reachable_tracked`): the replacement data of a slot is valid exactly
when there is an entry in the slot, and every tag ARC has seen is 0, because nobody writes the
tag of a replacement data. So a set with a recorded victim takes every new line for one that
was evicted before (`SetState.promote_zero`).
-/

namespace Gem5Arc

open ARC Function List

namespace SetState

/-- Every tag in the ghost lists is 0. -/
def Untagged (v : SetState) : Prop := ∀ isB1, ∀ tag ∈ v.ghost isB1, tag = 0

variable {v : SetState} {tag tag' : Addr}

theorem Untagged.zero_mem (h : v.Untagged) (isB1 : Bool) :
  0 ∈ v.ghost isB1 ↔ v.ghost isB1 ≠ []
  := by
  constructor
  · apply ne_nil_of_mem
  · intro hne
    obtain ⟨tag, htag⟩ := exists_mem_of_ne_nil _ hne
    rw [← h isB1 tag htag]
    apply htag

/-- Promoting the tag 0 in a set where it is the only tag. -/
theorem promote_zero (h : v.Untagged) :
  v.promote 0
    = if v.b1.length = 1 ∧ v.b2 ≠ [] then .error .divisionByZero
      else if v.b1 ≠ [] then .ok (2, v.hitB1 0)
      else if v.b2 ≠ [] then .ok (2, v.hitB2 0)
      else .ok (1, v)
  := by
  have h1 : 0 ∈ v.b1 ↔ v.b1 ≠ [] := h.zero_mem true
  have h2 : 0 ∈ v.b2 ↔ v.b2 ≠ [] := h.zero_mem false
  have hdiv : v.DividesByZero 0 ↔ v.b1.length = 1 ∧ v.b2 ≠ [] := by
    rw [DividesByZero, h1, h2]
    constructor
    · rintro (⟨-, hone⟩ | ⟨hnil, -, -, hne⟩)
      · apply hone
      · apply absurd hne hnil
    · rintro ⟨hone, hne⟩
      left
      refine ⟨?_, hone, hne⟩
      rw [← length_pos_iff, hone]
      apply Nat.one_pos
  rw [promote]
  simp only [hdiv, h1, h2]

theorem mem_push {cap : ℕ} {l : List Addr} (h : tag' ∈ push cap l tag) :
  tag' ∈ l ∨ tag' = tag
  := by
  rw [push] at h
  have hmem : tag' ∈ l ++ [tag] := by
    split_ifs at h
    · apply mem_of_mem_tail h
    · apply h
  simpa using hmem

theorem add_untagged (h : v.Untagged) (cap : ℕ) (isB1 : Bool) :
  (v.add cap isB1 0).Untagged
  := by
  intro isB1' tag htag
  rw [add, ghost_setGhost] at htag
  split_ifs at htag
  · rcases mem_push htag with hold | hnew
    · apply h isB1 tag hold
    · apply hnew
  · apply h isB1' tag htag

/-- A promotion puts no tag into a ghost list. -/
theorem promote_ghost {v' : SetState} {i : ℕ} (h : v.promote tag = .ok (i, v')) (isB1 : Bool)
    (htag' : tag' ∈ v'.ghost isB1) :
  tag' ∈ v.ghost isB1
  := by
  rw [promote] at h
  split_ifs at h
  · cases h
    cases isB1 with
    | false => apply htag'
    | true => apply mem_of_mem_erase htag'
  · cases h
    cases isB1 with
    | false => apply mem_of_mem_erase htag'
    | true => apply htag'
  · cases h
    apply htag'

end SetState

namespace CacheMemory

/-- The Ruby cache with ARC. -/
abbrev ArcCache : Type := CacheMemory (ARCReplData Slot) ARC

/-- ARC, for the entries of the Ruby cache. -/
abbrev arc : ReplacementPolicy Slot (ARCReplData Slot) ARC := ARC.replacementPolicy Slot

variable {g : Geometry} {m m' : ArcCache} {entry : AbstractCacheEntry} {i : ℕ}

/-! ### What a successful call does -/

theorem place_getSet (slot : Slot) (address : Addr) (entry : AbstractCacheEntry) (now : Tick)
    (m : ArcCache) :
  (m.place slot address entry now).getSet slot = slot.set
  := by
  rw [getSet, place_cache, if_pos rfl]

/-- The cache after an entry has been put into a slot and its data into the list `i`, which
takes the set to `v`. -/
structure Inserted (slot : Slot) (address : Addr) (entry : AbstractCacheEntry) (now : Tick)
    (i : ℕ) (v : SetState) (m m' : ArcCache) : Prop where
  cache : m'.cache = (m.place slot address entry now).cache
  tagIndex : m'.tagIndex = (m.place slot address entry now).tagIndex
  data : m'.replacementData = Function.update m.replacementData slot
    (ARC.resetData now i { m.replacementData slot with entry := some slot })
  view : m'.policy.view = Function.update m.policy.view slot.set v

variable {address : Addr} {slot : Slot} {now : Tick} {set : ℕ}

/-- If an entry is put into a slot, the tag of its data has been promoted. -/
theorem insertAt_arc (h : m.insertAt arc slot address entry now = .ok m') :
  ∃ i v, (m.policy.view slot.set).promote (m.replacementData slot).tag = .ok (i, v)
    ∧ Inserted slot address entry now i v m m'
  := by
  obtain ⟨data, policy, hreset, rfl⟩ := insertAt_eq_ok.mp h
  have he : (arc.link slot (m.replacementData slot)).entry = some slot := rfl
  obtain ⟨i, v, hpromote, rfl, hview, -⟩ := reset_inv he hreset
  rw [place_getSet] at hpromote hview
  exact ⟨i, v, hpromote, ⟨rfl, rfl, rfl, hview⟩⟩

/-- An entry can be put into a slot if the tag of its data can be promoted. -/
theorem exists_insertAt_arc {v : SetState} (address : Addr) (entry : AbstractCacheEntry)
    (now : Tick) (h : (m.policy.view slot.set).promote (m.replacementData slot).tag = .ok (i, v)) :
  ∃ m', m.insertAt arc slot address entry now = .ok m'
  := by
  have he : (arc.link slot (m.replacementData slot)).entry = some slot := rfl
  rw [← place_getSet slot address entry now m] at h
  obtain ⟨policy, hreset, -⟩ := reset_ok now he h
  exact ⟨_, insertAt_eq_ok.mpr ⟨_, policy, hreset, rfl⟩⟩

/-- Every slot of the set of an address that is not available holds another line. -/
theorem full_of_cacheAvail {D P : Type} {m : CacheMemory D P} (hm : Indexed g m)
    (h : m.cacheAvail g address = .ok false) (hi : i < g.cacheAssoc) :
  ∃ entry, m.cache ⟨g.cacheSet address, i⟩ = some entry ∧ entry.address ≠ address
  := by
  obtain ⟨-, havail⟩ := cacheAvail_eq_ok.mp h
  simp only [Bool.false_eq_true, false_iff, not_exists, not_and, not_or] at havail
  obtain ⟨hclosed, haddress⟩ := havail i hi
  rw [hm.isOpen_iff] at hclosed
  obtain ⟨entry, hentry⟩ := Option.ne_none_iff_exists'.mp hclosed
  exact ⟨entry, hentry, haddress entry hentry⟩

theorem cacheAssoc_pos (g : Geometry) :
  0 < g.cacheAssoc
  := by
  rw [Nat.pos_iff_ne_zero]
  intro h0
  have hsets := g.one_lt_cacheNumSets
  rw [h0, Nat.div_zero, Nat.zero_div] at hsets
  omega

theorem mem_candidates :
  slot ∈ candidates g set ↔ slot.set = set ∧ slot.way < g.cacheAssoc
  := by
  rw [candidates, mem_map]
  constructor
  · rintro ⟨i, hi, rfl⟩
    exact ⟨rfl, mem_range.mp hi⟩
  · rintro ⟨rfl, hway⟩
    exact ⟨slot.way, mem_range.mpr hway, rfl⟩

/-- The set of an address starts with way 0. -/
theorem candidates_cons (g : Geometry) (set : ℕ) :
  ∃ rest, candidates g set = ⟨set, 0⟩ :: rest
  := by
  obtain ⟨n, hn⟩ := Nat.exists_eq_succ_of_ne_zero (cacheAssoc_pos g).ne'
  rw [candidates, hn, range_succ_eq_map, map_cons]
  exact ⟨_, rfl⟩

/-- The victim of a set, as ARC chooses it. -/
def victim (g : Geometry) (set : ℕ) (now : Tick) (m : ArcCache) : Option Slot :=
  ARC.selectVictim (m.policy.view set).p m.replacementData now (candidates g set)

/-- The set after its victim has been recorded. -/
def recorded (set : ℕ) (slot : Slot) (m : ArcCache) : SetState :=
  (m.policy.view set).add (max m.policy.size (set + 1))
    ((m.replacementData slot).listId == 1) (m.replacementData slot).tag

/-- The cache after a victim of a set has been chosen. -/
structure Probed (set : ℕ) (slot : Slot) (m m' : ArcCache) : Prop where
  cache : m'.cache = m.cache
  tagIndex : m'.tagIndex = m.tagIndex
  data : m'.replacementData = m.replacementData
  view : m'.policy.view = Function.update m.policy.view set (recorded set slot m)
  size : m'.policy.size = max m.policy.size (set + 1)

/-- On a full set, ARC chooses the victim of this set, and records it there. -/
private theorem getVictim_arc (hm : Indexed g m) (now : Tick)
    (h : m.cacheAvail g address = .ok false) :
  ∃ policy,
    arc.getVictim m.getSet m.replacementData now (candidates g (g.cacheSet address)) m.policy
        = (m.victim g (g.cacheSet address) now, m.replacementData, policy)
      ∧ policy.view = Function.update m.policy.view (g.cacheSet address)
          (ARC.SetAfterVictim m.replacementData (max m.policy.size (g.cacheSet address + 1))
            (m.victim g (g.cacheSet address) now) (m.policy.view (g.cacheSet address)))
      ∧ policy.size = max m.policy.size (g.cacheSet address + 1)
  := by
  obtain ⟨entry, hentry, -⟩ := full_of_cacheAvail hm h (cacheAssoc_pos g)
  have hset : m.getSet ⟨g.cacheSet address, 0⟩ = g.cacheSet address := by
    rw [getSet, hentry]
    apply (hm.housed _ entry hentry).set
  obtain ⟨rest, hrest⟩ := candidates_cons g (g.cacheSet address)
  have hvictim := ARC.getVictim_cons m.getSet m.replacementData now ⟨g.cacheSet address, 0⟩ rest
    m.policy
  rw [hset, ← hrest] at hvictim
  obtain ⟨hchosen, hview, hsize⟩ := hvictim
  refine ⟨_, ?_, hview, hsize⟩
  rw [victim, ← hchosen]
  rfl

/-- The victim of a set is one of its slots. -/
theorem victim_spec (h : m.victim g set now = some slot) :
  slot.set = set ∧ slot.way < g.cacheAssoc
  := mem_candidates.mp (selectVictim_mem h).1

/-- A full set whose slots are all valid has a victim. -/
theorem exists_victim (hm : Indexed g m) (now : Tick) (h : m.cacheAvail g address = .ok false)
    (hvalid : ∀ slot entry, m.cache slot = some entry → (m.replacementData slot).valid = true) :
  ∃ slot, m.victim g (g.cacheSet address) now = some slot
  := by
  obtain ⟨entry, hentry, -⟩ := full_of_cacheAvail hm h (cacheAssoc_pos g)
  have hmem : (⟨g.cacheSet address, 0⟩ : Slot) ∈ candidates g (g.cacheSet address) :=
    mem_candidates.mpr ⟨rfl, cacheAssoc_pos g⟩
  apply exists_selectVictim hmem (hvalid _ entry hentry)

/-- Probing for an address chooses a victim of its set, and returns the address of the
victim. -/
theorem cacheProbe_arc (hm : Indexed g m) {v : Addr}
    (h : m.cacheProbe g arc address now = .ok (v, m')) :
  ∃ slot entry, m.victim g (g.cacheSet address) now = some slot
    ∧ m.cache slot = some entry ∧ v = entry.address
    ∧ Probed (g.cacheSet address) slot m m'
  := by
  obtain ⟨havail, slot, entry, entry', data, policy, hchosen, hentry, hentry', rfl, rfl⟩ :=
    cacheProbe_eq_ok.mp h
  obtain ⟨policy', hpolicy', hview, hsize⟩ := getVictim_arc hm now havail
  rw [hpolicy'] at hchosen
  obtain ⟨hvictim, hrest⟩ := Prod.mk.inj hchosen
  obtain ⟨rfl, rfl⟩ := Prod.mk.inj hrest
  rw [hvictim] at hview
  obtain ⟨hset, hway⟩ := victim_spec hvictim
  rw [← hset, (hm.housed slot entry hentry).way, hentry] at hentry'
  cases hentry'
  exact ⟨slot, entry, hvictim, hentry, rfl, ⟨rfl, rfl, rfl, hview, hsize⟩⟩

/-- Probing for an address succeeds if its set has a victim. -/
theorem exists_cacheProbe_arc (hm : Indexed g m) (havail : m.cacheAvail g address = .ok false)
    (hvictim : m.victim g (g.cacheSet address) now = some slot) :
  ∃ v m', m.cacheProbe g arc address now = .ok (v, m')
  := by
  obtain ⟨hset, hway⟩ := victim_spec hvictim
  obtain ⟨entry, hentry, -⟩ := full_of_cacheAvail hm havail hway
  rw [← hset] at hentry
  obtain ⟨policy, hpolicy, -⟩ := getVictim_arc hm now havail
  rw [hvictim] at hpolicy
  refine ⟨entry.address, _, cacheProbe_eq_ok.mpr
    ⟨havail, slot, entry, entry, _, _, hpolicy, hentry, ?_, rfl, rfl⟩⟩
  rw [← hset, (hm.housed slot entry hentry).way]
  apply hentry

/-! ### The invariant -/

/-- The data of a slot is valid exactly when there is an entry in the slot, and every tag is
0. -/
structure Tracked (m : ArcCache) : Prop where
  valid : ∀ slot, (m.replacementData slot).valid = true ↔ (m.cache slot).isSome = true
  tag : ∀ slot, (m.replacementData slot).tag = 0
  ghost : ∀ set, (m.policy.view set).Untagged

theorem init_tracked :
  Tracked (init g arc)
  := by
  constructor
  · intro slot
    simp [init, arc, replacementPolicy, instantiateEntry]
  · intro slot
    rfl
  · intro set isB1 tag htag
    cases isB1 with
    | false => cases htag
    | true => cases htag

namespace Tracked

section

variable (ht : Tracked m)

include ht

theorem allocate (h : m.insertAt arc slot address entry now = .ok m') :
  Tracked m'
  := by
  obtain ⟨i, v, hpromote, hcache, -, hdata, hview⟩ := insertAt_arc h
  constructor
  · intro slot'
    rw [hdata, hcache, place_cache, update_apply]
    split_ifs with hslot
    · simp [resetData]
    · apply ht.valid
  · intro slot'
    rw [hdata, update_apply]
    split_ifs with hslot
    · apply ht.tag slot
    · apply ht.tag
  · intro set
    rw [hview, update_apply]
    split_ifs with hset
    · intro isB1 tag htag
      apply ht.ghost slot.set isB1 tag (SetState.promote_ghost hpromote isB1 htag)
    · apply ht.ghost

theorem cacheProbe (h : Probed set slot m m') :
  Tracked m'
  := by
  constructor
  · intro slot'
    rw [h.data, h.cache]
    apply ht.valid
  · intro slot'
    rw [h.data]
    apply ht.tag
  · intro set'
    rw [h.view, update_apply]
    split_ifs
    · rw [recorded, ht.tag]
      apply SetState.add_untagged (ht.ghost set)
    · apply ht.ghost

theorem deallocate (slot : Slot) (tagIndex : Addr → Option ℕ) :
  Tracked { m.updateData arc.invalidate slot with
    cache := Function.update m.cache slot none
    tagIndex := tagIndex }
  := by
  constructor
  · intro slot'
    simp only [updateData_replacementData, update_apply]
    split_ifs with hslot
    · simp [arc, replacementPolicy, invalidate]
    · apply ht.valid
  · intro slot'
    simp only [updateData_replacementData]
    split_ifs with hslot
    · apply ht.tag slot
    · apply ht.tag
  · apply ht.ghost

theorem upkeep (h : Upkeep arc m m') :
  Tracked m'
  := by
  rcases h.data with ⟨hdata, hpolicy⟩ | ⟨slot, now, -, hdata, hpolicy⟩
  · constructor
    · intro slot'
      rw [hdata, h.isSome]
      apply ht.valid
    · rw [hdata]
      apply ht.tag
    · rw [hpolicy]
      apply ht.ghost
  · constructor
    · intro slot'
      rw [hdata, h.isSome, updateData_replacementData]
      split_ifs with hslot
      · rw [hslot]
        apply ht.valid slot
      · apply ht.valid
    · intro slot'
      rw [hdata, updateData_replacementData]
      split_ifs
      · apply ht.tag slot
      · apply ht.tag
    · rw [hpolicy]
      apply ht.ghost

end

end Tracked

theorem step_tracked {op : Op} (hm : Indexed g m) (ht : Tracked m) (h : Step g arc m op m') :
  Tracked m'
  := by
  cases op with
  | allocate address entry now =>
    obtain ⟨⟨slot, m''⟩, hallocate, rfl⟩ := map_eq_ok.mp h.2
    obtain ⟨-, -, -, -, hinsert⟩ := allocate_eq_ok.mp hallocate
    apply ht.allocate hinsert
  | deallocate address =>
    obtain ⟨slot, entry, -, -, rfl⟩ := (deallocate_spec hm).mp h.2
    apply ht.deallocate
  | cacheProbe address now =>
    obtain ⟨⟨v, m''⟩, hprobe, rfl⟩ := map_eq_ok.mp h.2
    obtain ⟨slot, entry, -, -, -, hprobed⟩ := cacheProbe_arc hm hprobe
    apply ht.cacheProbe hprobed
  | _ => apply ht.upkeep (step_upkeep rfl h)

theorem reachable_tracked (h : Reachable g arc m) :
  Tracked m
  := by
  have hinv : Indexed g m ∧ Tracked m := by
    apply Lib.Reachable.invariant _ h ⟨init_indexed, init_tracked⟩
    rintro m op m' ⟨hm, ht⟩ hstep
    exact ⟨step_indexed hm hstep, step_tracked hm ht hstep⟩
  apply hinv.2

end CacheMemory

end Gem5Arc
