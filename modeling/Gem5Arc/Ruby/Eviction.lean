import Gem5Arc.Ruby.ArcCache

/-!
# Eviction

A controller that needs room for a line probes the cache for a victim, deallocates the victim
and allocates the line. With ARC this works out exactly when the insertion does not divide by
zero, which can be told from the state before the probe (`evicts_iff`): the ghost lists of the
set and the list the victim is in decide it.
-/

namespace Gem5Arc

open Function

namespace SetState

/-- A set that has recorded its victim and then takes a new line divides by zero if B1 is
left with one element and B2 is not empty. Here `fromT1` says where the victim is, and `cap`
what the ghost lists are capped at. -/
def EvictionDivides (cap : ℕ) (fromT1 : Bool) (v : SetState) : Prop :=
  if fromT1 then v.b2 ≠ [] ∧ (v.b1 = [] ∨ (v.b1.length = 1 ∧ cap = 1))
  else v.b1.length = 1

theorem evictionDivides_iff {cap : ℕ} (hcap : 0 < cap) (fromT1 : Bool) (tag : Addr) (v : SetState) :
  (v.add cap fromT1 tag).b1.length = 1 ∧ (v.add cap fromT1 tag).b2 ≠ []
    ↔ v.EvictionDivides cap fromT1
  := by
  cases fromT1 with
  | false =>
    have hb2 : (v.add cap false tag).b2 ≠ [] := by
      rw [← List.length_pos_iff]
      change 0 < (push cap v.b2 tag).length
      rw [length_push]
      split_ifs
      · omega
      · omega
    constructor
    · rintro ⟨hb1, -⟩
      apply hb1
    · intro hb1
      exact ⟨hb1, hb2⟩
  | true =>
    have hb1 : (v.add cap true tag).b1.length = 1
        ↔ v.b1 = [] ∨ (v.b1.length = 1 ∧ cap = 1) := by
      change (push cap v.b1 tag).length = 1 ↔ _
      rw [length_push, ← List.length_eq_zero_iff]
      split_ifs
      · omega
      · omega
    simp only [EvictionDivides, if_true, hb1]
    apply and_comm

end SetState

namespace CacheMemory

variable {g : Geometry} {m m₁ m₂ : ArcCache}

/-- Room is made for a line: a probe returns another line of the same set that is in the
cache, this line can be deallocated, the address is then available, and allocating it puts the
entry into the slot of the victim and leaves every other line as it was. -/
def Evicts (g : Geometry) (address : Addr) (entry : AbstractCacheEntry) (now now' : Tick)
    (m : ArcCache) : Prop :=
  ∃ v slot m₁ m₂ m₃,
    m.cacheProbe g arc address now = .ok (v, m₁)
    ∧ v ≠ address
    ∧ m.lookup g v = .ok (some slot)
    ∧ g.addressToCacheSet v = g.addressToCacheSet address
    ∧ m₁.deallocate g arc v = .ok m₂
    ∧ m₂.cacheAvail g address = .ok true
    ∧ m₂.allocate g arc address entry now' = .ok (slot, m₃)
    ∧ (∀ slot', slot' ≠ slot → m₃.cache slot' = m.cache slot')
    ∧ ∀ address', address' ≠ v → address' ≠ address →
        m₃.lookup g address' = m.lookup g address'

/-- The insertion after the eviction divides by zero. -/
def EvictionDivides (g : Geometry) (address : Addr) (now : Tick) (m : ArcCache) : Prop :=
  let set := g.cacheSet address
  ∃ slot, m.victim g set now = some slot
    ∧ (m.policy.view set).EvictionDivides (max m.policy.size (set + 1))
        ((m.replacementData slot).listId == 1)

/-- From `m`, a probe for an address chooses the entry in a slot and leads to `m₁`, from where
deallocating this entry leads to `m₂`. -/
structure Vacated (g : Geometry) (address : Addr) (now : Tick) (slot : Slot)
    (entry : AbstractCacheEntry) (m m₁ m₂ : ArcCache) : Prop where
  full : m.cacheAvail g address = .ok false
  victim : m.victim g (g.cacheSet address) now = some slot
  resident : m.cache slot = some entry
  probe : m.cacheProbe g arc address now = .ok (entry.address, m₁)
  deallocate : m₁.deallocate g arc entry.address = .ok m₂
  reachable : Reachable g arc m₂
  cache : m₂.cache = Function.update m.cache slot none
  tagIndex : m₂.tagIndex = Function.update m.tagIndex entry.address none
  view : m₂.policy.view (g.cacheSet address) = recorded (g.cacheSet address) slot m

/-- In a reachable state, a victim can be chosen in a full set, and deallocated. -/
theorem exists_vacated (h : Reachable g arc m) {address : Addr} (now : Tick)
    (havail : m.cacheAvail g address = .ok false) :
  ∃ slot entry m₁ m₂, Vacated g address now slot entry m m₁ m₂
  := by
  have hm := reachable_indexed h
  have ht := reachable_tracked h
  have hvalid (slot : Slot) (entry : AbstractCacheEntry) (hentry : m.cache slot = some entry) :
      (m.replacementData slot).valid = true := by
    rw [ht.valid, hentry]
    rfl
  obtain ⟨slot, hvictim⟩ := exists_victim hm now havail hvalid
  obtain ⟨v, m₁, hprobe⟩ := exists_cacheProbe_arc hm havail hvictim
  obtain ⟨slot', entry, hvictim', hentry, rfl, hprobed⟩ := cacheProbe_arc hm hprobe
  rw [hvictim] at hvictim'
  cases hvictim'
  have hcall₁ : call g arc (.cacheProbe address now) m = .ok m₁ :=
    map_eq_ok.mpr ⟨_, hprobe, rfl⟩
  have h₁ := h.call hcall₁ trivial
  have hm₁ := reachable_indexed h₁
  have hentry₁ : m₁.cache slot = some entry := by
    rw [hprobed.cache, hentry]
  have hcall₂ : call g arc (.deallocate entry.address) m₁ = .ok _ :=
    (deallocate_spec hm₁).mpr ⟨slot, entry, hentry₁, rfl, rfl⟩
  have h₂ := h₁.call hcall₂ trivial
  refine ⟨slot, entry, m₁, _, havail, hvictim, hentry, hprobe, hcall₂, h₂, ?_, ?_, ?_⟩
  · rw [hprobed.cache]
  · rw [hprobed.tagIndex]
  · change m₁.policy.view _ = _
    rw [hprobed.view, update_self]

namespace Vacated

variable {address : Addr} {now : Tick} {slot : Slot} {entry : AbstractCacheEntry}

section

variable (h : Vacated g address now slot entry m m₁ m₂)

include h

theorem slot_set :
  slot.set = g.cacheSet address
  := (victim_spec h.victim).1

theorem slot_eq :
  slot = ⟨g.cacheSet address, slot.way⟩
  := by
  rw [← h.slot_set]

theorem cache_slot :
  m₂.cache slot = none
  := by
  rw [h.cache, update_self]

end

/-- The other slots of the set are still full, with other lines. -/
theorem cache_other (hm : Indexed g m) (h : Vacated g address now slot entry m m₁ m₂) {i : ℕ}
    (hi : i < g.cacheAssoc) (hne : i ≠ slot.way) :
  ∃ entry', m₂.cache ⟨g.cacheSet address, i⟩ = some entry' ∧ entry'.address ≠ address
  := by
  have hslot : (⟨g.cacheSet address, i⟩ : Slot) ≠ slot := by
    rintro rfl
    apply hne rfl
  rw [h.cache, update_of_ne hslot]
  apply full_of_cacheAvail hm h.full hi

theorem victim_ne (hm : Indexed g m) (h : Vacated g address now slot entry m m₁ m₂) :
  entry.address ≠ address
  := by
  obtain ⟨entry', hentry', hne⟩ := full_of_cacheAvail hm h.full (victim_spec h.victim).2
  rw [← h.slot_eq, h.resident] at hentry'
  cases hentry'
  apply hne

theorem cacheAvail (h : Vacated g address now slot entry m m₁ m₂) :
  m₂.cacheAvail g address = .ok true
  := by
  rw [cacheAvail_eq_ok]
  use (cacheAvail_eq_ok.mp h.full).1
  simp only [true_iff]
  use slot.way, (victim_spec h.victim).2
  left
  rw [(reachable_indexed h.reachable).isOpen_iff, ← h.slot_eq]
  apply h.cache_slot

section

variable (hm : Indexed g m) (h : Vacated g address now slot entry m m₁ m₂)

include hm h

/-- The line is not in the cache. -/
theorem lookup_address :
  m₂.lookup g address = .ok none
  := by
  have hm₂ := reachable_indexed h.reachable
  rw [hm₂.lookup_eq_none (cacheAvail_eq_ok.mp h.full).1]
  rintro slot' entry' hentry' rfl
  have hhoused := hm₂.housed slot' entry' hentry'
  have hslot' : slot' = ⟨g.cacheSet entry'.address, slot'.way⟩ := by
    rw [hhoused.home]
  have hne : slot'.way ≠ slot.way := by
    intro hway
    rw [hslot', hway, ← h.slot_eq, h.cache_slot] at hentry'
    cases hentry'
  obtain ⟨entry'', hentry'', haddress⟩ := h.cache_other hm hhoused.way_lt hne
  rw [← hslot', hentry'] at hentry''
  cases hentry''
  apply haddress rfl

/-- The slot of the victim is the first open one of its set. -/
theorem openWay :
  m₂.openWay g (g.cacheSet address) = some slot.way
  := by
  have hm₂ := reachable_indexed h.reachable
  have hsome : (m₂.openWay g (g.cacheSet address)).isSome = true := by
    rw [CacheMemory.openWay, List.find?_isSome]
    use slot.way, List.mem_range.mpr (victim_spec h.victim).2
    rw [hm₂.isOpen_iff, ← h.slot_eq, h.cache_slot]
  obtain ⟨way, hway⟩ := Option.isSome_iff_exists.mp hsome
  obtain ⟨hempty, hlt⟩ := hm₂.openWay_spec hway
  by_cases hne : way = slot.way
  · rw [hway, hne]
  · obtain ⟨entry', hentry', -⟩ := h.cache_other hm hlt hne
    rw [hempty] at hentry'
    cases hentry'

/-- The line can be allocated exactly when this does not divide by zero. -/
theorem allocate_iff (entry' : AbstractCacheEntry) (now' : Tick) :
  (∃ m₃, m₂.allocate g arc address entry' now' = .ok (slot, m₃))
    ↔ ¬m.EvictionDivides g address now
  := by
  have ht₂ := reachable_tracked h.reachable
  have hcap : 0 < max m.policy.size (g.cacheSet address + 1) := by omega
  have hdivides : m.EvictionDivides g address now
      ↔ (m₂.policy.view slot.set).b1.length = 1 ∧ (m₂.policy.view slot.set).b2 ≠ [] := by
    rw [h.slot_set, h.view, recorded, SetState.evictionDivides_iff hcap, EvictionDivides]
    simp only [h.victim, Option.some.injEq, exists_eq_left']
  have hpromote := SetState.promote_zero (ht₂.ghost slot.set)
  rw [← ht₂.tag slot] at hpromote
  rw [hdivides]
  constructor
  · rintro ⟨m₃, hallocate⟩ hdiv
    obtain ⟨-, -, -, -, hinsert⟩ := allocate_eq_ok.mp hallocate
    obtain ⟨i, v, hok, -⟩ := insertAt_arc hinsert
    rw [hpromote, if_pos hdiv] at hok
    cases hok
  · intro hdiv
    have hok : ∃ r, (m₂.policy.view slot.set).promote (m₂.replacementData slot).tag = .ok r := by
      rw [hpromote]
      split_ifs
      · exact ⟨_, rfl⟩
      · exact ⟨_, rfl⟩
      · exact ⟨_, rfl⟩
    obtain ⟨⟨i, v⟩, hok⟩ := hok
    obtain ⟨m₃, hinsert⟩ := exists_insertAt_arc address entry' now' hok
    use m₃
    rw [allocate_eq_ok, h.slot_set]
    exact ⟨h.lookup_address hm, h.cacheAvail, rfl, h.openWay hm, hinsert⟩

/-- Allocating the line leaves the other slots alone, and the other lines where they are. -/
theorem allocate_frame {entry' : AbstractCacheEntry} {now' : Tick} {m₃ : ArcCache}
    (hallocate : m₂.allocate g arc address entry' now' = .ok (slot, m₃)) :
  (∀ slot', slot' ≠ slot → m₃.cache slot' = m.cache slot')
    ∧ ∀ address', address' ≠ entry.address → address' ≠ address →
        m₃.lookup g address' = m.lookup g address'
  := by
  obtain ⟨-, -, -, -, hinsert⟩ := allocate_eq_ok.mp hallocate
  obtain ⟨i, v, -, hinserted⟩ := insertAt_arc hinsert
  have hcache (slot' : Slot) (hne : slot' ≠ slot) : m₃.cache slot' = m.cache slot' := by
    rw [hinserted.cache, place_cache, if_neg hne, h.cache, update_of_ne hne]
  use hcache
  intro address' hv haddress
  apply lookup_congr
  · rw [hinserted.tagIndex, place_tagIndex, if_neg haddress, h.tagIndex, update_of_ne hv]
  · intro way hway
    apply hcache
    intro hslot
    obtain ⟨entry'', hentry'', rfl⟩ := (hm.index address' way).mp hway
    rw [hslot, h.resident] at hentry''
    cases hentry''
    apply hv rfl

end

end Vacated

/-- In every reachable state, room can be made for a line whose set is full exactly when the
insertion after the eviction does not divide by zero. -/
theorem evicts_iff (h : Reachable g arc m) {address : Addr} (entry : AbstractCacheEntry)
    (now now' : Tick) (havail : m.cacheAvail g address = .ok false) :
  m.Evicts g address entry now now' ↔ ¬m.EvictionDivides g address now
  := by
  have hm := reachable_indexed h
  obtain ⟨slot, victim, m₁, m₂, hv⟩ := exists_vacated h now havail
  rw [← hv.allocate_iff hm entry now']
  constructor
  · rintro ⟨v, slot', m₁', m₂', m₃, hprobe, -, hlookup, -, hdeallocate, -, hallocate, -⟩
    rw [hv.probe] at hprobe
    cases hprobe
    rw [hv.deallocate] at hdeallocate
    cases hdeallocate
    rw [hm.lookup_eq_some.mpr ⟨victim, hv.resident, rfl⟩] at hlookup
    cases hlookup
    exact ⟨m₃, hallocate⟩
  · rintro ⟨m₃, hallocate⟩
    obtain ⟨hcache, hlookup⟩ := hv.allocate_frame hm hallocate
    have hhoused := hm.housed slot victim hv.resident
    have hset : g.addressToCacheSet victim.address = g.addressToCacheSet address := by
      rw [Geometry.addressToCacheSet_eq_ok.mpr ⟨hhoused.lineAddress, hhoused.home⟩,
        Geometry.addressToCacheSet_eq_ok.mpr ⟨(cacheAvail_eq_ok.mp havail).1, hv.slot_set.symm⟩]
    exact ⟨victim.address, slot, m₁, m₂, m₃, hv.probe, hv.victim_ne hm,
      hm.lookup_eq_some.mpr ⟨victim, hv.resident, rfl⟩, hset, hv.deallocate, hv.cacheAvail,
      hallocate, hcache, hlookup⟩

/-- Two lines fill a set of two ways, so the theorem applies to a third one. -/
theorem evicts_iff_third :
  ∃ m, Reachable threeSets arc m ∧ m.cacheAvail threeSets 256 = .ok false
    ∧ (m.Evicts threeSets 256 {} 3 4 ↔ ¬m.EvictionDivides threeSets 256 3)
  := by
  have hreach : Reachable threeSets arc _ := ⟨[.allocate 0 {} 1, .allocate 128 {} 2],
    .cons ⟨trivial, rfl⟩ (.cons ⟨trivial, rfl⟩ (.nil _))⟩
  exact ⟨_, hreach, rfl, evicts_iff hreach {} 3 4 rfl⟩

/-- Two lines fill a set and a third is probed for, which records a victim from T1. Both lines
are then used again, so the next probe records a victim from T2. Allocating the third line
after this divides by zero. -/
theorem eviction_divides_by_zero :
  ∃ m v m₁ m₂, Reachable threeSets arc m
    ∧ m.cacheAvail threeSets 256 = .ok false
    ∧ m.cacheProbe threeSets arc 256 6 = .ok (v, m₁)
    ∧ m₁.deallocate threeSets arc v = .ok m₂
    ∧ m₂.allocate threeSets arc 256 {} 7 = .error .divisionByZero
  := ⟨_, _, _, _,
    ⟨[.allocate 0 {} 1, .allocate 128 {} 2, .cacheProbe 256 3, .setMRU 0 4, .setMRU 128 5],
      .cons ⟨trivial, rfl⟩ (.cons ⟨trivial, rfl⟩ (.cons ⟨trivial, rfl⟩
        (.cons ⟨trivial, rfl⟩ (.cons ⟨trivial, rfl⟩ (.nil _)))))⟩, rfl, rfl, rfl, rfl⟩

end CacheMemory

end Gem5Arc
