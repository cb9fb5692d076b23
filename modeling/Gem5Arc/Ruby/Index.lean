import Gem5Arc.Ruby.CacheMemory

/-!
# The tag index of the Ruby cache

The map from addresses to ways agrees with the table of entries in every state a controller
can reach, as long as it leaves no entry `notPresent` (`reachable_indexed`). So a lookup finds
the one entry that has an address, and every entry is in the set of its address
(`index_consistent`). This holds for every replacement policy.

The first part of the module says what each call does when it succeeds; everything else about
the cache is derived from that.
-/

namespace Gem5Arc

open Function Geometry

namespace CacheMemory

variable {D P : Type} {g : Geometry} {rp : ReplacementPolicy Slot D P} {m m' : CacheMemory D P}

/-! ### What a successful call does -/

variable {address : Addr} {slot : Slot} {entry : AbstractCacheEntry} {now : Tick}

/-- Looking up the address of a line follows the tag index. -/
theorem lookup_eq_ok {pointer : Option Slot} :
  m.lookup g address = .ok pointer
    ↔ g.isLineAddress address = true
      ∧ ((m.tagIndex address = none ∧ pointer = none)
        ∨ ∃ way entry, m.tagIndex address = some way
          ∧ m.cache ⟨g.cacheSet address, way⟩ = some entry
          ∧ pointer = if entry.permission ≠ .notPresent then some ⟨g.cacheSet address, way⟩
            else none)
  := by
  rw [lookup, assert_bind_eq_ok]
  apply and_congr_right
  intro hline
  simp only [addressToCacheSet, findTagInSet, hline, assert_true, ok_bind, pure_eq_ok]
  cases m.tagIndex address with
  | none => simp [eq_comm]
  | some way =>
    simp only [bind_assoc, deref_bind_eq_ok, ok_bind, Option.map_if, Except.ok.injEq, reduceCtorEq,
      false_and, false_or, Option.some.injEq, exists_and_left, exists_eq_left', @eq_comm _ pointer]

/-- A lookup reads the index of its address, and the entry in the way found there. -/
theorem lookup_congr (hindex : m'.tagIndex address = m.tagIndex address)
    (hcache : ∀ way, m.tagIndex address = some way →
      m'.cache ⟨g.cacheSet address, way⟩ = m.cache ⟨g.cacheSet address, way⟩) :
  m'.lookup g address = m.lookup g address
  := by
  cases hline : g.isLineAddress address with
  | false => simp [lookup, hline, assert]
  | true =>
    simp only [lookup, addressToCacheSet, findTagInSet, hline, hindex, assert_true,
      ok_bind, pure_eq_ok]
    cases hway : m.tagIndex address with
    | none => rfl
    | some way => simp only [hcache way hway]

theorem isAvail_eq_true :
  m.isAvail address slot = true
    ↔ m.isOpen slot = true ∨ ∃ entry, m.cache slot = some entry ∧ entry.address = address
  := by
  rw [isAvail, isOpen]
  cases m.cache slot with
  | none => simp
  | some entry => simp [or_comm]

/-- A line address is available exactly when one of the ways of its set is open or holds
it. -/
theorem cacheAvail_eq_ok {avail : Bool} :
  m.cacheAvail g address = .ok avail
    ↔ g.isLineAddress address = true
      ∧ (avail = true ↔ ∃ i < g.cacheAssoc, m.isOpen ⟨g.cacheSet address, i⟩ = true
        ∨ ∃ entry, m.cache ⟨g.cacheSet address, i⟩ = some entry ∧ entry.address = address)
  := by
  rw [cacheAvail, assert_bind_eq_ok]
  apply and_congr_right
  intro hline
  rw [addressToCacheSet, hline, assert_true, ok_bind, pure_eq_ok, ok_bind, pure_eq_ok,
    Except.ok.injEq, Bool.eq_iff_iff, List.any_eq_true]
  simp only [isAvail_eq_true, List.mem_range]
  apply iff_comm

theorem allocate_eq_ok :
  m.allocate g rp address entry now = .ok (slot, m')
    ↔ m.lookup g address = .ok none
      ∧ m.cacheAvail g address = .ok true
      ∧ slot.set = g.cacheSet address
      ∧ m.openWay g slot.set = some slot.way
      ∧ m.insertAt rp slot address entry now = .ok m'
  := by
  constructor
  · intro h
    obtain ⟨hline, h⟩ := assert_bind_eq_ok.mp h
    obtain ⟨present, hpresent, h⟩ := bind_eq_ok.mp h
    obtain ⟨hnot, h⟩ := assert_bind_eq_ok.mp h
    obtain ⟨avail, havail, h⟩ := bind_eq_ok.mp h
    obtain ⟨htrue, h⟩ := assert_bind_eq_ok.mp h
    obtain ⟨set, hset, h⟩ := bind_eq_ok.mp h
    obtain ⟨-, rfl⟩ := addressToCacheSet_eq_ok.mp hset
    rw [htrue] at havail
    obtain ⟨pointer, hlookup, hsome⟩ := bind_eq_ok.mp hpresent
    cases hopen : m.openWay g (g.cacheSet address) with
    | none =>
      rw [hopen] at h
      cases h
    | some i =>
      rw [hopen] at h
      obtain ⟨m'', hinsert, h⟩ := bind_eq_ok.mp h
      cases h
      cases hsome
      rw [Bool.not_eq_true', Option.isSome_eq_false_iff, Option.isNone_iff_eq_none] at hnot
      rw [hnot] at hlookup
      exact ⟨hlookup, havail, rfl, hopen, hinsert⟩
  · rintro ⟨hlookup, havail, hset, hopen, hinsert⟩
    have hline := (lookup_eq_ok.mp hlookup).1
    obtain ⟨set, way⟩ := slot
    subst hset
    simp only [allocate, isTagPresent, addressToCacheSet, hline, hlookup, havail, hopen,
      hinsert, assert_true, ok_bind, pure_eq_ok, Option.isSome_none, Bool.not_false]

/-- Freeing an address clears the slot where its entry says it is. -/
theorem deallocate_eq_ok :
  m.deallocate g rp address = .ok m'
    ↔ ∃ slot entry, m.lookup g address = .ok (some slot) ∧ m.cache slot = some entry
      ∧ m' = { m.updateData rp.invalidate slot with
          cache := update m.cache ⟨entry.set, entry.way⟩ none
          tagIndex := update m.tagIndex address none }
  := by
  constructor
  · intro h
    obtain ⟨pointer, hlookup, h⟩ := bind_eq_ok.mp h
    obtain ⟨-, h⟩ := assert_bind_eq_ok.mp h
    obtain ⟨slot, hslot, h⟩ := deref_bind_eq_ok.mp h
    obtain ⟨entry, hentry, h⟩ := deref_bind_eq_ok.mp h
    rw [hslot] at hlookup
    exact ⟨slot, entry, hlookup, hentry, (Except.ok.inj h).symm⟩
  · rintro ⟨slot, entry, hlookup, hentry, rfl⟩
    simp only [deallocate, hlookup, hentry, deref, ok_bind, Option.isSome_some, assert_true,
      pure_eq_ok]
    rfl

/-- Probing for an address asks the policy for a victim among the slots of its set. -/
theorem cacheProbe_eq_ok {v : Addr} :
  m.cacheProbe g rp address now = .ok (v, m')
    ↔ m.cacheAvail g address = .ok false
      ∧ ∃ slot entry victim data policy,
        rp.getVictim m.getSet m.replacementData now (candidates g (g.cacheSet address)) m.policy
            = (some slot, data, policy)
        ∧ m.cache slot = some entry
        ∧ m.cache ⟨g.cacheSet address, entry.way⟩ = some victim
        ∧ v = victim.address
        ∧ m' = { m with replacementData := data, policy }
  := by
  constructor
  · intro h
    obtain ⟨hline, h⟩ := assert_bind_eq_ok.mp h
    obtain ⟨avail, havail, h⟩ := bind_eq_ok.mp h
    obtain ⟨hfalse, h⟩ := assert_bind_eq_ok.mp h
    rw [Bool.not_eq_true'] at hfalse
    rw [hfalse] at havail
    obtain ⟨set, hset, h⟩ := bind_eq_ok.mp h
    obtain ⟨-, rfl⟩ := addressToCacheSet_eq_ok.mp hset
    generalize rp.getVictim m.getSet m.replacementData now (candidates g (g.cacheSet address))
      m.policy = r at h ⊢
    obtain ⟨pointer, data, policy⟩ := r
    obtain ⟨slot, hslot, h⟩ := deref_bind_eq_ok.mp h
    obtain ⟨entry, hentry, h⟩ := deref_bind_eq_ok.mp h
    obtain ⟨victim, hvictim, h⟩ := deref_bind_eq_ok.mp h
    cases h
    exact ⟨havail, slot, entry, victim, data, policy, by rw [hslot], hentry, hvictim, rfl, rfl⟩
  · rintro ⟨havail, slot, entry, victim, data, policy, hv, hentry, hvictim, rfl, rfl⟩
    have hline := (cacheAvail_eq_ok.mp havail).1
    simp only [cacheProbe, addressToCacheSet, hline, havail, hv, hentry, hvictim, deref,
      ok_bind, assert_true, Bool.not_false, pure_eq_ok]

/-- The entries of a slot before and after a call that moves no line: their address and
position are the same, and the second is not `notPresent` if the first is not. -/
structure SameLine (entry entry' : AbstractCacheEntry) : Prop where
  address : entry'.address = entry.address
  set : entry'.set = entry.set
  way : entry'.way = entry.way
  present : entry.permission ≠ .notPresent → entry'.permission ≠ .notPresent

theorem SameLine.refl (entry : AbstractCacheEntry) :
  SameLine entry entry
  := ⟨rfl, rfl, rfl, id⟩

/-- What a call other than `allocate`, `deallocate` and `cacheProbe` does: it moves no line,
and touches at most one of them. -/
structure Upkeep (rp : ReplacementPolicy Slot D P) (m m' : CacheMemory D P) : Prop where
  tagIndex : m'.tagIndex = m.tagIndex
  cache : ∀ slot, Option.Rel SameLine (m.cache slot) (m'.cache slot)
  data : (m'.replacementData = m.replacementData ∧ m'.policy = m.policy)
    ∨ ∃ slot now, (m.cache slot).isSome = true
      ∧ m'.replacementData = (m.updateData (rp.touch now) slot).replacementData
      ∧ m'.policy = (m.updateData (rp.touch now) slot).policy

variable {entry' : AbstractCacheEntry} {op : Op}

theorem Upkeep.isSome (h : Upkeep rp m m') (slot : Slot) :
  (m'.cache slot).isSome = (m.cache slot).isSome
  := by
  have hrel := h.cache slot
  generalize m.cache slot = o, m'.cache slot = o' at hrel ⊢
  cases hrel with
  | some _ => rfl
  | none => rfl

/-- Every entry is still there after such a call. -/
theorem Upkeep.cache_some (h : Upkeep rp m m') (hentry : m.cache slot = some entry) :
  ∃ entry', m'.cache slot = some entry' ∧ SameLine entry entry'
  := by
  have hrel := h.cache slot
  rw [hentry] at hrel
  generalize m'.cache slot = o' at hrel ⊢
  cases hrel with
  | some h => exact ⟨_, rfl, h⟩

/-- Every entry was already there before such a call. -/
theorem Upkeep.of_cache_some (h : Upkeep rp m m') (hentry' : m'.cache slot = some entry') :
  ∃ entry, m.cache slot = some entry ∧ SameLine entry entry'
  := by
  have hrel := h.cache slot
  rw [hentry'] at hrel
  generalize m.cache slot = o at hrel ⊢
  cases hrel with
  | some h => exact ⟨_, rfl, h⟩

/-- Whether a call is not one of `allocate`, `deallocate` and `cacheProbe`. -/
def Op.isUpkeep : Op → Bool
  | .allocate .. | .deallocate .. | .cacheProbe .. => false
  | _ => true

private theorem rel_refl (o : Option AbstractCacheEntry) :
  Option.Rel SameLine o o
  := by
  cases o with
  | none => apply Option.Rel.none
  | some entry => apply Option.Rel.some (SameLine.refl entry)

private theorem upkeep_refl :
  Upkeep rp m m
  := ⟨rfl, fun _ => rel_refl _, Or.inl ⟨rfl, rfl⟩⟩

private theorem rel_update {entry : AbstractCacheEntry} (hentry : m.cache slot = some entry)
    (h : SameLine entry entry') (slot' : Slot) :
  Option.Rel SameLine (m.cache slot') (update m.cache slot (some entry') slot')
  := by
  rw [update_apply]
  split_ifs with hslot
  · rw [hslot, hentry]
    apply Option.Rel.some h
  · apply rel_refl

private theorem editEntry_upkeep {f : AbstractCacheEntry → AbstractCacheEntry}
    (hf : ∀ entry, SameLine entry (f entry)) (h : m.editEntry f slot = .ok m') :
  Upkeep rp m m'
  := by
  obtain ⟨entry, hentry, h⟩ := deref_bind_eq_ok.mp h
  cases h
  exact ⟨rfl, rel_update hentry (hf entry), Or.inl ⟨rfl, rfl⟩⟩

private theorem setMRUEntry_upkeep (h : m.setMRUEntry rp slot now = .ok m') :
  Upkeep rp m m'
  := by
  obtain ⟨hsome, h⟩ := assert_bind_eq_ok.mp h
  obtain ⟨entry, hentry, h⟩ := deref_bind_eq_ok.mp h
  cases h
  exact ⟨rfl, rel_update hentry ⟨rfl, rfl, rfl, id⟩, Or.inr ⟨slot, now, hsome, rfl, rfl⟩⟩

private theorem access_upkeep {allowed : AccessPermission → Bool}
    {hit : Bool} (h : m.access g rp allowed address now = .ok (hit, m')) :
  Upkeep rp m m'
  := by
  obtain ⟨pointer, -, h⟩ := bind_eq_ok.mp h
  cases pointer with
  | none =>
    cases h
    apply upkeep_refl
  | some slot =>
    obtain ⟨entry, -, h⟩ := deref_bind_eq_ok.mp h
    obtain ⟨m'', htouch, h⟩ := bind_eq_ok.mp h
    cases h
    apply setMRUEntry_upkeep htouch

private theorem lock_upkeep {context : ℤ} (h : m.lock g context address = .ok m') :
  Upkeep rp m m'
  := by
  obtain ⟨pointer, -, h⟩ := bind_eq_ok.mp h
  obtain ⟨-, h⟩ := assert_bind_eq_ok.mp h
  obtain ⟨slot, -, h⟩ := deref_bind_eq_ok.mp h
  apply editEntry_upkeep _ h
  intro entry
  exact ⟨rfl, rfl, rfl, id⟩

/-- A call that leaves no entry `notPresent` and is not one of `allocate`, `deallocate` and
`cacheProbe` moves no line. -/
theorem step_upkeep (hop : op.isUpkeep = true) (h : Step g rp m op m') :
  Upkeep rp m m'
  := by
  obtain ⟨hkeeps, h⟩ := h
  cases op with
  | allocate | deallocate | cacheProbe => cases hop
  | lookup address | isTagPresent address | cacheAvail address =>
    obtain ⟨-, -, rfl⟩ := map_eq_ok.mp h
    apply upkeep_refl
  | setMRU address now =>
    obtain ⟨pointer, -, h⟩ := bind_eq_ok.mp h
    cases pointer with
    | none =>
      cases h
      apply upkeep_refl
    | some slot => apply setMRUEntry_upkeep h
  | setMRUEntry slot now => apply setMRUEntry_upkeep h
  | tryCacheAccess address type now | testCacheAccess address now =>
    obtain ⟨⟨hit, m''⟩, haccess, rfl⟩ := map_eq_ok.mp h
    apply access_upkeep haccess
  | changePermission slot newPerm =>
    apply editEntry_upkeep _ h
    intro entry
    exact ⟨rfl, rfl, rfl, fun _ => hkeeps⟩
  | setLocked address context | clearLocked address => apply lock_upkeep h
  | clearLockedAll context =>
    cases h
    refine ⟨rfl, ?_, Or.inl ⟨rfl, rfl⟩⟩
    intro slot
    simp only [clearLockedAll]
    cases m.cache slot with
    | none => apply Option.Rel.none
    | some entry =>
      apply Option.Rel.some
      beta_reduce
      split_ifs
      · exact ⟨rfl, rfl, rfl, id⟩
      · apply SameLine.refl

/-! ### The index agrees with the table -/

/-- An entry is where it says it is, in the set of its address. -/
structure Housed (g : Geometry) (slot : Slot) (entry : AbstractCacheEntry) : Prop where
  lineAddress : g.isLineAddress entry.address = true
  home : g.cacheSet entry.address = slot.set
  way_lt : slot.way < g.cacheAssoc
  set : entry.set = slot.set
  way : entry.way = slot.way
  present : entry.permission ≠ .notPresent

/-- The tag index maps an address to the ways of its set whose entries have this address. -/
structure Indexed (g : Geometry) (m : CacheMemory D P) : Prop where
  housed : ∀ slot entry, m.cache slot = some entry → Housed g slot entry
  index : ∀ address way, m.tagIndex address = some way
    ↔ ∃ entry, m.cache ⟨g.cacheSet address, way⟩ = some entry ∧ entry.address = address

theorem init_indexed :
  Indexed g (init g rp)
  := by
  constructor
  · nofun
  · intro address way
    exact iff_of_false nofun fun ⟨_, h, _⟩ => nomatch h

namespace Indexed

section

variable (hm : Indexed g m)

include hm

/-- The entry that has an address is in the slot the tag index gives. -/
theorem tagIndex_eq (h : m.cache slot = some entry) :
  m.tagIndex entry.address = some slot.way
  := by
  rw [hm.index]
  use entry
  rw [(hm.housed slot entry h).home]
  exact ⟨h, rfl⟩

/-- Two entries with one address are in one slot. -/
theorem slot_unique {slot' : Slot} (h : m.cache slot = some entry)
    (h' : m.cache slot' = some entry') (haddress : entry.address = entry'.address) :
  slot = slot'
  := by
  have hway : some slot.way = some slot'.way := by
    rw [← hm.tagIndex_eq h, ← hm.tagIndex_eq h', haddress]
  have hset : slot.set = slot'.set := by
    rw [← (hm.housed slot entry h).home, ← (hm.housed slot' entry' h').home, haddress]
  obtain ⟨set, way⟩ := slot
  obtain ⟨set', way'⟩ := slot'
  cases hset
  cases hway
  rfl

/-- A lookup finds the slot whose entry has the address. -/
theorem lookup_eq_some :
  m.lookup g address = .ok (some slot)
    ↔ ∃ entry, m.cache slot = some entry ∧ entry.address = address
  := by
  rw [lookup_eq_ok]
  constructor
  · rintro ⟨-, ⟨-, h⟩ | ⟨way, entry, hindex, hentry, hpointer⟩⟩
    · cases h
    · rw [if_pos (hm.housed _ _ hentry).present] at hpointer
      cases hpointer
      obtain ⟨entry', hentry', haddress⟩ := (hm.index address way).mp hindex
      rw [hentry] at hentry'
      cases hentry'
      use entry
  · rintro ⟨entry, hentry, rfl⟩
    have hhoused := hm.housed slot entry hentry
    use hhoused.lineAddress
    right
    use slot.way, entry, hm.tagIndex_eq hentry
    rw [hhoused.home, if_pos hhoused.present]
    exact ⟨hentry, rfl⟩

/-- A lookup of a line finds nothing exactly when no entry has the address. -/
theorem lookup_eq_none (hline : g.isLineAddress address) :
  m.lookup g address = .ok none
    ↔ ∀ slot entry, m.cache slot = some entry → entry.address ≠ address
  := by
  constructor
  · intro h slot entry hentry haddress
    rw [hm.lookup_eq_some.mpr ⟨entry, hentry, haddress⟩] at h
    cases h
  · intro h
    rw [lookup_eq_ok]
    use hline
    left
    refine ⟨?_, rfl⟩
    rw [Option.eq_none_iff_forall_ne_some]
    intro way hway
    obtain ⟨entry, hentry, haddress⟩ := (hm.index address way).mp hway
    apply h _ entry hentry haddress

theorem isOpen_iff :
  m.isOpen slot = true ↔ m.cache slot = none
  := by
  rw [isOpen]
  cases h : m.cache slot with
  | none => simp
  | some entry => simp [(hm.housed slot entry h).present]

/-- The slot found for a new entry is empty, and in the set. -/
theorem openWay_spec {set way : ℕ} (h : m.openWay g set = some way) :
  m.cache ⟨set, way⟩ = none ∧ way < g.cacheAssoc
  := by
  refine ⟨?_, ?_⟩
  · rw [← hm.isOpen_iff]
    apply List.find?_some h
  · apply List.mem_range.mp (List.mem_of_find?_eq_some h)

/-- There is an open way for an address that is available and not in the cache. -/
theorem exists_openWay (hlookup : m.lookup g address = .ok none)
    (havail : m.cacheAvail g address = .ok true) :
  ∃ way, m.openWay g (g.cacheSet address) = some way
  := by
  obtain ⟨hline, hopen⟩ := cacheAvail_eq_ok.mp havail
  obtain ⟨i, hi, hi'⟩ := hopen.mp rfl
  rw [← Option.isSome_iff_exists, openWay, List.find?_isSome]
  use i, List.mem_range.mpr hi
  rcases hi' with hslot | ⟨entry, hentry, haddress⟩
  · apply hslot
  · apply absurd haddress ((hm.lookup_eq_none hline).mp hlookup _ entry hentry)

/-- Putting an entry for a new address into an empty slot of its set keeps the index. -/
theorem place (entry : AbstractCacheEntry) (now : Tick) (hline : g.isLineAddress address)
    (hset : slot.set = g.cacheSet address) (hway : slot.way < g.cacheAssoc)
    (hempty : m.cache slot = none)
    (hnew : ∀ slot entry, m.cache slot = some entry → entry.address ≠ address) :
  Indexed g (m.place slot address entry now)
  := by
  constructor
  · intro slot' entry' h
    rw [place_cache] at h
    split_ifs at h with hslot
    · cases h
      rw [hslot]
      exact ⟨hline, hset.symm, hway, rfl, rfl, by simp⟩
    · apply hm.housed slot' entry' h
  · intro address' way
    rw [place_tagIndex, place_cache]
    split_ifs with haddress hslot hslot
    · simp [haddress, ← hslot]
    · rw [haddress] at hslot ⊢
      constructor
      · intro h
        cases h
        apply absurd _ hslot
        rw [← hset]
      · rintro ⟨entry', hentry', haddress'⟩
        apply absurd haddress' (hnew _ entry' hentry')
    · rw [hm.index, hslot, hempty]
      constructor
      · rintro ⟨entry', hentry', -⟩
        cases hentry'
      · rintro ⟨entry', hentry', haddress'⟩
        cases hentry'
        apply absurd haddress'.symm haddress
    · apply hm.index

/-- Clearing a slot, together with the index of its address, keeps the index. -/
theorem clear (hentry : m.cache slot = some entry) :
  Indexed g { m with
    cache := update m.cache slot none
    tagIndex := update m.tagIndex entry.address none }
  := by
  constructor
  · intro slot' entry' h
    simp only [update_apply] at h
    split_ifs at h
    apply hm.housed slot' entry' h
  · intro address way
    simp only [update_apply]
    split_ifs with haddress hslot hslot
    · simp
    · rw [haddress] at hslot ⊢
      refine iff_of_false nofun ?_
      rintro ⟨entry', hentry', haddress'⟩
      apply hslot (hm.slot_unique hentry' hentry haddress')
    · rw [hm.index, hslot, hentry]
      constructor
      · rintro ⟨entry', hentry', haddress'⟩
        cases hentry'
        apply absurd haddress'.symm haddress
      · rintro ⟨entry', hentry', -⟩
        cases hentry'
    · apply hm.index

/-- Moving no line keeps the index. -/
theorem upkeep (h : Upkeep rp m m') :
  Indexed g m'
  := by
  constructor
  · intro slot entry' hentry'
    obtain ⟨entry, hentry, hsame⟩ := h.of_cache_some hentry'
    obtain ⟨hline, hhome, hlt, hset, hway, hpresent⟩ := hm.housed slot entry hentry
    constructor
    · rw [hsame.address, hline]
    · rw [hsame.address, hhome]
    · apply hlt
    · rw [hsame.set, hset]
    · rw [hsame.way, hway]
    · apply hsame.present hpresent
  · intro address way
    rw [h.tagIndex, hm.index]
    constructor
    · rintro ⟨entry, hentry, haddress⟩
      obtain ⟨entry', hentry', hsame⟩ := h.cache_some hentry
      exact ⟨entry', hentry', hsame.address.trans haddress⟩
    · rintro ⟨entry', hentry', haddress⟩
      obtain ⟨entry, hentry, hsame⟩ := h.of_cache_some hentry'
      exact ⟨entry, hentry, hsame.address.symm.trans haddress⟩

end

end Indexed

/-- What `allocate` does to a cache whose index is right: it fills an empty slot in the set of
a new address. -/
theorem allocate_spec (hm : Indexed g m) (h : m.allocate g rp address entry now = .ok (slot, m')) :
  g.isLineAddress address = true
    ∧ slot.set = g.cacheSet address
    ∧ slot.way < g.cacheAssoc
    ∧ m.cache slot = none
    ∧ (∀ slot entry, m.cache slot = some entry → entry.address ≠ address)
    ∧ m.insertAt rp slot address entry now = .ok m'
  := by
  obtain ⟨hlookup, havail, hset, hopen, hinsert⟩ := allocate_eq_ok.mp h
  obtain ⟨hempty, hway⟩ := hm.openWay_spec hopen
  have hline := (cacheAvail_eq_ok.mp havail).1
  exact ⟨hline, hset, hway, hempty, (hm.lookup_eq_none hline).mp hlookup, hinsert⟩

theorem insertAt_eq_ok :
  m.insertAt rp slot address entry now = .ok m'
    ↔ ∃ data policy, rp.reset (m.place slot address entry now).getSet now
          (rp.link slot (m.replacementData slot)) m.policy = .ok (data, policy)
      ∧ m' = { m.place slot address entry now with
          replacementData := update m.replacementData slot data
          policy := policy }
  := by
  rw [insertAt, bind_eq_ok]
  constructor
  · rintro ⟨⟨data, policy⟩, hreset, h⟩
    exact ⟨data, policy, hreset, (Except.ok.inj h).symm⟩
  · rintro ⟨data, policy, hreset, rfl⟩
    exact ⟨(data, policy), hreset, rfl⟩

/-- What `deallocate` does to a cache whose index is right: it clears the slot that has the
address. -/
theorem deallocate_spec (hm : Indexed g m) :
  m.deallocate g rp address = .ok m'
    ↔ ∃ slot entry, m.cache slot = some entry ∧ entry.address = address
      ∧ m' = { m.updateData rp.invalidate slot with
          cache := update m.cache slot none
          tagIndex := update m.tagIndex address none }
  := by
  rw [deallocate_eq_ok]
  constructor
  · rintro ⟨slot, entry, hlookup, hentry, rfl⟩
    obtain ⟨entry', hentry', rfl⟩ := hm.lookup_eq_some.mp hlookup
    rw [hentry] at hentry'
    cases hentry'
    have hhoused := hm.housed slot entry hentry
    rw [hhoused.set, hhoused.way]
    exact ⟨slot, entry, hentry, rfl, rfl⟩
  · rintro ⟨slot, entry, hentry, haddress, rfl⟩
    have hhoused := hm.housed slot entry hentry
    use slot, entry, hm.lookup_eq_some.mpr ⟨entry, hentry, haddress⟩, hentry
    rw [hhoused.set, hhoused.way]

/-- Every step keeps the index. -/
theorem step_indexed (hm : Indexed g m) (h : Step g rp m op m') :
  Indexed g m'
  := by
  cases op with
  | allocate address entry now =>
    obtain ⟨⟨slot, m''⟩, hallocate, rfl⟩ := map_eq_ok.mp h.2
    obtain ⟨hline, hset, hway, hempty, hnew, hinsert⟩ := allocate_spec hm hallocate
    obtain ⟨data, policy, -, rfl⟩ := insertAt_eq_ok.mp hinsert
    have hplace := hm.place entry now hline hset hway hempty hnew
    exact ⟨hplace.housed, hplace.index⟩
  | deallocate address =>
    obtain ⟨slot, entry, hentry, rfl, rfl⟩ := (deallocate_spec hm).mp h.2
    have hclear := hm.clear hentry
    exact ⟨hclear.housed, hclear.index⟩
  | cacheProbe address now =>
    obtain ⟨⟨v, m''⟩, hprobe, rfl⟩ := map_eq_ok.mp h.2
    obtain ⟨-, slot, entry, victim, data, policy, -, -, -, -, rfl⟩ := cacheProbe_eq_ok.mp hprobe
    exact ⟨hm.housed, hm.index⟩
  | _ => apply hm.upkeep (step_upkeep rfl h)

theorem reachable_indexed (h : Reachable g rp m) :
  Indexed g m
  := by
  apply Lib.Reachable.invariant _ h init_indexed
  intro m op m' hm hstep
  apply step_indexed hm hstep

/-- What the tag index is for. -/
structure Consistent (g : Geometry) (m : CacheMemory D P) : Prop where
  /-- An address is mapped to a way exactly when the entry in this way of its set has it. -/
  tagIndex : ∀ address way, m.tagIndex address = some way
    ↔ ∃ entry, m.cache ⟨g.cacheSet address, way⟩ = some entry ∧ entry.address = address
  /-- A lookup returns the entry that has the address. -/
  lookup_some : ∀ address slot, m.lookup g address = .ok (some slot)
    ↔ ∃ entry, m.cache slot = some entry ∧ entry.address = address
  /-- A lookup returns null exactly when no entry has the address. -/
  lookup_none : ∀ address, g.isLineAddress address = true → (m.lookup g address = .ok none
    ↔ ∀ slot entry, m.cache slot = some entry → entry.address ≠ address)
  /-- No address is in two slots. -/
  unique : ∀ slot slot' entry entry', m.cache slot = some entry → m.cache slot' = some entry' →
    entry.address = entry'.address → slot = slot'
  /-- Every entry is in the set of its address. -/
  home : ∀ slot entry, m.cache slot = some entry →
    g.addressToCacheSet entry.address = .ok slot.set ∧ slot.way < g.cacheAssoc
  /-- The set of an address is one of the cache. -/
  bound : ∀ address set, g.addressToCacheSet address = .ok set → set < g.cacheNumSets

/-- The index is consistent in every state a controller can reach without leaving an entry
`notPresent`. -/
theorem index_consistent (h : Reachable g rp m) :
  Consistent g m
  := by
  have hm := reachable_indexed h
  constructor
  · apply hm.index
  · intro address slot
    apply hm.lookup_eq_some
  · intro address hline
    apply hm.lookup_eq_none hline
  · intro slot slot' entry entry' hentry hentry'
    apply hm.slot_unique hentry hentry'
  · intro slot entry hentry
    have hhoused := hm.housed slot entry hentry
    rw [addressToCacheSet_eq_ok]
    exact ⟨⟨hhoused.lineAddress, hhoused.home⟩, hhoused.way_lt⟩
  · intro address set hset
    obtain ⟨-, rfl⟩ := addressToCacheSet_eq_ok.mp hset
    apply g.cacheSet_lt

/-- A cache of three sets of two ways, with lines of 64 bytes. -/
def threeSets : Geometry where
  cacheSize := 384
  cacheAssoc := 2
  blockSize := 64
  startIndexBit := 6
  cacheSize_lt := by decide
  one_lt_cacheNumSets := by decide

/-- The cache of three sets, with ARC, after the line at 64 has been brought in. -/
theorem index_consistent_threeSets :
  ∃ m, Reachable threeSets (ARC.replacementPolicy Slot) m
    ∧ m.tagIndex 64 = some 0 ∧ Consistent threeSets m
  := by
  have hreach : Reachable threeSets (ARC.replacementPolicy Slot) _ :=
    ⟨[.allocate 64 {} 1], .cons ⟨trivial, rfl⟩ (.nil _)⟩
  exact ⟨_, hreach, rfl, index_consistent hreach⟩

end CacheMemory

end Gem5Arc
