import Gem5Arc.Ruby.Index

/-!
# Slots that are reused

An entry can be given the permission `notPresent`. A lookup does not find it then, and `allocate`
can put the entry of another address into its slot. But the tag index still maps the old address to
the way of the slot, so a lookup of the old address returns the entry of the new one.

The old address is looked up as it should be if it has left the tag index before its slot is reused,
which takes another allocation and deallocation of it. Later lookups are right if moreover the tag
index maps no other address of the set to a slot that has not its entry (`reuse_lookup`).
-/

namespace Gem5Arc

open Function

namespace CacheMemory

variable {D P : Type} {g : Geometry} {rp : ReplacementPolicy Slot D P} {m m' : CacheMemory D P}

/-! ### Entries are where they say they are -/

/-- An entry is where it says it is, in the set of its address. -/
structure Located (g : Geometry) (slot : Slot) (entry : AbstractCacheEntry) : Prop where
  lineAddress : g.isLineAddress entry.address = true
  home : g.cacheSet entry.address = slot.set
  set : entry.set = slot.set
  way : entry.way = slot.way

/-- All entries are where they say they are. -/
def AllLocated (g : Geometry) (m : CacheMemory D P) : Prop :=
  ∀ slot entry, m.cache slot = some entry → Located g slot entry

variable {address : Addr} {entry : AbstractCacheEntry} {now : Tick} {slot : Slot} {op : Op}

/-- What a successful allocation does to the slots and the tag index. -/
theorem allocate_effect (h : m.allocate g rp address entry now = .ok (slot, m')) :
  g.isLineAddress address = true ∧ slot.set = g.cacheSet address ∧ m.isOpen slot = true
    ∧ m'.cache = (m.place slot address entry now).cache
    ∧ m'.tagIndex = (m.place slot address entry now).tagIndex
  := by
  obtain ⟨hlookup, -, hset, hopen, hinsert⟩ := allocate_eq_ok.mp h
  obtain ⟨data, policy, -, rfl⟩ := insertAt_eq_ok.mp hinsert
  have hslot := List.find?_some hopen
  exact ⟨(lookup_eq_ok.mp hlookup).1, hset, hslot, rfl, rfl⟩

section

variable (hm : AllLocated g m)

include hm

/-- A deallocation of an address clears the slot that is looked up for it. -/
theorem deallocate_effect (h : m.deallocate g rp address = .ok m') :
  ∃ slot, m.lookup g address = .ok (some slot)
    ∧ m'.cache = Function.update m.cache slot none
    ∧ m'.tagIndex = Function.update m.tagIndex address none
  := by
  obtain ⟨slot, entry, hlookup, hentry, rfl⟩ := deallocate_eq_ok.mp h
  have hlocated := hm slot entry hentry
  use slot, hlookup
  rw [hlocated.set, hlocated.way]
  exact ⟨rfl, rfl⟩

theorem AllLocated.allocate (h : m.allocate g rp address entry now = .ok (slot, m')) :
  AllLocated g m'
  := by
  obtain ⟨hline, hset, -, hcache, -⟩ := allocate_effect h
  intro slot' entry' hentry'
  rw [hcache, place_cache] at hentry'
  split_ifs at hentry' with hslot
  · cases hentry'
    rw [hslot]
    exact ⟨hline, hset.symm, rfl, rfl⟩
  · apply hm slot' entry' hentry'

theorem AllLocated.deallocate (h : m.deallocate g rp address = .ok m') :
  AllLocated g m'
  := by
  obtain ⟨slot, -, hcache, -⟩ := deallocate_effect hm h
  intro slot' entry' hentry'
  rw [hcache, update_apply] at hentry'
  split_ifs at hentry'
  apply hm slot' entry' hentry'

theorem AllLocated.changePermission {newPerm : AccessPermission}
    (h : m.editEntry (AbstractCacheEntry.changePermission newPerm) slot = .ok m') :
  AllLocated g m'
  := by
  obtain ⟨entry, hentry, h⟩ := deref_bind_eq_ok.mp h
  cases h
  intro slot' entry' hentry'
  simp only [update_apply] at hentry'
  split_ifs at hentry' with hslot
  · cases hentry'
    obtain ⟨hline, hhome, hset, hway⟩ := hm slot entry hentry
    rw [hslot]
    exact ⟨hline, hhome, hset, hway⟩
  · apply hm slot' entry' hentry'

theorem AllLocated.upkeep (h : Upkeep rp m m') :
  AllLocated g m'
  := by
  intro slot entry' hentry'
  obtain ⟨entry, hentry, hsame⟩ := h.of_cache_some hentry'
  obtain ⟨hline, hhome, hset, hway⟩ := hm slot entry hentry
  constructor
  · rw [hsame.address, hline]
  · rw [hsame.address, hhome]
  · rw [hsame.set, hset]
  · rw [hsame.way, hway]

/-- Every call leaves the entries where they say they are, also one that makes an entry
`notPresent`. -/
theorem AllLocated.call (h : call g rp op m = .ok m') :
  AllLocated g m'
  := by
  cases op with
  | allocate address entry now =>
    obtain ⟨⟨slot, m''⟩, hallocate, rfl⟩ := map_eq_ok.mp h
    apply hm.allocate hallocate
  | deallocate address => apply hm.deallocate h
  | cacheProbe address now =>
    obtain ⟨⟨v, m''⟩, hprobe, rfl⟩ := map_eq_ok.mp h
    obtain ⟨-, slot, entry, victim, data, policy, -, -, -, -, rfl⟩ := cacheProbe_eq_ok.mp hprobe
    exact hm
  | changePermission slot newPerm => apply hm.changePermission h
  | _ =>
    refine hm.upkeep (step_upkeep ?_ ⟨?_, h⟩)
    · rfl
    · trivial

end

theorem exec_allLocated {ops : List Op} (h : Lib.exec (call g rp) ops (init g rp) = .ok m) :
  AllLocated g m
  := by
  apply (Lib.exec_eq_ok_iff.mp h).invariant
  · intro m op m' hm hcall
    apply AllLocated.call hm hcall
  · nofun

/-! ### Later lookups -/

/-- The tag index maps the addresses of a set to slots that have their entries, and none of these is
`notPresent`. -/
def Settled (g : Geometry) (set : ℕ) (m : CacheMemory D P) : Prop :=
  ∀ address way, g.cacheSet address = set → m.tagIndex address = some way →
    ∃ entry, m.cache ⟨set, way⟩ = some entry ∧ entry.address = address
      ∧ entry.permission ≠ .notPresent

/-- The set is settled but for one address. -/
def SettledBut (g : Geometry) (address : Addr) (set : ℕ) (m : CacheMemory D P) : Prop :=
  ∀ address' way, address' ≠ address → g.cacheSet address' = set →
    m.tagIndex address' = some way → ∃ entry, m.cache ⟨set, way⟩ = some entry
      ∧ entry.address = address' ∧ entry.permission ≠ .notPresent

variable {set : ℕ}

/-- Allocating the address settles the set. -/
theorem SettledBut.allocate (hm : SettledBut g address set m)
    (h : m.allocate g rp address entry now = .ok (slot, m')) :
  Settled g set m'
  := by
  obtain ⟨-, hslot, hopen, hcache, hindex⟩ := allocate_effect h
  intro address' way hset hway
  rw [hindex, place_tagIndex] at hway
  rw [hcache, place_cache]
  split_ifs at hway with haddress
  · cases hway
    rw [haddress, ← hslot] at hset
    rw [if_pos (by rw [← hset])]
    exact ⟨_, rfl, haddress.symm, by simp⟩
  · obtain ⟨entry', hentry', haddress', hpresent⟩ := hm address' way haddress hset hway
    rw [if_neg]
    · exact ⟨entry', hentry', haddress', hpresent⟩
    · rintro rfl
      rw [isOpen, hentry', beq_iff_eq] at hopen
      exact hpresent hopen

theorem Settled.deallocate (hm : Settled g set m) (hlocated : AllLocated g m)
    (h : m.deallocate g rp address = .ok m') :
  Settled g set m'
  := by
  obtain ⟨slot, hlookup, hcache, hindex⟩ := deallocate_effect hlocated h
  intro address' way hset hway
  rw [hindex, update_apply] at hway
  split_ifs at hway with haddress
  obtain ⟨entry', hentry', haddress', hpresent⟩ := hm address' way hset hway
  refine ⟨entry', ?_, haddress', hpresent⟩
  rw [hcache, update_of_ne]
  · exact hentry'
  · rintro rfl
    obtain ⟨-, ⟨-, hnone⟩ | ⟨way', entry, hway', hentry, hsome⟩⟩ := lookup_eq_ok.mp hlookup
    · cases hnone
    · split_ifs at hsome
      cases hsome
      obtain ⟨entry'', hentry'', haddress'', -⟩ := hm address way rfl hway'
      rw [hentry'] at hentry''
      cases hentry''
      exact haddress (haddress'.symm.trans haddress'')

/-- A call of `allocate` or `deallocate`. -/
inductive Moves (g : Geometry) (rp : ReplacementPolicy Slot D P) :
    CacheMemory D P → Op → CacheMemory D P → Prop
  | allocate {m m' : CacheMemory D P} {address : Addr} {entry : AbstractCacheEntry} {now : Tick} :
      call g rp (.allocate address entry now) m = .ok m' →
      Moves g rp m (.allocate address entry now) m'
  | deallocate {m m' : CacheMemory D P} {address : Addr} :
      call g rp (.deallocate address) m = .ok m' → Moves g rp m (.deallocate address) m'

theorem Settled.moves (hm : Settled g set m ∧ AllLocated g m) (h : Moves g rp m op m') :
  Settled g set m' ∧ AllLocated g m'
  := by
  obtain ⟨hsettled, hlocated⟩ := hm
  cases h with
  | allocate h =>
    obtain ⟨⟨slot, m''⟩, hallocate, rfl⟩ := map_eq_ok.mp h
    refine ⟨SettledBut.allocate ?_ hallocate, hlocated.allocate hallocate⟩
    intro address' way _ hset
    exact hsettled address' way hset
  | deallocate h => exact ⟨hsettled.deallocate hlocated h, hlocated.deallocate h⟩

/-- A lookup returns null, or an entry that has the address. -/
def LookedUp (g : Geometry) (address : Addr) (m : CacheMemory D P) : Prop :=
  ∃ pointer, m.lookup g address = .ok pointer
    ∧ ∀ slot ∈ pointer, ∃ entry, m.cache slot = some entry ∧ entry.address = address

theorem Settled.lookedUp (hm : Settled g (g.cacheSet address) m)
    (hline : g.isLineAddress address = true) :
  LookedUp g address m
  := by
  cases hway : m.tagIndex address with
  | none =>
    refine ⟨none, lookup_eq_ok.mpr ⟨hline, .inl ⟨hway, rfl⟩⟩, ?_⟩
    nofun
  | some way =>
    obtain ⟨entry, hentry, haddress, hpresent⟩ := hm address way rfl hway
    refine ⟨some ⟨g.cacheSet address, way⟩, lookup_eq_ok.mpr ⟨hline, .inr ?_⟩, ?_⟩
    · exact ⟨way, entry, hway, hentry, by rw [if_pos hpresent]⟩
    · intro slot hslot
      cases hslot
      exact ⟨entry, hentry, haddress⟩

/-- An address is no longer found, and whatever is then allocated and deallocated, a lookup of it
returns null or an entry that has the address. -/
structure Forgets (g : Geometry) (rp : ReplacementPolicy Slot D P) (address : Addr)
    (m : CacheMemory D P) : Prop where
  lookup : m.lookup g address = .ok none
  later : ∀ m', Lib.Reachable (Moves g rp) m m' → LookedUp g address m'

theorem Settled.forgets (hm : Settled g (g.cacheSet address) m) (hlocated : AllLocated g m)
    (hline : g.isLineAddress address = true) (hindex : m.tagIndex address = none) :
  Forgets g rp address m
  := by
  constructor
  · exact lookup_eq_ok.mpr ⟨hline, .inl ⟨hindex, rfl⟩⟩
  · intro m' h
    have hsettled := h.invariant (P := fun m => Settled g (g.cacheSet address) m ∧ AllLocated g m)
      (fun _ _ _ => Settled.moves) ⟨hm, hlocated⟩
    exact hsettled.1.lookedUp hline

/-- The slot of a `notPresent` entry is reused for another address. The old address is then not
found exactly if it was not before, and the tag index does not map it to this slot. If it has left
the tag index, and the set is settled but for the new address, later lookups are right, too. -/
theorem reuse_lookup {ops : List Op} {address : Addr} {entry old : AbstractCacheEntry} {now : Tick}
    {slot : Slot} (hrun : Lib.exec (call g rp) ops (init g rp) = .ok m)
    (hallocate : m.allocate g rp address entry now = .ok (slot, m'))
    (hold : m.cache slot = some old) (hne : old.address ≠ address) :
  (m'.lookup g old.address = .ok none
      ↔ m.lookup g old.address = .ok none ∧ m.tagIndex old.address ≠ some slot.way)
    ∧ (m.tagIndex old.address = none → SettledBut g address slot.set m →
      Forgets g rp old.address m')
  := by
  have hlocated := exec_allLocated hrun
  obtain ⟨hline, hhome, -, -⟩ := hlocated slot old hold
  obtain ⟨-, -, -, hcache, hindex⟩ := allocate_effect hallocate
  have hkept : m'.tagIndex old.address = m.tagIndex old.address := by
    rw [hindex, place_tagIndex, if_neg hne]
  constructor
  · by_cases hway : m.tagIndex old.address = some slot.way
    · have hnew := place_cache slot address entry now m slot
      rw [if_pos rfl, ← hcache] at hnew
      have hfound : m'.lookup g old.address = .ok (some slot) := by
        apply lookup_eq_ok.mpr
        rw [hhome]
        exact ⟨hline, .inr ⟨slot.way, _, hkept.trans hway, hnew, by rw [if_pos (by simp)]⟩⟩
      simp [hfound, hway]
    · have hsame : m'.lookup g old.address = m.lookup g old.address := by
        apply lookup_congr hkept
        intro way hway'
        rw [hcache, place_cache, if_neg]
        rintro rfl
        exact hway hway'
      simp [hsame, hway]
  · intro hnone hsettled
    rw [← hhome] at hsettled
    exact (hsettled.allocate hallocate).forgets (hlocated.allocate hallocate) hline
      (hkept.trans hnone)

/-- In a set of two ways the line at 128 is brought in twice, since its first entry has become
`notPresent`, and is deallocated then. So it has left the tag index when its first slot is reused
for the line at 256. -/
theorem reuse_lookup_twice :
  ∃ m m',
    Lib.exec (call threeSets (ARC.replacementPolicy Slot))
        [.allocate 0 {} 1, .allocate 128 {} 2, .deallocate 0,
          .changePermission ⟨0, 1⟩ .notPresent, .allocate 128 {} 3, .deallocate 128,
          .allocate 0 {} 4]
        (init threeSets (ARC.replacementPolicy Slot)) = .ok m
      ∧ m.allocate threeSets (ARC.replacementPolicy Slot) 256 {} 5 = .ok (⟨0, 1⟩, m')
      ∧ Forgets threeSets (ARC.replacementPolicy Slot) 128 m'
  := by
  have hrun : Lib.exec (call threeSets (ARC.replacementPolicy Slot))
      [.allocate 0 {} 1, .allocate 128 {} 2, .deallocate 0, .changePermission ⟨0, 1⟩ .notPresent,
        .allocate 128 {} 3, .deallocate 128, .allocate 0 {} 4]
      (init threeSets (ARC.replacementPolicy Slot)) = .ok _ := rfl
  have hreuse := @reuse_lookup _ _ _ _ _ _ _ 256 {} _ 5 ⟨0, 1⟩ hrun rfl rfl (by decide)
  refine ⟨_, _, hrun, rfl, hreuse.2 rfl ?_⟩
  intro address way _ _ hway
  change [((0 : Addr), some 0), (128, some 1), (0, none), (128, some 0), (128, none),
    (0, some 0)].foldl (fun index (address, way) => Function.update index address way)
      (fun _ => none) address = some way at hway
  simp only [List.foldl_cons, List.foldl_nil, update_apply] at hway
  split_ifs at hway with haddress
  cases hway
  exact ⟨_, rfl, haddress.symm, by decide⟩

/-- The line at 0 becomes `notPresent`, and its slot is reused for the line at 128. A lookup of 0
returns the entry of 128, and dereferences an empty slot when 128 is deallocated. -/
theorem reuse_finds_other_line :
  ∃ m m',
    Lib.exec (call threeSets (ARC.replacementPolicy Slot))
        [.allocate 0 {} 1, .changePermission ⟨0, 0⟩ .notPresent, .allocate 128 {} 2]
        (init threeSets (ARC.replacementPolicy Slot)) = .ok m
      ∧ m.lookup threeSets 0 = .ok (some ⟨0, 0⟩)
      ∧ (m.cache ⟨0, 0⟩).map AbstractCacheEntry.address = some 128
      ∧ m.deallocate threeSets (ARC.replacementPolicy Slot) 128 = .ok m'
      ∧ m'.lookup threeSets 0 = .error .nullPointer
  := ⟨_, _, rfl, rfl, rfl, rfl, rfl⟩

end CacheMemory

end Gem5Arc
