import Gem5Arc.Cache.Tags
import Gem5Arc.Ruby.ArcCache

/-!
# The link from replacement data to its entry

ARC finds the set of a block by following the link from the replacement data to an entry.
`setPosition` makes this link, but only for an entry that has its replacement data already.

`SectorTags` and `CompressedTags` make the data of a sector before they set its position, so
the data ends up linked to the last sub-block of the sector, which is in the same set. The
Ruby cache gives an entry the data of its slot before it sets the position. `BaseSetAssoc` sets
the position first, and its data is never linked: the first insertion of a block panics.

`backLink_iff` says this for all four, over all geometries and all runs.
-/

namespace Gem5Arc

namespace ResetCall

variable {E : Type}

/-- What the call returns. -/
def result (c : ResetCall E) : Except Fault (ARCReplData E × ARC) :=
  ARC.reset c.getSet c.now c.data c.arc

/-- The data is linked to an entry, which has the same set number as the entry whose data it
is. -/
def Linked (c : ResetCall E) : Prop :=
  ∃ e, c.data.entry = some e ∧ c.getSet e = c.getSet c.entry

/-- The call does not panic, and what it does to the policy is to promote the tag of the data in
the set of the entry. -/
def InOwnSet (c : ResetCall E) : Prop :=
  (∀ msg, c.result ≠ .error (.panic msg))
    ∧ ∀ data arc, c.result = .ok (data, arc) →
      ∃ i v, (c.arc.view (c.getSet c.entry)).promote c.data.tag = .ok (i, v)
        ∧ arc.view = Function.update c.arc.view (c.getSet c.entry) v

theorem Linked.inOwnSet {c : ResetCall E} (h : c.Linked) :
  c.InOwnSet
  := by
  obtain ⟨e, he, hset⟩ := h
  constructor
  · intro msg hpanic
    rw [result] at hpanic
    cases hpromote : (c.arc.view (c.getSet e)).promote c.data.tag with
    | error f =>
      rw [ARC.reset_error he hpromote] at hpanic
      rw [SetState.promote] at hpromote
      split_ifs at hpromote
      cases hpromote
      cases hpanic
    | ok r =>
      obtain ⟨arc', hreset, -⟩ := ARC.reset_ok c.now he hpromote
      rw [hreset] at hpanic
      cases hpanic
  · intro data arc hreset
    obtain ⟨i, v, hpromote, -, hview, -⟩ := ARC.reset_inv he hreset
    rw [hset] at hpromote hview
    exact ⟨i, v, hpromote, hview⟩

end ResetCall

theorem ARC.reset_entry {E : Type} {getSet : E → ℕ} {now : Tick} {data data' : ARCReplData E}
    {arc arc' : ARC} (h : ARC.reset getSet now data arc = .ok (data', arc')) :
  data'.entry = data.entry
  := by
  rw [ARC.reset] at h
  cases hentry : data.entry with
  | none =>
    rw [hentry] at h
    cases h
  | some e =>
    rw [hentry] at h
    obtain ⟨⟨i, arc''⟩, -, hpure⟩ := bind_eq_ok.mp h
    cases hpure
    rfl

private theorem returns_check {p : TagParams} {P : TagStore → Prop} {n : ℕ}
    (hn : n < p.numEntries) :
  Lib.Returns P (TagM.check (decide (n / p.assoc < p.numSets))) fun _ => P
  := by
  have hset : n / p.assoc < p.numSets := by
    apply Nat.div_lt_of_lt_mul
    rw [Nat.mul_comm]
    apply hn
  rw [TagM.check, if_pos (decide_eq_true hset)]
  apply Lib.Returns.pure
  intro s hs
  apply hs

/-! ### Sectors -/

namespace SectorTags

open Function Lib Returns TagM TagStore

variable {p : TagParams}

/-- Every sector has replacement data, and this is linked to an entry of the same set. -/
def SectorsLinked (p : TagParams) (s : TagStore) : Prop :=
  ∀ i < p.numEntries, ∃ d e, (s.entries (.sector i)).replacementData = some d
    ∧ (s.data d).entry = some e ∧ s.getSet e = s.getSet (.sector i)

/-- The sectors are linked, and the data was linked in all calls of `reset` so far. -/
structure Sound (p : TagParams) (s : TagStore) : Prop where
  linked : SectorsLinked p s
  resets : ∀ c ∈ s.resets, c.Linked

variable {s t : TagStore} {e : TagEntry} {i n : ℕ}

/-- A change that leaves the entries and the links alone keeps the store sound. -/
theorem Sound.congr (hs : Sound p s) (hentries : t.entries = s.entries)
    (hdata : ∀ d, (t.data d).entry = (s.data d).entry) (hresets : t.resets = s.resets) :
  Sound p t
  := by
  constructor
  · intro i hi
    obtain ⟨d, e, hd, he, hset⟩ := hs.linked i hi
    refine ⟨d, e, ?_, ?_, ?_⟩
    · rw [hentries, hd]
    · rw [hdata, he]
    · rw [getSet, getSet, hentries]
      apply hset
  · rw [hresets]
    apply hs.resets

private theorem sound_setData {d : ℕ} {data : ARCReplData TagEntry} (hs : Sound p s)
    (hdata : data.entry = (s.data d).entry) :
  Sound p (s.setData d data)
  := by
  apply hs.congr (t := s.setData d data) rfl _ rfl
  intro d'
  simp only [setData, update_apply]
  split_ifs with hd
  · rw [hd, hdata]
  · rfl

/-! ### Operations keep the store sound -/

private theorem keeps_check (cond : Bool) :
  Keeps (Sound p) (check cond)
  := by
  apply Keeps.ite
  · apply Keeps.pure
  · apply Keeps.throw

/-- A program that first follows the replacement data of an entry. -/
private theorem keeps_dataOf {f : ℕ → TagM Unit}
    (hf : ∀ s d, Sound p s → (s.entries e).replacementData = some d → Sound p (final (f d) s)) :
  Keeps (Sound p) (dataOf e >>= f)
  := by
  rw [dataOf, bind_assoc]
  apply Keeps.get_bind
  intro s hs
  cases hd : (s.entries e).replacementData with
  | none => apply hs
  | some d => apply hf s d hs hd

private theorem keeps_policyInvalidate (e : TagEntry) :
  Keeps (Sound p) (policyInvalidate e)
  := by
  apply keeps_dataOf
  intro s d hs _
  apply sound_setData hs
  rfl

private theorem keeps_policyTouch (e : TagEntry) (now : Tick) :
  Keeps (Sound p) (policyTouch e now)
  := by
  apply keeps_dataOf
  intro s d hs _
  apply sound_setData hs
  rfl

/-- A call of `reset` for a sector is one with linked data. -/
private theorem keeps_policyReset (hi : i < p.numEntries) (now : Tick) :
  Keeps (Sound p) (policyReset (.sector i) now)
  := by
  apply keeps_dataOf
  intro s d hs hd
  obtain ⟨d', e, hd', he, hset⟩ := hs.linked i hi
  rw [hd] at hd'
  cases hd'
  have hs' : Sound p
      { s with resets := ⟨s.getSet, .sector i, s.data d, now, s.policy⟩ :: s.resets } := by
    refine ⟨hs.linked, ?_⟩
    exact List.forall_mem_cons.mpr ⟨⟨e, he, hset⟩, hs.resets⟩
  rw [final_modify_bind, final_get_bind]
  split
  · apply hs'
  · rename_i data policy hreset
    have hdata := sound_setData hs' (ARC.reset_entry hreset)
    exact ⟨hdata.linked, hdata.resets⟩

private theorem keeps_findVictim (set : ℕ) (now : Tick) :
  Keeps (Sound p) (findVictim p set now)
  := by
  apply Keeps.bind
  · apply Keeps.get_bind
    intro s hs
    exact ⟨hs.linked, hs.resets⟩
  · intro _
    apply Keeps.pure

private theorem keeps_setValid (i : ℕ) (valid : Bool) :
  Keeps (Sound p) (modify (setValid p i valid) : TagM Unit)
  := by
  apply Keeps.modify
  intro s hs
  exact ⟨hs.linked, hs.resets⟩

private theorem keeps_invalidateEmpty (i : ℕ) :
  Keeps (Sound p) (invalidateEmpty p i)
  := by
  apply Keeps.bind
  · apply Keeps.get
  · intro s
    apply Keeps.ite
    · apply Keeps.pure
    · apply keeps_policyInvalidate

private theorem keeps_update (hi : sectorOf p i < p.numEntries) (wasValid : Bool) (now : Tick) :
  Keeps (Sound p) (update p i wasValid now)
  := by
  apply Keeps.ite
  · apply keeps_policyTouch
  · apply keeps_policyReset hi

/-- Every operation keeps the store sound. -/
theorem keeps_run (op : TagOp (p.numEntries * p.numBlocksPerSector) p.numSets) :
  Keeps (Sound p) (run p op)
  := by
  have hsector (i : Fin (p.numEntries * p.numBlocksPerSector)) : sectorOf p i < p.numEntries := by
    apply Nat.div_lt_of_lt_mul
    apply lt_of_lt_of_eq i.isLt
    apply Nat.mul_comm
  cases op with
  | insertBlock i now =>
    apply Keeps.bind Keeps.get
    intro s
    apply Keeps.bind (keeps_update (hsector i) _ now)
    intro _
    apply Keeps.bind (keeps_check _)
    intro _
    apply keeps_setValid
  | invalidate i =>
    apply Keeps.bind Keeps.get
    intro s
    apply Keeps.bind (keeps_check _)
    intro _
    apply Keeps.bind (keeps_setValid i false)
    intro _
    apply keeps_invalidateEmpty
  | moveBlock src dest now =>
    apply Keeps.bind Keeps.get
    intro s
    apply Keeps.bind (keeps_check _)
    intro _
    apply Keeps.bind (keeps_check _)
    intro _
    apply Keeps.bind (keeps_setValid dest true)
    intro _
    apply Keeps.bind (keeps_setValid src false)
    intro _
    apply Keeps.bind (keeps_invalidateEmpty src)
    intro _
    apply keeps_update (hsector dest)
  | accessBlock i now =>
    apply Keeps.bind Keeps.get
    intro s
    apply Keeps.ite
    · apply keeps_policyTouch
    · apply Keeps.pure
  | findVictim set now => apply keeps_findVictim

/-! ### Initialization links the sectors -/

def group (p : TagParams) (i : ℕ) : List TagEntry := .sector i :: subBlks p i

/-- The sector has its own replacement data, which is linked to one of its entries, and all
these are in the set of the sector. -/
structure Done (p : TagParams) (i : ℕ) (s : TagStore) : Prop where
  data : (s.entries (.sector i)).replacementData = some i
  link : ∃ e ∈ group p i, (s.data i).entry = some e
  set : ∀ e ∈ group p i, s.getSet e = i / p.assoc

/-- Only entries and data of the sector `n` have changed. -/
structure Within (p : TagParams) (n : ℕ) (s t : TagStore) : Prop where
  entries : ∀ e, e ∉ group p n → t.entries e = s.entries e
  data : ∀ d, d ≠ n → t.data d = s.data d

def sectorIndex (p : TagParams) : TagEntry → ℕ
  | .blk i => i / p.numBlocksPerSector
  | .sector i => i

theorem sectorIndex_of_mem_group (he : e ∈ group p i) :
  sectorIndex p e = i
  := by
  rcases List.mem_cons.mp he with rfl | he
  · rfl
  · obtain ⟨k, hk, rfl⟩ := List.mem_map.mp he
    rw [List.mem_range] at hk
    rw [sectorIndex, Nat.mul_comm, Nat.mul_add_div p.numBlocksPerSector_pos, Nat.div_eq_of_lt hk,
      Nat.add_zero]

/-- Different sectors have no entry in common. -/
theorem group_disjoint (hne : i ≠ n) (he : e ∈ group p i) :
  e ∉ group p n
  := by
  intro he'
  apply hne
  rw [← sectorIndex_of_mem_group he, sectorIndex_of_mem_group he']

theorem Done.within (h : Done p i s) (hne : i ≠ n) (ht : Within p n s t) :
  Done p i t
  := by
  have hentries (e : TagEntry) (he : e ∈ group p i) : t.entries e = s.entries e :=
    ht.entries e (group_disjoint hne he)
  constructor
  · rw [hentries _ (List.mem_cons_self ..), h.data]
  · rw [ht.data i hne]
    apply h.link
  · intro e he
    rw [getSet, hentries e he]
    apply h.set e he

/-- The sectors below `n` are done, and their data is all there is. -/
structure DoneBelow (p : TagParams) (n : ℕ) (s : TagStore) : Prop where
  done : ∀ i < n, Done p i s
  numData : s.numData = n
  resets : s.resets = []

/-- The sector `n` is being initialized: its data has been made, and the entries in `l` have
it. -/
structure Busy (p : TagParams) (n : ℕ) (l : List TagEntry) (s : TagStore) : Prop where
  done : ∀ i < n, Done p i s
  numData : s.numData = n + 1
  resets : s.resets = []
  data : ∀ e ∈ l, (s.entries e).replacementData = some n

/-- All entries of the sector `n` have its data, those in `l` know their position, and the data
is linked to one of them, if there is one. -/
structure Positioned (p : TagParams) (n : ℕ) (l : List TagEntry) (s : TagStore) : Prop where
  busy : Busy p n (group p n) s
  set : ∀ e ∈ l, s.getSet e = n / p.assoc
  link : l ≠ [] → ∃ e ∈ l, (s.data n).entry = some e

private theorem returns_instantiate (n : ℕ) :
  Returns (DoneBelow p n) (modify (instantiate (.sector n)) : TagM Unit)
    fun _ => Busy p n [.sector n]
  := by
  apply Returns.modify
  intro s hs
  have hwithin : Within p n s (s.instantiate (.sector n)) := by
    constructor
    · intro e he
      apply update_of_ne
      rintro rfl
      apply he (List.mem_cons_self ..)
    · intro d hd
      apply update_of_ne
      rw [hs.numData]
      apply hd
  constructor
  · intro i hi
    apply (hs.done i hi).within (by omega) hwithin
  · rw [instantiate, hs.numData]
  · apply hs.resets
  · intro e he
    rw [List.mem_singleton.mp he]
    simp [instantiate, hs.numData]

private theorem returns_share (n : ℕ) :
  Returns (Busy p n [.sector n])
    (forM (subBlks p n) fun blk => modify (share (.sector n) blk) : TagM Unit)
    fun _ => Busy p n (group p n)
  := by
  apply forM (I := fun l => Busy p n (.sector n :: l))
  intro m blk hblk
  apply Returns.modify
  intro s hs
  have hsector := hs.data (.sector n) (List.mem_cons_self ..)
  have hwithin : Within p n s (s.share (.sector n) blk) := by
    constructor
    · intro e he
      apply update_of_ne
      rintro rfl
      apply he (List.mem_cons_of_mem _ hblk)
    · intro d _
      rfl
  constructor
  · intro i hi
    apply (hs.done i hi).within (by omega) hwithin
  · apply hs.numData
  · apply hs.resets
  · intro e he
    rw [share]
    by_cases heq : e = blk
    · rw [heq]
      simp [hsector]
    · simp only [update_of_ne heq]
      apply hs.data
      simpa [heq] using he

private theorem returns_position {l : List TagEntry} (he : e ∈ group p n) :
  Returns (Positioned p n l)
    (modify (position (n / p.assoc) (n % p.assoc) e) : TagM Unit)
    fun _ => Positioned p n (l ++ [e])
  := by
  apply Returns.modify
  intro s hs
  have hdata := hs.busy.data e he
  have hwithin : Within p n s (s.position (n / p.assoc) (n % p.assoc) e) := by
    constructor
    · intro e' he'
      apply update_of_ne
      rintro rfl
      apply he' he
    · intro d hd
      simp only [position, hdata, update_of_ne hd]
  constructor
  · constructor
    · intro i hi
      apply (hs.busy.done i hi).within (by omega) hwithin
    · apply hs.busy.numData
    · apply hs.busy.resets
    · intro e' he'
      rw [position]
      by_cases heq : e' = e
      · rw [heq]
        simp [hdata]
      · simp only [update_of_ne heq]
        apply hs.busy.data e' he'
  · intro e' he'
    rw [getSet, position]
    by_cases heq : e' = e
    · rw [heq]
      simp
    · simp only [update_of_ne heq]
      apply hs.set
      simpa [heq] using he'
  · intro _
    refine ⟨e, by simp, ?_⟩
    simp [position, hdata]

/-- A sector gets its position, and then its sub-blocks do. -/
private theorem returns_setPosition (n : ℕ) :
  Returns (Busy p n (group p n)) (setPosition p (n / p.assoc) (n % p.assoc) (.sector n))
    fun _ => Positioned p n (group p n)
  := by
  have hsector : Returns (Busy p n (group p n))
      (modify (position (n / p.assoc) (n % p.assoc) (.sector n)) : TagM Unit)
      fun _ => Positioned p n [.sector n] := by
    apply (returns_position (l := []) (List.mem_cons_self ..)).weaken
    · intro s hs
      exact ⟨hs, by simp, by simp⟩
    · intro _ s hs
      apply hs
  apply bind hsector
  intro _
  apply forM (I := fun l => Positioned p n (.sector n :: l))
  intro m blk hblk
  apply returns_position (List.mem_cons_of_mem _ hblk)

/-- One turn of the loop initializes one sector. -/
private theorem returns_sector (hn : n < p.numEntries) :
  Returns (DoneBelow p n)
    (do
      modify (instantiate (.sector n))
      forM (subBlks p n) fun blk => modify (share (.sector n) blk)
      setEntry p (.sector n) n : TagM Unit)
    fun _ => DoneBelow p (n + 1)
  := by
  apply bind (returns_instantiate n)
  intro _
  apply bind (returns_share n)
  intro _
  apply bind (returns_check hn)
  intro _
  apply (returns_setPosition n).weaken (fun _ hs => hs)
  intro _ s hs
  refine ⟨?_, hs.busy.numData, hs.busy.resets⟩
  intro i hi
  rcases Nat.lt_succ_iff_lt_or_eq.mp hi with hlt | rfl
  · apply hs.busy.done i hlt
  · exact ⟨hs.busy.data _ (List.mem_cons_self ..), hs.link (by simp [group]), hs.set⟩

/-- After initialization every sector is linked. -/
theorem initSectors_sound (p : TagParams) :
  ∃ s, initSectors p {} = .ok () s ∧ Sound p s
  := by
  have hloop : Returns (DoneBelow p 0) (initSectors p) fun _ => DoneBelow p p.numEntries :=
    forM_range fun i hi => returns_sector hi
  obtain ⟨⟨⟩, s, hs, hdone⟩ := hloop.returns {} ⟨by simp, rfl, rfl⟩
  refine ⟨s, hs, ?_, ?_⟩
  · intro i hi
    have hi := hdone.done i hi
    obtain ⟨e, he, hlink⟩ := hi.link
    refine ⟨i, e, hi.data, hlink, ?_⟩
    rw [hi.set e he, hi.set _ (List.mem_cons_self ..)]
  · rw [hdone.resets]
    simp

end SectorTags

/-! ### Set-associative stores -/

namespace BaseSetAssoc

open Lib TagM

variable {p : TagParams}

/-- The first `n` blocks have replacement data, the others have none, and no data is linked to
an entry. -/
structure Unlinked (n : ℕ) (s : TagStore) : Prop where
  made : ∀ i < n, ∃ d, (s.entries (.blk i)).replacementData = some d
  missing : ∀ i, n ≤ i → (s.entries (.blk i)).replacementData = none
  data : ∀ d, (s.data d).entry = none
  valid : ∀ i, s.valid i = false

variable {n : ℕ} {s : TagStore}

/-- Setting the position of a block that has no data yet links nothing. -/
private theorem unlinked_position (hs : Unlinked n s) (set way : ℕ) :
  Unlinked n (s.position set way (.blk n))
  := by
  have hentry (i : ℕ) :
      ((s.position set way (.blk n)).entries (.blk i)).replacementData
        = (s.entries (.blk i)).replacementData := by
    simp only [TagStore.position, Function.update_apply]
    split_ifs with h
    · rw [h]
    · rfl
  constructor
  · intro i hi
    rw [hentry]
    apply hs.made i hi
  · intro i hi
    rw [hentry]
    apply hs.missing i hi
  · intro d
    simp only [TagStore.position, hs.missing n (le_refl n)]
    apply hs.data
  · apply hs.valid

/-- The data of a block is made, and is not linked. -/
private theorem unlinked_instantiate (hs : Unlinked n s) :
  Unlinked (n + 1) (s.instantiate (.blk n))
  := by
  constructor
  · intro i hi
    simp only [TagStore.instantiate, Function.update_apply]
    split_ifs with h
    · exact ⟨_, rfl⟩
    · apply hs.made
      have hne : i ≠ n := fun hin => h (congrArg TagEntry.blk hin)
      omega
  · intro i hi
    have hne : TagEntry.blk i ≠ .blk n := by
      intro h
      cases h
      omega
    simp only [TagStore.instantiate, Function.update_of_ne hne]
    apply hs.missing
    omega
  · intro d
    simp only [TagStore.instantiate, Function.update_apply]
    split_ifs
    · rfl
    · apply hs.data
  · apply hs.valid

/-- One turn of the loop sets the position of a block that has no data yet, and then makes
the data. -/
private theorem returns_block (hn : n < p.numEntries) :
  Returns (Unlinked n)
    (do
      setEntry p (.blk n) n
      modify (TagStore.instantiate (.blk n)) : TagM Unit)
    fun _ => Unlinked (n + 1)
  := by
  have hposition : Returns (Unlinked n) (setEntry p (.blk n) n) fun _ => Unlinked n := by
    apply Returns.bind (returns_check hn)
    intro _
    apply Returns.modify
    intro s hs
    apply unlinked_position hs
  apply Returns.bind hposition
  intro _
  apply Returns.modify
  intro s hs
  apply unlinked_instantiate hs

/-- After initialization no data is linked. -/
theorem tagsInit_unlinked (p : TagParams) :
  ∃ s, tagsInit p {} = .ok () s ∧ Unlinked p.numEntries s
  := by
  have hloop : Returns (Unlinked 0) (tagsInit p) fun _ => Unlinked p.numEntries :=
    Returns.forM_range fun i hi => returns_block hi
  obtain ⟨⟨⟩, s, hs, hdone⟩ := hloop.returns {} ⟨by simp, by simp, by simp, by simp⟩
  exact ⟨s, hs, hdone⟩

/-- The first insertion of a block resets data that is not linked, and panics. -/
theorem insertBlock_unlinked (hs : Unlinked n s) (hn : 0 < n) (now : Tick) :
  ∃ c t, insertBlock 0 now s
      = .error (.panic "ARC: ReplacementData not linked to ReplaceableEntry!") t
    ∧ c ∈ t.resets ∧ ¬c.Linked
  := by
  obtain ⟨d, hd⟩ := hs.made 0 hn
  have hreset (getSet : TagEntry → ℕ) (arc : ARC) : ARC.reset getSet now (s.data d) arc
      = .error (.panic "ARC: ReplacementData not linked to ReplaceableEntry!") := by
    rw [ARC.reset, hs.data d]
  refine ⟨⟨s.getSet, .blk 0, s.data d, now, s.policy⟩, { s with
    valid := Function.update s.valid 0 true
    resets := ⟨s.getSet, .blk 0, s.data d, now, s.policy⟩ :: s.resets }, ?_, ?_, ?_⟩
  · simp only [insertBlock, check, policyReset, dataOf, get_bind_apply, modify_bind_apply,
      bind_assoc, pure_bind, hs.valid, hd, hreset, Bool.not_false, if_true]
    rfl
  · apply List.mem_cons_self
  · rintro ⟨e, he, -⟩
    rw [hs.data d] at he
    cases he

end BaseSetAssoc

/-! ### All hosts -/

/-- A tag store can make a call of `reset`: in a state it gets to after its initialization, the
call is made by one of its operations. -/
def Makes {Op : Type} (init : TagM Unit) (run : Op → TagM Unit) (c : ResetCall TagEntry) : Prop :=
  ∃ s₀ s op, init {} = .ok () s₀
    ∧ Lib.Reachable (fun s op t => run op s = .ok () t) s₀ s
    ∧ c ∈ (Lib.final (run op) s).resets

namespace CacheMemory

/-- The call of `reset` for an entry that has been put into a slot. -/
def resetCall (slot : Slot) (address : Addr) (entry : AbstractCacheEntry) (now : Tick)
    (m : ArcCache) : ResetCall Slot where
  getSet := (m.place slot address entry now).getSet
  entry := slot
  data := arc.link slot (m.replacementData slot)
  now := now
  arc := m.policy

/-- The Ruby cache can make a call of `reset`: it is in a reachable state, and `allocate` gets as
far as putting an entry for an address into a slot. -/
def MakesReset (g : Geometry) (c : ResetCall Slot) : Prop :=
  ∃ m address entry now slot, Reachable g arc m
    ∧ m.lookup g address = .ok none
    ∧ m.cacheAvail g address = .ok true
    ∧ slot.set = g.cacheSet address
    ∧ m.openWay g slot.set = some slot.way
    ∧ c = m.resetCall slot address entry now

end CacheMemory

/-- The stores that can host ARC. -/
inductive Host where
  | baseSetAssoc (p : TagParams)
  | sectorTags (p : TagParams)
  | compressedTags (p : TagParams)
  | cacheMemory (g : Geometry)

/-- In all calls of `reset` that the store makes, the data is linked to an entry with the right
set number; so they do not panic, and update the ghost lists of this set. -/
def Host.BackLinked : Host → Prop
  | .baseSetAssoc p => ∀ c, Makes (BaseSetAssoc.tagsInit p) (BaseSetAssoc.run p) c →
      c.Linked ∧ c.InOwnSet
  | .sectorTags p => ∀ c, Makes (SectorTags.tagsInit p) (SectorTags.run p) c →
      c.Linked ∧ c.InOwnSet
  | .compressedTags p => ∀ c, Makes (CompressedTags.tagsInit p) (CompressedTags.run p) c →
      c.Linked ∧ c.InOwnSet
  | .cacheMemory g => ∀ c, CacheMemory.MakesReset g c → c.Linked ∧ c.InOwnSet

/-- The store is a `BaseSetAssoc`. -/
def Host.IsBaseSetAssoc : Host → Prop
  | .baseSetAssoc _ => True
  | _ => False

private theorem makes_sectors {p : TagParams} {c : ResetCall TagEntry}
    (h : Makes (SectorTags.initSectors p) (SectorTags.run p) c) :
  c.Linked
  := by
  obtain ⟨s₀, s, op, hinit, hreach, hc⟩ := h
  obtain ⟨s₁, hinit', hsound⟩ := SectorTags.initSectors_sound p
  rw [hinit'] at hinit
  cases hinit
  have hs : SectorTags.Sound p s := by
    apply hreach.invariant _ hsound
    intro s op t hs hstep
    have ht := (SectorTags.keeps_run op).keeps s hs
    rw [Lib.final_of_ok hstep] at ht
    apply ht
  apply ((SectorTags.keeps_run op).keeps s hs).resets c hc

/-- The links are right in every store but `BaseSetAssoc`, and there they never are. -/
theorem backLink_iff (host : Host) :
  host.BackLinked ↔ ¬host.IsBaseSetAssoc
  := by
  cases host with
  | baseSetAssoc p =>
    constructor
    · intro h _
      obtain ⟨s, hinit, hs⟩ := BaseSetAssoc.tagsInit_unlinked p
      have hpos : 0 < p.numEntries := Nat.mul_pos p.numSets_pos p.assoc_pos
      obtain ⟨c, t, hpanic, hc, hnot⟩ := BaseSetAssoc.insertBlock_unlinked hs hpos 0
      apply hnot
      refine (h c ⟨s, s, .insertBlock ⟨0, hpos⟩ 0, hinit, Lib.Reachable.refl s, ?_⟩).1
      rw [BaseSetAssoc.run, Lib.final, hpanic]
      apply hc
    · intro h
      apply absurd trivial h
  | sectorTags p | compressedTags p =>
    constructor
    · intro _ h
      apply h
    · intro _ c hc
      have hlinked := makes_sectors hc
      exact ⟨hlinked, hlinked.inOwnSet⟩
  | cacheMemory g =>
    constructor
    · intro _ h
      apply h
    · rintro _ c ⟨m, address, entry, now, slot, -, -, -, -, -, rfl⟩
      have hlinked : (m.resetCall slot address entry now).Linked := ⟨slot, rfl, rfl⟩
      exact ⟨hlinked, hlinked.inOwnSet⟩

/-- A store of one block: the first insertion panics. -/
theorem baseSetAssoc_panics :
  ∃ s t, BaseSetAssoc.tagsInit ⟨1, 1, 1, by decide, by decide, by decide⟩ {} = .ok () s
    ∧ BaseSetAssoc.insertBlock 0 1 s
      = .error (.panic "ARC: ReplacementData not linked to ReplaceableEntry!") t
  := ⟨_, _, rfl, rfl⟩

end Gem5Arc
