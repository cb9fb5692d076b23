import Gem5Arc.Base.Bits
import Gem5Arc.Cache.TaggedEntry
import Gem5Arc.Lib.Program
import Gem5Arc.Lib.Run
import Gem5Arc.Lib.Update

/-!
# Sectors and their blocks

The tags of `SectorTags`: a sector has a tag and a number of sub-blocks, each of which has its own
copy of the tag and is valid or not. A sector counts its valid sub-blocks in an unsigned byte, and
is valid if this is not 0. The store counts its valid sectors (`tagsInUse`).

The counts are right in every state as long as a sector has less than 256 blocks, no block has the
address `MaxAddr`, and the entries can extract tags from addresses (`sectors_bookkept`). The latter
needs a function that is registered with every entry, which `SectorTags::tagsInit` does not do: the
first insertion stops the simulator. With 256 blocks the counter of a full sector is 0, and with the
address `MaxAddr` a sector becomes valid without a tag (`sectors_not_bookkept`).

Replacement data is left out; how the store uses it is in `Gem5Arc.Cache.Tags`.
-/

namespace Gem5Arc

open BitVec Finset Function Lib

structure SectorBlk extends TaggedEntry where
  validCounter : BitVec 8 := 0

namespace SectorBlk

/-- A sector is valid if any of its blocks is. -/
def isValid (sector : SectorBlk) : Bool := 0 < sector.validCounter

/-- The number of valid sub-blocks. -/
def getNumValid (sector : SectorBlk) : BitVec 8 := sector.validCounter

end SectorBlk

structure SectorParams where
  numSectors : ℕ
  numBlocksPerSector : ℕ
  numBlocksPerSector_isPowerOf2 : isPowerOf2 numBlocksPerSector = true
  /-- The amount to shift an address to get the tag. -/
  tagShift : ℕ
  /-- Whether a tag extractor has been registered with the entries. `tagsInit` does not do it. -/
  hasTagExtractor : Bool := false

/-- The place of a sub-block: its sector, and its offset in the sector. -/
abbrev SectorParams.Place (p : SectorParams) : Type := Fin p.numSectors × Fin p.numBlocksPerSector

/-- The sectors of a store and their sub-blocks. -/
structure SectorStore (p : SectorParams) where
  secBlks : Fin p.numSectors → SectorBlk := fun _ => {}
  blks : p.Place → TaggedEntry := fun _ => {}
  tagsInUse : ℤ := 0

/-- A program of a store. -/
abbrev SectorM (p : SectorParams) : Type → Type := EStateM Fault (SectorStore p)

namespace SectorM

open TaggedEntry

variable {p : SectorParams} {key : KeyType} {cond : Bool}

/-- `assert(cond)`. -/
def check (cond : Bool) : SectorM p Unit := if cond then pure () else throw .assertion

/-- Rewrite a sector. -/
def editSector (i : Fin p.numSectors) (f : SectorBlk → SectorBlk) (s : SectorStore p) :
    SectorStore p :=
  { s with secBlks := Function.update s.secBlks i (f (s.secBlks i)) }

/-- Rewrite a sub-block. -/
def editBlk (blk : p.Place) (f : TaggedEntry → TaggedEntry) (s : SectorStore p) : SectorStore p :=
  { s with blks := Function.update s.blks blk (f (s.blks blk)) }

def extractTag (addr : Addr) : SectorM p Addr :=
  if p.hasTagExtractor then pure (addr >>> p.tagShift) else throw .badFunctionCall

/-- Whether a sector is valid and has the tag of a key. -/
def matchSector (i : Fin p.numSectors) (key : KeyType) : SectorM p Bool := do
  let s ← get
  if (s.secBlks i).isValid then do
    let tag ← extractTag key.address
    pure ((s.secBlks i).tag == tag && (s.secBlks i).secure == key.secure)
  else pure false

/-- Insert the tag of a new sector. -/
def insertSector (i : Fin p.numSectors) (key : KeyType) : SectorM p Unit := do
  let s ← get
  check (!(s.secBlks i).isValid)
  modify (editSector i fun sector => { sector with valid := true })
  let tag ← extractTag key.address
  modify (editSector i fun sector =>
    { sector with toTaggedEntry := withTag tag key sector.toTaggedEntry })

/-- Make a sub-block valid, and count it in its sector. -/
def setValid (blk : p.Place) (s : SectorStore p) : SectorStore p :=
  editSector blk.1 (fun sector => { sector with validCounter := sector.validCounter + 1 })
    (editBlk blk (fun entry => { entry with valid := true }) s)

/-- Insert the tag of a sub-block, which becomes valid. -/
def insertTag (blk : p.Place) (key : KeyType) : SectorM p Unit := do
  let s ← get
  check (!(s.blks blk).valid)
  modify (setValid blk)
  let tag ← extractTag key.address
  modify (editBlk blk (withTag tag key))

/-- Insert a sub-block. If its sector is not valid, it gets the tag. -/
def insert (blk : p.Place) (key : KeyType) : SectorM p Unit := do
  let s ← get
  if (s.secBlks blk.1).isValid then do
    let hit ← matchSector blk.1 key
    if hit then insertTag blk key else throw (.panic "Overwriting valid sector!")
  else if key.address = maxAddr then insertTag blk key
  else do
    insertSector blk.1 key
    insertTag blk key

/-- One sub-block of a sector is not valid any more. With the last one the sector loses its tag. -/
def invalidateSubBlk (sector : SectorBlk) : SectorBlk :=
  if sector.validCounter - 1 = 0 then {}
  else { sector with validCounter := sector.validCounter - 1 }

/-- Invalidate a sub-block. -/
def invalidateBlk (blk : p.Place) (s : SectorStore p) : SectorStore p :=
  editSector blk.1 invalidateSubBlk (editBlk blk (fun _ => {}) s)

/-- The tag of a sub-block, which is that of its sector. -/
def getTag (blk : p.Place) : SectorM p Addr := do
  let s ← get
  check (!(s.blks blk).valid || (s.blks blk).tag == (s.secBlks blk.1).tag)
  pure (s.secBlks blk.1).tag

/-- One more tag is used. -/
def incTagsInUse : SectorM p Unit := do
  modify fun s => { s with tagsInUse := s.tagsInUse + 1 }
  let s ← get
  check (s.tagsInUse ≤ p.numSectors)

/-- One tag less is used. -/
def decTagsInUse : SectorM p Unit := do
  modify fun s => { s with tagsInUse := s.tagsInUse - 1 }
  let s ← get
  check (0 ≤ s.tagsInUse)

/-- A block is inserted: the tag of its sector is a new one if the sector is not valid. -/
def countInsert (blk : p.Place) : SectorM p Unit := do
  let s ← get
  if (s.secBlks blk.1).isValid then pure () else incTagsInUse

def insertBlock (blk : p.Place) (key : KeyType) : SectorM p Unit := do
  countInsert blk
  let s ← get
  check (!(s.blks blk).valid)
  insert blk key

/-- Invalidate a block. -/
def invalidate (blk : p.Place) : SectorM p Unit := do
  let s ← get
  check (s.blks blk).valid
  modify (invalidateBlk blk)
  let s ← get
  if (s.secBlks blk.1).isValid then pure () else decTagsInUse

/-- What moving a block does to the number of tags in use. -/
def countMove (src : p.Place) (destWasValid : Bool) : SectorM p Unit := do
  let s ← get
  if (s.secBlks src.1).isValid then
    if destWasValid then pure () else incTagsInUse
  else
    if destWasValid then decTagsInUse else pure ()

/-- Move a block into an invalid one. The tag of the block is inserted as if it was an address. -/
def moveBlock (src dest : p.Place) : SectorM p Unit := do
  let s ← get
  check (!(s.blks dest).valid)
  check (s.blks src).valid
  let tag ← getTag src
  insert dest ⟨tag, (s.blks src).secure⟩
  modify (invalidateBlk src)
  countMove src (s.secBlks dest.1).isValid

/-! ### What the programs do -/

section Effects

variable {s s' : SectorStore p} {blk : p.Place}

/-- What inserting a sub-block with a tag does. -/
structure Inserted (blk : p.Place) (t : Addr) (s s' : SectorStore p) : Prop where
  other : ∀ b, b ≠ blk → s'.blks b = s.blks b
  valid : (s'.blks blk).valid = true
  tag : (s'.blks blk).tag = t
  otherSector : ∀ i, i ≠ blk.1 → s'.secBlks i = s.secBlks i
  counter : (s'.secBlks blk.1).validCounter = (s.secBlks blk.1).validCounter + 1
  sectorTag : (s'.secBlks blk.1).tag = t
  same : (s.secBlks blk.1).isValid = true → (s.secBlks blk.1).tag = t
  tagsInUse : s'.tagsInUse = s.tagsInUse

/-- What invalidating a sub-block does. -/
structure Invalidated (blk : p.Place) (s s' : SectorStore p) : Prop where
  other : ∀ b, b ≠ blk → s'.blks b = s.blks b
  valid : (s'.blks blk).valid = false
  otherSector : ∀ i, i ≠ blk.1 → s'.secBlks i = s.secBlks i
  counter : (s'.secBlks blk.1).validCounter = (s.secBlks blk.1).validCounter - 1
  sectorTag : (s'.secBlks blk.1).isValid = true → (s'.secBlks blk.1).tag = (s.secBlks blk.1).tag
  tagsInUse : s'.tagsInUse = s.tagsInUse

theorem check_bind_apply (hcond : cond = true) (f : Unit → SectorM p α) (s : SectorStore p) :
  (check cond >>= f) s = f () s
  := by
  rw [hcond]
  rfl

/-- The store with a new sector, before its first sub-block is counted. -/
def newSector (i : Fin p.numSectors) (t : Addr) (key : KeyType) (s : SectorStore p) :
    SectorStore p :=
  editSector i
    (fun sector => { sector with toTaggedEntry := withTag t key sector.toTaggedEntry })
    (editSector i (fun sector => { sector with valid := true }) s)

theorem inserted_of_sector (key : KeyType) {t : Addr} (htag : (s.secBlks blk.1).tag = t) :
  Inserted blk t s (editBlk blk (withTag t key) (setValid blk s))
  := by
  constructor
  · intro b hb
    simp [editBlk, setValid, editSector, hb]
  · simp [editBlk, setValid, editSector, withTag]
  · simp [editBlk, withTag]
  · intro i hi
    simp [editBlk, setValid, editSector, hi]
  · simp [editBlk, setValid, editSector]
  · simp [editBlk, setValid, editSector, htag]
  · intro _
    apply htag
  · rfl

theorem inserted_of_new (key : KeyType) (t : Addr) (hvalid : ¬(s.secBlks blk.1).isValid = true) :
  Inserted blk t s (editBlk blk (withTag t key) (setValid blk (newSector blk.1 t key s)))
  := by
  have hnew : ((newSector blk.1 t key s).secBlks blk.1).tag = t := by
    simp [newSector, editSector, withTag]
  have hinserted := inserted_of_sector key hnew
  refine { hinserted with otherSector := ?_, counter := ?_, same := fun h => absurd h hvalid }
  · intro i hi
    rw [hinserted.otherSector i hi]
    simp [newSector, editSector, hi]
  · rw [hinserted.counter]
    simp [newSector, editSector]

theorem secBlks_invalidateBlk :
  (invalidateBlk blk s).secBlks blk.1 = invalidateSubBlk (s.secBlks blk.1)
  := by
  simp [invalidateBlk, editSector, editBlk]

theorem invalidated_invalidateBlk (blk : p.Place) (s : SectorStore p) :
  Invalidated blk s (invalidateBlk blk s)
  := by
  constructor
  · intro b hb
    simp [invalidateBlk, editSector, editBlk, hb]
  · simp [invalidateBlk, editSector, editBlk]
  · intro i hi
    simp [invalidateBlk, editSector, editBlk, hi]
  · rw [secBlks_invalidateBlk, invalidateSubBlk]
    split_ifs with h
    · apply h.symm
    · rfl
  · rw [secBlks_invalidateBlk, invalidateSubBlk]
    split_ifs
    · nofun
    · intro _
      rfl
  · rfl

variable (hp : p.hasTagExtractor = true)

include hp

theorem extractTag_bind_apply (addr : Addr) (f : Addr → SectorM p α) (s : SectorStore p) :
  (extractTag addr >>= f) s = f (addr >>> p.tagShift) s
  := by
  rw [extractTag, if_pos hp]
  rfl

theorem insertTag_apply (hblk : (s.blks blk).valid = false) :
  insertTag blk key s
    = .ok () (editBlk blk (withTag (key.address >>> p.tagShift) key) (setValid blk s))
  := by
  rw [insertTag, get_bind_apply, check_bind_apply (by rw [hblk]; rfl), modify_bind_apply,
    extractTag_bind_apply hp]
  rfl

theorem insertSector_apply {i : Fin p.numSectors} (hi : ¬(s.secBlks i).isValid = true) :
  insertSector i key s = .ok () (newSector i (key.address >>> p.tagShift) key s)
  := by
  rw [insertSector, get_bind_apply, check_bind_apply (by rw [Bool.eq_false_iff.mpr hi]; rfl),
    modify_bind_apply, extractTag_bind_apply hp, newSector]
  rfl

/-- A sub-block is inserted, or its sector has another tag. -/
theorem insert_spec (key : KeyType) (hblk : (s.blks blk).valid = false)
    (hkey : key.address ≠ maxAddr) :
  ((s.secBlks blk.1).isValid = true ∧ ∃ e, insert blk key s = .error e s)
    ∨ ∃ s', insert blk key s = .ok () s' ∧ Inserted blk (key.address >>> p.tagShift) s s'
  := by
  rw [insert, get_bind_apply]
  by_cases hvalid : (s.secBlks blk.1).isValid = true
  · rw [if_pos hvalid, bind_apply, matchSector, get_bind_apply, if_pos hvalid,
      extractTag_bind_apply hp]
    by_cases hmatch : ((s.secBlks blk.1).tag == key.address >>> p.tagShift
        && (s.secBlks blk.1).secure == key.secure) = true
    · right
      have htag := eq_of_beq (Bool.and_eq_true_iff.mp hmatch).1
      refine ⟨_, ?_, inserted_of_sector key htag⟩
      rw [hmatch]
      apply insertTag_apply hp hblk
    · left
      rw [Bool.eq_false_iff.mpr hmatch]
      exact ⟨hvalid, _, rfl⟩
  · right
    refine ⟨_, ?_, inserted_of_new key _ hvalid⟩
    have hblk' : ((newSector blk.1 (key.address >>> p.tagShift) key s).blks blk).valid = false :=
      hblk
    rw [if_neg hvalid, if_neg hkey, bind_apply, insertSector_apply hp hvalid]
    apply insertTag_apply hp hblk'

end Effects

/-! ### The sectors and their blocks -/

def validIn (s : SectorStore p) (i : Fin p.numSectors) : Finset (Fin p.numBlocksPerSector) :=
  Finset.univ.filter fun k => (s.blks (i, k)).valid

def inUse (s : SectorStore p) : ℕ := (Finset.univ.filter fun i => (s.secBlks i).isValid).card

/-- The sectors count their valid sub-blocks, and have their tags. -/
structure SectorsOk (s : SectorStore p) : Prop where
  numValid : ∀ i, (s.secBlks i).validCounter.toNat = (validIn s i).card
  tag : ∀ blk, (s.blks blk).valid = true → (s.blks blk).tag = (s.secBlks blk.1).tag
  hasTag : ∀ i, (s.secBlks i).isValid = true → (s.secBlks i).tag ≠ maxAddr

variable {s s' : SectorStore p} {blk : p.Place} {t : Addr}

theorem isValid_iff (sector : SectorBlk) :
  sector.isValid = true ↔ 0 < sector.validCounter.toNat
  := by
  rw [SectorBlk.isValid, decide_eq_true_iff, lt_def]
  rfl

variable {i : Fin p.numSectors} {k : ℕ}

theorem mem_validIn {k : Fin p.numBlocksPerSector} :
  k ∈ validIn s i ↔ (s.blks (i, k)).valid = true
  := by
  rw [validIn, mem_filter_univ]

theorem SectorsOk.isValid (hs : SectorsOk s) (i : Fin p.numSectors) :
  (s.secBlks i).isValid = true ↔ ∃ k, (s.blks (i, k)).valid = true
  := by
  rw [isValid_iff, hs.numValid, card_pos]
  constructor
  · rintro ⟨k, hk⟩
    use k, mem_validIn.mp hk
  · rintro ⟨k, hk⟩
    use k, mem_validIn.mpr hk

/-- If one sector changes, the number of valid sectors changes accordingly. -/
theorem inUse_add (h : ∀ j, j ≠ i → s'.secBlks j = s.secBlks j) :
  inUse s' + (s.secBlks i).isValid.toNat = inUse s + (s'.secBlks i).isValid.toNat
  := by
  have hsum (u : SectorStore p) : inUse u = ∑ j, (u.secBlks j).isValid.toNat := by
    simp only [inUse, card_filter, Bool.toNat, cond_eq_ite]
  rw [hsum, hsum, eq_update_iff.mpr ⟨rfl, h⟩, update_self]
  apply sum_update fun sector : SectorBlk => sector.isValid.toNat

/-- A sub-block that is inserted is counted. -/
theorem SectorsOk.inserted (hs : SectorsOk s) (hn : p.numBlocksPerSector < 256)
    (hblk : (s.blks blk).valid = false) (ht : t ≠ maxAddr) (h : Inserted blk t s s') :
  SectorsOk s' ∧ (s'.secBlks blk.1).isValid = true
  := by
  have hvalidIn : validIn s' blk.1 = Insert.insert blk.2 (validIn s blk.1) := by
    ext k
    rw [mem_insert, mem_validIn, mem_validIn]
    by_cases hk : k = blk.2
    · subst hk
      simp [h.valid]
    · rw [h.other _ fun heq => hk (congrArg Prod.snd heq)]
      simp [hk]
  have hnew : blk.2 ∉ validIn s blk.1 := by
    rw [mem_validIn, hblk]
    decide
  have hcard : (validIn s' blk.1).card = (validIn s blk.1).card + 1 := by
    rw [hvalidIn, card_insert_of_notMem hnew]
  have hle : (validIn s' blk.1).card ≤ p.numBlocksPerSector := by
    apply (card_le_univ _).trans_eq (Fintype.card_fin _)
  have hcounter : (s'.secBlks blk.1).validCounter.toNat = (validIn s' blk.1).card := by
    rw [h.counter, toNat_add, hs.numValid, hcard]
    apply Nat.mod_eq_of_lt
    change _ + 1 < _
    omega
  refine ⟨⟨?_, ?_, ?_⟩, ?_⟩
  · intro i
    by_cases hi : i = blk.1
    · rw [hi, hcounter]
    · rw [h.otherSector i hi, hs.numValid]
      congr 1
      ext k
      rw [mem_validIn, mem_validIn, h.other _ fun heq => hi (congrArg Prod.fst heq)]
  · intro b hb
    by_cases hblk' : b = blk
    · rw [hblk', h.tag, h.sectorTag]
    · rw [h.other b hblk'] at hb ⊢
      by_cases hi : b.1 = blk.1
      · have hvalid : (s.secBlks blk.1).isValid = true := by
          rw [hs.isValid]
          use b.2
          rw [← hi]
          apply hb
        rw [hs.tag b hb, hi, h.sectorTag, h.same hvalid]
      · rw [h.otherSector _ hi, hs.tag b hb]
  · intro i hi
    by_cases hblk' : i = blk.1
    · rw [hblk', h.sectorTag]
      apply ht
    · rw [h.otherSector i hblk'] at hi ⊢
      apply hs.hasTag i hi
  · rw [isValid_iff, hcounter]
    omega

/-- A sub-block that is invalidated is not counted any more. -/
theorem SectorsOk.invalidated (hs : SectorsOk s) (hblk : (s.blks blk).valid = true)
    (h : Invalidated blk s s') :
  SectorsOk s'
  := by
  have hvalidIn : validIn s' blk.1 = (validIn s blk.1).erase blk.2 := by
    ext k
    rw [mem_erase, mem_validIn, mem_validIn]
    by_cases hk : k = blk.2
    · subst hk
      simp [h.valid]
    · rw [h.other _ fun heq => hk (congrArg Prod.snd heq)]
      simp [hk]
  have hmem := mem_validIn.mpr hblk
  have hcounter : (s'.secBlks blk.1).validCounter.toNat = (validIn s' blk.1).card := by
    have hpos := card_pos.mpr ⟨_, hmem⟩
    have hnum := hs.numValid blk.1
    rw [h.counter, toNat_sub, hvalidIn, card_erase_of_mem hmem]
    change (2 ^ 8 - 1 + _) % 2 ^ 8 = _
    omega
  refine ⟨?_, ?_, ?_⟩
  · intro i
    by_cases hi : i = blk.1
    · rw [hi, hcounter]
    · rw [h.otherSector i hi, hs.numValid]
      congr 1
      ext k
      rw [mem_validIn, mem_validIn, h.other _ fun heq => hi (congrArg Prod.fst heq)]
  · intro b hb
    have hne : b ≠ blk := by
      rintro rfl
      rw [h.valid] at hb
      cases hb
    have hb' := hb
    rw [h.other b hne] at hb ⊢
    by_cases hi : b.1 = blk.1
    · have hvalid : (s'.secBlks blk.1).isValid = true := by
        rw [isValid_iff, hcounter, card_pos, ← hi]
        use b.2, mem_validIn.mpr hb'
      rw [hs.tag b hb, hi, h.sectorTag hvalid]
    · rw [h.otherSector _ hi, hs.tag b hb]
  · intro i hi
    by_cases hblk' : i = blk.1
    · subst hblk'
      rw [h.sectorTag hi]
      apply hs.hasTag
      rw [hs.isValid]
      use blk.2, hblk
    · rw [h.otherSector i hblk'] at hi ⊢
      apply hs.hasTag i hi

/-! ### The number of tags in use -/

/-- The sectors are right, and the store counts the valid ones. -/
structure Sound (s : SectorStore p) : Prop where
  sectors : SectorsOk s
  tagsInUse : s.tagsInUse = inUse s

theorem inUse_lt (h : ¬(s.secBlks i).isValid = true) :
  inUse s < p.numSectors
  := by
  apply lt_of_lt_of_eq (card_lt_univ_of_notMem _) (Fintype.card_fin _)
  · apply i
  · rw [mem_filter_univ]
    apply h

theorem incTagsInUse_apply (h : s.tagsInUse < p.numSectors) :
  (incTagsInUse : SectorM p Unit) s = .ok () { s with tagsInUse := s.tagsInUse + 1 }
  := by
  rw [incTagsInUse, modify_bind_apply, get_bind_apply, check, if_pos]
  · rfl
  · apply decide_eq_true
    change s.tagsInUse + 1 ≤ _
    omega

theorem decTagsInUse_apply (h : 0 < s.tagsInUse) :
  (decTagsInUse : SectorM p Unit) s = .ok () { s with tagsInUse := s.tagsInUse - 1 }
  := by
  rw [decTagsInUse, modify_bind_apply, get_bind_apply, check, if_pos]
  · rfl
  · apply decide_eq_true
    change 0 ≤ s.tagsInUse - 1
    omega

theorem final_check_bind {f : Unit → SectorM p Unit} {P : SectorStore p → Prop} (h : P s)
    (hf : cond = true → P (final (f ()) s)) :
  P (final (check cond >>= f) s)
  := by
  cases cond with
  | false => apply h
  | true => apply hf rfl

/-- The number of tags in use may be set, as far as the sectors are concerned. -/
theorem SectorsOk.setTagsInUse (h : SectorsOk s) (n : ℤ) :
  SectorsOk { s with tagsInUse := n }
  := ⟨h.numValid, h.tag, h.hasTag⟩

theorem SectorsOk.sound (h : SectorsOk s) {n : ℤ} (hn : n = inUse s) :
  Sound { s with tagsInUse := n }
  := ⟨h.setTagsInUse n, hn⟩

theorem keeps_invalidate (blk : p.Place) :
  Keeps Sound (invalidate blk)
  := by
  constructor
  intro s hs
  apply final_check_bind hs
  intro hblk
  rw [final_modify_bind, final_get_bind]
  have hinvalidated := invalidated_invalidateBlk blk s
  generalize invalidateBlk blk s = s' at hinvalidated ⊢
  have hs' := hs.sectors.invalidated hblk hinvalidated
  have hvalid := (hs.sectors.isValid blk.1).mpr ⟨blk.2, hblk⟩
  have hinUse := inUse_add hinvalidated.otherSector
  rw [hvalid, Bool.toNat_true] at hinUse
  have htags := hinvalidated.tagsInUse.trans hs.tagsInUse
  by_cases hvalid' : (s'.secBlks blk.1).isValid = true
  · rw [hvalid', Bool.toNat_true] at hinUse
    rw [if_pos hvalid']
    exact hs'.sound (by omega)
  · rw [Bool.eq_false_iff.mpr hvalid', Bool.toNat_false] at hinUse
    rw [if_neg hvalid', final_of_ok (decTagsInUse_apply (by omega))]
    exact hs'.sound (by omega)

/-- The number of tags in use after a block has moved. -/
theorem sound_countMove {src : p.Place} {destWasValid : Bool} (hs : SectorsOk s)
    (hcount : inUse s + destWasValid.toNat = s.tagsInUse + (s.secBlks src.1).isValid.toNat) :
  Sound (final (countMove src destWasValid) s)
  := by
  have hle : inUse s ≤ p.numSectors := by
    apply (card_le_univ _).trans_eq (Fintype.card_fin _)
  rw [countMove, final_get_bind]
  cases hvalid : (s.secBlks src.1).isValid with
  | true =>
    rw [hvalid, Bool.toNat_true] at hcount
    cases destWasValid with
    | true =>
      rw [Bool.toNat_true] at hcount
      exact hs.sound (by omega)
    | false =>
      rw [Bool.toNat_false] at hcount
      rw [if_pos rfl, if_neg Bool.false_ne_true, final_of_ok (incTagsInUse_apply (by omega))]
      exact hs.sound (by omega)
  | false =>
    rw [hvalid, Bool.toNat_false] at hcount
    cases destWasValid with
    | true =>
      rw [Bool.toNat_true] at hcount
      rw [if_neg Bool.false_ne_true, if_pos rfl, final_of_ok (decTagsInUse_apply (by omega))]
      exact hs.sound (by omega)
    | false =>
      rw [Bool.toNat_false] at hcount
      exact hs.sound (by omega)

theorem getTag_apply (hs : SectorsOk s) (hblk : (s.blks blk).valid = true) :
  getTag blk s = .ok (s.secBlks blk.1).tag s
  := by
  rw [getTag, get_bind_apply, check_bind_apply]
  · rfl
  · rw [hs.tag blk hblk, beq_self_eq_true, Bool.or_true]

section Keep

variable (hp : p.hasTagExtractor = true) (hn : p.numBlocksPerSector < 256)

include hp hn

/-- Inserting a sub-block into a store whose sectors are right, which has counted the tag. -/
theorem sound_insert (hs : SectorsOk s) (hblk : (s.blks blk).valid = false)
    (hkey : key.address ≠ maxAddr)
    (hcount : s.tagsInUse + (s.secBlks blk.1).isValid.toNat = inUse s + 1) :
  Sound (final (insert blk key) s)
  := by
  rcases insert_spec hp key hblk hkey with ⟨hvalid, e, herror⟩ | ⟨s', hok, hinserted⟩
  · rw [hvalid, Bool.toNat_true] at hcount
    rw [final, herror]
    exact hs.sound (by omega)
  · obtain ⟨hs', hvalid'⟩ :=
      hs.inserted hn hblk (shift_ne_maxAddr hkey p.tagShift) hinserted
    rw [final_of_ok hok]
    refine ⟨hs', ?_⟩
    have hinUse := inUse_add hinserted.otherSector
    rw [hvalid', Bool.toNat_true] at hinUse
    rw [hinserted.tagsInUse]
    omega

theorem keeps_insertBlock (blk : p.Place) (hkey : key.address ≠ maxAddr) :
  Keeps Sound (insertBlock blk key)
  := by
  constructor
  intro s hs
  by_cases hvalid : (s.secBlks blk.1).isValid = true
  · have hcount : countInsert blk s = .ok () s := by
      rw [countInsert, get_bind_apply, if_pos hvalid]
      rfl
    rw [insertBlock, final_bind_of_ok hcount, final_get_bind]
    apply final_check_bind hs
    intro hblk
    apply sound_insert hp hn hs.sectors ((Bool.not_eq_true' _).mp hblk) hkey
    rw [hvalid, hs.tagsInUse]
    rfl
  · have hlt := inUse_lt hvalid
    have hcount : countInsert blk s = .ok () { s with tagsInUse := s.tagsInUse + 1 } := by
      rw [countInsert, get_bind_apply, if_neg hvalid]
      apply incTagsInUse_apply
      rw [hs.tagsInUse]
      omega
    have hblk : (s.blks blk).valid = false := by
      rw [hs.sectors.isValid] at hvalid
      apply Bool.eq_false_iff.mpr
      intro h
      apply hvalid ⟨blk.2, h⟩
    have hcheck (t : SectorStore p) : check (!(s.blks blk).valid) t = .ok () t := by
      rw [hblk]
      rfl
    rw [insertBlock, final_bind_of_ok hcount, final_get_bind, final_bind_of_ok (hcheck _)]
    apply sound_insert hp hn (hs.sectors.setTagsInUse (s.tagsInUse + 1)) hblk hkey
    rw [Bool.eq_false_iff.mpr hvalid, hs.tagsInUse]
    rfl

theorem keeps_moveBlock (src dest : p.Place) :
  Keeps Sound (moveBlock src dest)
  := by
  constructor
  intro s hs
  apply final_check_bind hs
  intro hdest
  rw [Bool.not_eq_true'] at hdest
  apply final_check_bind hs
  intro hsrc
  have hne : src ≠ dest := by
    rintro rfl
    rw [hsrc] at hdest
    cases hdest
  have hvalid := (hs.sectors.isValid src.1).mpr ⟨src.2, hsrc⟩
  have htag := hs.sectors.hasTag src.1 hvalid
  rw [final_bind_of_ok (getTag_apply hs.sectors hsrc)]
  rcases insert_spec hp ⟨_, (s.blks src).secure⟩ hdest htag with
    ⟨_, e, herror⟩ | ⟨s', hok, hinserted⟩
  · rw [final, bind_apply, herror]
    apply hs
  · rw [final_bind_of_ok hok, final_modify_bind]
    obtain ⟨hs', hvalid'⟩ :=
      hs.sectors.inserted hn hdest (shift_ne_maxAddr htag p.tagShift) hinserted
    have hsrc' : (s'.blks src).valid = true := by
      rw [hinserted.other src hne, hsrc]
    have hsector' := (hs'.isValid src.1).mpr ⟨src.2, hsrc'⟩
    have hinvalidated := invalidated_invalidateBlk src s'
    apply sound_countMove (hs'.invalidated hsrc' hinvalidated)
    have hdestUse := inUse_add hinserted.otherSector
    have hsrcUse := inUse_add hinvalidated.otherSector
    rw [hvalid', Bool.toNat_true] at hdestUse
    rw [hsector', Bool.toNat_true] at hsrcUse
    rw [hinvalidated.tagsInUse, hinserted.tagsInUse, hs.tagsInUse]
    omega

end Keep

/-! ### The calls of a store -/

/-- The calls of a store. -/
inductive Op (p : SectorParams) where
  | insertBlock (blk : p.Place) (key : KeyType)
  | invalidate (blk : p.Place)
  | moveBlock (src dest : p.Place)

/-- What a call runs. -/
def Op.run : Op p → SectorM p Unit
  | .insertBlock blk key => SectorM.insertBlock blk key
  | .invalidate blk => SectorM.invalidate blk
  | .moveBlock src dest => SectorM.moveBlock src dest

/-- A call that inserts a block does not have the address `MaxAddr`. -/
def Op.HasAddress : Op p → Prop
  | .insertBlock _ key => key.address ≠ maxAddr
  | .invalidate _ => True
  | .moveBlock _ _ => True

/-- A call leads from one store to another, whether it returns or stops. -/
def Step (s : SectorStore p) (op : Op p) (s' : SectorStore p) : Prop := final op.run s = s'

/-- The sectors and the store count what they have. -/
structure Bookkept (s : SectorStore p) : Prop where
  isValid : ∀ i, (s.secBlks i).isValid = true ↔ ∃ k, (s.blks (i, k)).valid = true
  getNumValid : ∀ i, (s.secBlks i).getNumValid.toNat = (validIn s i).card
  tag : ∀ blk, (s.blks blk).valid = true → (s.blks blk).tag = (s.secBlks blk.1).tag
  tagsInUse : s.tagsInUse = inUse s

theorem sound_init :
  Sound ({} : SectorStore p)
  := by
  refine ⟨⟨?_, ?_, ?_⟩, ?_⟩
  · intro i
    apply Eq.symm (card_eq_zero.mpr _)
    rw [validIn, filter_eq_empty_iff]
    intro k _
    exact Bool.false_ne_true
  · nofun
  · nofun
  · apply Eq.symm (Nat.cast_eq_zero.mpr _)
    rw [inUse, card_eq_zero, filter_eq_empty_iff]
    intro i _
    exact Bool.false_ne_true

theorem Sound.step {op : Op p} (hp : p.hasTagExtractor = true) (hn : p.numBlocksPerSector < 256)
    (hs : Sound s) (hop : op.HasAddress) (h : Step s op s') :
  Sound s'
  := by
  subst h
  cases op with
  | insertBlock blk key => apply (keeps_insertBlock hp hn blk hop).keeps s hs
  | invalidate blk => apply (keeps_invalidate blk).keeps s hs
  | moveBlock src dest => apply (keeps_moveBlock hp hn src dest).keeps s hs

/-- In every run in which no block with the address `MaxAddr` is inserted, a store whose entries
extract tags and whose sectors have less than 256 blocks counts what it has. -/
theorem sectors_bookkept {l : List (Op p)} (hp : p.hasTagExtractor = true)
    (hn : p.numBlocksPerSector < 256)
    (hrun : Run (fun s op s' => op.HasAddress ∧ Step s op s') {} l s) :
  Bookkept s
  := by
  have hs : Sound s := by
    apply hrun.invariant (P := Sound) _ sound_init
    rintro s op s' hs ⟨hop, hstep⟩
    apply hs.step hp hn hop hstep
  exact ⟨hs.sectors.isValid, hs.sectors.numValid, hs.sectors.tag, hs.tagsInUse⟩

/-- Two sectors of four blocks. -/
abbrev twoSectors : SectorParams := ⟨2, 4, rfl, 8, true⟩

/-- Two blocks of a sector are inserted, and one is moved to the other sector, into which its tag
goes. -/
theorem sectors_bookkept_moved :
  ∃ s : SectorStore twoSectors, Run (fun s op s' => op.HasAddress ∧ Step s op s') {}
      [.insertBlock (0, 0) ⟨0, false⟩, .insertBlock (0, 1) ⟨64, false⟩, .moveBlock (0, 1) (1, 1)] s
    ∧ Bookkept s ∧ s.tagsInUse = 2
  := by
  have haddr : (0 : Addr) ≠ maxAddr := by decide
  have haddr' : (64 : Addr) ≠ maxAddr := by decide
  have hrun : Run (fun s op s' => op.HasAddress ∧ Step s op s') ({} : SectorStore twoSectors)
      [.insertBlock (0, 0) ⟨0, false⟩, .insertBlock (0, 1) ⟨64, false⟩, .moveBlock (0, 1) (1, 1)]
      _ := .cons ⟨haddr, rfl⟩ (.cons ⟨haddr', rfl⟩ (.single ⟨trivial, rfl⟩))
  exact ⟨_, hrun, sectors_bookkept rfl (by decide) hrun, rfl⟩

/-! ### A sector of 256 blocks -/

/-- One sector of 256 blocks. -/
abbrev bigSector : SectorParams := ⟨1, 256, rfl, 14, true⟩

/-- The first `k` blocks of the sector are valid. -/
def filledBlks (k : ℕ) (blk : bigSector.Place) : TaggedEntry :=
  if blk.2.val < k then { valid := true, tag := 0 } else {}

/-- The sector after the first `k` blocks have been inserted. -/
def filledSector (k : ℕ) : SectorBlk :=
  { valid := true, tag := 0, validCounter := BitVec.ofNat 8 k }

theorem setValid_filled (key : KeyType) (hkey : key.secure = false) (hk : k < 256) (n : ℤ) :
  editBlk (0, ⟨k, hk⟩) (withTag 0 key)
      (setValid (0, ⟨k, hk⟩) ⟨fun _ => filledSector k, filledBlks k, n⟩)
    = ⟨fun _ => filledSector (k + 1), filledBlks (k + 1), n⟩
  := by
  simp only [editBlk, setValid, editSector, withTag, SectorStore.mk.injEq, hkey]
  refine ⟨?_, ?_, trivial⟩
  · funext i
    rw [Subsingleton.elim i 0, update_self, filledSector, filledSector, ofNat_add]
    rfl
  · funext ⟨i, j⟩
    rw [Subsingleton.elim i 0, update_apply, update_self, update_apply]
    by_cases hj : j = ⟨k, hk⟩
    · rw [hj, if_pos rfl, filledBlks, filledBlks, if_neg (lt_irrefl k), if_pos (Nat.lt_succ_self k)]
      rfl
    · have hne : j.val ≠ k := fun h => hj (Fin.ext h)
      rw [if_neg fun h => hj (congrArg Prod.snd h), if_neg fun h => hj (congrArg Prod.snd h),
        filledBlks, filledBlks]
      simp only [Nat.lt_succ_iff_lt_or_eq, hne, or_false]

/-- The first block is inserted. -/
theorem insertBlock_first :
  insertBlock (0, 0) ⟨0, false⟩ ({} : SectorStore bigSector)
    = .ok () ⟨fun _ => filledSector 1, filledBlks 1, 1⟩
  := by
  have hnew : newSector 0 0 ⟨0, false⟩ ({ tagsInUse := 1 } : SectorStore bigSector)
      = ⟨fun _ => filledSector 0, filledBlks 0, 1⟩ := by
    simp only [newSector, editSector, withTag, SectorStore.mk.injEq]
    refine ⟨?_, rfl, trivial⟩
    funext i
    rw [Subsingleton.elim i 0, update_self, update_self]
    rfl
  calc
    insertBlock (0, 0) ⟨0, false⟩ ({} : SectorStore bigSector)
      = .ok () (editBlk (0, 0) (withTag 0 ⟨0, false⟩) (setValid (0, 0)
          (newSector 0 0 ⟨0, false⟩ ({ tagsInUse := 1 } : SectorStore bigSector)))) := rfl
    _ = .ok () ⟨fun _ => filledSector 1, filledBlks 1, 1⟩ := by
        rw [hnew]
        apply congrArg (EStateM.Result.ok ())
        apply setValid_filled _ rfl

/-- Block `k + 1` is inserted after `k` others, for `k` from 1 to 255. -/
theorem insertBlock_filled (hpos : 0 < k) (hk : k < 256) :
  insertBlock (0, ⟨k, hk⟩) ⟨BitVec.ofNat 64 (64 * k), false⟩
      (⟨fun _ => filledSector k, filledBlks k, 1⟩ : SectorStore bigSector)
    = .ok () ⟨fun _ => filledSector (k + 1), filledBlks (k + 1), 1⟩
  := by
  have htag : BitVec.ofNat 64 (64 * k) >>> 14 = 0 := by
    apply eq_of_toNat_eq
    rw [toNat_ushiftRight, toNat_ofNat, Nat.shiftRight_eq_div_pow]
    change _ = 0
    omega
  have hblk : (filledBlks k (0, ⟨k, hk⟩)).valid = false := by
    rw [filledBlks, if_neg (lt_irrefl k)]
  have hvalid : (filledSector k).isValid = true := by
    rw [isValid_iff, filledSector, toNat_ofNat]
    omega
  rw [insertBlock, bind_apply, countInsert, get_bind_apply, if_pos hvalid]
  change (check (!(filledBlks k (0, ⟨k, hk⟩)).valid) >>= fun _ => insert _ _) _ = _
  rw [check_bind_apply (by rw [hblk]; rfl), insert, get_bind_apply, if_pos hvalid, bind_apply,
    matchSector, get_bind_apply, if_pos hvalid, extractTag_bind_apply rfl, htag]
  change insertTag _ _ _ = _
  rw [insertTag_apply rfl hblk, htag, setValid_filled _ rfl]

/-- The sector is filled from the first block on. -/
theorem reachable_filled (hpos : 0 < k) (hk : k ≤ 256) :
  Reachable (fun s (op : Op bigSector) s' => op.run s = .ok () s') {}
    ⟨fun _ => filledSector k, filledBlks k, 1⟩
  := by
  induction k, hpos using Nat.le_induction with
  | base =>
    apply (Reachable.refl _).step (a := .insertBlock (0, 0) ⟨0, false⟩)
    apply insertBlock_first
  | succ k hpos ih =>
    apply (ih (Nat.le_of_succ_le hk)).step (a := .insertBlock (0, ⟨k, hk⟩) _)
    apply insertBlock_filled hpos hk

/-- A store without a function that extracts tags stops at the first insertion, with a tag in use
that no sector has. A full sector of 256 blocks is not valid. A sector that becomes valid with a
block at `MaxAddr` does not have the tag of the block. -/
theorem sectors_not_bookkept :
  (∃ s : SectorStore ⟨2, 4, rfl, 8, false⟩,
      insertBlock (0, 0) ⟨0, false⟩ {} = .error .badFunctionCall s
      ∧ s.tagsInUse = 1 ∧ inUse s = 0)
    ∧ (∃ s : SectorStore bigSector,
      Reachable (fun s (op : Op bigSector) s' => op.run s = .ok () s') {} s
      ∧ (∀ k, (s.blks (0, k)).valid = true) ∧ (s.secBlks 0).isValid = false)
    ∧ ∃ s : SectorStore twoSectors, insertBlock (0, 0) ⟨maxAddr, false⟩ {} = .ok () s
      ∧ (s.blks (0, 0)).valid = true ∧ (s.blks (0, 0)).tag ≠ (s.secBlks 0).tag
  := by
  refine ⟨⟨_, rfl, rfl, rfl⟩, ⟨_, reachable_filled (by decide) (le_refl 256), ?_, rfl⟩,
    ⟨_, rfl, rfl, by decide⟩⟩
  intro k
  change (filledBlks 256 (0, k)).valid = true
  rw [filledBlks, if_pos k.isLt]

end SectorM

end Gem5Arc
