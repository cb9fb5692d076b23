import Gem5Arc.Cache.FALRU
import Gem5Arc.Lib.Chain
import Gem5Arc.Lib.Recency

/-!
# The caches that a fully associative store tracks

`Ordered` says of a state that the blocks are linked in a given order, that the boundary of a
tracked cache is at its place in this order, and that a block has the bit of a cache exactly if it
comes before this place or is there. Moving a block to the head or the tail keeps this, with the
order changed accordingly (`moveToHead_spec`, `moveToTail_spec`).

The updates of the caches before a block is moved go through the caches one by one. As each of them
only touches one boundary and one bit, they all have the same invariant (`Updating`), with the order
of the blocks before and after.
-/

namespace Gem5Arc

open FALRUM Function Lib List

/-! ### Sizes -/

namespace FALRUParams

/-- The smaller caches can be tracked. -/
structure Tracks (p : FALRUParams) : Prop where
  minTrackedSize_isPowerOf2 : isPowerOf2 p.minTrackedSize = true
  twoBlocks : 2 * p.blkSize ≤ p.minTrackedSize
  smaller : p.minTrackedSize < p.size

/-- The number of blocks of a tracked cache. -/
def trackedBlocks (p : FALRUParams) (i : ℕ) : ℕ := p.minTrackedSize <<< i / p.blkSize

/-- The exponents of the sizes. -/
structure Exponents (p : FALRUParams) (c m t : ℕ) : Prop where
  blkSize : p.blkSize = 2 ^ c
  minTrackedSize : p.minTrackedSize = 2 ^ (c + m + 1)
  size : p.size = 2 ^ (c + m + 1 + t)
  numTrackedCaches : p.numTrackedCaches = t
  pos : 0 < t
  lt : c + m + 1 + t < 32

variable {p : FALRUParams}

theorem Tracks.exponents (hp : p.Tracks) :
  ∃ c m t, Exponents p c m t
  := by
  obtain ⟨c, hc⟩ := exists_of_isPowerOf2 p.blkSize_isPowerOf2
  obtain ⟨m, hm⟩ := exists_of_isPowerOf2 hp.minTrackedSize_isPowerOf2
  obtain ⟨t, ht⟩ := exists_of_isPowerOf2 p.size_isPowerOf2
  have hcm : c + 1 ≤ m := by
    have h := hp.twoBlocks
    rw [hc, hm, ← pow_succ'] at h
    apply (Nat.pow_le_pow_iff_right (by decide)).mp h
  have hmt : m < t := by
    have h := hp.smaller
    rw [hm, ht] at h
    apply (Nat.pow_lt_pow_iff_right (by decide)).mp h
  have hlt : t < 32 := by
    have h := p.size_lt
    rw [ht] at h
    apply (Nat.pow_lt_pow_iff_right (by decide)).mp h
  have hlog (k : ℕ) (hk : k < 32) : floorLog2 (2 ^ k) = k := by
    rw [floorLog2_eq_log (Nat.two_pow_pos k) (Nat.pow_lt_pow_right (by decide) (by omega)),
      Nat.log_pow (by decide)]
  refine ⟨c, m - c - 1, t - m, hc, ?_, ?_, ?_, by omega, by omega⟩
  · rw [hm, show c + (m - c - 1) + 1 = m by omega]
  · rw [ht, show c + (m - c - 1) + 1 + (t - m) = t by omega]
  · rw [numTrackedCaches, if_pos hp.smaller, hm, ht, hlog t hlt, hlog m (by omega)]

namespace Exponents

variable {c m t i : ℕ}

theorem trackedBlocks (h : Exponents p c m t) (i : ℕ) :
  p.trackedBlocks i = 2 ^ (m + 1 + i)
  := by
  rw [FALRUParams.trackedBlocks, h.blkSize, h.minTrackedSize, Nat.shiftLeft_eq, ← pow_add,
    Nat.pow_div (by omega) (by decide)]
  congr 1
  omega

theorem numBlocks (h : Exponents p c m t) :
  p.numBlocks = 2 ^ (m + 1 + t)
  := by
  rw [FALRUParams.numBlocks, h.blkSize, h.size, Nat.pow_div (by omega) (by decide)]
  congr 1
  omega

end Exponents

section

variable (hp : p.Tracks)

include hp

theorem Tracks.numTrackedCaches_pos :
  0 < p.numTrackedCaches
  := by
  obtain ⟨c, m, t, h⟩ := hp.exponents
  rw [h.numTrackedCaches]
  apply h.pos

theorem Tracks.numTrackedCaches_lt :
  p.numTrackedCaches < 32
  := by
  obtain ⟨c, m, t, h⟩ := hp.exponents
  have hlt := h.lt
  rw [h.numTrackedCaches]
  omega

/-- A tracked cache has at least two blocks. -/
theorem Tracks.two_le_trackedBlocks (i : ℕ) :
  2 ≤ p.trackedBlocks i
  := by
  obtain ⟨c, m, t, h⟩ := hp.exponents
  rw [h.trackedBlocks]
  apply Nat.le_self_pow (by omega)

/-- Each tracked cache is larger than the one before. -/
theorem Tracks.trackedBlocks_lt_iff {i j : ℕ} :
  p.trackedBlocks i < p.trackedBlocks j ↔ i < j
  := by
  obtain ⟨c, m, t, h⟩ := hp.exponents
  rw [h.trackedBlocks, h.trackedBlocks, Nat.pow_lt_pow_iff_right (by decide)]
  omega

/-- The cache after the largest tracked one would be the store. -/
theorem Tracks.trackedBlocks_numTrackedCaches :
  p.trackedBlocks p.numTrackedCaches = p.numBlocks
  := by
  obtain ⟨c, m, t, h⟩ := hp.exponents
  rw [h.trackedBlocks, h.numTrackedCaches, h.numBlocks]

theorem Tracks.trackedBlocks_lt {i : ℕ} (hi : i < p.numTrackedCaches) :
  p.trackedBlocks i < p.numBlocks
  := by
  rw [← hp.trackedBlocks_numTrackedCaches, hp.trackedBlocks_lt_iff]
  apply hi

theorem Tracks.shiftLeft_eq (i : ℕ) :
  p.minTrackedSize <<< i = p.trackedBlocks i * p.blkSize
  := by
  obtain ⟨c, m, t, h⟩ := hp.exponents
  rw [h.trackedBlocks, h.blkSize, h.minTrackedSize, Nat.shiftLeft_eq, ← pow_add, ← pow_add]
  congr 1
  omega

theorem Tracks.blkSize_pos :
  0 < p.blkSize
  := by
  obtain ⟨c, m, t, h⟩ := hp.exponents
  rw [h.blkSize]
  apply Nat.two_pow_pos

/-- The size of the next cache is the double, and fits into an unsigned integer. -/
theorem Tracks.shift_trackedBlocks {j : ℕ} (hj : j + 1 ≤ p.numTrackedCaches) :
  (p.trackedBlocks j * p.blkSize) <<< 1 % 2 ^ 32 = p.trackedBlocks (j + 1) * p.blkSize
  := by
  obtain ⟨c, m, t, h⟩ := hp.exponents
  have hlt := h.lt
  rw [h.numTrackedCaches] at hj
  rw [h.trackedBlocks, h.trackedBlocks, h.blkSize, Nat.shiftLeft_eq, ← pow_add, ← pow_add,
    ← pow_add, Nat.mod_eq_of_lt (Nat.pow_lt_pow_right (by decide) (by omega))]
  congr 1
  omega

theorem Tracks.numBlocks_mul :
  p.numBlocks * p.blkSize = p.size
  := by
  obtain ⟨c, m, t, h⟩ := hp.exponents
  rw [h.numBlocks, h.blkSize, h.size, ← pow_add]
  congr 1
  omega

end

end FALRUParams

namespace FALRU

/-! ### Bits of a mask -/

theorem getLsbD_cacheMask {i j : ℕ} (hj : j < 32) :
  (cacheMask i).getLsbD j = decide (i = j)
  := by
  rw [cacheMask, ← BitVec.twoPow_eq, BitVec.getLsbD_twoPow]
  by_cases h : i = j
  · simp [h, hj]
  · simp [h]

theorem cacheMask_and_ne_zero {i : ℕ} (hi : i < 32) (mask : CachesMask) :
  cacheMask i &&& mask ≠ 0 ↔ mask.getLsbD i = true
  := by
  have hne : BitVec.twoPow 32 i ≠ 0#32 := by
    apply ne_of_apply_ne BitVec.toNat
    rw [BitVec.toNat_twoPow_of_lt hi]
    apply (Nat.two_pow_pos i).ne'
  rw [cacheMask, ← BitVec.twoPow_eq, BitVec.and_comm, BitVec.and_twoPow]
  split_ifs with h
  · simp [h, hne]
  · simp [h]

theorem getLsbD_inAllCachesMask {p : FALRUParams} {i : ℕ} (hi : i < 32) :
  p.inAllCachesMask.getLsbD i = decide (i < p.numTrackedCaches)
  := by
  rw [FALRUParams.inAllCachesMask, BitVec.getLsbD_setWidth, getLsbD_mask]
  simp only [hi, decide_true, Bool.true_and]
  apply decide_eq_decide.mpr
  omega

/-! ### The order of the blocks -/

def next (s : FALRU) (blk : ℕ) : Option ℕ := (s.blks blk).next

def prev (s : FALRU) (blk : ℕ) : Option ℕ := (s.blks blk).prev

/-- A block has the bit of a cache. -/
def InCache (s : FALRU) (i blk : ℕ) : Prop := (s.blks blk).inCachesMask.getLsbD i = true

/-- The boundaries and masks are those of blocks in the order `l`. -/
structure Tracking (p : FALRUParams) (l : List ℕ) (s : FALRU) : Prop where
  boundary : ∀ i < p.numTrackedCaches, s.boundaries i = l[p.trackedBlocks i - 1]?
  inCache : ∀ blk ∈ l, ∀ i < 32,
    s.InCache i blk ↔ i < p.numTrackedCaches ∧ blk ∈ l.take (p.trackedBlocks i)

/-- The blocks are linked in the order `l`, and the caches are tracked. -/
structure Ordered (p : FALRUParams) (l : List ℕ) (s : FALRU) : Prop extends Tracking p l s where
  linked : Linked s.next s.prev (some s.head) (some s.tail) l
  perm : l.Perm (List.range p.numBlocks)

/-- Nothing but the order and the tracking of the blocks changes. -/
structure SameTags (s s' : FALRU) : Prop where
  entry : ∀ blk, (s'.blks blk).toTaggedEntry = (s.blks blk).toTaggedEntry
  tagHash : s'.tagHash = s.tagHash
  tagsInUse : s'.tagsInUse = s.tagsInUse
  hits : s'.hits = s.hits
  misses : s'.misses = s.misses
  accesses : s'.accesses = s.accesses

/-- The order of the blocks does not change. -/
structure SameLinks (s s' : FALRU) : Prop where
  next : s'.next = s.next
  prev : s'.prev = s.prev
  head : s'.head = s.head
  tail : s'.tail = s.tail

/-- Nothing but the order of the blocks changes. -/
structure Relinked (s s' : FALRU) : Prop extends SameTags s s' where
  inCachesMask : ∀ blk, (s'.blks blk).inCachesMask = (s.blks blk).inCachesMask
  boundaries : s'.boundaries = s.boundaries

section Same

variable {s t u : FALRU}

theorem SameTags.refl (s : FALRU) :
  SameTags s s
  := ⟨fun _ => rfl, rfl, rfl, rfl, rfl, rfl⟩

theorem SameTags.trans (h : SameTags s t) (h' : SameTags t u) :
  SameTags s u
  := ⟨fun blk => (h'.entry blk).trans (h.entry blk), h'.tagHash.trans h.tagHash,
    h'.tagsInUse.trans h.tagsInUse, h'.hits.trans h.hits, h'.misses.trans h.misses,
    h'.accesses.trans h.accesses⟩

theorem SameLinks.trans (h : SameLinks s t) (h' : SameLinks t u) :
  SameLinks s u
  := ⟨h'.next.trans h.next, h'.prev.trans h.prev, h'.head.trans h.head, h'.tail.trans h.tail⟩

theorem Relinked.trans (h : Relinked s t) (h' : Relinked t u) :
  Relinked s u
  := ⟨h.toSameTags.trans h'.toSameTags,
    fun blk => (h'.inCachesMask blk).trans (h.inCachesMask blk), h'.boundaries.trans h.boundaries⟩

/-- The tracking does not change with the links. -/
theorem Tracking.congr {p : FALRUParams} {l : List ℕ} (hs : Tracking p l s)
    (hmask : ∀ blk, (t.blks blk).inCachesMask = (s.blks blk).inCachesMask)
    (hboundaries : t.boundaries = s.boundaries) :
  Tracking p l t
  := by
  constructor
  · intro i hi
    rw [hboundaries, hs.boundary i hi]
  · intro blk hblk i hi
    rw [InCache, hmask]
    apply hs.inCache blk hblk i hi

end Same

section Edit

variable (s : FALRU) (blk : ℕ) (v : Option ℕ) (f : CachesMask → CachesMask) (i : ℕ)

theorem blks_editBlk (f : FALRUBlk → FALRUBlk) (b : ℕ) :
  (editBlk blk f s).blks b = if b = blk then f (s.blks b) else s.blks b
  := by
  split_ifs with h
  · subst h
    simp [editBlk]
  · simp [editBlk, h]

/-- What an edit of a block does not change. -/
theorem editBlk_keeps {β : Type} {f : FALRUBlk → FALRUBlk} (g : FALRUBlk → β)
    (hg : ∀ b, g (f b) = g b) (b : ℕ) :
  g ((editBlk blk f s).blks b) = g (s.blks b)
  := by
  rw [blks_editBlk]
  split_ifs
  · apply hg
  · rfl

theorem sameTags_setMask :
  SameTags s (setMask blk f s)
  := ⟨editBlk_keeps s blk FALRUBlk.toTaggedEntry fun _ => rfl, rfl, rfl, rfl, rfl, rfl⟩

theorem sameLinks_setMask :
  SameLinks s (setMask blk f s)
  := ⟨funext (editBlk_keeps s blk FALRUBlk.next fun _ => rfl),
    funext (editBlk_keeps s blk FALRUBlk.prev fun _ => rfl), rfl, rfl⟩

theorem inCachesMask_setMask (b : ℕ) :
  ((setMask blk f s).blks b).inCachesMask
    = if b = blk then f (s.blks b).inCachesMask else (s.blks b).inCachesMask
  := by
  rw [setMask, blks_editBlk]
  split_ifs
  · rfl
  · rfl

end Edit

/-! ### Updating the caches -/

/-- The caches up to number `n` have been updated for a new order `l'` of the blocks, in which the
block `x` moves. Its own mask is left alone. -/
structure Updating (p : FALRUParams) (l l' : List ℕ) (x : ℕ) (s₀ : FALRU) (n : ℕ) (s : FALRU) :
    Prop where
  tags : SameTags s₀ s
  links : SameLinks s₀ s
  boundary : ∀ i < p.numTrackedCaches,
    s.boundaries i = (if i < n then l' else l)[p.trackedBlocks i - 1]?
  inCache : ∀ blk ∈ l, blk ≠ x → ∀ i < 32, s.InCache i blk
    ↔ i < p.numTrackedCaches ∧ blk ∈ (if i < n then l' else l).take (p.trackedBlocks i)

section Loop

variable {p : FALRUParams} {l l' a b : List ℕ} {x n : ℕ} {s₀ s s' : FALRU} {v : Option ℕ}

section

variable (h : Updating p l l' x s₀ n s) (hn : n < p.numTrackedCaches)

include h hn

/-- One more cache has been updated. -/
theorem Updating.step (htags : SameTags s s') (hlinks : SameLinks s s')
    (hboundary : s'.boundaries n = l'[p.trackedBlocks n - 1]?)
    (hboundaries : ∀ i ≠ n, s'.boundaries i = s.boundaries i)
    (hin : ∀ blk ∈ l, blk ≠ x → (s'.InCache n blk ↔ blk ∈ l'.take (p.trackedBlocks n)))
    (hother : ∀ i ≠ n, i < 32 → ∀ blk, s'.InCache i blk ↔ s.InCache i blk) :
  Updating p l l' x s₀ (n + 1) s'
  := by
  have hlt {i : ℕ} (hi : i ≠ n) : i < n + 1 ↔ i < n := by omega
  refine ⟨h.tags.trans htags, h.links.trans hlinks, ?_, ?_⟩
  · intro i hi
    by_cases heq : i = n
    · rw [heq, if_pos (Nat.lt_succ_self n), hboundary]
    · simp only [hboundaries i heq, h.boundary i hi, hlt heq]
  · intro blk hblk hne i hi
    by_cases heq : i = n
    · rw [heq, if_pos (Nat.lt_succ_self n), hin blk hblk hne, and_iff_right hn]
    · simp only [hother i heq hi, h.inCache blk hblk hne i hi, hlt heq]

/-- A cache is updated by moving its boundary and changing its bit in one mask. -/
theorem Updating.edit {c : ℕ} {f : CachesMask → CachesMask} (hv : v = l'[p.trackedBlocks n - 1]?)
    (hf : ∀ mask i, i ≠ n → i < 32 → (f mask).getLsbD i = mask.getLsbD i)
    (hin : ∀ blk ∈ l, blk ≠ x →
      ((setMask c f s).InCache n blk ↔ blk ∈ l'.take (p.trackedBlocks n))) :
  Updating p l l' x s₀ (n + 1) (setBoundary n v (setMask c f s))
  := by
  obtain ⟨hentry, hhash, huse, hhits, hmisses, haccesses⟩ := sameTags_setMask s c f
  obtain ⟨hnext, hprev, hhead, htail⟩ := sameLinks_setMask s c f
  have htags : SameTags s (setBoundary n v (setMask c f s)) :=
    ⟨hentry, hhash, huse, hhits, hmisses, haccesses⟩
  have hlinks : SameLinks s (setBoundary n v (setMask c f s)) := ⟨hnext, hprev, hhead, htail⟩
  apply h.step hn htags hlinks
  · rw [hv]
    apply update_self
  · intro i hi
    apply update_of_ne hi
  · apply hin
  · intro i hi hi' blk
    change ((setMask c f s).blks blk).inCachesMask.getLsbD i = true ↔ _
    rw [inCachesMask_setMask, InCache]
    split_ifs with heq
    · rw [hf _ i hi hi']
    · rfl

/-- A cache is updated by moving its boundary at most. -/
theorem Updating.move (hv : v = l'[p.trackedBlocks n - 1]?)
    (hin : ∀ blk ∈ l, blk ≠ x → (s.InCache n blk ↔ blk ∈ l'.take (p.trackedBlocks n))) :
  Updating p l l' x s₀ (n + 1) (setBoundary n v s)
  := by
  have hsame : setMask x id s = s := by
    simp [setMask, editBlk]
  have hedit := h.edit (c := x) (f := id) hn hv (fun _ _ _ _ => rfl)
  rw [hsame] at hedit
  exact hedit hin

end

theorem setBoundary_self (s : FALRU) (i : ℕ) :
  setBoundary i (s.boundaries i) s = s
  := by
  rw [setBoundary, update_eq_self]

theorem follow_bind_apply {α : Type} {pointer : Option ℕ} {blk : ℕ} (h : pointer = some blk)
    (f : ℕ → FALRUM α) (s : FALRU) :
  (follow pointer >>= f) s = f blk s
  := by
  rw [h]
  rfl

section Moves

variable (hp : p.Tracks) (h₀ : Ordered p (a ++ x :: b) s₀)

include h₀

theorem length_eq_numBlocks :
  (a ++ x :: b).length = p.numBlocks
  := by
  rw [h₀.perm.length_eq, length_range]

include hp

/-- A cache that has not been updated yet. -/
theorem Updating.pending (h : Updating p (a ++ x :: b) l' x s₀ n s) (hn : n < p.numTrackedCaches) :
  (∃ c, s.boundaries n = some c ∧ (a ++ x :: b)[p.trackedBlocks n - 1]? = some c)
    ∧ ∀ blk ∈ a ++ x :: b, blk ≠ x →
      (s.InCache n blk ↔ blk ∈ (a ++ x :: b).take (p.trackedBlocks n))
  := by
  have hlt := hp.trackedBlocks_lt hn
  have hlen := length_eq_numBlocks h₀
  constructor
  · have hboundary := h.boundary n hn
    rw [if_neg (lt_irrefl n), getElem?_eq_getElem (by omega)] at hboundary
    refine ⟨_, hboundary, ?_⟩
    rw [getElem?_eq_getElem (by omega)]
  · intro blk hblk hne
    rw [h.inCache blk hblk hne n (hn.trans hp.numTrackedCaches_lt), if_neg (lt_irrefl n),
      and_iff_right hn]

variable {update : CachesMask}

theorem boundaryToHead_spec (hn : n < p.numTrackedCaches)
    (hupdate : update.getLsbD n = true ↔ x ∉ (a ++ x :: b).take (p.trackedBlocks n)) :
  Returns (Updating p (a ++ x :: b) (x :: (a ++ b)) x s₀ n) (boundaryToHead x update n)
    fun _ => Updating p (a ++ x :: b) (x :: (a ++ b)) x s₀ (n + 1)
  := by
  constructor
  intro s hs
  obtain ⟨⟨c, hboundary, hc⟩, hold⟩ := hs.pending hp h₀ hn
  have hnodup := h₀.linked.nodup
  have hn32 : n < 32 := hn.trans hp.numTrackedCaches_lt
  obtain ⟨k, hk⟩ : ∃ k, p.trackedBlocks n = k + 1 + 1 := by
    have htwo := hp.two_le_trackedBlocks n
    use p.trackedBlocks n - 2
    omega
  rw [mem_take_middle hnodup, not_lt] at hupdate
  rw [hk, Nat.add_sub_cancel] at hc
  rw [boundaryToHead, get_bind_apply]
  by_cases hbit : update.getLsbD n = true
  · have hle := hupdate.mp hbit
    rw [hk] at hle
    rw [if_pos ((cacheMask_and_ne_zero hn32 update).mpr hbit), follow_bind_apply hboundary,
      modify_bind_apply]
    refine ⟨(), _, rfl, ?_⟩
    apply hs.edit hn
    · change s.prev c = _
      rw [hs.links.prev, h₀.linked.prev_getElem? hc, hk, Nat.add_sub_cancel,
        getElem?_toFirst_of_le (by omega)]
    · intro mask i hi hi'
      rw [BitVec.getLsbD_and, BitVec.getLsbD_not, getLsbD_cacheMask hi', decide_eq_false hi.symm]
      simp [hi']
    · intro blk hblk hne
      rw [hk, mem_take_toFirst_of_le hle, mem_take_pred hnodup, ← hk, ← hold blk hblk hne, hc,
        InCache, inCachesMask_setMask, or_iff_right hne]
      split_ifs with heq
      · simp [heq, getLsbD_cacheMask hn32]
      · simp [InCache, Ne.symm heq]
  · have hlt : a.length < p.trackedBlocks n := by
      rw [← not_le]
      exact fun hle => hbit (hupdate.mpr hle)
    have hin (blk : ℕ) (hblk : blk ∈ a ++ x :: b) (hne : blk ≠ x) :
        s.InCache n blk ↔ blk ∈ (x :: (a ++ b)).take (p.trackedBlocks n) := by
      rw [hold blk hblk hne, mem_take_toFirst_of_lt hlt]
    rw [if_neg (mt (cacheMask_and_ne_zero hn32 update).mp hbit)]
    split_ifs with heq
    · refine ⟨(), _, rfl, ?_⟩
      apply hs.move hn _ hin
      rw [hboundary, ← hc] at heq
      have hge : ¬a.length < k + 1 := by
        rw [← mem_take_middle hnodup, mem_take_pred hnodup]
        exact fun hmem => hmem.2 heq
      change s.prev x = _
      rw [hs.links.prev, h₀.linked.prev_getElem? heq, hk, Nat.add_sub_cancel,
        getElem?_toFirst_of_le (by omega)]
    · refine ⟨(), _, rfl, ?_⟩
      rw [← setBoundary_self s n]
      apply hs.move hn _ hin
      have hne : a.length ≠ k + 1 := by
        intro hlen
        apply heq
        rw [hboundary, ← hc, ← hlen, getElem?_append_right (le_refl _), Nat.sub_self]
        rfl
      rw [hboundary, ← hc, hk, Nat.add_sub_cancel, getElem?_toFirst_of_lt (by omega)]

theorem boundaryToTail_spec (hn : n < p.numTrackedCaches)
    (hupdate : update.getLsbD n = true ↔ x ∈ (a ++ x :: b).take (p.trackedBlocks n)) :
  Returns (Updating p (a ++ x :: b) (a ++ b ++ [x]) x s₀ n) (boundaryToTail x update n)
    fun _ => Updating p (a ++ x :: b) (a ++ b ++ [x]) x s₀ (n + 1)
  := by
  constructor
  intro s hs
  obtain ⟨⟨c, hboundary, hc⟩, hold⟩ := hs.pending hp h₀ hn
  have hnodup := h₀.linked.nodup
  have hn32 : n < 32 := hn.trans hp.numTrackedCaches_lt
  obtain ⟨k, hk⟩ : ∃ k, p.trackedBlocks n = k + 1 := by
    have htwo := hp.two_le_trackedBlocks n
    use p.trackedBlocks n - 1
    omega
  have hlen : k + 1 < (a ++ x :: b).length := by
    rw [length_eq_numBlocks h₀, ← hk]
    apply hp.trackedBlocks_lt hn
  have hlen' : k + 1 ≤ (a ++ b).length := by
    rw [List.length_append, length_cons] at hlen
    rw [List.length_append]
    omega
  rw [mem_take_middle hnodup] at hupdate
  rw [hk, Nat.add_sub_cancel] at hc
  rw [boundaryToTail, get_bind_apply]
  by_cases hbit : update.getLsbD n = true
  · have hlt := hupdate.mp hbit
    rw [hk] at hlt
    obtain ⟨d, hd⟩ : ∃ d, (a ++ x :: b)[k + 1]? = some d := ⟨_, getElem?_eq_getElem hlen⟩
    have hnext : (s.blks c).next = some d := by
      change s.next c = _
      rw [hs.links.next, h₀.linked.next_getElem? hc, hd]
    have hdx : d ≠ x := by
      rintro rfl
      have hmem := (mem_take_middle hnodup).mpr hlt
      rw [mem_take_pred hnodup] at hmem
      exact hmem.2 hd
    rw [if_pos ((cacheMask_and_ne_zero hn32 update).mpr hbit), follow_bind_apply hboundary]
    rw [hnext, if_neg fun heq => hdx (Option.some.inj heq), modify_bind_apply,
      follow_bind_apply rfl]
    refine ⟨(), _, rfl, ?_⟩
    refine hs.edit (v := some d) (c := d) (f := (· ||| cacheMask n)) hn ?_ ?_ ?_
    · rw [hk, Nat.add_sub_cancel, getElem?_toLast_of_le (by omega) (by omega), hd]
    · intro mask i hi hi'
      rw [BitVec.getLsbD_or, getLsbD_cacheMask hi', decide_eq_false hi.symm, Bool.or_false]
    · intro blk hblk hne
      rw [hk, mem_take_toLast_of_lt hlt hlen' hne, mem_take_succ, hd, ← hk, ← hold blk hblk hne,
        InCache, inCachesMask_setMask]
      split_ifs with heq
      · simp [heq, getLsbD_cacheMask hn32]
      · simp [InCache, Ne.symm heq]
  · have hle : k + 1 ≤ a.length := by
      rw [← not_lt, ← hk]
      exact fun hlt => hbit (hupdate.mpr hlt)
    rw [if_neg (mt (cacheMask_and_ne_zero hn32 update).mp hbit)]
    refine ⟨(), _, rfl, ?_⟩
    rw [← setBoundary_self s n]
    apply hs.move hn
    · rw [hboundary, ← hc, hk, Nat.add_sub_cancel, getElem?_toLast_of_lt (by omega)]
    · intro blk hblk hne
      rw [hold blk hblk hne, hk, take_toLast_of_le hle]

omit hp in
theorem updating_zero (l' : List ℕ) :
  Updating p (a ++ x :: b) l' x s₀ 0 s₀
  := by
  refine ⟨SameTags.refl s₀, ⟨rfl, rfl, rfl, rfl⟩, ?_, ?_⟩
  · intro i hi
    rw [if_neg (Nat.not_lt_zero i), h₀.boundary i hi]
  · intro blk hblk _ i hi
    rw [if_neg (Nat.not_lt_zero i), h₀.inCache blk hblk i hi]

omit h₀ hp in
/-- All caches have been updated, and the mask of the block that moves is written. -/
theorem Updating.finish (mask : CachesMask) (h : Updating p l l' x s₀ p.numTrackedCaches s)
    (hl : ∀ blk, blk ∈ l' → blk ∈ l)
    (hmask : ∀ i < 32, mask.getLsbD i = true
      ↔ i < p.numTrackedCaches ∧ x ∈ l'.take (p.trackedBlocks i)) :
  SameTags s₀ (setMask x (fun _ => mask) s) ∧ SameLinks s₀ (setMask x (fun _ => mask) s)
    ∧ Tracking p l' (setMask x (fun _ => mask) s)
  := by
  refine ⟨h.tags.trans (sameTags_setMask ..), h.links.trans (sameLinks_setMask ..), ?_, ?_⟩
  · intro i hi
    have hboundary := h.boundary i hi
    rw [if_pos hi] at hboundary
    apply hboundary
  · intro blk hblk i hi
    rw [InCache, inCachesMask_setMask]
    split_ifs with heq
    · rw [heq, hmask i hi]
    · have hin := h.inCache blk (hl blk hblk) heq i hi
      rw [InCache] at hin
      rw [hin]
      apply and_congr_right
      intro hlt
      rw [if_pos hlt]

theorem moveBlockToHead_spec :
  ∃ s, moveBlockToHead p x s₀ = .ok () s ∧ SameTags s₀ s ∧ SameLinks s₀ s
    ∧ Tracking p (x :: (a ++ b)) s
  := by
  have hx : x ∈ a ++ x :: b := mem_append_right _ (mem_cons_self ..)
  have hloop := Returns.forM_range
    (I := Updating p (a ++ x :: b) (x :: (a ++ b)) x s₀)
    (f := boundaryToHead x (p.inAllCachesMask ^^^ (s₀.blks x).inCachesMask)) (by
      intro n hn
      have hn32 : n < 32 := hn.trans hp.numTrackedCaches_lt
      apply boundaryToHead_spec hp h₀ hn
      have hin := h₀.inCache x hx n hn32
      rw [and_iff_right hn, InCache] at hin
      rw [BitVec.getLsbD_xor, getLsbD_inAllCachesMask hn32, decide_eq_true hn, ← hin]
      simp)
  obtain ⟨_, s, hs, hupdated⟩ := hloop.returns s₀ (updating_zero h₀ _)
  refine ⟨_, ?_, hupdated.finish p.inAllCachesMask ?_ ?_⟩
  · rw [moveBlockToHead, get_bind_apply, bind_apply, hs]
    rfl
  · intro blk hblk
    apply perm_middle.mem_iff.mpr hblk
  · intro i hi
    rw [getLsbD_inAllCachesMask hi, decide_eq_true_iff, iff_self_and]
    intro _
    obtain ⟨k, hk⟩ := Nat.exists_eq_add_of_le' (hp.two_le_trackedBlocks i)
    rw [hk]
    apply mem_cons_self ..

theorem moveBlockToTail_spec :
  ∃ s, moveBlockToTail p x s₀ = .ok () s ∧ SameTags s₀ s ∧ SameLinks s₀ s
    ∧ Tracking p (a ++ b ++ [x]) s
  := by
  have hx : x ∈ a ++ x :: b := mem_append_right _ (mem_cons_self ..)
  have hloop := Returns.forM_range
    (I := Updating p (a ++ x :: b) (a ++ b ++ [x]) x s₀)
    (by
      intro n hn
      apply boundaryToTail_spec hp h₀ hn
      have hin := h₀.inCache x hx n (hn.trans hp.numTrackedCaches_lt)
      rw [and_iff_right hn, InCache] at hin
      apply hin)
  obtain ⟨_, s, hs, hupdated⟩ := hloop.returns s₀ (updating_zero h₀ _)
  refine ⟨_, ?_, hupdated.finish 0#32 ?_ ?_⟩
  · rw [moveBlockToTail, get_bind_apply, bind_apply, hs]
    rfl
  · intro blk hblk
    apply (perm_append_singleton ..).trans perm_middle.symm |>.mem_iff.mp hblk
  · intro i hi
    have hnot (hi' : i < p.numTrackedCaches) : x ∉ (a ++ b ++ [x]).take (p.trackedBlocks i) := by
      have hlt := hp.trackedBlocks_lt hi'
      have hlen := length_eq_numBlocks h₀
      rw [List.length_append, length_cons] at hlen
      rw [take_append_of_le_length (by rw [List.length_append]; omega)]
      intro hmem
      have hnodup := (nodup_cons.mp (nodup_middle.mp h₀.linked.nodup)).1
      apply hnodup (mem_of_mem_take hmem)
    rw [BitVec.getLsbD_zero, iff_false_left Bool.false_ne_true, not_and]
    apply hnot

end Moves

end Loop

/-! ### Moving a block -/

section Links

variable (s : FALRU) (blk : ℕ) (v : Option ℕ)

theorem relinked_editBlk {f : FALRUBlk → FALRUBlk}
    (hentry : ∀ b, (f b).toTaggedEntry = b.toTaggedEntry)
    (hmask : ∀ b, (f b).inCachesMask = b.inCachesMask) :
  Relinked s (editBlk blk f s)
  := ⟨⟨editBlk_keeps s blk _ hentry, rfl, rfl, rfl, rfl, rfl⟩, editBlk_keeps s blk _ hmask, rfl⟩

theorem next_setNext :
  (setNext blk v s).next = Function.update s.next blk v
  := by
  funext b
  rw [FALRU.next, setNext, blks_editBlk, update_apply, FALRU.next]
  split_ifs with h
  · rfl
  · rfl

theorem prev_setNext :
  (setNext blk v s).prev = s.prev
  := funext (editBlk_keeps s blk FALRUBlk.prev fun _ => rfl)

theorem relinked_setNext :
  Relinked s (setNext blk v s)
  := relinked_editBlk s blk (fun _ => rfl) (fun _ => rfl)

theorem next_setPrev :
  (setPrev blk v s).next = s.next
  := funext (editBlk_keeps s blk FALRUBlk.next fun _ => rfl)

theorem prev_setPrev :
  (setPrev blk v s).prev = Function.update s.prev blk v
  := by
  funext b
  rw [FALRU.prev, setPrev, blks_editBlk, update_apply, FALRU.prev]
  split_ifs with h
  · rfl
  · rfl

theorem relinked_setPrev :
  Relinked s (setPrev blk v s)
  := relinked_editBlk s blk (fun _ => rfl) (fun _ => rfl)

theorem relinked_head :
  Relinked s { s with head := blk }
  := ⟨⟨fun _ => rfl, rfl, rfl, rfl, rfl, rfl⟩, fun _ => rfl, rfl⟩

theorem relinked_tail :
  Relinked s { s with tail := blk }
  := ⟨⟨fun _ => rfl, rfl, rfl, rfl, rfl, rfl⟩, fun _ => rfl, rfl⟩

end Links

/-- The blocks of a store are linked in the order `l`. -/
def LinkedAs (l : List ℕ) (s : FALRU) : Prop :=
  Linked s.next s.prev (some s.head) (some s.tail) l

section Move

variable {s : FALRU} {a b l : List ℕ} {x : ℕ}

/-- A block between two others is taken out. -/
theorem linkNeighbours_spec {k z : ℕ} (h : LinkedAs (a ++ k :: x :: z :: b) s) :
  ∃ s', linkNeighbours x s = .ok () s' ∧ LinkedAs (a ++ k :: z :: b) s' ∧ Relinked s s'
  := by
  have hsplit : LinkedAs (a ++ [k] ++ x :: z :: b) s := by
    rw [append_assoc]
    apply h
  have hprev : (s.blks x).prev = some k := by
    apply hsplit.prev_eq.trans (getLast?_concat ..)
  have hnext : (s.blks x).next = some z := hsplit.next_eq
  have hne : x ≠ k := by
    rintro rfl
    apply (notMem_of_nodup h.nodup).2 (mem_cons_self ..)
  have hnext' : ((setNext k (some z) s).blks x).next = some z := by
    change (setNext k (some z) s).next x = some z
    rw [next_setNext, update_of_ne hne]
    apply hnext
  have hprev' : ((setNext k (some z) s).blks x).prev = some k := by
    change (setNext k (some z) s).prev x = some k
    rw [prev_setNext]
    apply hprev
  refine ⟨setPrev z (some k) (setNext k (some z) s), ?_, ?_,
    (relinked_setNext ..).trans (relinked_setPrev ..)⟩
  · rw [linkNeighbours, get_bind_apply, follow_bind_apply hprev, modify_bind_apply,
      get_bind_apply, hnext, follow_bind_apply hnext', hprev']
    rfl
  · rw [LinkedAs, next_setPrev, next_setNext, prev_setPrev, prev_setNext]
    apply h.unlinkMiddle

/-- A block with one after it is not the last. -/
theorem ne_tail {z : ℕ} (h : LinkedAs (a ++ x :: z :: b) s) :
  x ≠ s.tail
  := by
  intro heq
  have hlast := h.last_eq
  rw [← heq, getLast?_append_cons, getLast?_cons_cons] at hlast
  apply (notMem_of_nodup h.nodup).2 (mem_of_getLast? hlast.symm)

/-- A block with one before it is not the first. -/
theorem ne_head {k : ℕ} (h : LinkedAs (a ++ k :: x :: b) s) :
  x ≠ s.head
  := by
  intro heq
  have hfirst := h.first_eq
  have hnodup := h.nodup
  rw [List.append_cons] at hfirst hnodup
  rw [← heq, head?_append_of_ne_nil _ (concat_ne_nil _ _)] at hfirst
  apply (notMem_of_nodup hnodup).1 (mem_of_mem_head? hfirst.symm)

/-- The neighbours of a block that is not the first are linked. -/
theorem unlinkForHead_spec (h : LinkedAs (a ++ x :: b) s) (ha : a ≠ []) :
  ∃ s', unlinkForHead x s = .ok () s' ∧ LinkedAs (a ++ b) s' ∧ Relinked s s'
  := by
  obtain ⟨a, k, rfl⟩ := a.eq_nil_or_concat'.resolve_left ha
  have hprev : (s.blks x).prev = some k := by
    apply h.prev_eq.trans (getLast?_concat ..)
  have hnext : (s.blks x).next = b.head? := h.next_eq
  rw [unlinkForHead, get_bind_apply]
  cases b with
  | nil =>
    have htail : x = s.tail := by
      apply Option.some.inj
      rw [h.last_eq, getLast?_concat]
    rw [if_pos htail, hnext, hprev]
    refine ⟨_, rfl, ?_, (relinked_tail ..).trans (relinked_setNext ..)⟩
    rw [append_assoc] at h
    rw [LinkedAs, next_setNext, prev_setNext, append_nil]
    apply h.unlinkLast
  | cons z b =>
    rw [if_neg (ne_tail h)]
    rw [append_assoc] at h ⊢
    apply linkNeighbours_spec h

/-- The neighbours of a block that is not the last are linked. -/
theorem unlinkForTail_spec (h : LinkedAs (a ++ x :: b) s) (hb : b ≠ []) :
  ∃ s', unlinkForTail x s = .ok () s' ∧ LinkedAs (a ++ b) s' ∧ Relinked s s'
  := by
  obtain ⟨z, b, rfl⟩ := exists_cons_of_ne_nil hb
  have hnext : (s.blks x).next = some z := h.next_eq
  have hprev : (s.blks x).prev = a.getLast? := h.prev_eq
  rw [unlinkForTail, get_bind_apply]
  rcases a.eq_nil_or_concat' with rfl | ⟨a, k, rfl⟩
  · have hhead : x = s.head := by
      apply Option.some.inj
      rw [h.first_eq]
      rfl
    rw [if_pos hhead, hnext, hprev]
    refine ⟨_, rfl, ?_, (relinked_head ..).trans (relinked_setPrev ..)⟩
    rw [LinkedAs, next_setPrev, prev_setPrev]
    apply h.unlinkFirst
  · rw [append_assoc] at h ⊢
    rw [if_neg (ne_head h)]
    apply linkNeighbours_spec h

theorem pushHead_spec (h : LinkedAs l s) (hx : x ∉ l) :
  LinkedAs (x :: l) { setPrev s.head (some x) (setPrev x none (setNext x (some s.head) s)) with
      head := x }
    ∧ Relinked s { setPrev s.head (some x) (setPrev x none (setNext x (some s.head) s)) with
      head := x }
  := by
  constructor
  · have hpush := h.pushFirst h.first_eq.symm hx
    rw [← next_setNext, ← next_setPrev _ x none, ← next_setPrev _ s.head (some x),
      ← prev_setNext s x (some s.head), ← prev_setPrev, ← prev_setPrev] at hpush
    apply hpush
  · apply Relinked.trans _ (relinked_head ..)
    apply Relinked.trans _ (relinked_setPrev ..)
    apply Relinked.trans _ (relinked_setPrev ..)
    apply relinked_setNext

theorem pushTail_spec (h : LinkedAs l s) (hx : x ∉ l) :
  LinkedAs (l ++ [x]) { setNext s.tail (some x) (setNext x none (setPrev x (some s.tail) s)) with
      tail := x }
    ∧ Relinked s { setNext s.tail (some x) (setNext x none (setPrev x (some s.tail) s)) with
      tail := x }
  := by
  constructor
  · have hpush := h.pushLast h.last_eq.symm hx
    rw [← prev_setPrev, ← prev_setNext _ x none, ← prev_setNext _ s.tail (some x),
      ← next_setPrev s x (some s.tail), ← next_setNext, ← next_setNext] at hpush
    apply hpush
  · apply Relinked.trans _ (relinked_tail ..)
    apply Relinked.trans _ (relinked_setNext ..)
    apply Relinked.trans _ (relinked_setNext ..)
    apply relinked_setPrev

theorem SameLinks.linkedAs {s' : FALRU} (h : SameLinks s s') (hs : LinkedAs l s) :
  LinkedAs l s'
  := by
  rw [LinkedAs, h.next, h.prev, h.head, h.tail]
  apply hs

variable {p : FALRUParams} (hp : p.Tracks)

include hp

/-- A block is moved to the head. -/
theorem moveToHead_spec (h : Ordered p (a ++ x :: b) s) :
  ∃ s', moveToHead p x s = .ok () s' ∧ Ordered p (x :: (a ++ b)) s' ∧ SameTags s s'
  := by
  have hlinked := h.linked
  rw [moveToHead, get_bind_apply]
  rcases a.eq_nil_or_concat' with rfl | ⟨a', k, ha⟩
  · have hhead : x = s.head := by
      apply Option.some.inj
      rw [hlinked.first_eq]
      rfl
    rw [if_neg (not_not_intro hhead)]
    exact ⟨s, rfl, h, SameTags.refl s⟩
  · have hhead : x ≠ s.head := by
      rw [ha, append_assoc] at hlinked
      apply ne_head hlinked
    have ha' : a ≠ [] := by
      rw [ha]
      apply concat_ne_nil
    have hx : x ∉ a ++ b := by
      rw [mem_append, not_or]
      apply notMem_of_nodup hlinked.nodup
    obtain ⟨s₁, hs₁, htags₁, hlinks₁, htracking₁⟩ := moveBlockToHead_spec hp h
    obtain ⟨s₂, hs₂, hlinked₂, hrelinked₂⟩ := unlinkForHead_spec (hlinks₁.linkedAs hlinked) ha'
    obtain ⟨hlinked₃, hrelinked₃⟩ := pushHead_spec hlinked₂ hx
    have hrelinked := hrelinked₂.trans hrelinked₃
    refine ⟨_, ?_, ⟨htracking₁.congr hrelinked.inCachesMask hrelinked.boundaries, hlinked₃,
      perm_middle.symm.trans h.perm⟩, htags₁.trans hrelinked.toSameTags⟩
    rw [if_pos hhead, bind_apply, hs₁]
    dsimp only
    rw [bind_apply, hs₂]
    rfl

/-- A block is moved to the tail. -/
theorem moveToTail_spec (h : Ordered p (a ++ x :: b) s) :
  ∃ s', moveToTail p x s = .ok () s' ∧ Ordered p (a ++ b ++ [x]) s' ∧ SameTags s s'
  := by
  have hlinked := h.linked
  rw [moveToTail, get_bind_apply]
  rcases b with _ | ⟨z, b'⟩
  · have htail : x = s.tail := by
      apply Option.some.inj
      rw [hlinked.last_eq, getLast?_concat]
    rw [if_neg (not_not_intro htail), append_nil]
    exact ⟨s, rfl, h, SameTags.refl s⟩
  · have hx : x ∉ a ++ z :: b' := by
      rw [mem_append, not_or]
      apply notMem_of_nodup hlinked.nodup
    have hperm := ((perm_append_singleton ..).trans perm_middle.symm).trans h.perm
    obtain ⟨s₁, hs₁, htags₁, hlinks₁, htracking₁⟩ := moveBlockToTail_spec hp h
    obtain ⟨s₂, hs₂, hlinked₂, hrelinked₂⟩ :=
      unlinkForTail_spec (hlinks₁.linkedAs hlinked) (cons_ne_nil z b')
    obtain ⟨hlinked₃, hrelinked₃⟩ := pushTail_spec hlinked₂ hx
    have hrelinked := hrelinked₂.trans hrelinked₃
    refine ⟨_, ?_, ⟨htracking₁.congr hrelinked.inCachesMask hrelinked.boundaries, hlinked₃, hperm⟩,
      htags₁.trans hrelinked.toSameTags⟩
    rw [if_pos (ne_tail hlinked), bind_apply, hs₁]
    dsimp only
    rw [bind_apply, hs₂]
    rfl

end Move

end FALRU

end Gem5Arc
