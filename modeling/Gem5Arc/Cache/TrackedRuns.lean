import Gem5Arc.Cache.Tracking
import Gem5Arc.Lib.Run

/-!
# A fully associative store tracks smaller caches

If the sizes are powers of two, and the smallest tracked cache has at least two blocks and is
smaller than the store, then after `tagsInit` and any sequence of calls the list of blocks has all
of them, the boundary of a tracked cache is at its place on the list, and a block has the bit of a
cache exactly if it comes before this place or is there (`tracking_exact`).

This does not depend on whether the blocks can extract tags. As `tagsInit` does not register a
function for this, `insertBlock` stops the simulator, but after its assertion and before it moves
the block.
-/

namespace Gem5Arc

open FALRU FALRUM Function Lib List

namespace FALRU

/-! ### Initializing the store -/

section Init

variable {p : FALRUParams} {s₀ s : FALRU} {q j : ℕ}

/-- The first `j` caches are those with at most `q` blocks. -/
structure Passed (p : FALRUParams) (q j : ℕ) : Prop where
  le : j ≤ p.numTrackedCaches
  small : ∀ i < j, p.trackedBlocks i ≤ q
  large : ∀ i, j ≤ i → i < p.numTrackedCaches → q < p.trackedBlocks i

/-- The first `q` blocks, and with them the boundaries of `j` caches, have been initialized. -/
structure Initializing (p : FALRUParams) (s₀ : FALRU) (q j : ℕ) (s : FALRU) : Prop where
  tags : SameTags s₀ s
  links : SameLinks s₀ s
  boundary : ∀ i < j, s.boundaries i = some (p.trackedBlocks i - 1)
  inCache : ∀ blk < q, ∀ i < 32,
    s.InCache i blk ↔ i < p.numTrackedCaches ∧ blk < p.trackedBlocks i

variable {mask : CachesMask}

/-- One more block has been initialized. -/
theorem Initializing.setMask (h : Initializing p s₀ q j s) (hj : Passed p q j)
    (hmask : ∀ i < 32, mask.getLsbD i = true ↔ j ≤ i ∧ i < p.numTrackedCaches) :
  Initializing p s₀ (q + 1) j (setMask q (fun _ => mask) s)
  := by
  refine ⟨h.tags.trans (sameTags_setMask ..), h.links.trans (sameLinks_setMask ..), h.boundary, ?_⟩
  intro blk hblk i hi
  rw [InCache, inCachesMask_setMask]
  split_ifs with heq
  · rw [hmask i hi, heq, and_comm]
    apply and_congr_right
    intro hi'
    constructor
    · intro hji
      apply hj.large i hji hi'
    · intro hlt
      by_contra hji
      have hle := hj.small i (by omega)
      omega
  · apply h.inCache blk (by omega) i hi

theorem Initializing.setBoundary (h : Initializing p s₀ (q + 1) j s)
    (hq : q + 1 = p.trackedBlocks j) :
  Initializing p s₀ (q + 1) (j + 1) (setBoundary j (some q) s)
  := by
  obtain ⟨hentry, hhash, huse, hhits, hmisses, haccesses⟩ := h.tags
  obtain ⟨hnext, hprev, hhead, htail⟩ := h.links
  refine ⟨⟨hentry, hhash, huse, hhits, hmisses, haccesses⟩, ⟨hnext, hprev, hhead, htail⟩, ?_,
    h.inCache⟩
  intro i hi
  change update s.boundaries j (some q) i = _
  rw [update_apply]
  split_ifs with heq
  · rw [heq, ← hq, Nat.add_sub_cancel]
  · apply h.boundary i (by omega)

/-- Blocks that are linked in the order of their numbers. -/
theorem linked_range {next prev : ℕ → Option ℕ} {n : ℕ} (hn : 0 < n)
    (hnext : ∀ b < n, next b = if b + 1 < n then some (b + 1) else none)
    (hprev : ∀ b < n, prev b = if b = 0 then none else some (b - 1)) :
  Linked next prev (some 0) (some (n - 1)) (range n)
  := by
  have hforward (m q : ℕ) (hm : q + m = n) :
      Seg next (if q < n then some q else none) (range' q m) none := by
    induction m generalizing q with
    | zero =>
      rw [if_neg (by omega)]
      rfl
    | succ m ih =>
      refine ⟨if_pos (by omega), ?_⟩
      rw [hnext q (by omega)]
      apply ih (q + 1) (by omega)
  have hbackward (q : ℕ) (hq : q ≤ n) :
      Seg prev (if q = 0 then none else some (q - 1)) (range q).reverse none := by
    induction q with
    | zero => rfl
    | succ q ih =>
      rw [range_succ, reverse_append]
      refine ⟨if_neg (Nat.succ_ne_zero q), ?_⟩
      rw [hprev q (by omega)]
      apply ih (by omega)
  constructor
  · have h := hforward n 0 (Nat.zero_add n)
    rw [if_pos hn, ← range_eq_range'] at h
    apply h
  · have h := hbackward n (le_refl n)
    rw [if_neg hn.ne'] at h
    apply h

/-- A block gets its neighbours. -/
theorem setLinks_spec (blk : ℕ) (prev next : Option ℕ) (s : FALRU) :
  ∃ s', setLinks blk prev next s = .ok () s' ∧ Relinked s s'
    ∧ s'.next = update s.next blk next ∧ s'.prev = update s.prev blk prev
    ∧ s'.head = s.head ∧ s'.tail = s.tail
  := by
  refine ⟨_, rfl, relinked_editBlk s blk (fun _ => rfl) (fun _ => rfl), ?_, ?_, rfl, rfl⟩
  · funext b
    rw [FALRU.next, blks_editBlk, update_apply, FALRU.next]
    split_ifs with h
    · rfl
    · rfl
  · funext b
    rw [FALRU.prev, blks_editBlk, update_apply, FALRU.prev]
    split_ifs with h
    · rfl
    · rfl

/-- The blocks up to number `m` have been linked. -/
structure Linking (s₀ : FALRU) (m : ℕ) (s : FALRU) : Prop where
  relinked : Relinked s₀ s
  next : ∀ b, s.next b = if b ≤ m then some (b + 1) else s₀.next b
  prev : ∀ b, s.prev b = if b = 0 then none else if b ≤ m then some (b - 1) else s₀.prev b
  head : s.head = 0

/-- The loop of `tagsInit`. -/
theorem setLinks_loop (m : ℕ) (h : Linking s₀ 0 s) :
  ∃ s', ForM.forM (range' 1 m) (fun i => setLinks i (some (i - 1)) (some (i + 1))) s
      = .ok () s' ∧ Linking s₀ m s'
  := by
  induction m with
  | zero => exact ⟨s, rfl, h⟩
  | succ m ih =>
    obtain ⟨s₁, hs₁, h₁⟩ := ih
    obtain ⟨s₂, hs₂, hrelinked, hnext, hprev, hhead, -⟩ :=
      setLinks_spec (1 + m) (some (1 + m - 1)) (some (1 + m + 1)) s₁
    refine ⟨s₂, ?_, h₁.relinked.trans hrelinked, ?_, ?_, hhead.trans h₁.head⟩
    · rw [range'_1_concat, forM_append, bind_apply, hs₁, forM_cons, forM_nil]
      dsimp only
      rw [bind_apply, hs₂]
      rfl
    · intro b
      rw [hnext, update_apply, h₁.next]
      split_ifs
      all_goals first | rfl | omega | (congr 1; omega)
    · intro b
      rw [hprev, update_apply, h₁.prev]
      split_ifs
      all_goals first | rfl | omega | (congr 1; omega)

variable (hp : p.Tracks)

include hp

/-- The block after `q` others is the last one of a cache. -/
theorem Passed.boundary (h : Passed p q j) (hq : q + 1 = p.trackedBlocks j)
    (hlt : q + 1 < p.numBlocks) :
  Passed p (q + 1) (j + 1)
  := by
  rw [hq, ← hp.trackedBlocks_numTrackedCaches, hp.trackedBlocks_lt_iff] at hlt
  refine ⟨hlt, ?_, ?_⟩
  · intro i hi
    rcases Nat.lt_succ_iff_lt_or_eq.mp hi with hi' | rfl
    · have hle := h.small i hi'
      omega
    · apply hq.ge
  · intro i hi _
    rw [hq, hp.trackedBlocks_lt_iff]
    apply hi

/-- The block after `q` others is not the last one of a cache. -/
theorem Passed.skip (h : Passed p q j) (hq : ¬(q + 1 = p.trackedBlocks j ∧ q + 1 ≠ p.numBlocks)) :
  Passed p (q + 1) j
  := by
  refine ⟨h.le, ?_, ?_⟩
  · intro i hi
    have hle := h.small i hi
    omega
  · intro i hi hi'
    have hlt := h.large i hi hi'
    have hlt' := hp.trackedBlocks_lt hi'
    have hne : q + 1 ≠ p.trackedBlocks i := by
      intro heq
      rcases Nat.eq_or_lt_of_le hi with rfl | hji
      · exact hq ⟨heq, by omega⟩
      · have hj := h.large j (le_refl j) (by omega)
        rw [← hp.trackedBlocks_lt_iff] at hji
        omega
    omega

theorem initLoop_spec {m : ℕ} (hm : q + m = p.numBlocks) (htail : s₀.tail + 1 = p.numBlocks)
    (hnext : ∀ b < p.numBlocks, s₀.next b = if b + 1 < p.numBlocks then some (b + 1) else none)
    (hj : Passed p q j) (hmask : ∀ i < 32, mask.getLsbD i = true ↔ j ≤ i ∧ i < p.numTrackedCaches)
    (h : Initializing p s₀ q j s) :
  ∃ s', initLoop p m (if q < p.numBlocks then some q else none) (q * p.blkSize)
      (p.trackedBlocks j * p.blkSize) mask j s = .ok () s'
    ∧ Initializing p s₀ p.numBlocks p.numTrackedCaches s'
  := by
  induction m generalizing q j mask s with
  | zero =>
    have hend : j = p.numTrackedCaches := by
      by_contra hne
      have hlt := lt_of_le_of_ne hj.le hne
      have hlarge := hj.large j (le_refl j) hlt
      have hlt' := hp.trackedBlocks_lt hlt
      omega
    rw [if_neg (by omega)]
    refine ⟨s, rfl, ?_⟩
    rw [← hm, ← hend]
    apply h
  | succ m ih =>
    have hlt : q < p.numBlocks := by omega
    have hsize : (q + 1) * p.blkSize ≤ p.size := by
      rw [← hp.numBlocks_mul]
      apply Nat.mul_le_mul_right _ hlt
    have hmod : (q * p.blkSize + p.blkSize) % 2 ^ 32 = (q + 1) * p.blkSize := by
      rw [← Nat.succ_mul]
      apply Nat.mod_eq_of_lt (lt_of_le_of_lt hsize p.size_lt)
    have h' := h.setMask hj hmask
    have hnext' : ((setMask q (fun _ => mask) s).blks q).next
        = if q + 1 < p.numBlocks then some (q + 1) else none := by
      change (setMask q (fun _ => mask) s).next q = _
      rw [h'.links.next, hnext q hlt]
    have hcond : (q + 1) * p.blkSize = p.trackedBlocks j * p.blkSize
        ∧ q ≠ (setMask q (fun _ => mask) s).tail
          ↔ q + 1 = p.trackedBlocks j ∧ q + 1 ≠ p.numBlocks := by
      rw [Nat.mul_left_inj hp.blkSize_pos.ne', h'.links.tail]
      apply and_congr_right
      intro _
      omega
    rw [if_pos hlt, initLoop, modify_bind_apply, get_bind_apply, hmod, hnext']
    by_cases hb : q + 1 = p.trackedBlocks j ∧ q + 1 ≠ p.numBlocks
    · have hj' := hj.boundary hp hb.1 (by omega)
      rw [if_pos (hcond.mpr hb), modify_bind_apply, hp.shift_trackedBlocks hj'.le]
      apply ih (by omega) hj' _ (h'.setBoundary hb.1)
      intro i hi
      rw [BitVec.getLsbD_and, BitVec.getLsbD_not, getLsbD_cacheMask hi, Bool.and_eq_true,
        hmask i hi]
      simp [hi]
      omega
    · rw [if_neg (mt hcond.mp hb)]
      apply ih (by omega) (hj.skip hp hb) hmask h'

/-- The blocks are initialized in the order of their numbers. -/
theorem init_spec (hlinked : LinkedAs (range p.numBlocks) s)
    (hnext : ∀ b < p.numBlocks, s.next b = if b + 1 < p.numBlocks then some (b + 1) else none)
    (hhead : s.head = 0) (htail : s.tail + 1 = p.numBlocks) :
  ∃ s', init p s = .ok () s' ∧ Ordered p (range p.numBlocks) s' ∧ SameTags s s'
  := by
  have hpos : 0 < p.numBlocks := by omega
  have hpassed : Passed p 0 0 := by
    refine ⟨Nat.zero_le _, fun i hi => absurd hi (Nat.not_lt_zero i), ?_⟩
    intro i _ _
    have htwo := hp.two_le_trackedBlocks i
    omega
  have hmask (i : ℕ) (hi : i < 32) :
      p.inAllCachesMask.getLsbD i = true ↔ 0 ≤ i ∧ i < p.numTrackedCaches := by
    rw [getLsbD_inAllCachesMask hi, decide_eq_true_iff, and_iff_right (Nat.zero_le i)]
  have hstart : Initializing p s 0 0 s :=
    ⟨SameTags.refl s, ⟨rfl, rfl, rfl, rfl⟩, fun i hi => absurd hi (Nat.not_lt_zero i),
      fun b hb => absurd hb (Nat.not_lt_zero b)⟩
  obtain ⟨s', hs', hinit⟩ :=
    initLoop_spec hp (Nat.zero_add _) htail hnext hpassed hmask hstart
  rw [if_pos hpos, Nat.zero_mul, ← hp.shiftLeft_eq, Nat.shiftLeft_zero] at hs'
  refine ⟨s', ?_, ⟨⟨?_, ?_⟩, hinit.links.linkedAs hlinked, List.Perm.refl _⟩, hinit.tags⟩
  · rw [init, get_bind_apply, if_pos hp.numTrackedCaches_pos.ne', hhead]
    apply hs'
  · intro i hi
    have hlt := hp.trackedBlocks_lt hi
    rw [hinit.boundary i hi, getElem?_range (by omega)]
  · intro blk hblk i hi
    rw [mem_range] at hblk
    rw [hinit.inCache blk hblk i hi, take_range, mem_range, lt_min_iff, and_iff_left hblk]

theorem tagsInit_spec :
  ∃ s, tagsInit p {} = .ok () s ∧ Ordered p (range p.numBlocks) s
    ∧ SameTags {} s
  := by
  have htwo := hp.two_le_trackedBlocks 0
  have hlt := hp.trackedBlocks_lt hp.numTrackedCaches_pos
  obtain ⟨s₁, hs₁, hrelinked₁, hnext₁, hprev₁, hhead₁, -⟩ := setLinks_spec 0 none (some 1) {}
  have hlinking₁ : Linking {} 0 s₁ := by
    refine ⟨hrelinked₁, ?_, ?_, hhead₁⟩
    · intro b
      rw [hnext₁, update_apply]
      split_ifs
      all_goals first | rfl | omega | (congr 1; omega)
    · intro b
      rw [hprev₁, update_apply]
      split_ifs
      all_goals first | rfl | omega
  obtain ⟨s₂, hs₂, hlinking₂⟩ := setLinks_loop (p.numBlocks - 2) hlinking₁
  obtain ⟨s₄, hs₄, hrelinked₄, hnext₄, hprev₄, hhead₄, htail₄⟩ :=
    setLinks_spec (p.numBlocks - 1) (some (p.numBlocks - 2)) none
      { s₂ with tail := p.numBlocks - 1 }
  have hnext : ∀ b < p.numBlocks,
      s₄.next b = if b + 1 < p.numBlocks then some (b + 1) else none := by
    intro b hb
    rw [hnext₄, update_apply]
    change (if b = p.numBlocks - 1 then none else s₂.next b) = _
    rw [hlinking₂.next]
    split_ifs
    all_goals first | rfl | omega
  have hprev : ∀ b < p.numBlocks, s₄.prev b = if b = 0 then none else some (b - 1) := by
    intro b hb
    rw [hprev₄, update_apply]
    change (if b = p.numBlocks - 1 then some (p.numBlocks - 2) else s₂.prev b) = _
    rw [hlinking₂.prev]
    split_ifs
    all_goals first | rfl | omega | (congr 1; omega)
  have hlinked : LinkedAs (range p.numBlocks) s₄ := by
    rw [LinkedAs, hhead₄, htail₄]
    rw [hlinking₂.head]
    apply linked_range (by omega) hnext hprev
  obtain ⟨s₅, hs₅, hordered, htags⟩ := init_spec hp hlinked hnext (hhead₄.trans hlinking₂.head)
    (by rw [htail₄]; change p.numBlocks - 1 + 1 = _; omega)
  refine ⟨s₅, ?_, hordered, ?_⟩
  · rw [tagsInit, modify_bind_apply, bind_apply, hs₁]
    dsimp only
    rw [bind_apply, hs₂]
    dsimp only
    rw [modify_bind_apply, bind_apply, hs₄]
    apply hs₅
  · apply SameTags.trans _ htags
    apply SameTags.trans _ hrelinked₄.toSameTags
    apply hlinking₂.relinked.toSameTags.trans (relinked_tail ..).toSameTags

end Init

/-! ### The calls of a cache -/

/-- The list of blocks and the tracking do not change. -/
structure SameList (s s' : FALRU) : Prop extends SameLinks s s' where
  inCachesMask : ∀ blk, (s'.blks blk).inCachesMask = (s.blks blk).inCachesMask
  boundaries : s'.boundaries = s.boundaries

theorem SameList.ordered {p : FALRUParams} {l : List ℕ} {s s' : FALRU} (h : SameList s s')
    (hs : Ordered p l s) :
  Ordered p l s'
  := ⟨hs.congr h.inCachesMask h.boundaries, h.toSameLinks.linkedAs hs.linked, hs.perm⟩

/-- Rewriting the tag of a block does not change the list. -/
theorem sameList_editBlk (s : FALRU) (blk : ℕ) {f : FALRUBlk → FALRUBlk}
    (hnext : ∀ b, (f b).next = b.next) (hprev : ∀ b, (f b).prev = b.prev)
    (hmask : ∀ b, (f b).inCachesMask = b.inCachesMask) :
  SameList s (editBlk blk f s)
  := by
  refine ⟨⟨?_, ?_, rfl, rfl⟩, ?_, rfl⟩
  · funext b
    apply editBlk_keeps s blk FALRUBlk.next hnext
  · funext b
    apply editBlk_keeps s blk FALRUBlk.prev hprev
  · apply editBlk_keeps s blk FALRUBlk.inCachesMask hmask

/-- The blocks are in some order, and the hash table has no others. -/
structure Sound (p : FALRUParams) (s : FALRU) : Prop where
  ordered : ∃ l, Ordered p l s
  hash : ∀ key blk, s.tagHash key = some blk → blk < p.numBlocks

section Calls

variable {p : FALRUParams} {s s' : FALRU} {l : List ℕ} {blk : ℕ}

/-- A block is somewhere on the list. -/
theorem Ordered.split (h : Ordered p l s) (hblk : blk < p.numBlocks) :
  ∃ a b, l = a ++ blk :: b
  := by
  apply append_of_mem
  rw [h.perm.mem_iff, mem_range]
  apply hblk

theorem Ordered.tail_lt (h : Ordered p l s) :
  s.tail < p.numBlocks
  := by
  rw [← mem_range, ← h.perm.mem_iff]
  apply mem_of_getLast? h.linked.last_eq.symm

theorem Sound.sameList (hs : Sound p s) (h : SameList s s')
    (hhash : ∀ key blk, s'.tagHash key = some blk → blk < p.numBlocks) :
  Sound p s'
  := by
  obtain ⟨l, hl⟩ := hs.ordered
  exact ⟨⟨l, h.ordered hl⟩, hhash⟩

variable {found : Option ℕ}

/-- An entry of the hash table is written. -/
theorem Sound.setHash (hs : Sound p s) (key : Addr × Bool)
    (hfound : ∀ blk, found = some blk → blk < p.numBlocks) :
  Sound p { s with tagHash := update s.tagHash key found }
  := by
  refine hs.sameList ⟨⟨rfl, rfl, rfl, rfl⟩, fun _ => rfl, rfl⟩ ?_
  intro key' blk h
  change update s.tagHash key found key' = some blk at h
  rw [update_apply] at h
  split_ifs at h
  · apply hfound blk h
  · apply hs.hash key' blk h

open Keeps

theorem keeps_check {P : FALRU → Prop} (cond : Bool) :
  Keeps P (check cond)
  := by
  apply ite (pure _) (throw _)

/-- Looking for a block does not change anything. -/
theorem findBlock_cases (key : KeyType) (s : FALRU) :
  (∃ e, findBlock p key s = .error e s)
    ∨ findBlock p key s = .ok (s.tagHash (p.hashKey key)) s
  := by
  rw [findBlock, get_bind_apply]
  cases s.tagHash (p.hashKey key) with
  | none => exact Or.inr rfl
  | some blk =>
    dsimp only
    cases !(s.blks blk).valid || (s.blks blk).tag == p.blkAlign key.address with
    | false => exact Or.inl ⟨.assertion, rfl⟩
    | true =>
      cases !(s.blks blk).valid || (s.blks blk).secure == key.secure with
      | false => exact Or.inl ⟨.assertion, rfl⟩
      | true => exact Or.inr rfl

theorem keeps_insertTag (blk : ℕ) (key : KeyType) :
  Keeps (Sound p) (insertTag p blk key)
  := by
  apply Keeps.bind Keeps.get
  intro s
  apply Keeps.bind (keeps_check _)
  intro _
  apply Keeps.bind (Keeps.modify _)
  · intro _
    apply Keeps.bind
    · rw [extractTag]
      cases p.tagExtractor with
      | none => apply Keeps.throw
      | some extract => apply Keeps.pure
    · intro tag
      apply Keeps.modify
      intro s hs
      exact hs.sameList (sameList_editBlk s blk (fun _ => rfl) (fun _ => rfl) fun _ => rfl) hs.hash
  · intro s hs
    exact hs.sameList (sameList_editBlk s blk (fun _ => rfl) (fun _ => rfl) fun _ => rfl) hs.hash

variable (hp : p.Tracks)

include hp

theorem keeps_moveToHead (hblk : blk < p.numBlocks) :
  Keeps (Sound p) (moveToHead p blk)
  := by
  constructor
  intro s hs
  obtain ⟨l, hl⟩ := hs.ordered
  obtain ⟨a, b, rfl⟩ := hl.split hblk
  obtain ⟨s', hs', hordered, htags⟩ := moveToHead_spec hp hl
  rw [final_of_ok hs']
  refine ⟨⟨_, hordered⟩, ?_⟩
  rw [htags.tagHash]
  apply hs.hash

theorem keeps_moveToTail (hblk : blk < p.numBlocks) :
  Keeps (Sound p) (moveToTail p blk)
  := by
  constructor
  intro s hs
  obtain ⟨l, hl⟩ := hs.ordered
  obtain ⟨a, b, rfl⟩ := hl.split hblk
  obtain ⟨s', hs', hordered, htags⟩ := moveToTail_spec hp hl
  rw [final_of_ok hs']
  refine ⟨⟨_, hordered⟩, ?_⟩
  rw [htags.tagHash]
  apply hs.hash

theorem keeps_touchBlock (hfound : ∀ blk, found = some blk → blk < p.numBlocks) :
  Keeps (Sound p) (touchBlock p found)
  := by
  cases found with
  | none => apply Keeps.pure
  | some blk =>
    apply Keeps.bind Keeps.get
    intro s
    apply Keeps.ite
    · apply Keeps.bind (keeps_moveToHead hp (hfound blk rfl))
      intro _
      apply Keeps.pure
    · apply Keeps.pure

theorem keeps_accessBlock (key : KeyType) :
  Keeps (Sound p) (accessBlock p key)
  := by
  constructor
  intro s hs
  rw [accessBlock]
  rcases findBlock_cases key s with ⟨e, herror⟩ | hok
  · rw [final, bind_apply, herror]
    apply hs
  · rw [final_bind_of_ok hok]
    apply (bind (keeps_touchBlock hp (hs.hash _)) _).keeps s hs
    intro _
    apply bind (modify _) fun _ => pure _
    intro s hs
    exact hs.sameList ⟨⟨rfl, rfl, rfl, rfl⟩, fun _ => rfl, rfl⟩ hs.hash

theorem keeps_insertBlock (key : KeyType) (hblk : blk < p.numBlocks) :
  Keeps (Sound p) (insertBlock p blk key)
  := by
  apply Keeps.bind Keeps.get
  intro s
  apply Keeps.bind (keeps_check _)
  intro _
  apply Keeps.bind (keeps_insertTag blk key)
  intro _
  apply Keeps.bind (Keeps.modify _)
  · intro _
    apply Keeps.bind (keeps_moveToHead hp hblk)
    intro _
    apply Keeps.modify
    intro s hs
    apply hs.setHash
    intro blk' h
    cases h
    apply hblk
  · intro s hs
    exact hs.sameList ⟨⟨rfl, rfl, rfl, rfl⟩, fun _ => rfl, rfl⟩ hs.hash

theorem keeps_invalidate (hblk : blk < p.numBlocks) :
  Keeps (Sound p) (invalidate p blk)
  := by
  apply bind get
  intro s
  apply bind (modify _)
  · intro _
    apply bind (keeps_check _)
    intro _
    apply bind (keeps_check _)
    intro _
    apply bind (modify _)
    · intro _
      apply bind (modify _) fun _ => keeps_moveToTail hp hblk
      intro s hs
      exact hs.sameList ⟨⟨rfl, rfl, rfl, rfl⟩, fun _ => rfl, rfl⟩ hs.hash
    · intro s hs
      exact hs.sameList (sameList_editBlk s blk (fun _ => rfl) (fun _ => rfl) fun _ => rfl) hs.hash
  · intro s hs
    apply hs.setHash
    nofun

end Calls

end FALRU

/-- The calls that a cache makes to a fully associative store. -/
inductive FALRUOp (p : FALRUParams) where
  | accessBlock (key : KeyType)
  /-- Insert into the block that `findVictim` returns. -/
  | insertBlock (key : KeyType)
  | invalidate (blk : Fin p.numBlocks)

/-- What a call runs. -/
def FALRUOp.run {p : FALRUParams} : FALRUOp p → FALRUM Unit
  | .accessBlock key => do
      let _ ← FALRUM.accessBlock p key
      pure ()
  | .insertBlock key => do
      let victim ← FALRUM.findVictim
      FALRUM.insertBlock p victim key
  | .invalidate blk => FALRUM.invalidate p blk

namespace FALRU

/-- The smaller caches are tracked exactly. -/
structure Exact (p : FALRUParams) (l : List ℕ) (s : FALRU) : Prop where
  linked : Linked s.next s.prev (some s.head) (some s.tail) l
  /-- All blocks are on the list. -/
  perm : l.Perm (List.range p.numBlocks)
  /-- The boundary of a cache is its last block. -/
  boundary : ∀ i < p.numTrackedCaches, s.boundaries i = l[p.trackedBlocks i - 1]?
  /-- A block has the bit of a cache if it is one of its blocks. -/
  inCache : ∀ i < p.numTrackedCaches, ∀ blk < p.numBlocks,
    (s.blks blk).inCachesMask.getLsbD i = true ↔ blk ∈ l.take (p.trackedBlocks i)
  /-- The last block is in no cache, so that the assertion of `insertBlock` holds. -/
  tail : (s.blks s.tail).inCachesMask = 0

variable {p : FALRUParams} {s s' : FALRU}

theorem Ordered.exact {l : List ℕ} (hp : p.Tracks) (h : Ordered p l s) :
  Exact p l s
  := by
  have hmem {blk : ℕ} : blk ∈ l ↔ blk < p.numBlocks := by
    rw [h.perm.mem_iff, mem_range]
  refine ⟨h.linked, h.perm, h.boundary, ?_, ?_⟩
  · intro i hi blk hblk
    have hin := h.inCache blk (hmem.mpr hblk) i (hi.trans hp.numTrackedCaches_lt)
    rw [and_iff_right hi] at hin
    apply hin
  · apply BitVec.eq_of_getLsbD_eq
    intro i hi
    change _ = (0#32).getLsbD i
    rw [BitVec.getLsbD_zero, ← Bool.not_eq_true]
    intro hbit
    obtain ⟨hi', htake⟩ := (h.inCache s.tail (hmem.mpr h.tail_lt) i hi).mp hbit
    obtain ⟨a, ha⟩ := getLast?_eq_some_iff.mp h.linked.last_eq.symm
    have hlen := h.perm.length_eq
    have hlt := hp.trackedBlocks_lt hi'
    rw [length_range, ha, length_append] at hlen
    rw [ha, mem_take_middle (ha ▸ h.linked.nodup)] at htake
    simp only [length_singleton] at hlen
    omega

theorem Sound.step (hp : p.Tracks) {op : FALRUOp p} (hs : Sound p s) :
  Sound p (final op.run s)
  := by
  cases op with
  | accessBlock key =>
    apply (Keeps.bind (keeps_accessBlock hp key) fun _ => Keeps.pure _).keeps s hs
  | insertBlock key =>
    obtain ⟨l, hl⟩ := hs.ordered
    apply (keeps_insertBlock hp key hl.tail_lt).keeps s hs
  | invalidate blk => apply (keeps_invalidate hp blk.isLt).keeps s hs

/-- After the store has been initialized, every sequence of calls, whether they return or stop,
leads to a state in which the smaller caches are tracked exactly. -/
theorem tracking_exact (hp : p.Tracks) :
  ∃ s₀, FALRUM.tagsInit p {} = .ok () s₀
    ∧ ∀ l s, Run (fun s (op : FALRUOp p) s' => final op.run s = s') s₀ l s →
      ∃ order, Exact p order s
  := by
  obtain ⟨s₀, hs₀, hordered, htags⟩ := tagsInit_spec hp
  refine ⟨s₀, hs₀, ?_⟩
  intro l s hrun
  have hs : Sound p s := by
    apply hrun.invariant (P := Sound p)
    · rintro s op _ hs rfl
      apply hs.step hp
    · refine ⟨⟨_, hordered⟩, ?_⟩
      intro key blk hblk
      rw [htags.tagHash] at hblk
      cases hblk
  obtain ⟨order, horder⟩ := hs.ordered
  exact ⟨order, horder.exact hp⟩

/-- Eight blocks of 64 bytes, with caches of two and four blocks tracked, whose blocks extract their
addresses as tags. -/
def eightBlocks : FALRUParams := ⟨64, 512, 128, rfl, rfl, by decide, some (· &&& ~~~63#64)⟩

theorem tracking_exact_eight :
  eightBlocks.Tracks ∧ ∃ s₀, FALRUM.tagsInit eightBlocks {} = .ok () s₀ ∧ ∃ order,
    Exact eightBlocks order (final (FALRUOp.run (p := eightBlocks) (.insertBlock ⟨0, false⟩)) s₀)
  := by
  have hp : eightBlocks.Tracks := ⟨rfl, by decide, by decide⟩
  obtain ⟨s₀, hs₀, h⟩ := tracking_exact hp
  exact ⟨hp, s₀, hs₀, h [.insertBlock ⟨0, false⟩] _ (Run.single rfl)⟩

end FALRU

end Gem5Arc
