import Gem5Arc.Cache.TrackedRuns

/-!
# What a fully associative store counts for smaller caches

A store whose misses are followed by insertions keeps its valid blocks at the front of its list,
with the tags in the order of their last use: it is a cache that discards the least recent block,
and its first blocks are those of the smaller caches. The counters of a smaller cache are those of a
cache of its own exactly if every access that finds a block finds one that is in the smaller cache
(`counters_iff`).

The reason is that `accessBlock` counts an access after it has moved the block to the head, where it
is in all caches: every hit of the store is counted as a hit of every tracked cache
(`counters_wrong`). Moreover, as `tagsInit` does not register a function that extracts tags, the
first insertion stops the simulator.
-/

namespace Gem5Arc

open FALRUM Function Lib List

namespace FALRUM

variable (p : FALRUParams)

/-- Evict a block, if it is valid. -/
def evict (victim : ℕ) : FALRUM Unit := do
  let s ← get
  if (s.blks victim).valid then invalidate p victim else pure ()

/-- A block is allocated: the victim is evicted, and the new block is inserted at its place. -/
def allocateBlock (key : KeyType) : FALRUM Unit := do
  let victim ← findVictim
  evict p victim
  insertBlock p victim key

/-- An access, which is followed by an insertion if it is a miss. -/
def access (key : KeyType) : FALRUM Unit := do
  let found ← accessBlock p key
  match found.1 with
  | some _ => pure ()
  | none => allocateBlock p key

/-- A sequence of accesses. -/
def accesses (keys : List KeyType) : FALRUM Unit := forM keys (access p)

end FALRUM

namespace FALRU

/-- What a block is found with. -/
def keyOf (s : FALRU) (blk : ℕ) : Addr × Bool := ((s.blks blk).tag, (s.blks blk).secure)

/-- The blocks `v` are valid, and the blocks `u` after them are not. -/
structure Holds (p : FALRUParams) (v u : List ℕ) (s : FALRU) : Prop where
  ordered : Ordered p (v ++ u) s
  valid : ∀ blk ∈ v, (s.blks blk).valid = true
  invalid : ∀ blk ∈ u, (s.blks blk).toTaggedEntry = {}
  hash : ∀ key blk, s.tagHash key = some blk ↔ blk ∈ v ∧ s.keyOf blk = key

/-- The tags of blocks. -/
def keys (s : FALRU) (v : List ℕ) : List (Addr × Bool) := v.map s.keyOf

/-- The counters do not change. -/
structure SameCounts (s s' : FALRU) : Prop where
  hits : s'.hits = s.hits
  misses : s'.misses = s.misses

section

variable {p : FALRUParams} {s s' : FALRU} {v u : List ℕ} {t : ℕ} {key : KeyType}

theorem SameTags.keyOf (h : SameTags s s') :
  s'.keyOf = s.keyOf
  := by
  funext blk
  rw [FALRU.keyOf, h.entry, FALRU.keyOf]

theorem Holds.nodup_keys (h : Holds p v u s) :
  (s.keys v).Nodup
  := by
  apply List.Nodup.map_on
  · intro x hx y hy heq
    have hx' := (h.hash _ x).mpr ⟨hx, rfl⟩
    have hy' := (h.hash _ y).mpr ⟨hy, heq.symm⟩
    rw [hx'] at hy'
    apply Option.some.inj hy'
  · apply (nodup_append.mp h.ordered.linked.nodup).1

variable {k : Addr × Bool} {blk : ℕ}

theorem Holds.mem_keys (h : Holds p v u s) :
  k ∈ s.keys v ↔ ∃ blk, s.tagHash k = some blk
  := by
  rw [keys, mem_map]
  constructor
  · rintro ⟨blk, hblk, hkey⟩
    use blk, (h.hash k blk).mpr ⟨hblk, hkey⟩
  · rintro ⟨blk, hblk⟩
    obtain ⟨hmem, hkey⟩ := (h.hash k blk).mp hblk
    use blk, hmem, hkey

/-- Whoever is last on the list is the victim. -/
theorem Holds.tail_eq (h : Holds p v (u ++ [t]) s) :
  s.tail = t
  := by
  apply Option.some.inj
  rw [h.ordered.linked.last_eq, ← append_assoc, getLast?_concat]

/-- The entry of a block that has been inserted. -/
def newEntry (p : FALRUParams) (key : KeyType) : TaggedEntry :=
  { valid := true, secure := key.secure, tag := p.blkAlign key.address }

/-- Write the entry of a block, and count it. -/
def retag (blk : ℕ) (entry : TaggedEntry) (n : ℤ) (s : FALRU) : FALRU :=
  { editBlk blk (fun b => { b with toTaggedEntry := entry }) s with
    tagsInUse := s.tagsInUse + n }

theorem sameList_retag (blk : ℕ) (entry : TaggedEntry) (n : ℤ) (s : FALRU) :
  SameList s (retag blk entry n s)
  := by
  obtain ⟨⟨hnext, hprev, hhead, htail⟩, hmask, hboundaries⟩ := sameList_editBlk s blk
    (f := fun b => { b with toTaggedEntry := entry }) (fun _ => rfl) (fun _ => rfl) (fun _ => rfl)
  exact ⟨⟨hnext, hprev, hhead, htail⟩, hmask, hboundaries⟩

theorem entry_retag (blk : ℕ) (entry : TaggedEntry) (n : ℤ) (s : FALRU) (b : ℕ) :
  ((retag blk entry n s).blks b).toTaggedEntry
    = if b = blk then entry else (s.blks b).toTaggedEntry
  := by
  change ((editBlk blk (fun b => { b with toTaggedEntry := entry }) s).blks b).toTaggedEntry = _
  rw [blks_editBlk]
  split_ifs
  · rfl
  · rfl

theorem insertTag_apply (hext : p.tagExtractor = some p.blkAlign)
    (hblk : (s.blks t).toTaggedEntry = {}) :
  insertTag p t key s
    = .ok () (editBlk t (fun b => { b with toTaggedEntry := newEntry p key }) s)
  := by
  have hvalid : (s.blks t).valid = false := by
    rw [hblk]
  have hcheck : check (!(s.blks t).valid) s = .ok () s := by
    rw [hvalid]
    rfl
  rw [insertTag, get_bind_apply, bind_of_ok hcheck, extractTag, hext]
  apply congrArg (EStateM.Result.ok ())
  simp only [editBlk, update_self, update_idem, TaggedEntry.withTag, newEntry, hblk, Bool.false_or]

/-- An entry of a block that comes to the front has been written, together with the hash table. -/
theorem Holds.pushed {s₁ : FALRU} {entry : TaggedEntry} {n : ℤ} (h : Holds p v (u ++ [t]) s)
    (hvalid : entry.valid = true) (hkey : (entry.tag, entry.secure) ∉ s.keys v)
    (hordered : Ordered p (t :: (v ++ u)) s₁) (htags : SameTags (retag t entry n s) s₁) :
  Holds p (t :: v) u
      { s₁ with tagHash := update s₁.tagHash (s₁.keyOf t) (some t) }
    ∧ s₁.keys (t :: v) = (entry.tag, entry.secure) :: s.keys v
  := by
  have hnodup := h.ordered.linked.nodup
  rw [← append_assoc] at hnodup
  have ht : t ∉ v ++ u := (notMem_of_nodup hnodup).1
  rw [mem_append, not_or] at ht
  have hentry (b : ℕ) : (s₁.blks b).toTaggedEntry
      = if b = t then entry else (s.blks b).toTaggedEntry := by
    rw [htags.entry, entry_retag]
  have hself : s₁.keyOf t = (entry.tag, entry.secure) := by
    rw [FALRU.keyOf, hentry, if_pos rfl]
  have hother (b : ℕ) (hb : b ≠ t) : s₁.keyOf b = s.keyOf b := by
    rw [FALRU.keyOf, hentry, if_neg hb, FALRU.keyOf]
  have hmem {b : ℕ} (hb : b ∈ v) : b ≠ t := by
    rintro rfl
    exact ht.1 hb
  constructor
  · refine ⟨?_, ?_, ?_, ?_⟩
    · apply SameList.ordered _ hordered
      exact ⟨⟨rfl, rfl, rfl, rfl⟩, fun _ => rfl, rfl⟩
    · intro b hb
      rw [hentry]
      split_ifs with heq
      · apply hvalid
      · apply h.valid b ((mem_cons.mp hb).resolve_left heq)
    · intro b hb
      have hne : b ≠ t := by
        rintro rfl
        exact ht.2 hb
      rw [hentry, if_neg hne]
      apply h.invalid b (mem_append_left _ hb)
    · intro k b
      change update s₁.tagHash (s₁.keyOf t) (some t) k = some b
        ↔ b ∈ t :: v ∧ s₁.keyOf b = k
      rw [update_apply, hself, htags.tagHash]
      change (if k = _ then some t else s.tagHash k) = some b ↔ _
      by_cases hk : k = (entry.tag, entry.secure)
      · rw [if_pos hk, Option.some.injEq]
        constructor
        · rintro rfl
          exact ⟨mem_cons_self .., hself.trans hk.symm⟩
        · rintro ⟨hb, hbkey⟩
          by_contra hne
          have hb' := (mem_cons.mp hb).resolve_left (Ne.symm hne)
          rw [hother b (Ne.symm hne), hk] at hbkey
          apply hkey (mem_map.mpr ⟨b, hb', hbkey⟩)
      · rw [if_neg hk, h.hash]
        constructor
        · rintro ⟨hb, hbkey⟩
          exact ⟨mem_cons_of_mem _ hb, (hother b (hmem hb)).trans hbkey⟩
        · rintro ⟨hb, hbkey⟩
          have hne : b ≠ t := by
            rintro rfl
            exact hk (hbkey.symm.trans hself)
          exact ⟨(mem_cons.mp hb).resolve_left hne, (hother b hne).symm.trans hbkey⟩
  · rw [keys, map_cons, hself, keys]
    congr 1
    apply map_congr_left
    intro b hb
    apply hother b (hmem hb)

variable (hp : p.Tracks)

include hp

theorem insertBlock_spec (hext : p.tagExtractor = some p.blkAlign) (h : Holds p v (u ++ [t]) s)
    (hkey : p.hashKey key ∉ s.keys v) :
  ∃ s', insertBlock p t key s = .ok () s' ∧ Holds p (t :: v) u s'
    ∧ s'.keys (t :: v) = p.hashKey key :: s.keys v ∧ SameCounts s s'
  := by
  have hmask : check ((s.blks t).inCachesMask == 0) s = .ok () s := by
    rw [← h.tail_eq, (h.ordered.exact hp).tail]
    rfl
  have hentry := h.invalid t (mem_append_right _ (mem_singleton_self t))
  have hordered : Ordered p (v ++ u ++ t :: []) (retag t (newEntry p key) 1 s) := by
    rw [append_assoc]
    apply (sameList_retag ..).ordered h.ordered
  obtain ⟨s₁, hs₁, hordered₁, htags⟩ := moveToHead_spec hp hordered
  rw [append_nil] at hordered₁
  obtain ⟨hholds, hkeys⟩ := h.pushed rfl hkey hordered₁ htags
  refine ⟨_, ?_, hholds, hkeys, ⟨htags.hits, htags.misses⟩⟩
  rw [insertBlock, get_bind_apply, bind_of_ok hmask,
    bind_of_ok (insertTag_apply hext hentry), modify_bind_apply]
  apply bind_of_ok hs₁

/-- The last block of a full store is evicted. -/
theorem invalidate_spec (h : Holds p (v ++ [t]) [] s) :
  ∃ s', invalidate p t s = .ok () s' ∧ Holds p v [t] s' ∧ s'.keys v = s.keys v
    ∧ SameCounts s s'
  := by
  have hmem : t ∈ v ++ [t] := mem_append_right _ (mem_singleton_self t)
  have ht : t ∉ v := by
    have hnodup := h.ordered.linked.nodup
    rw [append_nil] at hnodup
    apply (notMem_of_nodup hnodup).1
  have hhash : s.tagHash (s.keyOf t) = some t := (h.hash _ t).mpr ⟨hmem, rfl⟩
  have hordered : Ordered p (v ++ t :: []) (retag t {} (-1)
      { s with tagHash := update s.tagHash (s.keyOf t) none }) := by
    apply (sameList_retag ..).ordered
    apply SameList.ordered _ (append_nil (v ++ [t]) ▸ h.ordered)
    exact ⟨⟨rfl, rfl, rfl, rfl⟩, fun _ => rfl, rfl⟩
  obtain ⟨s₁, hs₁, hordered₁, htags⟩ := moveToTail_spec hp hordered
  rw [append_nil] at hordered₁
  have hentry (b : ℕ) : (s₁.blks b).toTaggedEntry
      = if b = t then {} else (s.blks b).toTaggedEntry := by
    rw [htags.entry, entry_retag]
  have hother {b : ℕ} (hb : b ∈ v) : (s₁.blks b).toTaggedEntry = (s.blks b).toTaggedEntry := by
    rw [hentry, if_neg]
    rintro rfl
    exact ht hb
  have hkeyOf {b : ℕ} (hb : b ∈ v) : s₁.keyOf b = s.keyOf b := by
    rw [FALRU.keyOf, hother hb, FALRU.keyOf]
  have hfound (s' : FALRU) :
      check (s.tagHash ((s.blks t).tag, (s.blks t).secure)).isSome s' = .ok () s' := by
    change check (s.tagHash (s.keyOf t)).isSome s' = .ok () s'
    rw [hhash]
    rfl
  have hvalid (s' : FALRU) : check (s.blks t).valid s' = .ok () s' := by
    rw [h.valid t hmem]
    rfl
  refine ⟨s₁, ?_, ⟨hordered₁, ?_, ?_, ?_⟩, ?_, ⟨htags.hits, htags.misses⟩⟩
  · rw [invalidate, get_bind_apply, modify_bind_apply, bind_of_ok (hfound _),
      bind_of_ok (hvalid _), modify_bind_apply, modify_bind_apply]
    apply hs₁
  · intro b hb
    rw [hother hb]
    apply h.valid b (mem_append_left _ hb)
  · intro b hb
    rw [hentry, if_pos (mem_singleton.mp hb)]
  · intro k b
    rw [htags.tagHash]
    change update s.tagHash (s.keyOf t) none k = some b ↔ _
    rw [update_apply]
    split_ifs with hk
    · constructor
      · nofun
      · rintro ⟨hb, hbkey⟩
        rw [hkeyOf hb, hk] at hbkey
        have hb' := (h.hash _ b).mpr ⟨mem_append_left _ hb, hbkey⟩
        rw [hhash] at hb'
        cases hb'
        exact absurd hb ht
    · rw [h.hash]
      constructor
      · rintro ⟨hb, hbkey⟩
        have hb' : b ∈ v := by
          apply (mem_append.mp hb).resolve_right
          intro hbt
          rw [mem_singleton.mp hbt] at hbkey
          exact hk hbkey.symm
        exact ⟨hb', (hkeyOf hb').trans hbkey⟩
      · rintro ⟨hb, hbkey⟩
        exact ⟨mem_append_left _ hb, (hkeyOf hb).symm.trans hbkey⟩
  · apply map_congr_left
    intro b hb
    apply hkeyOf hb

/-- A block is allocated for a key that no block has. -/
theorem allocateBlock_spec (hext : p.tagExtractor = some p.blkAlign) (h : Holds p v u s)
    (hkey : p.hashKey key ∉ s.keys v) :
  ∃ v' u' s', allocateBlock p key s = .ok () s' ∧ Holds p v' u' s'
    ∧ s'.keys v' = lru p.numBlocks (s.keys v) (p.hashKey key) ∧ SameCounts s s'
  := by
  have hlen : (s.keys v).length + u.length = p.numBlocks := by
    have hperm := h.ordered.perm.length_eq
    rw [length_append, length_range] at hperm
    rw [keys, length_map, hperm]
  have hlt := hp.trackedBlocks_lt hp.numTrackedCaches_pos
  have hvictim : findVictim s = .ok s.tail s := rfl
  rw [lru_of_notMem hkey, allocateBlock, bind_of_ok hvictim]
  rcases u.eq_nil_or_concat' with rfl | ⟨u, t, rfl⟩
  · rcases v.eq_nil_or_concat' with rfl | ⟨v, t, rfl⟩
    · rw [length_nil, keys, map_nil, length_nil] at hlen
      omega
    · have htail : s.tail = t := by
        apply Option.some.inj
        rw [h.ordered.linked.last_eq, append_nil, getLast?_concat]
      have hvalid := h.valid t (mem_append_right _ (mem_singleton_self t))
      obtain ⟨s₁, hs₁, hholds₁, hkeys₁, hcounts₁⟩ := invalidate_spec hp h
      have hevict : evict p t s = .ok () s₁ := by
        rw [evict, get_bind_apply, if_pos hvalid]
        apply hs₁
      rw [keys, map_append, ← keys, mem_append, not_or, ← hkeys₁] at hkey
      obtain ⟨s₂, hs₂, hholds₂, hkeys₂, hcounts₂⟩ :=
        insertBlock_spec (u := []) hp hext hholds₁ hkey.1
      refine ⟨_, _, s₂, ?_, hholds₂, ?_,
        ⟨hcounts₂.hits.trans hcounts₁.hits, hcounts₂.misses.trans hcounts₁.misses⟩⟩
      · rw [htail, bind_of_ok hevict]
        apply hs₂
      · rw [keys, length_map, length_append, length_singleton] at hlen
        rw [hkeys₂, hkeys₁, keys, keys, map_append, ← cons_append, take_left']
        rw [length_cons, length_map]
        apply hlen
  · have hentry := h.invalid t (mem_append_right _ (mem_singleton_self t))
    have hevict : evict p t s = .ok () s := by
      rw [evict, get_bind_apply, hentry]
      rfl
    obtain ⟨s₁, hs₁, hholds₁, hkeys₁, hcounts₁⟩ := insertBlock_spec hp hext h hkey
    refine ⟨_, _, s₁, ?_, hholds₁, ?_, hcounts₁⟩
    · rw [h.tail_eq, bind_of_ok hevict]
      apply hs₁
    · rw [length_append, length_singleton] at hlen
      rw [hkeys₁, take_of_length_le]
      rw [length_cons]
      omega

omit hp in
theorem findBlock_apply (h : Holds p v u s) (key : KeyType) :
  findBlock p key s = .ok (s.tagHash (p.hashKey key)) s
  := by
  rw [findBlock, get_bind_apply]
  cases hhash : s.tagHash (p.hashKey key) with
  | none => rfl
  | some blk =>
    obtain ⟨-, hkey⟩ := (h.hash _ blk).mp hhash
    have htag : (s.blks blk).tag = p.blkAlign key.address := congrArg Prod.fst hkey
    have hsecure : (s.blks blk).secure = key.secure := congrArg Prod.snd hkey
    dsimp only
    rw [htag, hsecure, beq_self_eq_true, beq_self_eq_true, Bool.or_true]
    rfl

omit hp in
theorem Holds.recordAccess (h : Holds p v u s) (found : Option ℕ) :
  Holds p v u (recordAccess p found s)
  := by
  refine ⟨?_, h.valid, h.invalid, h.hash⟩
  apply SameList.ordered _ h.ordered
  exact ⟨⟨rfl, rfl, rfl, rfl⟩, fun _ => rfl, rfl⟩

/-- The block that has the key comes to the front. -/
theorem moveToHead_holds (h : Holds p v u s) (hblk : s.tagHash (p.hashKey key) = some blk) :
  ∃ v' s', moveToHead p blk s = .ok () s' ∧ Holds p v' u s' ∧ SameTags s s'
    ∧ s'.keys v' = lru p.numBlocks (s.keys v) (p.hashKey key)
    ∧ ∀ i < p.numTrackedCaches, s'.InCache i blk
  := by
  obtain ⟨hmem, hkey⟩ := (h.hash _ blk).mp hblk
  obtain ⟨a, b, rfl⟩ := append_of_mem hmem
  have hordered := h.ordered
  rw [append_assoc, cons_append] at hordered
  obtain ⟨s', hs', hordered', htags⟩ := moveToHead_spec hp hordered
  have hlen : (s.keys (a ++ blk :: b)).length ≤ p.numBlocks := by
    have hperm := h.ordered.perm.length_eq
    rw [length_append, length_range] at hperm
    rw [keys, length_map]
    omega
  refine ⟨blk :: (a ++ b), s', hs', ⟨?_, ?_, ?_, ?_⟩, htags, ?_, ?_⟩
  · rw [cons_append, append_assoc]
    apply hordered'
  · intro c hc
    rw [htags.entry]
    apply h.valid c (perm_middle.mem_iff.mpr hc)
  · intro c hc
    rw [htags.entry]
    apply h.invalid c hc
  · intro k c
    rw [htags.tagHash, htags.keyOf, h.hash, perm_middle.mem_iff]
  · have hnodup := h.nodup_keys
    have hsplit : s.keys (a ++ blk :: b) = s.keys a ++ s.keyOf blk :: s.keys b := by
      rw [keys, map_append, map_cons]
      rfl
    rw [hsplit] at hnodup hlen
    rw [perm_middle.length_eq] at hlen
    rw [← hkey, hsplit, lru_of_mem hnodup, take_of_length_le hlen, keys, htags.keyOf,
      map_cons, map_append]
    rfl
  · intro i hi
    rw [hordered'.inCache blk (mem_cons_self ..) i (hi.trans hp.numTrackedCaches_lt)]
    refine ⟨hi, ?_⟩
    obtain ⟨k, hk⟩ := Nat.exists_eq_add_of_le' (hp.two_le_trackedBlocks i)
    rw [hk]
    apply mem_cons_self ..

/-- The hits and misses a tracked cache counts for an access: it has a hit if any block of the store
has the key. -/
structure Counted (p : FALRUParams) (l : List (Addr × Bool)) (k : Addr × Bool) (s s' : FALRU) :
    Prop where
  hit : k ∈ l → ∀ i < p.numTrackedCaches, s'.hits i = s.hits i + 1 ∧ s'.misses i = s.misses i
  miss : k ∉ l → ∀ i < p.numTrackedCaches, s'.hits i = s.hits i ∧ s'.misses i = s.misses i + 1

/-- An access uses the key. -/
theorem access_spec (hext : p.tagExtractor = some p.blkAlign) (h : Holds p v u s) (key : KeyType) :
  ∃ v' u' s', access p key s = .ok () s' ∧ Holds p v' u' s'
    ∧ s'.keys v' = lru p.numBlocks (s.keys v) (p.hashKey key)
    ∧ Counted p (s.keys v) (p.hashKey key) s s'
  := by
  have hfind := findBlock_apply h key
  cases hhash : s.tagHash (p.hashKey key) with
  | none =>
    have hkey : p.hashKey key ∉ s.keys v := by
      rw [h.mem_keys, hhash]
      rintro ⟨blk, hblk⟩
      cases hblk
    have haccess : accessBlock p key s = .ok (none, 0) (recordAccess p none s) := by
      rw [accessBlock, bind_of_ok hfind, hhash]
      rfl
    obtain ⟨v', u', s', hs', hholds, hkeys, hcounts⟩ :=
      allocateBlock_spec hp hext (h.recordAccess none) hkey
    refine ⟨v', u', s', ?_, hholds, hkeys, fun hk => absurd hk hkey, ?_⟩
    · rw [access, bind_of_ok haccess]
      apply hs'
    · intro _ i hi
      rw [hcounts.hits, hcounts.misses]
      simp [recordAccess, isHit, hi.le]
  | some blk =>
    have hkey := h.mem_keys.mpr ⟨blk, hhash⟩
    have hmem := ((h.hash _ blk).mp hhash).1
    obtain ⟨v', s', hs', hholds, htags, hkeys, hin⟩ := moveToHead_holds hp h hhash
    have htouch : touchBlock p (some blk) s = .ok (s.blks blk).inCachesMask s' := by
      rw [touchBlock, get_bind_apply, if_pos (h.valid blk hmem), bind_of_ok hs']
      rfl
    have haccess : accessBlock p key s
        = .ok (some blk, (s.blks blk).inCachesMask) (recordAccess p (some blk) s') := by
      rw [accessBlock, bind_of_ok hfind, hhash, bind_of_ok htouch]
      rfl
    refine ⟨v', u, recordAccess p (some blk) s', ?_, hholds.recordAccess _, hkeys, ?_,
      fun hk => absurd hkey hk⟩
    · rw [access, bind_of_ok haccess]
      rfl
    · intro _ i hi
      have hbit := (cacheMask_and_ne_zero (hi.trans hp.numTrackedCaches_lt) _).mpr (hin i hi)
      have hhit : isHit p (some blk) s' i = true := by
        rw [isHit, if_pos hi]
        apply decide_eq_true hbit
      rw [← htags.hits, ← htags.misses]
      simp [recordAccess, hhit, hi.le]

/-- The store is a cache that discards the least recent block, and all tracked caches have its
counts. -/
theorem accesses_spec (hext : p.tagExtractor = some p.blkAlign) (h : Holds p v u s)
    (accesses : List KeyType) :
  ∃ v' u' s', FALRUM.accesses p accesses s = .ok () s' ∧ Holds p v' u' s'
    ∧ s'.keys v' = (accesses.map p.hashKey).foldl (lru p.numBlocks) (s.keys v)
    ∧ ∀ i < p.numTrackedCaches,
      s'.hits i = s.hits i + lruHits p.numBlocks (s.keys v) (accesses.map p.hashKey)
      ∧ s'.misses i = s.misses i + lruMisses p.numBlocks (s.keys v) (accesses.map p.hashKey)
  := by
  induction accesses generalizing v u s with
  | nil => exact ⟨v, u, s, rfl, h, rfl, fun _ _ => ⟨rfl, rfl⟩⟩
  | cons key rest ih =>
    obtain ⟨v₁, u₁, s₁, hs₁, hholds₁, hkeys₁, hcounts₁⟩ := access_spec hp hext h key
    obtain ⟨v₂, u₂, s₂, hs₂, hholds₂, hkeys₂, hcounts₂⟩ := ih hholds₁
    refine ⟨v₂, u₂, s₂, ?_, hholds₂, ?_, ?_⟩
    · rw [FALRUM.accesses, forM_cons, bind_of_ok hs₁]
      apply hs₂
    · rw [hkeys₂, hkeys₁]
      rfl
    · intro i hi
      obtain ⟨hhits₂, hmisses₂⟩ := hcounts₂ i hi
      rw [map_cons, hhits₂, hmisses₂, hkeys₁]
      by_cases hkey : p.hashKey key ∈ s.keys v
      · obtain ⟨hhits, hmisses⟩ := hcounts₁.hit hkey i hi
        rw [(lru_counts_of_mem hkey).1, (lru_counts_of_mem hkey).2, hhits, hmisses]
        omega
      · obtain ⟨hhits, hmisses⟩ := hcounts₁.miss hkey i hi
        rw [(lru_counts_of_notMem hkey).1, (lru_counts_of_notMem hkey).2, hhits, hmisses]
        omega

/-- A block is in a tracked cache exactly if its key is among the first ones. -/
theorem Holds.inCache_iff {i : ℕ} (h : Holds p v u s) (hblk : s.tagHash k = some blk)
    (hi : i < p.numTrackedCaches) :
  s.InCache i blk ↔ k ∈ (s.keys v).take (p.trackedBlocks i)
  := by
  obtain ⟨hmem, hkey⟩ := (h.hash k blk).mp hblk
  obtain ⟨a, b, rfl⟩ := append_of_mem hmem
  have hnodup := h.ordered.linked.nodup
  have hnodup' := h.nodup_keys
  have hsplit : s.keys (a ++ blk :: b) = s.keys a ++ k :: s.keys b := by
    rw [keys, map_append, map_cons, hkey]
    rfl
  rw [append_assoc, cons_append] at hnodup
  rw [hsplit] at hnodup' ⊢
  rw [h.ordered.inCache blk (mem_append_left _ hmem) i (hi.trans hp.numTrackedCaches_lt),
    and_iff_right hi, mem_take_middle hnodup', append_assoc, cons_append,
    mem_take_middle hnodup, keys, length_map]

/-- At first no block is valid. -/
theorem tagsInit_holds :
  ∃ s₀, tagsInit p {} = .ok () s₀ ∧ Holds p [] (range p.numBlocks) s₀
    ∧ SameTags {} s₀
  := by
  obtain ⟨s₀, hs₀, hordered, htags⟩ := tagsInit_spec hp
  refine ⟨s₀, hs₀, ⟨hordered, ?_, ?_, ?_⟩, htags⟩
  · nofun
  · intro blk _
    rw [htags.entry]
  · intro key blk
    rw [htags.tagHash]
    exact iff_of_false nofun fun h => not_mem_nil h.1

/-- After any sequence of accesses, each followed by an insertion if it is a miss, the counters of a
tracked cache are those of a cache of its own exactly if every access that finds a block finds one
that is in the tracked cache. -/
theorem counters_iff (hext : p.tagExtractor = some p.blkAlign) (accesses : List KeyType) {i : ℕ}
    (hi : i < p.numTrackedCaches) :
  ∃ s₀ s, FALRUM.tagsInit p {} = .ok () s₀ ∧ FALRUM.accesses p accesses s₀ = .ok () s
    ∧ ((s.hits i = lruHits (p.trackedBlocks i) [] (accesses.map p.hashKey)
        ∧ s.misses i = lruMisses (p.trackedBlocks i) [] (accesses.map p.hashKey))
      ↔ ∀ before key after t blk, accesses = before ++ key :: after →
        FALRUM.accesses p before s₀ = .ok () t → t.tagHash (p.hashKey key) = some blk →
        (t.blks blk).inCachesMask.getLsbD i = true)
  := by
  obtain ⟨s₀, hs₀, hholds₀, htags⟩ := tagsInit_holds hp
  obtain ⟨v, u, s, hs, hholds, hkeys, hcounts⟩ := accesses_spec hp hext hholds₀ accesses
  obtain ⟨hhits, hmisses⟩ := hcounts i hi
  refine ⟨s₀, s, hs₀, hs, ?_⟩
  have hle := (hp.trackedBlocks_lt hi).le
  have hsum := lruHits_add_lruMisses p.numBlocks [] (accesses.map p.hashKey)
  have hsum' := lruHits_add_lruMisses (p.trackedBlocks i) [] (accesses.map p.hashKey)
  rw [htags.hits] at hhits
  rw [htags.misses] at hmisses
  have hiff : (s.hits i = lruHits (p.trackedBlocks i) [] (accesses.map p.hashKey)
      ∧ s.misses i = lruMisses (p.trackedBlocks i) [] (accesses.map p.hashKey))
        ↔ lruHits p.numBlocks [] (accesses.map p.hashKey)
          = lruHits (p.trackedBlocks i) ([].take (p.trackedBlocks i)) (accesses.map p.hashKey) := by
    change _ = 0 + lruHits p.numBlocks [] _ at hhits
    change _ = 0 + lruMisses p.numBlocks [] _ at hmisses
    rw [take_nil]
    omega
  rw [hiff, lruHits_eq_iff hle]
  constructor
  · intro hall before key after t blk heq ht hblk
    obtain ⟨v', u', t', ht', hholds', hkeys', -⟩ := accesses_spec hp hext hholds₀ before
    rw [ht] at ht'
    cases ht'
    change t.InCache i blk
    rw [hholds'.inCache_iff hp hblk hi, hkeys']
    apply hall _ _ (after.map p.hashKey)
    · rw [heq, map_append, map_cons]
    · change _ ∈ foldl _ (s₀.keys []) _
      rw [← hkeys', hholds'.mem_keys]
      use blk
  · intro hall a x b heq hx
    obtain ⟨before, rest, rfl, rfl, hrest⟩ := map_eq_append_iff.mp heq
    obtain ⟨key, after, rfl, rfl, rfl⟩ := map_eq_cons_iff.mp hrest
    obtain ⟨v', u', t, ht, hholds', hkeys', -⟩ := accesses_spec hp hext hholds₀ before
    change _ ∈ foldl _ (s₀.keys []) _ at hx
    change _ ∈ (foldl _ (s₀.keys []) _).take _
    rw [← hkeys'] at hx ⊢
    obtain ⟨blk, hblk⟩ := hholds'.mem_keys.mp hx
    rw [← hholds'.inCache_iff hp hblk hi]
    apply hall before key after t blk rfl ht hblk

end

theorem eightBlocks_tracks :
  eightBlocks.Tracks
  := ⟨rfl, by decide, by decide⟩

/-- The same block is accessed twice. -/
theorem counters_iff_twice :
  eightBlocks.Tracks ∧ eightBlocks.tagExtractor = some eightBlocks.blkAlign
    ∧ ∃ s₀ s, FALRUM.tagsInit eightBlocks {} = .ok () s₀
      ∧ FALRUM.accesses eightBlocks [⟨0, false⟩, ⟨0, false⟩] s₀ = .ok () s
      ∧ ((s.hits 0 = lruHits (eightBlocks.trackedBlocks 0) [] [(0, false), (0, false)]
          ∧ s.misses 0 = lruMisses (eightBlocks.trackedBlocks 0) [] [(0, false), (0, false)])
        ↔ ∀ before key after t blk, [⟨0, false⟩, ⟨0, false⟩] = before ++ key :: after →
          FALRUM.accesses eightBlocks before s₀ = .ok () t →
          t.tagHash (eightBlocks.hashKey key) = some blk →
          (t.blks blk).inCachesMask.getLsbD 0 = true)
  := ⟨eightBlocks_tracks, rfl,
    counters_iff eightBlocks_tracks rfl [⟨0, false⟩, ⟨0, false⟩] (by decide)⟩

/-- If no function that extracts tags is registered, the first access stops the simulator. If there
is one, and the blocks A, B, C and A are accessed, the store has counted a hit for the cache of two
blocks, which does not have A any more at the second access. -/
theorem counters_wrong :
  (∃ s₀ s, FALRUM.tagsInit { eightBlocks with tagExtractor := none } {} = .ok () s₀
      ∧ FALRUM.access { eightBlocks with tagExtractor := none } ⟨0, false⟩ s₀
        = .error .badFunctionCall s)
    ∧ ∃ s₀ s, FALRUM.tagsInit eightBlocks {} = .ok () s₀
      ∧ FALRUM.accesses eightBlocks [⟨0, false⟩, ⟨64, false⟩, ⟨128, false⟩, ⟨0, false⟩] s₀
        = .ok () s
      ∧ s.hits 0 = 1
      ∧ lruHits (eightBlocks.trackedBlocks 0) [] [(0, false), (64, false), (128, false), (0, false)]
        = 0
  := by
  refine ⟨⟨_, _, rfl, rfl⟩, ?_⟩
  obtain ⟨s₀, hs₀, hholds, htags⟩ := tagsInit_holds eightBlocks_tracks
  obtain ⟨v, u, s, hs, -, -, hcounts⟩ := accesses_spec eightBlocks_tracks rfl hholds
    [⟨0, false⟩, ⟨64, false⟩, ⟨128, false⟩, ⟨0, false⟩]
  obtain ⟨hhits, -⟩ := hcounts 0 (by decide)
  rw [htags.hits] at hhits
  exact ⟨s₀, s, hs₀, hs, hhits, by decide⟩

end FALRU

end Gem5Arc
