import Gem5Arc.Base.PlainRange
import Gem5Arc.Lib.Run
import Mathlib.Data.List.TakeWhile

/-!
# Maps from address ranges

The class `AddrRangeMap` of `base/addr_range_map.hh`, for ranges that are not interleaved: a tree of
entries in the order of their ranges, and a cache of positions in the tree that were found last. A
query first looks at the cached positions, and then at the neighbours of the place of its range in
the tree.

A position is the entry at it. Entries are numbered in the order in which they are inserted, so
that an entry differs from an erased one with the same range. A cached position of an erased entry
stays what it was.

Erasing a range of positions removes only the first of them from the cache. So the queries are exact
in a run (`AddrRangeMap.Exact`) exactly if whenever a range of positions is erased, none of the
others is cached (`addrRangeMap_exact_iff`).
-/

namespace Gem5Arc

open AddrRange List

structure RangeEntry (V : Type) where
  id : ℕ
  range : AddrRange
  value : V
deriving DecidableEq

structure AddrRangeMap (V : Type) where
  tree : List (RangeEntry V) := []
  cache : List (RangeEntry V) := []
  /-- The number of the next entry. -/
  nextId : ℕ := 0

namespace AddrRangeMap

variable {V : Type} (maxCacheSize : ℕ)

def addNewEntryToCache (it : RangeEntry V) (cache : List (RangeEntry V)) : List (RangeEntry V) :=
  if maxCacheSize ≠ 0 then
    if cache.length ≥ maxCacheSize then
      -- The last position is overwritten, and moved to the front.
      if maxCacheSize > 1 then it :: cache.dropLast else cache.dropLast ++ [it]
    else it :: cache
  else cache

/-- Look for a cached entry, which is moved to the front of the cache. The entries before it are
given in reverse. -/
def findCached (cond : AddrRange → Except Fault Bool) :
    List (RangeEntry V) → List (RangeEntry V) →
      Except Fault (Option (RangeEntry V × List (RangeEntry V)))
  | _, [] => .ok none
  | passed, c :: rest => do
      if ← cond c.range then pure (some (c, c :: (passed.reverse ++ rest)))
      else findCached cond (c :: passed) rest

/-- Go back in the tree as long as the ranges merge. -/
def findBack (cond : AddrRange → Except Fault Bool) :
    List (RangeEntry V) → Except Fault (Option (RangeEntry V))
  | [] => .ok none
  | i :: rest => do
      if ← cond i.range then pure (some i)
      else
        match rest with
        | [] => pure none
        | next :: _ =>
          if next.range.mergesWith i.range then findBack cond rest else pure none

/-- The entries up to `upper_bound(r)`, and those from there on. -/
def upTo (r : AddrRange) (tree : List (RangeEntry V)) : List (RangeEntry V) :=
  tree.takeWhile fun e => !r.lt e.range

def upperBound (r : AddrRange) (tree : List (RangeEntry V)) : List (RangeEntry V) :=
  tree.dropWhile fun e => !r.lt e.range

/-- Does the entry at the upper bound, if there is one, meet the condition? -/
def findNext (cond : AddrRange → Except Fault Bool) (next : Option (RangeEntry V)) :
    Except Fault (Option (RangeEntry V)) :=
  match next with
  | none => .ok none
  | some e => do if ← cond e.range then pure (some e) else pure none

/-- Look for an entry in the tree. -/
def findInTree (r : AddrRange) (cond : AddrRange → Except Fault Bool)
    (tree : List (RangeEntry V)) : Except Fault (Option (RangeEntry V)) := do
  match ← findNext cond (upperBound r tree).head? with
  | some e => pure (some e)
  | none => findBack cond (upTo r tree).reverse

def find (r : AddrRange) (cond : AddrRange → Except Fault Bool) (m : AddrRangeMap V) :
    Except Fault (Option (RangeEntry V) × AddrRangeMap V) := do
  match ← findCached cond [] m.cache with
  | some (e, cache) => pure (some e, { m with cache })
  | none =>
    match ← findInTree r cond m.tree with
    | some e => pure (some e, { m with cache := addNewEntryToCache maxCacheSize e m.cache })
    | none => pure (none, m)

def contains (r : AddrRange) (m : AddrRangeMap V) :
    Except Fault (Option (RangeEntry V) × AddrRangeMap V) :=
  find maxCacheSize r (fun r1 => r.isSubset r1) m

def intersects (r : AddrRange) (m : AddrRangeMap V) :
    Except Fault (Option (RangeEntry V) × AddrRangeMap V) :=
  find maxCacheSize r (fun r1 => r.intersects r1) m

/-- Insert a range, unless it intersects another one. Returns the new entry. -/
def insert (r : AddrRange) (d : V) (m : AddrRangeMap V) :
    Except Fault (Option (RangeEntry V) × AddrRangeMap V) := do
  match ← intersects maxCacheSize r m with
  | (some _, m) => pure (none, m)
  | (none, m) =>
    let e : RangeEntry V := ⟨m.nextId, r, d⟩
    pure (some e, { m with
      tree := upTo r m.tree ++ e :: upperBound r m.tree
      nextId := m.nextId + 1 })

/-- `cache.remove(it)`. -/
def removeCached (it : RangeEntry V) (cache : List (RangeEntry V)) : List (RangeEntry V) :=
  cache.filter fun c => c.id ≠ it.id

/-- `erase(p)` for the position with this number. -/
def erase (p : ℕ) (m : AddrRangeMap V) : Except Fault (AddrRangeMap V) :=
  match m.tree[p]? with
  | none => .error .outOfBounds
  | some it => .ok { m with cache := removeCached it m.cache, tree := m.tree.eraseIdx p }

/-- `erase(p, q)` for the positions with these numbers. Every turn of the loop removes `p`. -/
def eraseRange (p q : ℕ) (m : AddrRangeMap V) : Except Fault (AddrRangeMap V) :=
  if p = q then .ok m
  else
    match m.tree[p]? with
    | none => .error .outOfBounds
    | some it =>
      .ok { m with
        cache := (List.range (q - p)).foldl (fun cache _ => removeCached it cache) m.cache
        tree := m.tree.take p ++ m.tree.drop q }

def clear (m : AddrRangeMap V) : AddrRangeMap V :=
  { m with tree := [], cache := [] }

inductive Call (V : Type) where
  | insert (r : AddrRange) (d : V)
  | erase (p : ℕ)
  | eraseRange (p q : ℕ)
  | clear
  | contains (r : AddrRange)
  | intersects (r : AddrRange)

def call : Call V → AddrRangeMap V → Except Fault (AddrRangeMap V)
  | .insert r d, m => Prod.snd <$> insert maxCacheSize r d m
  | .erase p, m => m.erase p
  | .eraseRange p q, m => m.eraseRange p q
  | .clear, m => .ok m.clear
  | .contains r, m => Prod.snd <$> contains maxCacheSize r m
  | .intersects r, m => Prod.snd <$> intersects maxCacheSize r m

/-- The calls that are made: ranges are plain, and positions are in the tree and in order. -/
def Made : Call V → AddrRangeMap V → Prop
  | .insert r _, _ => r.Plain
  | .erase p, m => p < m.tree.length
  | .eraseRange p q, m => p ≤ q ∧ q ≤ m.tree.length
  | .clear, _ => True
  | .contains r, _ => r.Plain
  | .intersects r, _ => r.Plain

/-- The answer is an entry of the map with the property, if there is one. -/
def Answers (m : AddrRangeMap V) (property : AddrRange → Prop)
    (out : Except Fault (Option (RangeEntry V) × AddrRangeMap V)) : Prop :=
  ∃ answer m', out = .ok (answer, m')
    ∧ (∀ e, answer = some e → e ∈ m.tree ∧ property e.range)
    ∧ (answer = none → ∀ e ∈ m.tree, ¬ property e.range)

/-- The queries are exact: they find a current entry if there is one, and a range is inserted
exactly if it intersects no range of the map. -/
structure Exact (m : AddrRangeMap V) : Prop where
  contains : ∀ r, r.Plain → Answers m r.Inside (contains maxCacheSize r m)
  intersects : ∀ r, r.Plain → Answers m r.Meeting (intersects maxCacheSize r m)
  insert : ∀ r d, r.Plain → ∃ out m', insert maxCacheSize r d m = .ok (out, m')
    ∧ (out.isSome = true ↔ ∀ e ∈ m.tree, ¬ r.Meeting e.range)

/-- Erasing a range of positions leaves no entry in the cache that is erased. -/
def Uncached : Call V → AddrRangeMap V → Prop
  | .eraseRange p q, m => ∀ e ∈ (m.tree.take q).drop (p + 1), e ∉ m.cache
  | _, _ => True

/-! ### Maps whose cache is current -/

/-- The entries are in order and apart, they are numbered, and every cached entry is in the tree. -/
structure Valid (m : AddrRangeMap V) : Prop where
  plain : ∀ e ∈ m.tree, e.range.Plain
  sorted : m.tree.Pairwise fun e f => e.range.end ≤ f.range.start
  distinct : m.tree.Pairwise fun e f => e.id ≠ f.id
  fresh : ∀ e ∈ m.tree, e.id < m.nextId
  current : ∀ e ∈ m.cache, e ∈ m.tree

variable {maxCacheSize} {m m' : AddrRangeMap V} {r : AddrRange}

theorem Valid.empty :
  Valid ({} : AddrRangeMap V)
  where
  plain := by simp
  sorted := .nil
  distinct := .nil
  fresh := by simp
  current := by simp

/-- Some entries are erased, and none of them stays in the cache. -/
theorem Valid.sublist (hm : m.Valid) {tree cache : List (RangeEntry V)}
    (htree : tree.Sublist m.tree) (hcache : ∀ e ∈ cache, e ∈ tree) :
  Valid { m with tree, cache }
  where
  plain := fun e he => hm.plain e (htree.subset he)
  sorted := hm.sorted.sublist htree
  distinct := hm.distinct.sublist htree
  fresh := fun e he => hm.fresh e (htree.subset he)
  current := hcache

/-- An address is in one entry at most. -/
theorem Valid.eq_of_meeting (hm : m.Valid) {e f : RangeEntry V} (he : e ∈ m.tree) (hf : f ∈ m.tree)
    (hmeet : e.range.Meeting f.range) :
  e = f
  := by
  by_contra hne
  have : Std.Symm fun e f : RangeEntry V =>
      e.range.end ≤ f.range.start ∨ f.range.end ≤ e.range.start := ⟨fun _ _ h => h.symm⟩
  have hpairs : m.tree.Pairwise fun e f : RangeEntry V =>
      e.range.end ≤ f.range.start ∨ f.range.end ≤ e.range.start :=
    hm.sorted.imp fun h => Or.inl h
  have hapart : e.range.end ≤ f.range.start ∨ f.range.end ≤ e.range.start :=
    hpairs.forall he hf hne
  obtain ⟨h₁, h₂⟩ := hmeet
  rcases hapart with h | h
  · bv_omega
  · bv_omega

theorem upTo_append_upperBound (r : AddrRange) (tree : List (RangeEntry V)) :
  upTo r tree ++ upperBound r tree = tree
  := takeWhile_append_dropWhile

variable {e : RangeEntry V} {tree : List (RangeEntry V)}

theorem mem_of_mem_upTo (he : e ∈ upTo r tree) :
  e ∈ tree
  := (takeWhile_sublist _).subset he

theorem mem_of_mem_upperBound (he : e ∈ upperBound r tree) :
  e ∈ tree
  := (dropWhile_sublist _).subset he

/-- The entries up to the upper bound do not start after the range. -/
theorem start_le_of_mem_upTo (hr : r.Plain) (he : e ∈ upTo r tree) :
  e.range.start ≤ r.start
  := by
  have hlt := mem_takeWhile_imp he
  rw [hr.lt, Bool.not_eq_true', decide_eq_false_iff_not] at hlt
  exact BitVec.not_lt.mp hlt

theorem start_lt_of_head_upperBound (hr : r.Plain) (he : (upperBound r tree).head? = some e) :
  r.start < e.range.start
  := by
  have hnot := head?_dropWhile_not (fun e : RangeEntry V => !r.lt e.range) tree
  unfold upperBound at he
  rw [he] at hnot
  simpa [hr.lt] using hnot

/-- The entries from the upper bound on start after the range. -/
theorem Valid.start_lt_of_mem_upperBound (hm : m.Valid) (hr : r.Plain)
    (he : e ∈ upperBound r m.tree) :
  ∃ f, (upperBound r m.tree).head? = some f ∧ r.start < f.range.start
    ∧ f.range.start ≤ e.range.start
  := by
  have hsorted := hm.sorted.sublist (dropWhile_sublist fun e => !r.lt e.range)
  change (upperBound r m.tree).Pairwise _ at hsorted
  cases hl : upperBound r m.tree with
  | nil =>
    rw [hl] at he
    cases he
  | cons f rest =>
    have hhead : (upperBound r m.tree).head? = some f := by
      rw [hl]
      rfl
    refine ⟨f, rfl, start_lt_of_head_upperBound hr hhead, ?_⟩
    rw [hl] at he hsorted
    rcases mem_cons.mp he with rfl | hrest
    · exact BitVec.le_refl _
    · have hend := (pairwise_cons.mp hsorted).1 e hrest
      have hne := (hm.plain f (mem_of_mem_upperBound (mem_of_mem_head? hhead))).nonempty
      bv_omega

/-- An entry that starts before the range and ends after its start is the last one up to the upper
bound. -/
theorem Valid.getLast_upTo (hm : m.Valid) (hr : r.Plain) (he : e ∈ m.tree)
    (hstart : e.range.start ≤ r.start) (hend : r.start < e.range.end) :
  (upTo r m.tree).getLast? = some e
  := by
  have hmem : e ∈ upTo r m.tree := by
    rw [← upTo_append_upperBound r m.tree] at he
    rcases mem_append.mp he with h | h
    · exact h
    · obtain ⟨f, -, hf, hfe⟩ := hm.start_lt_of_mem_upperBound hr h
      bv_omega
  obtain ⟨l₁, l₂, hl⟩ := append_of_mem hmem
  have hsorted := hm.sorted.sublist (takeWhile_sublist fun e => !r.lt e.range)
  change (upTo r m.tree).Pairwise _ at hsorted
  cases l₂ with
  | nil =>
    rw [hl, getLast?_append_cons]
    rfl
  | cons f rest =>
    have hf : f ∈ upTo r m.tree := by simp [hl]
    have hfr := start_le_of_mem_upTo hr hf
    rw [hl] at hsorted
    have hef := (pairwise_cons.mp (pairwise_append.mp hsorted).2.1).1 f mem_cons_self
    bv_omega

/-! ### Queries -/

section Query

variable {cond : AddrRange → Except Fault Bool} {property : AddrRange → Prop}
  [DecidablePred property]

theorem findNext_eq (hcond : ∀ s, s.Plain → cond s = .ok (decide (property s)))
    {next : Option (RangeEntry V)} (hnext : ∀ e, next = some e → e.range.Plain) :
  findNext cond next = .ok (next.filter fun e => decide (property e.range))
  := by
  cases next with
  | none => rfl
  | some e =>
    rw [findNext, hcond e.range (hnext e rfl), ok_bind, Option.filter_some]
    split_ifs
    · rfl
    · rfl

/-- Entries that are apart do not merge, so only the first position is looked at. -/
theorem findBack_eq {l : List (RangeEntry V)}
    (hmerge : l.Pairwise fun i j => j.range.mergesWith i.range = false) :
  findBack cond l = findNext cond l.head?
  := by
  cases l with
  | nil => rfl
  | cons i rest =>
    rw [findBack.eq_def]
    simp only [head?_cons, findNext]
    congr 1
    funext b
    cases rest with
    | nil => rfl
    | cons next rest =>
      have hnext := (pairwise_cons.mp hmerge).1 next mem_cons_self
      simp only [hnext, Bool.false_eq_true, if_false]

theorem Valid.findBack_upTo (hm : m.Valid) :
  findBack cond (upTo r m.tree).reverse = findNext cond (upTo r m.tree).getLast?
  := by
  rw [findBack_eq, head?_reverse]
  rw [pairwise_reverse]
  have hsub : (upTo r m.tree).Sublist m.tree := takeWhile_sublist _
  apply (hm.sorted.sublist hsub).imp_of_mem
  intro e f he hf hef
  have hne := (hm.plain e (hsub.subset he)).nonempty
  unfold mergesWith
  rw [Bool.and_eq_false_iff, Bool.and_eq_false_iff]
  left
  left
  rw [decide_eq_false_iff_not]
  bv_omega

/-- The neighbours of the upper bound are enough to find an entry. -/
def Local (property : AddrRange → Prop) (r : AddrRange) (m : AddrRangeMap V) : Prop :=
  ∀ e ∈ m.tree, property e.range →
    (∃ f, (upperBound r m.tree).head? = some f ∧ property f.range)
      ∨ ∃ f, (upTo r m.tree).getLast? = some f ∧ property f.range

/-- The answer is an entry of the map with the property, and there is one unless none has it. -/
def IsAnswer (m : AddrRangeMap V) (property : AddrRange → Prop) (answer : Option (RangeEntry V)) :
    Prop :=
  (∀ e, answer = some e → e ∈ m.tree ∧ property e.range)
    ∧ (answer = none → ∀ e ∈ m.tree, ¬ property e.range)

theorem Valid.findInTree_eq (hm : m.Valid)
    (hcond : ∀ s, s.Plain → cond s = .ok (decide (property s))) (hlocal : Local property r m) :
  ∃ answer, findInTree r cond m.tree = .ok answer ∧ IsAnswer m property answer
  := by
  have hnext : ∀ e, (upperBound r m.tree).head? = some e → e ∈ m.tree := fun e he =>
    mem_of_mem_upperBound (mem_of_mem_head? he)
  have hlast : ∀ e, (upTo r m.tree).getLast? = some e → e ∈ m.tree := fun e he =>
    mem_of_mem_upTo (mem_of_getLast? he)
  unfold findInTree
  rw [findNext_eq hcond fun e he => hm.plain e (hnext e he), ok_bind]
  cases hfound : (upperBound r m.tree).head?.filter fun e => decide (property e.range) with
  | some e =>
    rw [Option.filter_eq_some_iff, decide_eq_true_iff] at hfound
    refine ⟨some e, rfl, ?_, by simp⟩
    rintro _ ⟨⟩
    exact ⟨hnext e hfound.1, hfound.2⟩
  | none =>
    refine ⟨(upTo r m.tree).getLast?.filter fun e => decide (property e.range), ?_, ?_, ?_⟩
    · change findBack cond (upTo r m.tree).reverse = _
      rw [hm.findBack_upTo, findNext_eq hcond fun e he => hm.plain e (hlast e he)]
    · intro e he
      rw [Option.filter_eq_some_iff, decide_eq_true_iff] at he
      exact ⟨hlast e he.1, he.2⟩
    · intro hnone e he hprop
      rw [Option.filter_eq_none_iff] at hfound hnone
      rcases hlocal e he hprop with ⟨f, hf, hfprop⟩ | ⟨f, hf, hfprop⟩
      · exact hfound f hf (decide_eq_true hfprop)
      · exact hnone f hf (decide_eq_true hfprop)

variable {cache : List (RangeEntry V)}

/-- A search of the cache finds the first entry with the property. -/
theorem findCached_eq (hcond : ∀ s, s.Plain → cond s = .ok (decide (property s)))
    (passed : List (RangeEntry V)) (hplain : ∀ e ∈ cache, e.range.Plain) :
  (findCached cond passed cache = .ok none ∧ ∀ e ∈ cache, ¬ property e.range)
    ∨ ∃ e ∈ cache, property e.range
      ∧ ∃ cache', findCached cond passed cache = .ok (some (e, cache'))
        ∧ ∀ f ∈ cache', f ∈ passed ∨ f ∈ cache
  := by
  induction cache generalizing passed with
  | nil =>
    left
    exact ⟨rfl, by simp⟩
  | cons c rest ih =>
    rw [findCached, hcond c.range (hplain c mem_cons_self), ok_bind]
    by_cases hc : property c.range
    · right
      rw [if_pos (decide_eq_true hc)]
      refine ⟨c, mem_cons_self, hc, _, rfl, ?_⟩
      intro f hf
      simp only [mem_cons, mem_append, mem_reverse] at hf ⊢
      tauto
    · rw [if_neg (by simp [hc])]
      rcases ih (c :: passed) (forall_mem_cons.mp hplain).2 with
        ⟨hnone, hall⟩ | ⟨e, he, hprop, cache', hok, hmem⟩
      · left
        refine ⟨hnone, ?_⟩
        exact forall_mem_cons.mpr ⟨hc, hall⟩
      · right
        refine ⟨e, mem_cons_of_mem _ he, hprop, cache', hok, ?_⟩
        intro f hf
        have := hmem f hf
        simp only [mem_cons] at this ⊢
        tauto

theorem mem_of_mem_addNewEntryToCache {it : RangeEntry V}
    (he : e ∈ addNewEntryToCache maxCacheSize it cache) :
  e = it ∨ e ∈ cache
  := by
  unfold addNewEntryToCache at he
  split_ifs at he
  · exact (mem_cons.mp he).imp_right mem_of_mem_dropLast
  · exact (mem_append.mp he).symm.imp mem_singleton.mp mem_of_mem_dropLast
  · exact mem_cons.mp he
  · right
    exact he

/-- A query changes nothing but the cache, where only current entries are added. -/
structure Queried (m m' : AddrRangeMap V) : Prop where
  tree : m'.tree = m.tree
  nextId : m'.nextId = m.nextId
  cache : ∀ e ∈ m'.cache, e ∈ m.tree

theorem Valid.queried (hm : m.Valid) (h : Queried m m') :
  m'.Valid
  := by
  cases m'
  obtain ⟨rfl, rfl, hcache⟩ := h
  exact hm.sublist (.refl _) hcache

/-- A query of a map whose cache is current is exact. -/
theorem Valid.find_eq (hm : m.Valid) (hcond : ∀ s, s.Plain → cond s = .ok (decide (property s)))
    (hlocal : Local property r m) :
  ∃ answer m', find maxCacheSize r cond m = .ok (answer, m') ∧ Queried m m'
    ∧ IsAnswer m property answer
  := by
  unfold find
  rcases findCached_eq hcond [] fun e he => hm.plain e (hm.current e he) with
    ⟨hnone, -⟩ | ⟨e, he, hprop, cache', hok, hmem⟩
  · obtain ⟨answer, hfound, hsome, hnot⟩ := hm.findInTree_eq hcond hlocal
    rw [hnone, ok_bind]
    rw [hfound, ok_bind]
    cases answer with
    | none => exact ⟨none, m, rfl, ⟨rfl, rfl, hm.current⟩, hsome, hnot⟩
    | some e =>
      refine ⟨some e, _, rfl, ⟨rfl, rfl, ?_⟩, hsome, hnot⟩
      intro f hf
      rcases mem_of_mem_addNewEntryToCache hf with rfl | hf
      · exact (hsome f rfl).1
      · exact hm.current f hf
  · rw [hok, ok_bind]
    refine ⟨some e, _, rfl, ⟨rfl, rfl, ?_⟩, ?_, by simp⟩
    · intro f hf
      rcases hmem f hf with h | h
      · cases h
      · exact hm.current f h
    · rintro _ ⟨⟩
      exact ⟨hm.current e he, hprop⟩

end Query

theorem Valid.local_inside (hm : m.Valid) (hr : r.Plain) :
  Local r.Inside r m
  := by
  intro e he hin
  right
  exact ⟨e, hm.getLast_upTo hr he hin.1 (hin.meeting hr).1, hin⟩

theorem Valid.local_meeting (hm : m.Valid) (hr : r.Plain) :
  Local r.Meeting r m
  := by
  intro e he hmeet
  by_cases hstart : e.range.start ≤ r.start
  · right
    exact ⟨e, hm.getLast_upTo hr he hstart hmeet.1, hmeet⟩
  · left
    have hupper : e ∈ upperBound r m.tree := by
      rw [← upTo_append_upperBound r m.tree] at he
      rcases mem_append.mp he with h | h
      · exact absurd (start_le_of_mem_upTo hr h) hstart
      · exact h
    obtain ⟨f, hf, hrf, hfe⟩ := hm.start_lt_of_mem_upperBound hr hupper
    have hne := (hm.plain f (mem_of_mem_upperBound (mem_of_mem_head? hf))).nonempty
    obtain ⟨h₁, h₂⟩ := hmeet
    refine ⟨f, hf, ?_, ?_⟩
    · bv_omega
    · bv_omega

variable (maxCacheSize) in
theorem Valid.contains_eq (hm : m.Valid) (hr : r.Plain) :
  ∃ answer m', contains maxCacheSize r m = .ok (answer, m') ∧ Queried m m'
    ∧ IsAnswer m r.Inside answer
  := hm.find_eq (fun _ hs => hr.isSubset hs) (hm.local_inside hr)

variable (maxCacheSize) in
theorem Valid.intersects_eq (hm : m.Valid) (hr : r.Plain) :
  ∃ answer m', intersects maxCacheSize r m = .ok (answer, m') ∧ Queried m m'
    ∧ IsAnswer m r.Meeting answer
  := hm.find_eq (fun _ hs => hr.intersects hs) (hm.local_meeting hr)

/-! ### Insertions and erasures -/

/-- The map with a new entry. -/
def inserted (r : AddrRange) (d : V) (m : AddrRangeMap V) : AddrRangeMap V where
  tree := upTo r m.tree ++ ⟨m.nextId, r, d⟩ :: upperBound r m.tree
  cache := m.cache
  nextId := m.nextId + 1

theorem mem_inserted {d : V} :
  e ∈ (inserted r d m).tree ↔ e = ⟨m.nextId, r, d⟩ ∨ e ∈ m.tree
  := by
  conv_rhs => rw [← upTo_append_upperBound r m.tree]
  unfold inserted
  rw [mem_append, mem_cons, mem_append]
  tauto

theorem pairwise_inserted {R : RangeEntry V → RangeEntry V → Prop} {d : V} (h : m.tree.Pairwise R)
    (hafter : ∀ f ∈ upperBound r m.tree, R ⟨m.nextId, r, d⟩ f)
    (hbefore : ∀ e ∈ upTo r m.tree, R e ⟨m.nextId, r, d⟩) :
  (inserted r d m).tree.Pairwise R
  := by
  rw [← upTo_append_upperBound r m.tree, pairwise_append] at h
  refine pairwise_append.mpr ⟨h.1, pairwise_cons.mpr ⟨hafter, h.2.1⟩, ?_⟩
  intro e he
  exact forall_mem_cons.mpr ⟨hbefore e he, h.2.2 e he⟩

theorem Valid.of_inserted (hm : m.Valid) (hr : r.Plain) (d : V)
    (hapart : ∀ e ∈ m.tree, ¬ r.Meeting e.range) :
  (inserted r d m).Valid
  where
  plain := by
    intro e he
    rcases mem_inserted.mp he with rfl | he
    · exact hr
    · exact hm.plain e he
  sorted := by
    apply pairwise_inserted hm.sorted
    · intro f hf
      obtain ⟨g, -, hrg, hgf⟩ := hm.start_lt_of_mem_upperBound hr hf
      have hne := (hm.plain f (mem_of_mem_upperBound hf)).nonempty
      have hnot := hapart f (mem_of_mem_upperBound hf)
      unfold AddrRange.Meeting at hnot
      bv_omega
    · intro e he
      have hstart := start_le_of_mem_upTo hr he
      have hne := hr.nonempty
      have hnot := hapart e (mem_of_mem_upTo he)
      unfold AddrRange.Meeting at hnot
      bv_omega
  distinct := pairwise_inserted hm.distinct
    (fun f hf => (hm.fresh f (mem_of_mem_upperBound hf)).ne')
    fun e he => (hm.fresh e (mem_of_mem_upTo he)).ne
  fresh := by
    intro e he
    rcases mem_inserted.mp he with rfl | he
    · exact Nat.lt_succ_self m.nextId
    · exact (hm.fresh e he).trans (Nat.lt_succ_self m.nextId)
  current := by
    intro e he
    exact mem_inserted.mpr (.inr (hm.current e he))

variable (maxCacheSize) in
/-- An insertion into a map whose cache is current is exact. -/
theorem Valid.insert_eq (hm : m.Valid) (hr : r.Plain) (d : V) :
  ∃ out m', insert maxCacheSize r d m = .ok (out, m') ∧ m'.Valid
    ∧ (out.isSome = true ↔ ∀ e ∈ m.tree, ¬ r.Meeting e.range)
  := by
  obtain ⟨answer, m₁, hok, hq, hsome, hnone⟩ := hm.intersects_eq maxCacheSize hr
  unfold insert
  rw [hok, ok_bind]
  cases answer with
  | some e =>
    obtain ⟨he, hmeeting⟩ := hsome e rfl
    exact ⟨none, m₁, rfl, hm.queried hq, iff_of_false nofun fun h => h e he hmeeting⟩
  | none =>
    refine ⟨_, inserted r d m₁, rfl, (hm.queried hq).of_inserted hr d ?_, ?_⟩
    · rw [hq.tree]
      exact hnone rfl
    · exact ⟨fun _ => hnone rfl, fun _ => rfl⟩

variable {it : RangeEntry V} {cache : List (RangeEntry V)} {p q : ℕ}

theorem mem_removeCached :
  e ∈ removeCached it cache ↔ e ∈ cache ∧ e.id ≠ it.id
  := by
  simp [removeCached]

/-- Removing an entry again and again removes that entry only. -/
theorem mem_foldl_removeCached {n : ℕ} (hn : 0 < n) :
  e ∈ (List.range n).foldl (fun cache _ => removeCached it cache) cache
    ↔ e ∈ cache ∧ e.id ≠ it.id
  := by
  induction n, hn using Nat.le_induction with
  | base => simp [range_succ, mem_removeCached]
  | succ n _ ih =>
    rw [range_succ, foldl_append, foldl_cons, foldl_nil, mem_removeCached, ih]
    tauto

theorem Valid.erase_eq (hm : m.Valid) (hp : p < m.tree.length) :
  ∃ m', m.erase p = .ok m' ∧ m'.Valid
  := by
  unfold erase
  rw [getElem?_eq_getElem hp]
  refine ⟨_, rfl, hm.sublist (eraseIdx_sublist _ _) ?_⟩
  intro e he
  obtain ⟨hcached, hid⟩ := mem_removeCached.mp he
  have hmem := hm.current e hcached
  rw [mem_eraseIdx_iff_getElem]
  obtain ⟨i, hi, rfl⟩ := getElem_of_mem hmem
  refine ⟨i, hi, ?_, rfl⟩
  rintro rfl
  exact hid rfl

/-- The first of the positions that are erased is removed from the cache. -/
theorem eraseRange_eq (hpq : p < q) (hq : q ≤ m.tree.length) :
  ∃ it m', m.tree = m.tree.take p ++ it :: ((m.tree.take q).drop (p + 1) ++ m.tree.drop q)
    ∧ m.eraseRange p q = .ok m'
    ∧ m' = { m with tree := m.tree.take p ++ m.tree.drop q, cache := m'.cache }
    ∧ ∀ e, e ∈ m'.cache ↔ e ∈ m.cache ∧ e.id ≠ it.id
  := by
  have hp : p < (m.tree.take q).length := by
    rw [length_take]
    omega
  have htake : (m.tree.take q).take p = m.tree.take p := by
    rw [take_take, Nat.min_eq_left hpq.le]
  have hit : m.tree[p]? = some (m.tree.take q)[p] := by
    rw [getElem_take]
    exact getElem?_eq_getElem (by omega)
  unfold eraseRange
  rw [if_neg hpq.ne, hit]
  refine ⟨_, _, ?_, rfl, rfl, fun e => mem_foldl_removeCached (by omega)⟩
  rw [← cons_append, ← drop_eq_getElem_cons hp, ← append_assoc, ← htake, take_append_drop,
    take_append_drop]

section

variable (hm : m.Valid)

include hm

theorem Valid.eraseRange_valid (hpq : p ≤ q) (hq : q ≤ m.tree.length)
    (huncached : ∀ e ∈ (m.tree.take q).drop (p + 1), e ∉ m.cache) :
  ∃ m', m.eraseRange p q = .ok m' ∧ m'.Valid
  := by
  rcases hpq.eq_or_lt with rfl | hpq
  · exact ⟨m, if_pos rfl, hm⟩
  obtain ⟨it, m', hsplit, hok, hm', hcache⟩ := eraseRange_eq hpq hq
  have hsub : (m.tree.take p ++ m.tree.drop q).Sublist m.tree := by
    conv_rhs => rw [hsplit]
    exact (List.Sublist.refl _).append ((sublist_append_right _ _).trans (sublist_cons_self _ _))
  refine ⟨m', hok, ?_⟩
  rw [hm']
  apply hm.sublist hsub
  intro e he
  obtain ⟨hcached, hid⟩ := (hcache e).mp he
  have hmem := hm.current e hcached
  rw [hsplit] at hmem
  simp only [mem_append, mem_cons] at hmem ⊢
  rcases hmem with h | rfl | h | h
  · exact .inl h
  · exact absurd rfl hid
  · exact absurd hcached (huncached e h)
  · exact .inr h

/-- A map whose cache is current is exact. -/
theorem Valid.exact :
  Exact maxCacheSize m
  where
  contains := by
    intro r hr
    obtain ⟨answer, m', hok, -, hanswer⟩ := hm.contains_eq maxCacheSize hr
    exact ⟨answer, m', hok, hanswer⟩
  intersects := by
    intro r hr
    obtain ⟨answer, m', hok, -, hanswer⟩ := hm.intersects_eq maxCacheSize hr
    exact ⟨answer, m', hok, hanswer⟩
  insert := by
    intro r d hr
    obtain ⟨out, m', hok, -, hout⟩ := hm.insert_eq maxCacheSize hr d
    exact ⟨out, m', hok, hout⟩

variable (maxCacheSize) in
/-- A call that leaves no erased entry in the cache keeps the cache current. -/
theorem Valid.call {c : Call V} (hmade : Made c m) (huncached : Uncached c m) :
  ∃ m', call maxCacheSize c m = .ok m' ∧ m'.Valid
  := by
  cases c with
  | insert r d =>
    obtain ⟨out, m', hok, hvalid, -⟩ := hm.insert_eq maxCacheSize hmade d
    exact ⟨m', by rw [AddrRangeMap.call, hok]; rfl, hvalid⟩
  | erase p => exact hm.erase_eq hmade
  | eraseRange p q => exact hm.eraseRange_valid hmade.1 hmade.2 huncached
  | clear => exact ⟨m.clear, rfl, hm.sublist (nil_sublist _) (by simp)⟩
  | contains r =>
    obtain ⟨answer, m', hok, hq, -⟩ := hm.contains_eq maxCacheSize hmade
    exact ⟨m', by rw [AddrRangeMap.call, hok]; rfl, hm.queried hq⟩
  | intersects r =>
    obtain ⟨answer, m', hok, hq, -⟩ := hm.intersects_eq maxCacheSize hmade
    exact ⟨m', by rw [AddrRangeMap.call, hok]; rfl, hm.queried hq⟩

variable (maxCacheSize) in
/-- A query for the range of a cached entry returns that entry. -/
theorem Valid.contains_cached (hcache : ∀ f ∈ m'.cache, f ∈ m.cache) (he : e ∈ m'.cache) :
  ∃ m'', contains maxCacheSize e.range m' = .ok (some e, m'')
  := by
  have hmem : ∀ f ∈ m'.cache, f ∈ m.tree := fun f hf => hm.current f (hcache f hf)
  have hr := hm.plain e (hmem e he)
  rcases findCached_eq (fun _ hs => hr.isSubset hs) [] fun f hf => hm.plain f (hmem f hf) with
    ⟨-, hall⟩ | ⟨f, hf, hin, cache', hok, -⟩
  · exact absurd ⟨BitVec.le_refl _, BitVec.le_refl _⟩ (hall e he)
  · cases hm.eq_of_meeting (hmem e he) (hmem f hf) (hin.meeting hr)
    unfold contains find
    rw [hok]
    exact ⟨_, rfl⟩

/-- If a cached entry is erased with others before it, then the map is no longer exact. -/
theorem Valid.uncached (hpq : p ≤ q) (hq : q ≤ m.tree.length) (hok : m.eraseRange p q = .ok m')
    (hexact : Exact maxCacheSize m') :
  ∀ e ∈ (m.tree.take q).drop (p + 1), e ∉ m.cache
  := by
  intro e he hcached
  rcases hpq.eq_or_lt with rfl | hpq
  · rw [drop_eq_nil_of_le (by rw [length_take]; omega)] at he
    cases he
  obtain ⟨it, m₁, hsplit, hok', hm', hcache⟩ := eraseRange_eq hpq hq
  cases hok.symm.trans hok'
  have hdistinct := hm.distinct
  rw [hsplit, pairwise_append, pairwise_cons, pairwise_append] at hdistinct
  obtain ⟨-, ⟨hit_ne, -, -, hlater⟩, hearlier⟩ := hdistinct
  have hid : e.id ≠ it.id := (hit_ne e (mem_append_left _ he)).symm
  obtain ⟨m'', hfound⟩ := hm.contains_cached maxCacheSize
    (fun f hf => ((hcache f).mp hf).1) ((hcache e).mpr ⟨hcached, hid⟩)
  obtain ⟨answer, m₂, hok₂, hsome, -⟩ := hexact.contains e.range (hm.plain e (hm.current e hcached))
  cases hfound.symm.trans hok₂
  have hmem := (hsome e rfl).1
  rw [hm'] at hmem
  rcases mem_append.mp hmem with h | h
  · exact hearlier e h e (mem_cons_of_mem _ (mem_append_left _ he)) rfl
  · exact hlater e he e h rfl

theorem Valid.call_exact_iff {c : Call V} (hmade : Made c m) :
  (∃ m', AddrRangeMap.call maxCacheSize c m = .ok m' ∧ Exact maxCacheSize m') ↔ Uncached c m
  := by
  constructor
  · rintro ⟨m', hok, hexact⟩
    cases c with
    | eraseRange p q => exact hm.uncached hmade.1 hmade.2 hok hexact
    | insert | erase | clear | contains | intersects => trivial
  · intro huncached
    obtain ⟨m', hok, hvalid⟩ := hm.call maxCacheSize hmade huncached
    exact ⟨m', hok, hvalid.exact⟩

end

/-- Every query of a run is exact, and no erased entry is ever found, exactly if whenever a range of
positions is erased, none of the entries after the first is cached. -/
theorem addrRangeMap_exact_iff (maxCacheSize : ℕ) (calls : List (Call V))
    (hcalls : Lib.Meets (call maxCacheSize) Made calls {}) :
  Lib.Always (call maxCacheSize) (Exact maxCacheSize) calls {}
    ↔ Lib.Meets (call maxCacheSize) Uncached calls {}
  := by
  apply Lib.always_iff_meets_under (Q := Valid)
  · intro m c hm _ hmade
    exact hm.call_exact_iff hmade
  · intro m c m' hm _ hmade hok hexact
    have huncached := (hm.call_exact_iff hmade).mp ⟨m', hok, hexact⟩
    obtain ⟨m₁, hok₁, hvalid⟩ := hm.call maxCacheSize hmade huncached
    cases hok.symm.trans hok₁
    exact hvalid
  · exact Valid.empty
  · exact Valid.empty.exact
  · exact hcalls

/-- A run in which the positions that are erased are not cached. -/
theorem addrRangeMap_exact_iff_uncached :
  Lib.Always (call 1) (Exact 1)
    [.insert (AddrRange.plain 0 4) (), .insert (AddrRange.plain 8 12) (),
      .contains (AddrRange.plain 0 1), .eraseRange 0 2, .contains (AddrRange.plain 8 9)] {}
  := by
  apply (addrRangeMap_exact_iff 1 _ ?_).mpr
  · refine .of_cons trivial rfl (.of_cons trivial rfl (.of_cons trivial rfl
      (.of_cons ?_ rfl ⟨trivial, fun _ _ => trivial⟩)))
    change ∀ e ∈ [(⟨1, plain 8 12, ()⟩ : RangeEntry Unit)],
      e ∉ [(⟨0, plain 0 4, ()⟩ : RangeEntry Unit)]
    decide
  · exact .of_cons ⟨rfl, by decide⟩ rfl (.of_cons ⟨rfl, by decide⟩ rfl
      (.of_cons ⟨rfl, by decide⟩ rfl (.of_cons ⟨by decide, by decide⟩ rfl
        ⟨⟨rfl, by decide⟩, fun _ _ => trivial⟩)))

/-- Two entries are found and then erased together. The second one stays in the cache, and is found
again in a map that is empty. -/
theorem eraseRange_leaves_cached :
  ∃ m, Lib.exec (call 2)
      [.insert (AddrRange.plain 0 4) (), .insert (AddrRange.plain 8 12) (),
        .contains (AddrRange.plain 0 1), .contains (AddrRange.plain 8 9), .eraseRange 0 2] {}
        = .ok m
    ∧ m.tree = []
    ∧ ∃ m', contains 2 (AddrRange.plain 8 9) m = .ok (some ⟨1, AddrRange.plain 8 12, ()⟩, m')
  := ⟨_, rfl, rfl, _, rfl⟩

end AddrRangeMap

end Gem5Arc
