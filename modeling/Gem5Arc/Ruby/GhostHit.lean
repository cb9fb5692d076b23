import Gem5Arc.Ruby.ArcCache

/-!
# Ghost hits

ARC should insert a line into T2 exactly when the line was evicted from its set before and is
still recorded in a ghost list. To say which line a ghost entry stands for, a history runs
along with the cache. It has, for every set, the addresses of the victims whose tags are in B1
and B2, in the same order, and the addresses of all victims (`Victims`).

Since every tag is 0, a line is inserted into T2 whenever the set has a recorded victim at
all. `ghostHit_iff` says in which states this is right.
-/

namespace Gem5Arc

open Function List SetState

/-! ### The victims of a set -/

/-- The addresses of the victims of a set: those recorded in B1, those recorded in B2, and
all. -/
structure Victims where
  b1 : List Addr := []
  b2 : List Addr := []
  chosen : List Addr := []

namespace Victims

/-- An address is recorded in a ghost list. -/
def Recorded (w : Victims) (address : Addr) : Prop := address ∈ w.b1 ∨ address ∈ w.b2

/-- A victim is recorded, in B1 or B2, with ghost lists capped at `cap`. -/
def record (cap : ℕ) (isB1 : Bool) (address : Addr) (w : Victims) : Victims where
  b1 := if isB1 then SetState.push cap w.b1 address else w.b1
  b2 := if isB1 then w.b2 else SetState.push cap w.b2 address
  chosen := address :: w.chosen

/-- A tag is promoted in a set with ghost lists `v`: what is recorded at its place goes. -/
def promote (tag : Addr) (v : SetState) (w : Victims) : Victims :=
  if tag ∈ v.b1 then { w with b1 := w.b1.eraseIdx (v.b1.idxOf tag) }
  else if tag ∈ v.b2 then { w with b2 := w.b2.eraseIdx (v.b2.idxOf tag) }
  else w

/-- The victims are recorded along with the ghost lists. -/
structure Follows (w : Victims) (v : SetState) : Prop where
  b1 : w.b1.length = v.b1.length
  b2 : w.b2.length = v.b2.length
  chosen : ∀ address, w.Recorded address → address ∈ w.chosen

variable {w : Victims} {v : SetState} {tag : Addr}

/-- Recording a victim in the set records it here. -/
theorem Follows.record (h : w.Follows v) (cap : ℕ) (isB1 : Bool) (address tag : Addr) :
  (w.record cap isB1 address).Follows (v.add cap isB1 tag)
  := by
  have hpush (l l' : List Addr) (hl : l.length = l'.length) :
      (push cap l address).length = (push cap l' tag).length := by
    rw [length_push, length_push, hl]
  cases isB1 with
  | false =>
    refine ⟨h.b1, hpush w.b2 v.b2 h.b2, ?_⟩
    rintro address' (h1 | h2)
    · apply mem_cons_of_mem _ (h.chosen address' (Or.inl h1))
    · rcases mem_push h2 with hold | rfl
      · apply mem_cons_of_mem _ (h.chosen address' (Or.inr hold))
      · apply mem_cons_self
  | true =>
    refine ⟨hpush w.b1 v.b1 h.b1, h.b2, ?_⟩
    rintro address' (h1 | h2)
    · rcases mem_push h1 with hold | rfl
      · apply mem_cons_of_mem _ (h.chosen address' (Or.inl hold))
      · apply mem_cons_self
    · apply mem_cons_of_mem _ (h.chosen address' (Or.inr h2))

private theorem length_eraseIdx_idxOf {l l' : List Addr} (hl : l.length = l'.length)
    (htag : tag ∈ l') :
  (l.eraseIdx (l'.idxOf tag)).length = (l'.erase tag).length
  := by
  have hlt : l'.idxOf tag < l.length := by
    rw [hl]
    apply List.idxOf_lt_length_of_mem htag
  rw [List.length_eraseIdx_of_lt hlt, List.length_erase_of_mem htag, hl]

/-- Promoting a tag in the set drops the record at its place here. -/
theorem Follows.promote {v' : SetState} {i : ℕ} (h : w.Follows v)
    (hpromote : v.promote tag = .ok (i, v')) :
  (w.promote tag v).Follows v'
  := by
  rw [SetState.promote] at hpromote
  split_ifs at hpromote with hdiv h1 h2
  · cases hpromote
    rw [Victims.promote, if_pos h1]
    refine ⟨length_eraseIdx_idxOf h.b1 h1, h.b2, ?_⟩
    rintro address (hmem | hmem)
    · apply h.chosen address (Or.inl (mem_of_mem_eraseIdx hmem))
    · apply h.chosen address (Or.inr hmem)
  · cases hpromote
    rw [Victims.promote, if_neg h1, if_pos h2]
    refine ⟨h.b1, length_eraseIdx_idxOf h.b2 h2, ?_⟩
    rintro address (hmem | hmem)
    · apply h.chosen address (Or.inl hmem)
    · apply h.chosen address (Or.inr (mem_of_mem_eraseIdx hmem))
  · cases hpromote
    rw [Victims.promote, if_neg h1, if_neg h2]
    apply h

/-- Nothing is recorded in a set whose ghost lists are empty. -/
theorem Follows.not_recorded (h : w.Follows v) (hnil : v.b1 = [] ∧ v.b2 = []) (address : Addr) :
  ¬w.Recorded address
  := by
  obtain ⟨h1, h2⟩ := hnil
  have hb1 : w.b1 = [] := by
    rw [← length_eq_zero_iff, h.b1, h1, length_nil]
  have hb2 : w.b2 = [] := by
    rw [← length_eq_zero_iff, h.b2, h2, length_nil]
  rw [Recorded, hb1, hb2]
  simp

/-- Promoting the tag 0 tells the recorded victims from the other lines if nothing is recorded,
or if the line is recorded and the promotion does not divide by zero. -/
theorem Follows.promote_exact_iff (h : w.Follows v) (hv : v.Untagged) (address : Addr) :
  (∃ i v', v.promote 0 = .ok (i, v')
      ∧ (i = 2 ↔ w.Recorded address) ∧ (address ∉ w.chosen → i = 1))
    ↔ (v.b1 = [] ∧ v.b2 = []) ∨ (w.Recorded address ∧ ¬(v.b1.length = 1 ∧ v.b2 ≠ []))
  := by
  have hpromote := promote_zero hv
  by_cases hnil : v.b1 = [] ∧ v.b2 = []
  · have hnot := h.not_recorded hnil address
    obtain ⟨h1, h2⟩ := hnil
    simp only [h1, h2, length_nil, Nat.zero_ne_one, false_and, ne_eq, not_true_eq_false,
      if_false] at hpromote
    exact iff_of_true ⟨1, v, hpromote, by simp [hnot], fun _ => rfl⟩ (.inl ⟨h1, h2⟩)
  · constructor
    · rintro ⟨i, v', hok, htwo, -⟩
      right
      rw [hpromote] at hok
      split_ifs at hok with hdiv h1 h2
      · cases hok
        exact ⟨htwo.mp rfl, hdiv⟩
      · cases hok
        exact ⟨htwo.mp rfl, hdiv⟩
      · apply absurd _ hnil
        simpa using And.intro h1 h2
    · rintro (hnil' | ⟨hrecorded, hdiv⟩)
      · apply absurd hnil' hnil
      · have htwo : ∃ v', v.promote 0 = .ok (2, v') := by
          rw [hpromote, if_neg hdiv]
          split_ifs with h1 h2
          · exact ⟨_, rfl⟩
          · exact ⟨_, rfl⟩
          · apply absurd _ hnil
            simpa using And.intro h1 h2
        obtain ⟨v', hok⟩ := htwo
        refine ⟨2, v', hok, ?_, ?_⟩
        · simp [hrecorded]
        · intro hnot
          apply absurd (h.chosen address hrecorded) hnot

end Victims

namespace CacheMemory

/-! ### The history of a cache -/

/-- The history after a call. -/
def nextHistory (g : Geometry) (op : Op) (m : ArcCache) (h : ℕ → Victims) : ℕ → Victims :=
  match op with
  | .cacheProbe address now =>
    let set := g.cacheSet address
    match m.victim g set now with
    | none => h
    | some slot =>
      match m.cache slot with
      | none => h
      | some entry =>
        Function.update h set ((h set).record (max m.policy.size (set + 1))
          ((m.replacementData slot).listId == 1) entry.address)
  | .allocate address _ _ =>
    let set := g.cacheSet address
    match m.openWay g set with
    | none => h
    | some way =>
      Function.update h set
        ((h set).promote (m.replacementData ⟨set, way⟩).tag (m.policy.view set))
  | _ => h

/-- A call of the cache, with the history. -/
structure HistoryStep (g : Geometry) (s : ArcCache × (ℕ → Victims)) (op : Op)
    (t : ArcCache × (ℕ → Victims)) : Prop where
  step : Step g arc s.1 op t.1
  history : t.2 = nextHistory g op s.1 s.2

/-- A cache that some run leads to, with the history of this run. -/
def HistoryReachable (g : Geometry) (m : ArcCache) (h : ℕ → Victims) : Prop :=
  Lib.Reachable (HistoryStep g) (init g arc, fun _ => {}) (m, h)

variable {g : Geometry} {m m' : ArcCache} {h : ℕ → Victims}

theorem HistoryReachable.reachable (hr : HistoryReachable g m h) :
  Reachable g arc m
  := Lib.Reachable.map Prod.fst (fun _ _ _ hstep => hstep.step) hr

private theorem follows_update {v : SetState} {w : Victims} {set : ℕ}
    (hf : ∀ set, (h set).Follows (m.policy.view set)) (hw : w.Follows v)
    (hview : m'.policy.view = update m.policy.view set v) (set' : ℕ) :
  (update h set w set').Follows (m'.policy.view set')
  := by
  rw [hview, update_apply, update_apply]
  split_ifs
  · apply hw
  · apply hf

/-- A call records and drops the same in the history as in the ghost lists. -/
theorem step_follows {op : Op} (hm : Indexed g m) (hf : ∀ set, (h set).Follows (m.policy.view set))
    (hstep : Step g arc m op m') (set : ℕ) :
  (nextHistory g op m h set).Follows (m'.policy.view set)
  := by
  cases op with
  | cacheProbe address now =>
    obtain ⟨⟨v, m''⟩, hprobe, rfl⟩ := map_eq_ok.mp hstep.2
    obtain ⟨slot, entry, hvictim, hentry, -, hprobed⟩ := cacheProbe_arc hm hprobe
    simp only [nextHistory, hvictim, hentry]
    apply follows_update hf _ hprobed.view
    apply (hf _).record
  | allocate address entry now =>
    obtain ⟨⟨slot, m''⟩, hallocate, rfl⟩ := map_eq_ok.mp hstep.2
    obtain ⟨-, -, hset, hopen, hinsert⟩ := allocate_eq_ok.mp hallocate
    obtain ⟨i, v, hpromote, hinserted⟩ := insertAt_arc hinsert
    simp only [nextHistory, ← hset, hopen]
    apply follows_update hf _ hinserted.view
    apply (hf _).promote hpromote
  | deallocate address =>
    obtain ⟨slot, entry, -, -, rfl⟩ := (deallocate_spec hm).mp hstep.2
    apply hf
  | _ =>
    have hpolicy : m'.policy = m.policy := by
      rcases (step_upkeep rfl hstep).data with ⟨-, hpolicy⟩ | ⟨slot, now, -, -, hpolicy⟩
      · apply hpolicy
      · apply hpolicy
    rw [hpolicy]
    apply hf

theorem HistoryReachable.follows (hr : HistoryReachable g m h) (set : ℕ) :
  (h set).Follows (m.policy.view set)
  := by
  have hinv : Indexed g m ∧ ∀ set, (h set).Follows (m.policy.view set) := by
    apply Lib.Reachable.invariant (P := fun s : ArcCache × (ℕ → Victims) =>
      Indexed g s.1 ∧ ∀ set, (s.2 set).Follows (s.1.policy.view set)) _ hr
    · refine ⟨init_indexed, fun _ => ⟨rfl, rfl, ?_⟩⟩
      rintro address (hmem | hmem)
      · cases hmem
      · cases hmem
    · rintro ⟨m, h⟩ op ⟨m', h'⟩ ⟨hm, hf⟩ ⟨hstep, rfl⟩
      exact ⟨step_indexed hm hstep, step_follows hm hf hstep⟩
  apply hinv.2

/-! ### Exact hits -/

/-- Allocating a line puts its data into T2 exactly when the line is one of the recorded
victims of its set, and into T1 if the line was never chosen as a victim. -/
def ExactHit (g : Geometry) (address : Addr) (entry : AbstractCacheEntry) (now : Tick)
    (m : ArcCache) (w : Victims) : Prop :=
  ∃ slot m', m.allocate g arc address entry now = .ok (slot, m')
    ∧ ((m'.replacementData slot).listId = 2 ↔ w.Recorded address)
    ∧ (address ∉ w.chosen → (m'.replacementData slot).listId = 1)

/-- A line that can be allocated goes to the list that promoting the tag 0 in its set gives. -/
theorem exactHit_iff (hm : Indexed g m) (ht : Tracked m) {address : Addr}
    (entry : AbstractCacheEntry) (now : Tick) (hlookup : m.lookup g address = .ok none)
    (havail : m.cacheAvail g address = .ok true) (w : Victims) :
  m.ExactHit g address entry now w
    ↔ ∃ i v, (m.policy.view (g.cacheSet address)).promote 0 = .ok (i, v)
      ∧ (i = 2 ↔ w.Recorded address) ∧ (address ∉ w.chosen → i = 1)
  := by
  constructor
  · rintro ⟨slot, m', hallocate, htwo, hone⟩
    obtain ⟨-, -, hset, -, hinsert⟩ := allocate_eq_ok.mp hallocate
    obtain ⟨i, v, hpromote, hinserted⟩ := insertAt_arc hinsert
    rw [ht.tag, hset] at hpromote
    rw [hinserted.data, update_self] at htwo hone
    exact ⟨i, v, hpromote, htwo, hone⟩
  · rintro ⟨i, v, hpromote, htwo, hone⟩
    obtain ⟨way, hopen⟩ := hm.exists_openWay hlookup havail
    have hpromote' : (m.policy.view (g.cacheSet address)).promote
        (m.replacementData ⟨g.cacheSet address, way⟩).tag = .ok (i, v) := by
      rw [ht.tag, hpromote]
    obtain ⟨m', hinsert⟩ := exists_insertAt_arc address entry now hpromote'
    obtain ⟨i', v', hpromote'', hinserted⟩ := insertAt_arc hinsert
    rw [hpromote'] at hpromote''
    cases hpromote''
    refine ⟨_, m', allocate_eq_ok.mpr ⟨hlookup, havail, rfl, hopen, hinsert⟩, ?_⟩
    rw [hinserted.data, update_self]
    exact ⟨htwo, hone⟩

/-- In every state that a run leads to, with the history of the run, and for every line that
can be allocated there: the hit is exact if nothing is recorded in the set, or if the line
itself is recorded and promoting it does not divide by zero. In all other states it is not. -/
theorem ghostHit_iff (hr : HistoryReachable g m h) {address : Addr} (entry : AbstractCacheEntry)
    (now : Tick) (hlookup : m.lookup g address = .ok none)
    (havail : m.cacheAvail g address = .ok true) :
  m.ExactHit g address entry now (h (g.cacheSet address))
    ↔ let v := m.policy.view (g.cacheSet address)
      (v.b1 = [] ∧ v.b2 = [])
        ∨ ((h (g.cacheSet address)).Recorded address ∧ ¬(v.b1.length = 1 ∧ v.b2 ≠ []))
  := by
  have hm := reachable_indexed hr.reachable
  have ht := reachable_tracked hr.reachable
  have hf := hr.follows (g.cacheSet address)
  rw [exactHit_iff hm ht entry now hlookup havail]
  apply hf.promote_exact_iff (ht.ghost (g.cacheSet address))

/-- One line has been allocated, and nothing is recorded: the hit of the second line is exact. -/
theorem ghostHit_second_line :
  ∃ m h, HistoryReachable threeSets m h
    ∧ m.lookup threeSets 128 = .ok none ∧ m.cacheAvail threeSets 128 = .ok true
    ∧ m.ExactHit threeSets 128 {} 2 (h (threeSets.cacheSet 128))
  := by
  have hr : HistoryReachable threeSets _ _ :=
    ⟨[.allocate 0 {} 1], .cons ⟨⟨trivial, rfl⟩, rfl⟩ (.nil _)⟩
  exact ⟨_, _, hr, rfl, rfl, (ghostHit_iff hr {} 2 rfl rfl).mpr (Or.inl ⟨rfl, rfl⟩)⟩

/-- Three lines of one set are allocated into two ways. The first is chosen as the victim and
goes, and the third, which was never in the cache, is inserted into T2. -/
theorem ghostHit_new_line :
  ∃ m h slot m', HistoryReachable threeSets m h
    ∧ m.allocate threeSets arc 256 {} 4 = .ok (slot, m')
    ∧ (m'.replacementData slot).listId = 2
    ∧ (h (threeSets.cacheSet 256)).chosen = [0]
    ∧ ¬m.ExactHit threeSets 256 {} 4 (h (threeSets.cacheSet 256))
  := by
  refine ⟨_, _, _, _, ⟨[.allocate 0 {} 1, .allocate 128 {} 2, .cacheProbe 256 3, .deallocate 0],
    .cons (t := (_, _)) ⟨⟨trivial, rfl⟩, rfl⟩ (.cons (t := (_, _)) ⟨⟨trivial, rfl⟩, rfl⟩
      (.cons (t := (_, _)) ⟨⟨trivial, rfl⟩, rfl⟩ (.cons (t := (_, _)) ⟨⟨trivial, rfl⟩, rfl⟩
        (.nil _))))⟩, rfl, rfl, rfl, ?_⟩
  rintro ⟨slot, m, hallocate, -, hone⟩
  cases hallocate
  nomatch hone (by decide)

end CacheMemory

end Gem5Arc
