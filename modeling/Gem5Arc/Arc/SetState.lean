import Gem5Arc.Arc.Policy

/-!
# ARC one set at a time

What ARC keeps for one set is a `SetState`: the two ghost lists and the target size. The
operations of a set act on its `SetState` alone, except that the length of a ghost list is
capped by a number from outside the set. `SetState.add` and `SetState.promote` say what they
do; `promote` is where the policy can divide by zero.

`ARC.view` reads off the `SetState` of every set. The theorems `promote_ok`,
`addToGhost_view`, `reset_ok` and `getVictim_cons` say that the operations of the policy
act on the set of their entry as the operations of `SetState` do, and leave every other set
alone.
-/

namespace Gem5Arc

open Function List

/-- The ghost lists and the target size of one set. -/
structure SetState where
  b1 : List Addr
  b2 : List Addr
  p : ℤ

namespace SetState

/-- A set that has not been used. -/
def empty : SetState := ⟨[], [], 0⟩

/-- The ghost list B1 or B2. -/
def ghost (v : SetState) (isB1 : Bool) : List Addr := if isB1 then v.b1 else v.b2

/-- Replace the ghost list B1 or B2. -/
def setGhost (v : SetState) (isB1 : Bool) (l : List Addr) : SetState :=
  if isB1 then { v with b1 := l } else { v with b2 := l }

/-- A list with a tag added at the back, without its front if it is then longer than `cap`. -/
def push (cap : ℕ) (l : List Addr) (tag : Addr) : List Addr :=
  if l.length + 1 > cap then (l ++ [tag]).tail else l ++ [tag]

/-- The set after an eviction, with ghost lists capped at `cap`. -/
def add (cap : ℕ) (isB1 : Bool) (tag : Addr) (v : SetState) : SetState :=
  v.setGhost isB1 (push cap (v.ghost isB1) tag)

/-- By how much the target size moves after a hit in a ghost list that then has `hit`
elements, when the other ghost list has `other`. -/
def delta (hit other : ℕ) : ℕ := if hit ≥ other then 1 else (other + hit - 1) / hit

/-- The ghost list a hit leaves empty while the other one is not: the size of the first is
then the divisor of the adjustment. -/
def DividesByZero (tag : Addr) (v : SetState) : Prop :=
  (tag ∈ v.b1 ∧ v.b1.length = 1 ∧ v.b2 ≠ [])
    ∨ (tag ∉ v.b1 ∧ tag ∈ v.b2 ∧ v.b2.length = 1 ∧ v.b1 ≠ [])

instance (tag : Addr) (v : SetState) : Decidable (v.DividesByZero tag) :=
  inferInstanceAs (Decidable (_ ∨ _))

def hitB1 (tag : Addr) (v : SetState) : SetState :=
  let b1 := v.b1.erase tag
  { v with
    b1 := b1
    p := min (v.p + delta b1.length v.b2.length) (b1.length + v.b2.length) }

def hitB2 (tag : Addr) (v : SetState) : SetState :=
  let b2 := v.b2.erase tag
  { v with
    b2 := b2
    p := max (v.p - delta b2.length v.b1.length) 0 }

/-- The list a newly inserted block with a tag goes to, and the set after it. -/
def promote (tag : Addr) (v : SetState) : Except Fault (ℕ × SetState) :=
  if v.DividesByZero tag then .error .divisionByZero
  else if tag ∈ v.b1 then .ok (2, v.hitB1 tag)
  else if tag ∈ v.b2 then .ok (2, v.hitB2 tag)
  else .ok (1, v)

@[simp]
theorem ghost_true (v : SetState) :
  v.ghost true = v.b1
  := rfl

@[simp]
theorem ghost_false (v : SetState) :
  v.ghost false = v.b2
  := rfl

theorem ghost_setGhost (v : SetState) (isB1 isB1' : Bool) (l : List Addr) :
  (v.setGhost isB1 l).ghost isB1' = if isB1' = isB1 then l else v.ghost isB1'
  := by
  cases isB1 with
  | false =>
    cases isB1' with
    | false => rfl
    | true => rfl
  | true =>
    cases isB1' with
    | false => rfl
    | true => rfl

theorem length_push {cap : ℕ} {l : List Addr} {tag : Addr} :
  (push cap l tag).length = if l.length + 1 > cap then l.length else l.length + 1
  := by
  rw [push]
  split_ifs with h
  · simp
  · simp

end SetState

namespace ARC

variable {E : Type} {arc : ARC} {set i : ℕ} {p : ℤ}

/-- The ghost lists and the target size of every set. -/
def view (arc : ARC) (set : ℕ) : SetState := ⟨arc.B1 set, arc.B2 set, arc.P set⟩

/-! ### Writing one set -/

variable {α : Type} {tag : Addr} {v : SetState} {f : Fault} {getSet : E → ℕ} {now : Tick}
  {data : ARCReplData E} {e : E} {replacementData : E → ARCReplData E} {candidates : List E}

private theorem getD_set (l : List α) (s t : ℕ) (a d : α) (h : s < l.length) :
  (l.set s a).getD t d = if t = s then a else l.getD t d
  := by
  by_cases hts : t = s
  · subst hts
    simp [h]
  · simp [hts, Ne.symm hts]

private theorem getD_resize (l : List α) (n t : ℕ) (d : α) :
  (resize l n d).getD t d = l.getD t d
  := by
  rw [getD_eq_getElem?_getD, getD_eq_getElem?_getD, resize, getElem?_append]
  by_cases h : t < l.length
  · simp [h]
  · rw [if_neg h, getElem?_replicate, getElem?_eq_none (by omega)]
    split_ifs
    · rfl
    · rfl

section

variable (arc : ARC) (set : ℕ)

@[simp]
theorem ensureSet_view :
  (arc.ensureSet set).view = arc.view
  := by
  funext t
  rw [ensureSet]
  split_ifs with h
  · simp only [view, B1, B2, P, getD_resize]
  · rfl

@[simp]
theorem ensureSet_size :
  (arc.ensureSet set).size = max arc.size (set + 1)
  := by
  rw [ensureSet]
  split_ifs with h
  · simp only [size, resize, length_append, length_replicate] at h ⊢
    omega
  · rw [size] at h ⊢
    omega

@[simp]
theorem setGhost_size (isB1 : Bool) (l : List Addr) :
  (arc.setGhost set isB1 l).size = arc.size
  := by
  cases isB1 with
  | false => rfl
  | true => simp [setGhost, size]

@[simp]
theorem setP_size (p : ℤ) :
  (arc.setP set p).size = arc.size
  := rfl

theorem setGhost_view (isB1 : Bool) (l : List Addr) (h : set < arc.size) :
  (arc.setGhost set isB1 l).view
    = update arc.view set ((arc.view set).setGhost isB1 l)
  := by
  funext t
  have h2 : set < arc.ghostB2.length := by
    rw [arc.ghostB2_length]
    apply h
  by_cases hts : t = set
  · subst hts
    cases isB1 with
    | false => simp [setGhost, view, SetState.setGhost, B1, B2, P, h2]
    | true =>
      rw [size] at h
      simp [setGhost, view, SetState.setGhost, B1, B2, P, h]
  · rw [update_of_ne hts]
    cases isB1 with
    | false => simp only [setGhost, view, B1, B2, P, Bool.false_eq_true, if_false,
        getD_set _ _ _ _ _ h2, if_neg hts]
    | true => simp only [setGhost, view, B1, B2, P, if_true, getD_set _ _ _ _ _ h, if_neg hts]

theorem setP_view (p : ℤ) (h : set < arc.size) :
  (arc.setP set p).view = update arc.view set { arc.view set with p := p }
  := by
  funext t
  have hP : set < arc.targetP.length := by
    rw [arc.targetP_length]
    apply h
  by_cases hts : t = set
  · subst hts
    simp [setP, view, B1, B2, P, hP]
  · rw [update_of_ne hts]
    simp only [setP, view, B1, B2, P, getD_set _ _ _ _ _ hP, if_neg hts]

/-! ### The operations on the set of an entry -/

theorem ghost_eq (isB1 : Bool) :
  arc.ghost set isB1 = (arc.view set).ghost isB1
  := rfl

@[simp]
theorem addToGhost_size (isB1 : Bool) (tag : Addr) :
  (arc.addToGhost set isB1 tag).size = arc.size
  := setGhost_size ..

theorem addToGhost_view (isB1 : Bool) (tag : Addr) (h : set < arc.size) :
  (arc.addToGhost set isB1 tag).view
    = update arc.view set ((arc.view set).add arc.size isB1 tag)
  := by
  rw [addToGhost, setGhost_view _ _ _ _ h, SetState.add, SetState.push, ghost_eq,
    length_append, length_singleton]

end

/-- The adjustment divides by zero when the ghost list that was hit is empty and the other
one is not. -/
private theorem delta_eq (hit other : ℕ) :
  delta hit other
    = if hit = 0 ∧ 0 < other then .error .divisionByZero else .ok (SetState.delta hit other)
  := by
  rw [delta, SetState.delta]
  by_cases h : hit ≥ other
  · rw [if_pos h, if_pos h, if_neg (by omega)]
    rfl
  · rw [if_neg h, if_neg h]
    by_cases h' : hit = 0
    · rw [if_pos (by omega), divide, if_pos h']
    · rw [if_neg (by omega), divide, if_neg h']

/-- Erasing an element leaves a list empty exactly when it was the only one. -/
private theorem length_erase_eq_zero {l : List Addr} (h : tag ∈ l) :
  (l.erase tag).length = 0 ↔ l.length = 1
  := by
  rw [length_erase_of_mem h]
  have hpos := length_pos_of_mem h
  omega

/-- A tag is promoted that is in a ghost list. -/
private theorem promote_ghost (arc : ARC) (set : ℕ) (tag : Addr) (isB1 : Bool) (hs : set < arc.size)
    (hv : arc.view set = v) (hmiss : isB1 = false → tag ∉ v.b1) (h : tag ∈ v.ghost isB1) :
  ((v.ghost isB1).length = 1 ∧ v.ghost (!isB1) ≠ [] → arc.promote set tag = .error .divisionByZero)
    ∧ (¬((v.ghost isB1).length = 1 ∧ v.ghost (!isB1) ≠ []) →
      ∃ arc', arc.promote set tag = .ok (2, arc')
        ∧ arc'.view = update arc.view set (if isB1 then v.hitB1 tag else v.hitB2 tag)
        ∧ arc'.size = arc.size)
  := by
  have hview := setGhost_view arc set isB1 ((v.ghost isB1).erase tag) hs
  have hset : (arc.setGhost set isB1 ((v.ghost isB1).erase tag)).view set
      = v.setGhost isB1 ((v.ghost isB1).erase tag) := by
    rw [hview, update_self, hv]
  have hpromote : arc.promote set tag
      = (arc.setGhost set isB1 ((v.ghost isB1).erase tag)).adjustP set isB1
          >>= fun arc' => pure (2, arc') := by
    cases isB1 with
    | false =>
      simp only [promote, removeFromGhost, ghost_eq, hv, SetState.ghost_true, if_neg (hmiss rfl),
        if_pos h, Bool.false_eq_true, if_false, if_true]
    | true => simp only [promote, removeFromGhost, ghost_eq, hv, if_pos h, if_true]
  rw [hpromote, ← length_erase_eq_zero h, ← length_pos_iff]
  cases isB1 with
  | _ =>
    simp only [SetState.setGhost, SetState.ghost, Bool.false_eq_true, if_false, if_true]
      at hset hview
    obtain ⟨hB1, hB2, hP⟩ := SetState.mk.inj hset
    simp only [adjustP, SetState.ghost, Bool.not_false, Bool.not_true, Bool.false_eq_true,
      if_false, if_true, delta_eq, hB1, hB2, hP]
    constructor
    · intro hdiv
      rw [if_pos hdiv, error_bind, error_bind]
    · intro hdiv
      rw [if_neg hdiv, ok_bind]
      refine ⟨_, rfl, ?_, ?_⟩
      · rw [setP_view _ _ _ (by simpa using hs), hset, hview, update_idem]
        rfl
      · simp

private theorem promote_miss (arc : ARC) (set : ℕ) (tag : Addr) (hv : arc.view set = v)
    (h1 : tag ∉ v.b1) (h2 : tag ∉ v.b2) :
  arc.promote set tag = .ok (1, arc)
  := by
  simp only [promote, removeFromGhost, ghost_eq, hv, SetState.ghost_true, SetState.ghost_false,
    if_neg h1, if_neg h2, Bool.false_eq_true, if_false, pure_eq_ok]

/-- If the set faults when a tag is promoted, so does the policy. -/
theorem promote_error (hs : set < arc.size) (h : (arc.view set).promote tag = .error f) :
  arc.promote set tag = .error f
  := by
  rw [SetState.promote] at h
  split_ifs at h with hdiv h1 h2
  cases h
  rcases hdiv with ⟨h1, h⟩ | ⟨h1, h2, h⟩
  · apply (promote_ghost arc set tag true hs rfl nofun h1).1 h
  · apply (promote_ghost arc set tag false hs rfl (fun _ => h1) h2).1 h

/-- If promoting a tag takes the set to `v`, the policy does the same to the set, and nothing
to the others. -/
theorem promote_ok (hs : set < arc.size) (h : (arc.view set).promote tag = .ok (i, v)) :
  ∃ arc', arc.promote set tag = .ok (i, arc')
    ∧ arc'.view = update arc.view set v ∧ arc'.size = arc.size
  := by
  rw [SetState.promote] at h
  split_ifs at h with hdiv h1 h2
  · cases h
    apply (promote_ghost arc set tag true hs rfl nofun h1).2
    intro h
    apply hdiv (Or.inl ⟨h1, h⟩)
  · cases h
    apply (promote_ghost arc set tag false hs rfl (fun _ => h1) h2).2
    intro h
    apply hdiv (Or.inr ⟨h1, h2, h⟩)
  · cases h
    use arc, promote_miss arc set tag rfl h1 h2
    rw [update_eq_self]
    exact ⟨rfl, rfl⟩

/-- The data a successful insertion leaves. -/
def resetData (now : Tick) (i : ℕ) (data : ARCReplData E) : ARCReplData E :=
  { data with lastTouchTick := now, valid := true, listId := i }

/-- Inserting a block whose data is linked to an entry of a set faults as promoting its tag
in the set does. -/
theorem reset_error (he : data.entry = some e)
    (h : (arc.view (getSet e)).promote data.tag = .error f) :
  reset getSet now data arc = .error f
  := by
  have hs : getSet e < (arc.ensureSet (getSet e)).size := by
    rw [ensureSet_size]
    omega
  rw [← ensureSet_view arc (getSet e)] at h
  simp only [reset, he, promote_error hs h, error_bind]

/-- Inserting a block whose data is linked to an entry of a set does to the set what
promoting its tag does, and nothing to the other sets. -/
theorem reset_ok (now : Tick) (he : data.entry = some e)
    (h : (arc.view (getSet e)).promote data.tag = .ok (i, v)) :
  ∃ arc', reset getSet now data arc = .ok (resetData now i data, arc')
    ∧ arc'.view = update arc.view (getSet e) v
    ∧ arc'.size = max arc.size (getSet e + 1)
  := by
  have hs : getSet e < (arc.ensureSet (getSet e)).size := by
    rw [ensureSet_size]
    omega
  rw [← ensureSet_view arc (getSet e)] at h
  obtain ⟨arc', hpromote, hview, hsize⟩ := promote_ok hs h
  use arc'
  rw [ensureSet_view] at hview
  rw [ensureSet_size] at hsize
  refine ⟨?_, hview, hsize⟩
  simp only [reset, he, hpromote, ok_bind, pure_eq_ok, resetData]

/-- A successful insertion of a block whose data is linked to an entry comes from a
successful promotion in the set of the entry. -/
theorem reset_inv {data' : ARCReplData E} {arc arc' : ARC} (he : data.entry = some e)
    (h : reset getSet now data arc = .ok (data', arc')) :
  ∃ i v, (arc.view (getSet e)).promote data.tag = .ok (i, v)
    ∧ data' = resetData now i data
    ∧ arc'.view = update arc.view (getSet e) v
    ∧ arc'.size = max arc.size (getSet e + 1)
  := by
  cases hv : (arc.view (getSet e)).promote data.tag with
  | error f =>
    rw [reset_error he hv] at h
    cases h
  | ok r =>
    obtain ⟨i, v⟩ := r
    obtain ⟨arc'', hreset, hview, hsize⟩ := reset_ok now he hv
    rw [hreset] at h
    cases h
    exact ⟨i, v, rfl, rfl, hview, hsize⟩

/-! ### The victim -/

private theorem foldl_lru_mem (replacementData : E → ARCReplData E) (fromT1 : Bool)
    (candidates : List E) (acc : Tick × Option E) (e : E)
    (h : (candidates.foldl (fun (oldest, victim) entry =>
        let data := replacementData entry
        if data.valid && ((fromT1 && data.listId == 1) || (!fromT1 && data.listId == 2)) then
          if data.lastTouchTick < oldest then
            (data.lastTouchTick, some entry)
          else
            (oldest, victim)
        else
          (oldest, victim)) acc).2 = some e) :
  acc.2 = some e ∨ (e ∈ candidates ∧ (replacementData e).valid = true)
  := by
  induction candidates generalizing acc with
  | nil => left; apply h
  | cons c candidates ih =>
    rcases ih _ h with hacc | ⟨hmem, hvalid⟩
    · simp only at hacc
      split_ifs at hacc with hsel hold
      · right
        cases hacc
        rw [Bool.and_eq_true] at hsel
        exact ⟨mem_cons_self .., hsel.1⟩
      · left; apply hacc
      · left; apply hacc
    · right
      exact ⟨mem_cons_of_mem _ hmem, hvalid⟩

/-- The victim is a valid candidate. -/
theorem selectVictim_mem (h : selectVictim p replacementData now candidates = some e) :
  e ∈ candidates ∧ (replacementData e).valid = true
  := by
  rw [selectVictim] at h
  cases hlru : leastRecentlyUsed replacementData (evictFromT1 p replacementData candidates) now
      candidates with
  | some v =>
    rw [hlru] at h
    cases h
    rcases foldl_lru_mem _ _ _ _ _ hlru with hacc | hmem
    · cases hacc
    · apply hmem
  | none =>
    rw [hlru] at h
    have hvalid := find?_some h
    exact ⟨mem_of_find?_eq_some h, hvalid⟩

/-- There is a victim as soon as some candidate is valid. -/
theorem exists_selectVictim (he : e ∈ candidates) (hvalid : (replacementData e).valid = true) :
  ∃ v, selectVictim p replacementData now candidates = some v
  := by
  rw [selectVictim]
  cases leastRecentlyUsed replacementData (evictFromT1 p replacementData candidates) now
      candidates with
  | some v => use v
  | none =>
    apply Option.isSome_iff_exists.mp
    rw [find?_isSome]
    exact ⟨e, he, hvalid⟩

/-- The set after the victim `victim` has been chosen. -/
def SetAfterVictim (replacementData : E → ARCReplData E) (cap : ℕ) (victim : Option E)
    (v : SetState) : SetState :=
  match victim with
  | none => v
  | some e => v.add cap ((replacementData e).listId == 1) (replacementData e).tag

/-- Choosing a victim reads the target size of the set of the first candidate, and records
the victim in a ghost list of this set alone. -/
theorem getVictim_cons (getSet : E → ℕ) (replacementData : E → ARCReplData E) (now : Tick)
    (first : E) (rest : List E) (arc : ARC) :
  (getVictim getSet replacementData now (first :: rest) arc).1
      = selectVictim (arc.view (getSet first)).p replacementData now (first :: rest)
    ∧ (getVictim getSet replacementData now (first :: rest) arc).2.view
      = update arc.view (getSet first)
          (SetAfterVictim replacementData (max arc.size (getSet first + 1))
            (selectVictim (arc.view (getSet first)).p replacementData now (first :: rest))
            (arc.view (getSet first)))
    ∧ (getVictim getSet replacementData now (first :: rest) arc).2.size
      = max arc.size (getSet first + 1)
  := by
  have hs : getSet first < (arc.ensureSet (getSet first)).size := by
    rw [ensureSet_size]
    omega
  have hp : (arc.ensureSet (getSet first)).P (getSet first) = (arc.view (getSet first)).p := by
    rw [← ensureSet_view arc (getSet first)]
    rfl
  rw [getVictim]
  simp only [hp]
  cases selectVictim (arc.view (getSet first)).p replacementData now (first :: rest) with
  | none => simp [SetAfterVictim]
  | some e => simp [SetAfterVictim, addToGhost_view _ _ _ _ hs]

end ARC

end Gem5Arc
