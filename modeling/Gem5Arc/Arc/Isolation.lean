import Gem5Arc.Arc.Run

/-!
# Isolation of sets

Two runs of the ARC policy that make the same calls on a set, in the same order, but any
calls on other sets. What the runs know of the set can differ for one reason only: a ghost
list is capped by the number of sets used so far, in any set. `isolation` says that the two
runs agree on the set when the cap test comes out the same at corresponding evictions, and
`isolation_broken` shows two runs in which it does not.
-/

namespace Gem5Arc.ARC

open Function

variable {E : Type}

/-! ### The victim depends on the data of the candidates only -/

section Congruence

variable {p : ℤ} {data data' : E → ARCReplData E} {now : Tick} {candidates : List E}

section

variable (h : ∀ e ∈ candidates, data e = data' e)

include h

theorem countLists_congr :
  countLists data candidates = countLists data' candidates
  := by
  apply List.foldl_ext
  intro acc e he
  rw [h e he]

theorem leastRecentlyUsed_congr (fromT1 : Bool) :
  leastRecentlyUsed data fromT1 now candidates = leastRecentlyUsed data' fromT1 now candidates
  := by
  rw [leastRecentlyUsed, leastRecentlyUsed]
  congr 1
  apply List.foldl_ext
  intro acc e he
  rw [h e he]

theorem selectVictim_congr :
  selectVictim p data now candidates = selectVictim p data' now candidates
  := by
  have hfind : candidates.find? (fun e => (data e).valid)
      = candidates.find? (fun e => (data' e).valid) := by
    apply List.find?_congr
    intro e he
    rw [h e he]
  rw [selectVictim, selectVictim, evictFromT1, evictFromT1, countLists_congr h,
    leastRecentlyUsed_congr h, hfind]

end

/-- Two caps that drop the front of a list alike leave the same list. -/
theorem push_congr {cap cap' : ℕ} {l : List Addr} {tag : Addr}
    (h : decide (l.length + 1 > cap) = decide (l.length + 1 > cap')) :
  SetState.push cap l tag = SetState.push cap' l tag
  := by
  rw [decide_eq_decide] at h
  rw [SetState.push, SetState.push]
  simp only [h]

end Congruence

/-! ### Labelled runs -/

/-- The test `ghostList.size() > ghostB1.size()` of the eviction a call makes: whether the
front of the ghost list is dropped. -/
def Op.dropsFront (getSet : E → ℕ) (s : State E) : Op E → Bool
  | .getVictim (first :: rest) now =>
    let v := s.arc.view (getSet first)
    match selectVictim v.p s.data now (first :: rest) with
    | none => false
    | some e =>
      decide ((v.ghost ((s.data e).listId == 1)).length + 1
        > max s.arc.size (getSet first + 1))
  | _ => false

/-- The candidates for a victim are entries of one set. -/
def Op.OneSet (getSet : E → ℕ) : Op E → Prop
  | .getVictim (first :: rest) _ => ∀ e ∈ rest, getSet e = getSet first
  | _ => True

/-- A call, the victim it returns, and whether it drops the front of a ghost list. -/
structure Label (E : Type) where
  op : Op E
  victim : Option E
  dropped : Bool

/-- The label is about the set. -/
def Label.on (getSet : E → ℕ) (set : ℕ) (a : Label E) : Bool :=
  a.op.set getSet == some set

/-- A successful call about one set. -/
structure Step [DecidableEq E] (getSet : E → ℕ) (s : State E) (a : Label E) (t : State E) :
    Prop where
  oneSet : a.op.OneSet getSet
  step : step getSet a.op s = .ok (a.victim, t)
  dropped : a.dropped = a.op.dropsFront getSet s

/-- Two states agree on a set: on its ghost lists, its target size, and the data of its
entries. -/
structure AgreeOn (getSet : E → ℕ) (set : ℕ) (s t : State E) : Prop where
  view : s.arc.view set = t.arc.view set
  data : ∀ e, getSet e = set → s.data e = t.data e

/-- The relation two runs keep. -/
private structure Related (getSet : E → ℕ) (set : ℕ) (s t : State E) : Prop where
  left : s.Linked
  right : t.Linked
  agree : AgreeOn getSet set s t

private theorem Related.symm {getSet : E → ℕ} {set : ℕ} {s t : State E}
    (h : Related getSet set s t) :
  Related getSet set t s
  := ⟨h.right, h.left, ⟨h.agree.view.symm, fun e he => (h.agree.data e he).symm⟩⟩

section Calls

variable [DecidableEq E] {getSet : E → ℕ} {set : ℕ} {s t s' t' : State E} {op : Op E}
  {v v' : Option E}

/-- Writing the data of an entry of another set keeps the agreement. -/
private theorem agreeOn_setData {e : E} (h : getSet e ≠ set) (data : ARCReplData E) :
  AgreeOn getSet set (s.setData e data) s
  := by
  constructor
  · rfl
  · intro e' he'
    apply update_of_ne
    rintro rfl
    apply h he'

/-- A call about another set changes nothing of a set. -/
theorem step_frame (hs : s.Linked) (hop : op.set getSet ≠ some set)
    (h : step getSet op s = .ok (v, t)) :
  AgreeOn getSet set t s
  := by
  cases op with
  | reset e now =>
    have he : getSet e ≠ set := fun he => hop (congrArg some he)
    obtain ⟨-, i, set', -, hdata, hview, -⟩ := step_reset hs h
    constructor
    · rw [hview, update_of_ne he.symm]
    · rw [hdata]
      apply (agreeOn_setData he _).data
  | touch e now | invalidate e | setTag e tag =>
    cases h
    apply agreeOn_setData fun he => hop (congrArg some he)
  | getVictim candidates now =>
    cases candidates with
    | nil =>
      cases h
      constructor
      · rfl
      · intro _ _
        rfl
    | cons first rest =>
      have he : getSet first ≠ set := fun he => hop (congrArg some he)
      obtain ⟨-, hdata, hview, -⟩ := step_getVictim h
      constructor
      · rw [hview, update_of_ne he.symm]
      · intro e _
        rw [hdata]

/-- Writing the same data of an entry keeps the agreement. -/
private theorem agreeOn_setData_both (h : AgreeOn getSet set s s') (e : E) (data : ARCReplData E) :
  AgreeOn getSet set (s.setData e data) (s'.setData e data)
  := by
  constructor
  · apply h.view
  · intro e' he'
    simp only [State.setData, update_apply]
    split_ifs
    · rfl
    · apply h.data e' he'

/-- Rewriting the data of an entry of the set keeps the agreement. -/
private theorem agreeOn_edit (h : AgreeOn getSet set s s') {e : E} (he : getSet e = set)
    (f : ARCReplData E → ARCReplData E) :
  AgreeOn getSet set (s.setData e (f (s.data e))) (s'.setData e (f (s'.data e)))
  := by
  rw [h.data e he]
  apply agreeOn_setData_both h

/-- A victim for a set is chosen and recorded alike in states that agree on it. -/
private theorem getVictim_agree {first : E} {rest : List E} {now : Tick}
     (hagree : AgreeOn getSet (getSet first) s s')
    (hone : ∀ e ∈ rest, getSet e = getSet first)
    (hdrop : (Op.getVictim (first :: rest) now).dropsFront getSet s
      = (Op.getVictim (first :: rest) now).dropsFront getSet s')
    (h : step getSet (.getVictim (first :: rest) now) s = .ok (v, t))
    (h' : step getSet (.getVictim (first :: rest) now) s' = .ok (v', t')) :
  AgreeOn getSet (getSet first) t t' ∧ v = v'
  := by
  obtain ⟨hv, hdata, hview, -⟩ := step_getVictim h
  obtain ⟨hv', hdata', hview', -⟩ := step_getVictim h'
  have hcandidates : ∀ e ∈ first :: rest, s.data e = s'.data e := by
    intro e he
    apply hagree.data
    rcases List.mem_cons.mp he with rfl | he
    · rfl
    · apply hone e he
  have hselect :
      selectVictim (s'.arc.view (getSet first)).p s.data now (first :: rest)
        = selectVictim (s'.arc.view (getSet first)).p s'.data now (first :: rest) :=
    selectVictim_congr hcandidates
  have hvv' : v = v' := by
    rw [hv, hv', hagree.view, hselect]
  subst hvv'
  refine ⟨⟨?_, ?_⟩, rfl⟩
  · rw [hview, hview', update_self, update_self, hagree.view]
    cases v with
    | none => rfl
    | some e =>
      have he := hcandidates e (selectVictim_mem hv.symm).1
      simp only [Op.dropsFront, hagree.view, hselect, ← hv', he] at hdrop
      simp only [SetAfterVictim, SetState.add, he, push_congr hdrop]
  · intro e he
    rw [hdata, hdata']
    apply hagree.data e he

/-- The same call about a set, from states that agree on it, keeps the agreement and returns
the same victim, if it drops the front of a ghost list in both states or in neither. -/
theorem step_agree (hs : s.Linked) (hs' : s'.Linked) (hagree : AgreeOn getSet set s s')
    (hop : op.set getSet = some set) (hone : op.OneSet getSet)
    (hdrop : op.dropsFront getSet s = op.dropsFront getSet s') (h : step getSet op s = .ok (v, t))
    (h' : step getSet op s' = .ok (v', t')) :
  AgreeOn getSet set t t' ∧ v = v'
  := by
  cases op with
  | reset e now =>
    obtain rfl := Option.some.inj hop
    obtain ⟨rfl, i, w, hpromote, hdata, hview, -⟩ := step_reset hs h
    obtain ⟨rfl, i', w', hpromote', hdata', hview', -⟩ := step_reset hs' h'
    rw [hagree.view, hagree.data e rfl, hpromote'] at hpromote
    cases hpromote
    refine ⟨⟨?_, ?_⟩, rfl⟩
    · rw [hview, hview', update_self, update_self]
    · rw [hdata, hdata']
      apply (agreeOn_edit hagree rfl (resetData now i)).data
  | touch e now =>
    cases h
    cases h'
    exact ⟨agreeOn_edit hagree (Option.some.inj hop) (ARC.touch now), rfl⟩
  | invalidate e =>
    cases h
    cases h'
    exact ⟨agreeOn_edit hagree (Option.some.inj hop) ARC.invalidate, rfl⟩
  | setTag e tag =>
    cases h
    cases h'
    exact ⟨agreeOn_edit hagree (Option.some.inj hop) fun data => { data with tag }, rfl⟩
  | getVictim candidates now =>
    cases candidates with
    | nil => cases hop
    | cons first rest =>
      obtain rfl := Option.some.inj hop
      apply getVictim_agree hagree hone hdrop h h'

private theorem related_of_off (s : State E) (a : Label E) (t u : State E)
    (ha : a.on getSet set = false) (hstep : Step getSet s a t) (h : Related getSet set s u) :
  Related getSet set t u
  := by
  have hframe := step_frame h.left (by simpa [Label.on] using ha) hstep.step
  refine ⟨step_linked h.left hstep.step, h.right, ⟨?_, ?_⟩⟩
  · rw [hframe.view, h.agree.view]
  · intro e he
    rw [hframe.data e he, h.agree.data e he]

private theorem related_of_on (s : State E) (a : Label E) (t s' : State E) (a' : Label E)
    (t' : State E) (ha : a.on getSet set = true)
    (hab : (a.op, a.dropped) = (a'.op, a'.dropped))
    (hstep : Step getSet s a t) (hstep' : Step getSet s' a' t')
    (h : Related getSet set s s') :
  Related getSet set t t' ∧ a.victim = a'.victim
  := by
  obtain ⟨hop, hdrop⟩ := Prod.mk.inj hab
  have hstep'' := hstep'.step
  rw [← hop] at hstep''
  rw [hstep.dropped, hstep'.dropped, ← hop] at hdrop
  obtain ⟨hagree, hvictim⟩ := step_agree h.left h.right h.agree
    (by simpa [Label.on] using ha) hstep.oneSet hdrop hstep.step hstep''
  exact ⟨⟨step_linked h.left hstep.step, step_linked h.right hstep'.step, hagree⟩, hvictim⟩

/-- Take two runs from the empty policy that make the same calls about a set, and whose
evictions from the set drop the front of a ghost list alike. Then the runs end with the same
ghost lists and the same target size of the set, the same data of its entries, and have
returned the same victims for it. -/
theorem isolation (getSet : E → ℕ) (set : ℕ) {l₁ l₂ : List (Label E)} {s₁ s₂ : State E}
    (h₁ : Lib.Run (Step getSet) State.init l₁ s₁) (h₂ : Lib.Run (Step getSet) State.init l₂ s₂)
    (hops : (l₁.filter (Label.on getSet set)).map Label.op
      = (l₂.filter (Label.on getSet set)).map Label.op)
    (hdropped : (l₁.filter (Label.on getSet set)).map Label.dropped
      = (l₂.filter (Label.on getSet set)).map Label.dropped) :
  s₁.arc.B1 set = s₂.arc.B1 set ∧ s₁.arc.B2 set = s₂.arc.B2 set
    ∧ s₁.arc.P set = s₂.arc.P set
    ∧ (∀ e, getSet e = set → s₁.data e = s₂.data e)
    ∧ (l₁.filter (Label.on getSet set)).map Label.victim
      = (l₂.filter (Label.on getSet set)).map Label.victim
  := by
  have hmatch : List.Forall₂ (fun a b : Label E => (a.op, a.dropped) = (b.op, b.dropped))
      (l₁.filter (Label.on getSet set)) (l₂.filter (Label.on getSet set)) := by
    rw [← Lib.map_eq_map_iff_forall₂, ← List.zip_map', hops, hdropped, List.zip_map']
  obtain ⟨hrel, hvictims⟩ := Lib.Run.unwinding (fun s t => Related.symm) related_of_off
    related_of_on h₁ h₂ ⟨init_linked, init_linked, ⟨rfl, fun _ _ => rfl⟩⟩ hmatch
  obtain ⟨hB1, hB2, hP⟩ := SetState.mk.inj hrel.agree.view
  use hB1, hB2, hP, hrel.agree.data
  rw [Lib.map_eq_map_iff_forall₂]
  apply hvictims

end Calls

/-- The entries are numbers, each in its own set. A run that uses set 1 first, and one that
does not, make the same calls about set 0 and agree on it. -/
theorem isolation_interleaved :
  ∃ (l₁ l₂ : List (Label ℕ)) (s₁ s₂ : State ℕ),
    Lib.Run (Step id) State.init l₁ s₁ ∧ Lib.Run (Step id) State.init l₂ s₂
      ∧ l₁.length = 2 ∧ l₂.length = 3
      ∧ s₁.arc.B1 0 = s₂.arc.B1 0 ∧ s₁.data 0 = s₂.data 0
  := by
  have h₁ : Lib.Run (Step id) (State.init : State ℕ)
      [⟨.reset 0 1, none, false⟩, ⟨.getVictim [0] 2, some 0, false⟩] _ :=
    .cons ⟨trivial, rfl, rfl⟩ (.single ⟨by simp [Op.OneSet], rfl, rfl⟩)
  have h₂ : Lib.Run (Step id) (State.init : State ℕ)
      [⟨.reset 0 1, none, false⟩, ⟨.reset 1 1, none, false⟩, ⟨.getVictim [0] 2, some 0, false⟩] _ :=
    .cons ⟨trivial, rfl, rfl⟩ (.cons ⟨trivial, rfl, rfl⟩
      (.single ⟨by simp [Op.OneSet], rfl, rfl⟩))
  obtain ⟨hB1, -, -, hdata, -⟩ := isolation id 0 h₁ h₂ rfl rfl
  exact ⟨_, _, _, _, h₁, h₂, rfl, rfl, hB1, hdata 0 rfl⟩

/-- The same, with a second eviction from set 0: it drops the front of B1 only if set 1 has
not been used. -/
theorem isolation_broken :
  ∃ (l₁ l₂ : List (Label ℕ)) (s₁ s₂ : State ℕ),
    Lib.Run (Step id) State.init l₁ s₁ ∧ Lib.Run (Step id) State.init l₂ s₂
      ∧ (l₁.filter (Label.on id 0)).map Label.op = (l₂.filter (Label.on id 0)).map Label.op
      ∧ s₁.arc.B1 0 = [0] ∧ s₂.arc.B1 0 = [0, 0]
  := ⟨[⟨.reset 0 1, none, false⟩, ⟨.getVictim [0] 2, some 0, false⟩,
      ⟨.getVictim [0] 3, some 0, true⟩],
    [⟨.reset 0 1, none, false⟩, ⟨.reset 1 1, none, false⟩,
      ⟨.getVictim [0] 2, some 0, false⟩, ⟨.getVictim [0] 3, some 0, false⟩], _, _,
    .cons ⟨trivial, rfl, rfl⟩ (.cons ⟨by simp [Op.OneSet], rfl, rfl⟩
      (.cons ⟨by simp [Op.OneSet], rfl, rfl⟩ (.nil _))),
    .cons ⟨trivial, rfl, rfl⟩ (.cons ⟨trivial, rfl, rfl⟩ (.cons ⟨by simp [Op.OneSet], rfl, rfl⟩
      (.cons ⟨by simp [Op.OneSet], rfl, rfl⟩ (.nil _)))), rfl, rfl, rfl⟩

end Gem5Arc.ARC
