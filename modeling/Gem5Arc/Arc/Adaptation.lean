import Gem5Arc.Arc.Run

/-!
# The direction of adaptation

A hit in B1 says that T1 is too small, and a hit in B2 that T2 is. So the target size of T1 should
not get smaller after a hit in B1, and not larger after a hit in B2.

In every state of a run the target size of a set is between 0 and the sum of the lengths of its
ghost lists (`exec_bounded`). A hit in B1 caps the target size at this sum after the hit has taken
an element out of B1. So it moves the target size in the wrong direction exactly if the target size
was at the sum before (`adapts_iff`).
-/

namespace Gem5Arc

open SetState

namespace SetState

/-- The target size is between 0 and the sum of the lengths of the ghost lists. -/
structure Bounded (v : SetState) : Prop where
  nonneg : 0 ≤ v.p
  le : v.p ≤ v.b1.length + v.b2.length

variable {tag : Addr} {v v' : SetState} {i : ℕ}

theorem hitB1_bounded (h : v.Bounded) :
  (v.hitB1 tag).Bounded
  := by
  have hnonneg := h.nonneg
  constructor
  · simp only [hitB1]
    omega
  · simp only [hitB1]
    apply min_le_right

theorem one_le_delta {hit other : ℕ} (h : 0 < hit ∨ other = 0) :
  1 ≤ delta hit other
  := by
  rw [delta]
  split_ifs with hge
  · apply le_refl
  · have hpos : 0 < hit := by omega
    apply (Nat.one_le_div_iff hpos).mpr
    omega

/-- A hit in B2 makes the target size smaller by at least 1, unless it is 0. -/
theorem hitB2_bounded (h : v.Bounded) (h1 : tag ∉ v.b1) (h2 : tag ∈ v.b2)
    (hdivide : ¬v.DividesByZero tag) :
  (v.hitB2 tag).Bounded
  := by
  have hle := h.le
  have hpos := List.length_pos_of_mem h2
  have hlength := List.length_erase_of_mem h2
  have hrest : 0 < (v.b2.erase tag).length ∨ v.b1.length = 0 := by
    by_contra hnot
    rw [not_or, List.length_eq_zero_iff] at hnot
    apply hdivide
    right
    exact ⟨h1, h2, by omega, hnot.2⟩
  have hdelta := one_le_delta hrest
  constructor
  · simp only [hitB2]
    apply le_max_right
  · simp only [hitB2]
    omega

theorem length_le_length_push (cap : ℕ) (l : List Addr) (tag : Addr) :
  l.length ≤ (push cap l tag).length
  := by
  rw [length_push]
  split_ifs
  · apply le_refl
  · omega

theorem add_bounded {cap : ℕ} {isB1 : Bool} (h : v.Bounded) :
  (v.add cap isB1 tag).Bounded
  := by
  have hle := h.le
  cases isB1 with
  | false =>
    have hlength := length_le_length_push cap v.b2 tag
    refine ⟨h.nonneg, ?_⟩
    change v.p ≤ v.b1.length + (push cap v.b2 tag).length
    omega
  | true =>
    have hlength := length_le_length_push cap v.b1 tag
    refine ⟨h.nonneg, ?_⟩
    change v.p ≤ (push cap v.b1 tag).length + v.b2.length
    omega

/-- What a promotion that does not divide by zero finds and leaves. -/
inductive Promotion (tag : Addr) (v : SetState) : ℕ → SetState → Prop
  | b1 : tag ∈ v.b1 → Promotion tag v 2 (v.hitB1 tag)
  | b2 : tag ∉ v.b1 → tag ∈ v.b2 → ¬v.DividesByZero tag → Promotion tag v 2 (v.hitB2 tag)
  | miss : tag ∉ v.b1 → tag ∉ v.b2 → Promotion tag v 1 v

theorem promotion_of_promote (h : v.promote tag = .ok (i, v')) :
  Promotion tag v i v'
  := by
  rw [promote] at h
  split_ifs at h with hdivide h1 h2
  · cases h
    exact .b1 h1
  · cases h
    exact .b2 h1 h2 hdivide
  · cases h
    exact .miss h1 h2

theorem Promotion.bounded (h : Promotion tag v i v') (hv : v.Bounded) :
  v'.Bounded
  := by
  cases h with
  | b1 h1 => exact hitB1_bounded hv
  | b2 h1 h2 hdivide => exact hitB2_bounded hv h1 h2 hdivide
  | miss h1 h2 => exact hv

/-- A hit in B1 makes the target size smaller exactly if it is the sum of the lengths of the ghost
lists. -/
theorem le_hitB1_iff (hv : v.Bounded) (htag : tag ∈ v.b1) :
  v.p ≤ (v.hitB1 tag).p ↔ v.p ≠ v.b1.length + v.b2.length
  := by
  have hle := hv.le
  have hpos := List.length_pos_of_mem htag
  simp only [hitB1, List.length_erase_of_mem htag]
  omega

theorem hitB2_le (hv : v.Bounded) :
  (v.hitB2 tag).p ≤ v.p
  := by
  have hnonneg := hv.nonneg
  simp only [hitB2]
  omega

end SetState

namespace ARC

variable {E : Type}

/-- The target sizes of all sets are bounded. -/
def State.Bounded (s : State E) : Prop := ∀ set, (s.arc.view set).Bounded

theorem bounded_update {s t : State E} {set : ℕ} {v : SetState} (hs : s.Bounded) (hv : v.Bounded)
    (h : t.arc.view = Function.update s.arc.view set v) :
  t.Bounded
  := by
  intro set'
  rw [h, Function.update_apply]
  split_ifs
  · apply hv
  · apply hs

section Calls

variable [DecidableEq E] {getSet : E → ℕ} {s t : State E}

theorem call_bounded {op : Op E} (hlinked : s.Linked) (hs : s.Bounded)
    (h : call getSet op s = .ok t) :
  t.Bounded
  := by
  obtain ⟨v, h⟩ := call_eq_ok.mp h
  cases op with
  | reset e now =>
    obtain ⟨-, i, set', hpromote, -, hview, -⟩ := step_reset hlinked h
    exact bounded_update hs ((promotion_of_promote hpromote).bounded (hs _)) hview
  | getVictim candidates now =>
    cases candidates with
    | nil =>
      cases h
      apply hs
    | cons first rest =>
      obtain ⟨-, -, hview, -⟩ := step_getVictim h
      apply bounded_update hs _ hview
      cases v with
      | none => apply hs
      | some e => exact add_bounded (hs _)
  | touch e now =>
    cases h
    apply hs
  | invalidate e =>
    cases h
    apply hs
  | setTag e tag =>
    cases h
    apply hs

/-- In every state of a run the target sizes are bounded. -/
theorem exec_bounded {ops : List (Op E)} (h : Lib.exec (call getSet) ops State.init = .ok s) :
  s.Bounded
  := by
  have hinv : s.Linked ∧ s.Bounded := by
    apply (Lib.exec_eq_ok_iff.mp h).invariant (P := fun s => s.Linked ∧ s.Bounded) _
      ⟨init_linked, fun _ => ⟨le_refl _, Int.le_refl _⟩⟩
    intro s' op t' hs' hcall
    exact ⟨call_linked hs'.1 hcall, call_bounded hs'.1 hs'.2 hcall⟩
  apply hinv.2

/-- A reset of an entry moves the target size of its set in the right direction, and those of the
other sets not at all. B1 is searched first. -/
structure Adapts (getSet : E → ℕ) (e : E) (s t : State E) : Prop where
  b1 : (s.data e).tag ∈ s.arc.B1 (getSet e) → s.arc.P (getSet e) ≤ t.arc.P (getSet e)
  b2 : (s.data e).tag ∉ s.arc.B1 (getSet e) → (s.data e).tag ∈ s.arc.B2 (getSet e) →
    t.arc.P (getSet e) ≤ s.arc.P (getSet e)
  others : ∀ set, set ≠ getSet e → t.arc.P set = s.arc.P set

/-- In every state of a run, a reset moves the target sizes in the right direction exactly if it
does not hit in B1 while the target size is the sum of the lengths of the ghost lists. -/
theorem adapts_iff {ops : List (Op E)} {e : E} {now : Tick}
    (hrun : Lib.exec (call getSet) ops State.init = .ok s)
    (hreset : call getSet (.reset e now) s = .ok t) :
  Adapts getSet e s t
    ↔ ((s.data e).tag ∈ s.arc.B1 (getSet e) →
        s.arc.P (getSet e)
          ≠ (s.arc.B1 (getSet e)).length + (s.arc.B2 (getSet e)).length)
  := by
  obtain ⟨v, hstep⟩ := call_eq_ok.mp hreset
  obtain ⟨-, i, set', hpromote, -, hview, -⟩ :=
    step_reset (exec_linked init_linked hrun) hstep
  have hbounded := exec_bounded hrun (getSet e)
  have hP : t.arc.P (getSet e) = set'.p := by
    change (t.arc.view (getSet e)).p = set'.p
    rw [hview, Function.update_self]
  have hothers : ∀ set, set ≠ getSet e → t.arc.P set = s.arc.P set := by
    intro set hset
    change (t.arc.view set).p = (s.arc.view set).p
    rw [hview, Function.update_of_ne hset]
  constructor
  · intro hadapts htag
    have hle := hadapts.b1 htag
    rw [hP] at hle
    cases promotion_of_promote hpromote with
    | b1 _ => exact (le_hitB1_iff hbounded htag).mp hle
    | b2 hnot _ _ => exact absurd htag hnot
    | miss hnot _ => exact absurd htag hnot
  · intro hne
    refine ⟨?_, ?_, hothers⟩
    · intro htag
      rw [hP]
      cases promotion_of_promote hpromote with
      | b1 _ => exact (le_hitB1_iff hbounded htag).mpr (hne htag)
      | b2 hnot _ _ => exact absurd htag hnot
      | miss hnot _ => exact absurd htag hnot
    · intro hnot htag
      rw [hP]
      cases promotion_of_promote hpromote with
      | b1 h1 => exact absurd h1 hnot
      | b2 _ _ _ => exact hitB2_le hbounded
      | miss _ h2 => exact absurd htag h2

end Calls

/-- Two victims are chosen in a set of one entry, and the entry is then inserted again: the target
size grows from 0 to 1. -/
theorem adapts_iff_grows :
  ∃ s t : State Unit,
    Lib.exec (call fun _ => 1) [.reset () 1, .getVictim [()] 2, .getVictim [()] 3] State.init
        = .ok s
      ∧ call (fun _ => 1) (.reset () 4) s = .ok t
      ∧ Adapts (fun _ => 1) () s t ∧ s.arc.P 1 = 0 ∧ t.arc.P 1 = 1
  := by
  have hrun : Lib.exec (call fun _ => 1) [.reset () 1, .getVictim [()] 2, .getVictim [()] 3]
      (State.init : State Unit) = .ok _ := rfl
  exact ⟨_, _, hrun, rfl, (adapts_iff hrun rfl).mpr (by decide), rfl, rfl⟩

/-- If it is inserted once more, which is a hit in B1 again, the target size falls from 1 to 0. -/
theorem hit_in_B1_decreases :
  ∃ s t : State Unit,
    Lib.exec (call fun _ => 1)
        [.reset () 1, .getVictim [()] 2, .getVictim [()] 3, .reset () 4] State.init = .ok s
      ∧ call (fun _ => 1) (.reset () 5) s = .ok t
      ∧ (s.data ()).tag ∈ s.arc.B1 1 ∧ t.arc.P 1 < s.arc.P 1
  := ⟨_, _, rfl, rfl, by decide, by decide⟩

end ARC

end Gem5Arc
