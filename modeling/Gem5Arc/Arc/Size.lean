import Gem5Arc.Arc.Run

/-!
# The size of the ghost lists and of the target

In a cache of associativity `A`, the ghost lists of a set should have at most `A` elements
each and the target size of T1 should be one that the number of blocks in T1 can exceed or
not (`SizeOk`). The policy caps a ghost list at the number of sets used so far, and the
target size at the sum of the two ghost list sizes, so neither is certain.

`sizeOk_iff_growthOk` says exactly when the sizes are right all along a run: every eviction
must find its ghost list shorter than `A` or at the cap, and every hit in B1 must leave the
target size below `A`.
-/

namespace Gem5Arc

namespace SetState

/-- The ghost lists have at most `A` elements, the target size is between 0 and `A`, and the
test `t1Count > targetP` succeeds for some partition of `A` blocks into T1 and T2 and fails
for another. -/
structure SizeOk (A : ℕ) (v : SetState) : Prop where
  b1 : v.b1.length ≤ A
  b2 : v.b2.length ≤ A
  nonneg : 0 ≤ v.p
  le : v.p ≤ A
  above : ∃ t1Count t2Count : ℕ, t1Count + t2Count = A ∧ (t1Count : ℤ) > v.p
  below : ∃ t1Count t2Count : ℕ, t1Count + t2Count = A ∧ ¬(t1Count : ℤ) > v.p

variable {v : SetState} {tag : Addr} {A : ℕ}

theorem sizeOk_iff :
  v.SizeOk A ↔ v.b1.length ≤ A ∧ v.b2.length ≤ A ∧ 0 ≤ v.p ∧ v.p < A
  := by
  constructor
  · intro h
    obtain ⟨t1Count, t2Count, hsum, habove⟩ := h.above
    exact ⟨h.b1, h.b2, h.nonneg, by omega⟩
  · rintro ⟨hb1, hb2, hp, hlt⟩
    exact ⟨hb1, hb2, hp, by omega, ⟨A, 0, by omega, hlt⟩, ⟨0, A, by omega, by omega⟩⟩

/-- A hit in B1 leaves the target size below `A`. -/
def TargetOk (A : ℕ) (v : SetState) : Prop :=
  let b1 := v.b1.length - 1
  v.p + delta b1 v.b2.length < A ∨ b1 + v.b2.length < A

/-- An eviction into a ghost list capped at `cap` leaves it with at most `A` elements. -/
def RoomIn (A cap : ℕ) (isB1 : Bool) (v : SetState) : Prop :=
  (v.ghost isB1).length < A ∨ cap ≤ (v.ghost isB1).length

theorem hitB1_sizeOk (h : v.SizeOk A) (htag : tag ∈ v.b1) :
  (v.hitB1 tag).SizeOk A ↔ v.TargetOk A
  := by
  rw [sizeOk_iff] at h ⊢
  obtain ⟨hb1, hb2, hp, -⟩ := h
  simp only [hitB1, TargetOk, List.length_erase_of_mem htag]
  omega

theorem hitB2_sizeOk (h : v.SizeOk A) :
  (v.hitB2 tag).SizeOk A
  := by
  rw [sizeOk_iff] at h ⊢
  obtain ⟨hb1, hb2, hp, hlt⟩ := h
  have herase := List.length_erase_le (a := tag) (l := v.b2)
  simp only [hitB2]
  omega

theorem add_sizeOk {cap : ℕ} {isB1 : Bool} (h : v.SizeOk A) :
  (v.add cap isB1 tag).SizeOk A ↔ v.RoomIn A cap isB1
  := by
  rw [sizeOk_iff] at h ⊢
  obtain ⟨hb1, hb2, hp, hlt⟩ := h
  cases isB1 with
  | false =>
    simp only [add, setGhost, RoomIn, ghost_false, Bool.false_eq_true, if_false, length_push]
    split_ifs
    · omega
    · omega
  | true =>
    simp only [add, setGhost, RoomIn, ghost_true, if_true, length_push]
    split_ifs
    · omega
    · omega

end SetState

namespace ARC

variable {E : Type}

/-- A victim is chosen among the `A` entries of a set. -/
def Op.FullSet (getSet : E → ℕ) (A : ℕ) : Op E → Prop
  | .getVictim candidates _ =>
    candidates.length = A ∧ candidates.Nodup ∧ ∃ set, ∀ e, e ∈ candidates ↔ getSet e = set
  | _ => True

/-- A successful call in a cache of associativity `A`. -/
def FullStep [DecidableEq E] (getSet : E → ℕ) (A : ℕ) (s : State E) (op : Op E) (t : State E) :
    Prop :=
  op.FullSet getSet A ∧ call getSet op s = .ok t

/-- What a call must find in the state before it: if it resets an entry whose tag is in B1,
the target size stays below `A`, and if it evicts an entry, there is room in the ghost
list. -/
def Op.GrowthOk (getSet : E → ℕ) (A : ℕ) (s : State E) : Op E → Prop
  | .reset e _ =>
    let v := s.arc.view (getSet e)
    (s.data e).tag ∈ v.b1 → v.TargetOk A
  | .getVictim (first :: rest) now =>
    let v := s.arc.view (getSet first)
    ∀ e, selectVictim v.p s.data now (first :: rest) = some e →
      v.RoomIn A (max s.arc.size (getSet first + 1)) ((s.data e).listId == 1)
  | _ => True

/-- The sizes of all sets are right. -/
def State.SizeOk (A : ℕ) (s : State E) : Prop := ∀ set, (s.arc.view set).SizeOk A

/-- Only the set that a call writes can lose its size. -/
private theorem sizeOk_update {A : ℕ} {s t : State E} {set : ℕ} {v : SetState}
    (hs : s.SizeOk A) (h : t.arc.view = Function.update s.arc.view set v) :
  t.SizeOk A ↔ v.SizeOk A
  := by
  rw [State.SizeOk, h]
  constructor
  · intro ht
    have hset := ht set
    rw [Function.update_self] at hset
    apply hset
  · intro hv set'
    rw [Function.update_apply]
    split_ifs
    · apply hv
    · apply hs

theorem init_sizeOk {A : ℕ} (hA : 0 < A) :
  (State.init : State E).SizeOk A
  := by
  intro _
  change SetState.empty.SizeOk A
  rw [SetState.sizeOk_iff]
  simp [SetState.empty, hA]

section Calls

variable [DecidableEq E] {getSet : E → ℕ} {A : ℕ} {s t : State E}

/-- A successful call keeps the sizes exactly when it finds what it must. -/
theorem call_sizeOk {op : Op E} (hlinked : s.Linked) (hs : s.SizeOk A)
    (h : call getSet op s = .ok t) :
  t.SizeOk A ↔ op.GrowthOk getSet A s
  := by
  obtain ⟨v, h⟩ := call_eq_ok.mp h
  cases op with
  | reset e now =>
    obtain ⟨-, i, set', hpromote, -, hview, -⟩ := step_reset hlinked h
    rw [sizeOk_update hs hview, Op.GrowthOk]
    rw [SetState.promote] at hpromote
    split_ifs at hpromote with hdiv h1 h2
    · cases hpromote
      simp only [SetState.hitB1_sizeOk (hs _) h1, h1, true_imp_iff]
    · cases hpromote
      simp only [SetState.hitB2_sizeOk (hs _), h1, false_imp_iff]
    · cases hpromote
      simp only [hs _, h1, false_imp_iff]
  | getVictim candidates now =>
    cases candidates with
    | nil =>
      cases h
      simp only [Op.GrowthOk, iff_true]
      apply hs
    | cons first rest =>
      obtain ⟨rfl, -, hview, -⟩ := step_getVictim h
      rw [sizeOk_update hs hview, Op.GrowthOk]
      cases selectVictim (s.arc.view (getSet first)).p s.data now (first :: rest) with
      | none =>
        simp only [SetAfterVictim, hs _, true_iff]
        rintro _ ⟨⟩
      | some e => simp [SetAfterVictim, SetState.add_sizeOk (hs _)]
  | touch e now | invalidate e | setTag e tag =>
    cases h
    simp only [Op.GrowthOk, iff_true]
    apply hs

private theorem fullStep_linked {ops : List (Op E)} (hs : s.Linked)
    (h : Lib.Run (FullStep getSet A) s ops t) :
  t.Linked
  := by
  apply h.invariant _ hs
  intro s' op t' hs' hstep
  apply call_linked hs' hstep.2

/-- In a cache of associativity `A`, the sizes are right in every state of a run exactly when
every call of the run finds what it must in the state before it. -/
theorem sizeOk_iff_growthOk (getSet : E → ℕ) {A : ℕ} (hA : 0 < A) (ops : List (Op E)) :
  (∀ pre s, pre <+: ops → Lib.Run (FullStep getSet A) State.init pre s → s.SizeOk A)
    ↔ ∀ pre op s t, pre ++ [op] <+: ops → Lib.Run (FullStep getSet A) State.init pre s →
        FullStep getSet A s op t → op.GrowthOk getSet A s
  := by
  have hstep (s : State E) (op : Op E) (t : State E) (hs : s.Linked ∧ s.SizeOk A)
      (h : FullStep getSet A s op t) : t.Linked ∧ t.SizeOk A ↔ op.GrowthOk getSet A s := by
    rw [call_sizeOk hs.1 hs.2 h.2]
    simp only [call_linked hs.1 h.2, true_and]
  rw [← Lib.Run.always_iff hstep ⟨init_linked, init_sizeOk hA⟩]
  constructor
  · intro h pre s hpre hrun
    exact ⟨fullStep_linked init_linked hrun, h pre s hpre hrun⟩
  · intro h pre s hpre hrun
    exact (h pre s hpre hrun).2

end Calls

/-- A direct-mapped cache in which two blocks are evicted from set 1, after which B1 of the
set has two elements. -/
theorem ghost_outgrows_set :
  ∃ s, Lib.Run (FullStep (fun _ : Unit => 1) 1) State.init
      [.reset () 1, .getVictim [()] 2, .getVictim [()] 3] s
    ∧ (s.arc.view 1).b1.length = 2 ∧ ¬s.SizeOk 1
  := by
  have hfull : Op.FullSet (fun _ : Unit => 1) 1 (.getVictim [()] 2) :=
    ⟨rfl, List.nodup_singleton (), 1, by simp⟩
  refine ⟨_, .cons ⟨trivial, rfl⟩ (.cons ⟨hfull, rfl⟩ (.cons ⟨hfull, rfl⟩ (.nil _))), rfl, ?_⟩
  intro h
  exact absurd (h 1).b1 (by decide)

/-- The theorem for a direct-mapped cache and the first two calls of the run above. -/
theorem sizeOk_iff_growthOk_two :
  (∀ pre s, pre <+: [.reset () 1, .getVictim [()] 2] →
      Lib.Run (FullStep (fun _ : Unit => 1) 1) State.init pre s → s.SizeOk 1)
    ↔ ∀ pre op s t, pre ++ [op] <+: [.reset () 1, .getVictim [()] 2] →
        Lib.Run (FullStep (fun _ : Unit => 1) 1) State.init pre s →
        FullStep (fun _ : Unit => 1) 1 s op t → op.GrowthOk (fun _ => 1) 1 s
  := sizeOk_iff_growthOk (fun _ => 1) (by decide) [.reset () 1, .getVictim [()] 2]

end ARC

end Gem5Arc
