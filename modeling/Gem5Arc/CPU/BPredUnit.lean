import Gem5Arc.CPU.TAGEBase

/-!
# Squashing predictions

`BPredUnit::predict` updates the histories of its predictor speculatively. When branches are
squashed without a branch to correct, `BPredUnit::squash` removes their entries from the list of
predictions, and asks the predictor to squash what it keeps for them. `TAGE::squash` deletes it, and
leaves the histories as they are.

The direction of a prediction depends on the tables of the predictor and on the target buffers. It
is arbitrary here. The return address stack and the indirect predictor are left out.
-/

namespace Gem5Arc

variable {ι : Type} {p : TAGEParams ι}

/-- A branch that is predicted. -/
structure Prediction where
  seqNum : ℕ
  pc : Addr
  uncond : Bool
  predTaken : Bool

/-- What is kept for a branch that has been predicted. -/
structure PredictorHistory (p : TAGEParams ι) where
  seqNum : ℕ
  pc : Addr
  uncond : Bool
  bpHistory : BranchInfo p

/-- The branch predictor of a thread: the histories, and the predictions from the newest one. -/
structure BPredUnit (p : TAGEParams ι) where
  threadHistory : ThreadHistory p := {}
  predHist : List (PredictorHistory p) := []

namespace BPredUnit

open ThreadHistory

/-- `BPredUnit::predict`. -/
def predict (b : Prediction) (u : BPredUnit p) : BPredUnit p :=
  let (bpHistory, history) := u.threadHistory.updateHistories b.pc b.predTaken
  ⟨history, ⟨b.seqNum, b.pc, b.uncond, bpHistory⟩ :: u.predHist⟩

/-- Predict one branch after the other. -/
def predictAll (bs : List Prediction) (u : BPredUnit p) : BPredUnit p :=
  bs.foldl (fun u b => u.predict b) u

/-- `BPredUnit::squash`, without a branch to correct. -/
def squash (squashedSn : ℕ) : BPredUnit p → BPredUnit p
  | ⟨history, []⟩ => ⟨history, []⟩
  | ⟨history, hist :: predHist⟩ =>
    if hist.seqNum > squashedSn then squash squashedSn ⟨history, predHist⟩
    else ⟨history, hist :: predHist⟩
termination_by u => u.predHist.length

/-- The path history, the pointer and the folded histories are the same as before. -/
def Reverted (h h' : ThreadHistory p) : Prop :=
  h'.pathHist = h.pathHist ∧ h'.ptGhist = h.ptGhist ∧ h'.comp = h.comp

/-! ### The histories after some predictions -/

theorem threadHistory_squash (squashedSn : ℕ) (u : BPredUnit p) :
  (u.squash squashedSn).threadHistory = u.threadHistory
  := by
  induction u using squash.induct squashedSn with
  | case1 history => rw [squash]
  | case2 history hist predHist h ih =>
    rw [squash, if_pos h]
    apply ih
  | case3 history hist predHist h => rw [squash, if_neg h]

/-- A folded history after some outcomes, from the oldest one, where `outcomes` are those before. -/
def feed (f : FoldedParams) : List Bool → (ℕ → Bool) → BitVec 32 → BitVec 32
  | [], _, comp => comp
  | dir :: dirs, outcomes, comp =>
    feed f dirs (push dir outcomes) (f.update comp dir (push dir outcomes f.origLength))

theorem feed_congr (f : FoldedParams) {n : ℕ} (hf : f.origLength ≤ n)
    {outcomes outcomes' : ℕ → Bool} (h : ∀ i < n, outcomes i = outcomes' i) (dirs : List Bool)
    (comp : BitVec 32) :
  feed f dirs outcomes comp = feed f dirs outcomes' comp
  := by
  induction dirs generalizing outcomes outcomes' comp with
  | nil => rfl
  | cons dir dirs ih =>
    rw [feed, feed, push_congr h dir hf]
    apply ih
    intro i hi
    apply push_congr h dir hi.le

section

variable (bs : List Prediction) (u : BPredUnit p)

theorem pathHist_predictAll :
  (u.predictAll bs).threadHistory.pathHist
    = bs.foldl (fun path b => nextPath p b.pc path) u.threadHistory.pathHist
  := by
  induction bs generalizing u with
  | nil => rfl
  | cons b bs ih => apply ih (u.predict b)

theorem comp_predictAll (i : ι) :
  (u.predictAll bs).threadHistory.comp i
    = feed (p.folded i) (bs.map Prediction.predTaken) u.threadHistory.gHist
      (u.threadHistory.comp i)
  := by
  induction bs generalizing u with
  | nil => rfl
  | cons b bs ih =>
    have hgHist : ∀ j ≤ p.maxHist, (u.predict b).threadHistory.gHist j
        = push b.predTaken u.threadHistory.gHist j := by
      intro j hj
      apply gHist_updateGHist u.threadHistory b.predTaken hj
    have hcomp : (u.predict b).threadHistory.comp i
        = (p.folded i).update (u.threadHistory.comp i) b.predTaken
          (push b.predTaken u.threadHistory.gHist (p.folded i).origLength) := by
      rw [← hgHist _ (p.origLength_le i)]
      exact congrArg (fun newest => (p.folded i).update (u.threadHistory.comp i) newest _)
        (hgHist 0 (Nat.zero_le _))
    rw [List.map_cons, feed, ← hcomp]
    apply (ih (u.predict b)).trans
    apply feed_congr _ (p.origLength_le i)
    intro j hj
    apply hgHist j hj.le

theorem ptGhist_predictAll :
  ((u.predictAll bs).threadHistory.ptGhist + bs.length) % p.period = u.threadHistory.ptGhist
  := by
  induction bs generalizing u with
  | nil => apply Nat.mod_eq_of_lt u.threadHistory.ptGhist.isLt
  | cons b bs ih =>
    have hrest := ih (u.predict b)
    have hback : ((u.predict b).threadHistory.ptGhist.val + 1) % p.period
        = u.threadHistory.ptGhist := by
      have hpos := p.period_pos
      have hlt := u.threadHistory.ptGhist.isLt
      have hval : (u.predict b).threadHistory.ptGhist.val
          = if u.threadHistory.ptGhist.val = 0 then p.period - 1
            else u.threadHistory.ptGhist - 1 := val_back u.threadHistory.ptGhist
      rw [hval]
      split_ifs with hzero
      · rw [Nat.sub_add_cancel hpos, Nat.mod_self, hzero]
      · rw [Nat.sub_add_cancel (by omega), Nat.mod_eq_of_lt hlt]
    rw [List.length_cons, ← Nat.add_assoc, ← Nat.mod_add_mod]
    exact (congrArg (fun n => (n + 1) % p.period) hrest).trans hback

/-- The pointer returns after a multiple of `histBufferSize - maxHist` predictions. -/
theorem ptGhist_predictAll_eq_iff :
  (u.predictAll bs).threadHistory.ptGhist = u.threadHistory.ptGhist ↔ p.period ∣ bs.length
  := by
  have hpt := ptGhist_predictAll bs u
  have hlt := (u.predictAll bs).threadHistory.ptGhist.isLt
  rw [Fin.ext_iff, ← Nat.modEq_zero_iff_dvd]
  constructor
  · intro heq
    rw [heq] at hpt
    apply Nat.ModEq.add_left_cancel' u.threadHistory.ptGhist.val
    rw [Nat.add_zero, Nat.ModEq, hpt]
    exact (Nat.mod_eq_of_lt u.threadHistory.ptGhist.isLt).symm
  · intro hmod
    rw [← hpt]
    apply Eq.trans (Nat.mod_eq_of_lt hlt).symm
    exact (Nat.ModEq.add_left _ hmod).symm

end

/-! ### When a squash reverts the histories -/

/-- The histories are as before some predictions exactly when the number of predictions is a
multiple of `histBufferSize - maxHist`, and the addresses and directions of the branches lead the
path history and the folded histories back. For fewer predictions, there must be none. -/
theorem squash_reverts_iff (u : BPredUnit p) (squashedSn : ℕ) (bs : List Prediction) :
  (Reverted u.threadHistory ((u.predictAll bs).squash squashedSn).threadHistory
    ↔ p.period ∣ bs.length
      ∧ bs.foldl (fun path b => nextPath p b.pc path) u.threadHistory.pathHist
        = u.threadHistory.pathHist
      ∧ ∀ i, feed (p.folded i) (bs.map Prediction.predTaken) u.threadHistory.gHist
        (u.threadHistory.comp i) = u.threadHistory.comp i)
  ∧ (bs.length < p.period →
    (Reverted u.threadHistory ((u.predictAll bs).squash squashedSn).threadHistory ↔ bs = []))
  := by
  refine have hiff := ?_; ⟨hiff, ?_⟩
  · rw [threadHistory_squash, Reverted, ptGhist_predictAll_eq_iff, pathHist_predictAll, funext_iff]
    simp only [comp_predictAll]
    apply and_left_comm
  · intro hlt
    constructor
    · intro hreverted
      apply List.eq_nil_of_length_eq_zero
      apply Nat.eq_zero_of_dvd_of_lt (hiff.mp hreverted).1 hlt
    · rintro rfl
      apply hiff.mpr
      exact ⟨Nat.dvd_zero _, rfl, fun _ => rfl⟩

/-- A predictor with histories of up to 2 outcomes. -/
def tiny : TAGEParams Unit := .small

/-- A branch with the number 7 is predicted, and the branches above 5 are squashed. Its prediction
is removed, and all histories keep what it has entered. -/
theorem squash_not_reverted :
  let u : BPredUnit tiny := {}
  let v := (u.predictAll [⟨7, 1, false, true⟩]).squash 5
  v.predHist.length = 0 ∧ v.threadHistory.pathHist ≠ u.threadHistory.pathHist
    ∧ v.threadHistory.ptGhist ≠ u.threadHistory.ptGhist
    ∧ v.threadHistory.comp () ≠ u.threadHistory.comp ()
  := by
  simp only [threadHistory_squash]
  refine ⟨?_, by decide, by decide, by decide⟩
  rw [predictAll, List.foldl_cons, List.foldl_nil, predict, squash, if_pos (by decide), squash]
  rfl

end BPredUnit

end Gem5Arc
