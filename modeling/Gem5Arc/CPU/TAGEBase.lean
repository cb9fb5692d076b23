import Gem5Arc.Basic

/-!
# Histories of the TAGE predictor

`TAGEBase` keeps the outcomes of past branches of a thread in a buffer that is filled from its end
to its beginning. When the beginning is reached, the last `maxHist` outcomes are copied to the end,
and the buffer is filled again from there. The path history has a bit of the address of each branch.
The folded histories are registers that compress the outcomes of some past branches; each branch
enters its own outcome and removes one that has become too old.

Histories are updated speculatively, and a branch keeps what is needed to return to the histories
before it. The pointer `gHist` always points to the element `ptGhist` of the buffer, as
`updateHistories` asserts. The registers of all tables, for indices and tags, are named by a type
`ι`. The bytes of the buffer are 0 or 1.
-/

namespace Gem5Arc

/-- How a folded history compresses outcomes. -/
structure FoldedParams where
  origLength : ℕ
  compLength : ℕ
  outpoint : ℕ

/-- `FoldedHistory::update`, for the newest outcome and the one at `origLength`. -/
def FoldedParams.update (f : FoldedParams) (comp : BitVec 32) (newest oldest : Bool) : BitVec 32 :=
  let comp := (comp <<< 1) ||| (BitVec.ofBool newest).setWidth 32
  let comp := comp ^^^ ((BitVec.ofBool oldest).setWidth 32 <<< f.outpoint)
  let comp := comp ^^^ (comp >>> f.compLength)
  comp &&& BitVec.ofNat 32 (2 ^ f.compLength - 1)

/-- The parameters of a predictor with folded histories `ι`. The initialization asserts that the
buffer is large enough, and no table has a history longer than `maxHist`. -/
structure TAGEParams (ι : Type) where
  histBufferSize : ℕ
  maxHist : ℕ
  pathHistBits : ℕ
  instShiftAmt : ℕ
  folded : ι → FoldedParams
  size_gt : maxHist * 2 < histBufferSize
  origLength_le : ∀ i, (folded i).origLength ≤ maxHist

/-- A history of 2 outcomes in a buffer of 8. -/
def TAGEParams.small : TAGEParams Unit where
  histBufferSize := 8
  maxHist := 2
  pathHistBits := 4
  instShiftAmt := 0
  folded := fun _ => ⟨2, 3, 2⟩
  size_gt := by decide
  origLength_le := fun _ => le_refl 2

variable {ι : Type} {i : ℕ}

/-- The number of values of `ptGhist`. -/
def TAGEParams.period (p : TAGEParams ι) : ℕ := p.histBufferSize - p.maxHist

theorem TAGEParams.period_pos (p : TAGEParams ι) :
  0 < p.period
  := by
  have hsize := p.size_gt
  rw [period]
  omega

instance (p : TAGEParams ι) : NeZero p.period := ⟨p.period_pos.ne'⟩

structure ThreadHistory (p : TAGEParams ι) where
  pathHist : BitVec 32 := 0
  globalHistory : ℕ → Bool := fun _ => false
  ptGhist : Fin p.period := 0
  comp : ι → BitVec 32 := fun _ => 0

/-- What a branch keeps of the histories: the path history and the pointer after it, and the folded
histories before it. -/
structure BranchInfo (p : TAGEParams ι) where
  pathHist : BitVec 32
  ptGhist : Fin p.period
  comp : ι → BitVec 32

namespace ThreadHistory

variable {p : TAGEParams ι}

/-- The outcomes that can be reached from the pointer, from the newest one. -/
def gHist (h : ThreadHistory p) (i : ℕ) : Bool := h.globalHistory (h.ptGhist + i)

/-- The pointer after one more outcome. -/
def back (pt : Fin p.period) : Fin p.period :=
  ⟨if pt.val = 0 then p.period - 1 else pt - 1, by
    have hpt := pt.isLt
    split_ifs <;> omega⟩

theorem val_back (pt : Fin p.period) :
  (back pt).val = if pt.val = 0 then p.period - 1 else pt - 1
  := rfl

/-- The buffer, with its first `maxHist` outcomes copied to the end. -/
def rollOver (p : TAGEParams ι) (tab : ℕ → Bool) : ℕ → Bool := fun j =>
  if p.histBufferSize - p.maxHist ≤ j ∧ j < p.histBufferSize then
    tab (j - (p.histBufferSize - p.maxHist))
  else tab j

/-- `TAGEBase::updateGHist`. -/
def updateGHist (dir : Bool) (h : ThreadHistory p) : ThreadHistory p :=
  let tab := if h.ptGhist.val = 0 then rollOver p h.globalHistory else h.globalHistory
  { h with
    ptGhist := back h.ptGhist
    globalHistory := Function.update tab (back h.ptGhist) dir }

def nextPath (p : TAGEParams ι) (branchPc : Addr) (pathHist : BitVec 32) : BitVec 32 :=
  ((pathHist <<< 1) + ((branchPc >>> p.instShiftAmt) &&& 1).setWidth 32)
    &&& BitVec.ofNat 32 (2 ^ p.pathHistBits - 1)

/-- Update all folded histories with the outcomes at the pointer. -/
def updateFolded (h : ThreadHistory p) : ThreadHistory p :=
  { h with
    comp := fun i =>
      (p.folded i).update (h.comp i) (h.gHist 0) (h.gHist (p.folded i).origLength) }

/-- `TAGEBase::updateHistories`, for a speculative update. -/
def updateHistories (branchPc : Addr) (taken : Bool) (h : ThreadHistory p) :
    BranchInfo p × ThreadHistory p :=
  let h := h.updateGHist taken
  let h := { h with pathHist := nextPath p branchPc h.pathHist }
  (⟨h.pathHist, h.ptGhist, h.comp⟩, h.updateFolded)

/-- `TAGEBase::squash`: return to a branch, and correct its direction. -/
def squash (taken : Bool) (bi : BranchInfo p) (h : ThreadHistory p) : ThreadHistory p :=
  updateFolded
    { pathHist := bi.pathHist
      ptGhist := bi.ptGhist
      globalHistory := Function.update h.globalHistory bi.ptGhist taken
      comp := bi.comp }

/-! ### The buffer as a shift register -/

/-- Outcomes with a new one before them. -/
def push (newest : Bool) (outcomes : ℕ → Bool) : ℕ → Bool
  | 0 => newest
  | i + 1 => outcomes i

/-- An update enters an outcome before those that can be reached. -/
theorem gHist_updateGHist (h : ThreadHistory p) (dir : Bool) (hi : i ≤ p.maxHist) :
  (h.updateGHist dir).gHist i = push dir h.gHist i
  := by
  cases i with
  | zero =>
    apply Function.update_self
  | succ i =>
    rw [gHist, updateGHist]
    dsimp only [push, gHist]
    rw [Function.update_of_ne (by omega)]
    have hperiod : p.period = p.histBufferSize - p.maxHist := rfl
    by_cases hroll : h.ptGhist.val = 0
    · have hback : (back h.ptGhist).val + (i + 1) = p.histBufferSize - p.maxHist + i := by
        rw [val_back, if_pos hroll]
        omega
      rw [if_pos hroll, hback, rollOver, if_pos (by omega), hroll]
      congr 1
      omega
    · have hback : (back h.ptGhist).val + (i + 1) = h.ptGhist + i := by
        rw [val_back, if_neg hroll]
        omega
      rw [if_neg hroll, hback]

/-! ### Histories that agree -/

/-- The path histories, the folded histories and the last `maxHist` outcomes are the same. -/
structure Agree (h h' : ThreadHistory p) : Prop where
  pathHist : h.pathHist = h'.pathHist
  comp : h.comp = h'.comp
  gHist : ∀ i < p.maxHist, h.gHist i = h'.gHist i

theorem Agree.refl (h : ThreadHistory p) :
  Agree h h
  := ⟨rfl, rfl, fun _ _ => rfl⟩

theorem push_congr {outcomes outcomes' : ℕ → Bool} {n : ℕ} (h : ∀ i < n, outcomes i = outcomes' i)
    (dir : Bool) (hi : i ≤ n) :
  push dir outcomes i = push dir outcomes' i
  := by
  cases i with
  | zero => rfl
  | succ i => apply h i hi

variable {h h' : ThreadHistory p}

/-- Histories whose outcomes agree up to `maxHist`, after their folded histories are updated. -/
theorem Agree.updateFolded (hpath : h.pathHist = h'.pathHist) (hcomp : h.comp = h'.comp)
    (hgHist : ∀ i ≤ p.maxHist, h.gHist i = h'.gHist i) :
  Agree h.updateFolded h'.updateFolded
  := by
  refine ⟨hpath, ?_, fun i hi => hgHist i hi.le⟩
  funext i
  simp only [ThreadHistory.updateFolded]
  rw [hcomp, hgHist 0 (Nat.zero_le _), hgHist _ (p.origLength_le i)]

/-- Histories that agree still do after the same branch. -/
theorem Agree.updateHistories (hagree : Agree h h') (pc : Addr) (taken : Bool) :
  Agree (h.updateHistories pc taken).2 (h'.updateHistories pc taken).2
  := by
  apply Agree.updateFolded
  · exact congrArg (nextPath p pc) hagree.pathHist
  · exact hagree.comp
  · intro i hi
    have hleft := gHist_updateGHist h taken hi
    have hright := gHist_updateGHist h' taken hi
    apply hleft.trans
    apply Eq.trans _ hright.symm
    apply push_congr hagree.gHist taken hi

end ThreadHistory

end Gem5Arc
