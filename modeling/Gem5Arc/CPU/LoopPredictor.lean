import Gem5Arc.Basic

/-!
# The speculative counts of the loop predictor

`cpu/pred/loop_predictor.cc`: with `useSpeculation` a prediction counts the iterations of its loop
in `currentIterSpec` of the table entry it hits, and a squash sets this count to the one in the
`BranchInfo` of the branch. But nothing sets the count in a `BranchInfo`. So squashing the branches
restores the counts exactly if those of the entries they hit were 0 (`squash_restores_iff`).
-/

namespace Gem5Arc.LoopPredictor

structure Params where
  logSizeLoopPred : ℕ
  loopTableConfidenceBits : ℕ
  loopTableTagBits : ℕ
  loopTableIterBits : ℕ
  logLoopTableAssoc : ℕ
  useDirectionBit : Bool
  useSpeculation : Bool
  useHashing : Bool

structure LoopEntry where
  numIter : BitVec 16 := 0
  currentIter : BitVec 16 := 0
  currentIterSpec : BitVec 16 := 0
  confidence : BitVec 8 := 0
  tag : BitVec 16 := 0
  dir : Bool := false

structure BranchInfo where
  loopTag : BitVec 16 := 0
  currentIter : BitVec 16 := 0
  loopPred : Bool := false
  loopPredValid : Bool := false
  loopPredUsed : Bool := false
  loopIndex : ℕ := 0
  loopIndexB : ℕ := 0
  loopHit : ℤ := 0

structure State where
  ltable : ℕ → LoopEntry
  loopUseCounter : ℤ := -1

variable (p : Params)

def loopSetMask : Addr := (1 <<< (p.logSizeLoopPred - p.logLoopTableAssoc)) - 1

def lindex (pcIn : Addr) (instShiftAmt : ℕ) : ℕ :=
  let pc := pcIn >>> instShiftAmt
  ((if p.useHashing then pc ^^^ pcIn else pc) &&& loopSetMask p).toNat <<< p.logLoopTableAssoc

def finallindex (index lowPcBits way : ℕ) : ℕ :=
  (if p.useHashing then index ^^^ ((lowPcBits >>> way) <<< p.logLoopTableAssoc) else index) + way

def calcConf (e : LoopEntry) : Bool :=
  e.confidence == (1 <<< p.loopTableConfidenceBits) - 1

def getLoop (pc : Addr) (speculative : Bool) (instShiftAmt : ℕ) (bi : BranchInfo) (s : State) :
    Bool × BranchInfo :=
  let pcShift := p.logSizeLoopPred - p.logLoopTableAssoc
  let tag :=
    if p.useHashing then pc >>> pcShift ^^^ pc >>> (pcShift + p.loopTableTagBits)
    else pc >>> (instShiftAmt + pcShift)
  let bi :=
    { bi with
      loopHit := -1
      loopPredValid := false
      loopIndex := lindex p pc instShiftAmt
      loopIndexB :=
        if p.useHashing then ((pc >>> pcShift) &&& loopSetMask p).toNat else bi.loopIndexB
      loopTag := tag.setWidth 16 &&& ((1 <<< p.loopTableTagBits) - 1) }
  let entry way := s.ltable (finallindex p bi.loopIndex bi.loopIndexB way)
  match (List.range (2 ^ p.logLoopTableAssoc)).find? fun way => (entry way).tag == bi.loopTag with
  | some way =>
    let e := entry way
    let iter := if speculative then e.currentIterSpec else e.currentIter
    (if iter.toNat + 1 = e.numIter.toNat then p.useDirectionBit && !e.dir
      else !p.useDirectionBit || e.dir,
      { bi with loopHit := way, loopPredValid := calcConf p e })
  | none => (false, bi)

/-- The index of the entry that the branch hit. -/
def hitIndex (bi : BranchInfo) : Option ℕ :=
  if 0 ≤ bi.loopHit then some (finallindex p bi.loopIndex bi.loopIndexB bi.loopHit.toNat) else none

/-- Another speculative count for the entry that the branch hit. -/
def setIterSpec (bi : BranchInfo) (iter : LoopEntry → BitVec 16) (s : State) : State :=
  match hitIndex p bi with
  | some index =>
    let e := s.ltable index
    { s with ltable := Function.update s.ltable index { e with currentIterSpec := iter e } }
  | none => s

def specLoopUpdate (taken : Bool) (bi : BranchInfo) : State → State :=
  setIterSpec p bi fun e =>
    if taken != e.dir then 0 else (e.currentIterSpec + 1) &&& ((1 <<< p.loopTableIterBits) - 1)

def loopPredict (branchPc : Addr) (condBranch : Bool) (bi : BranchInfo) (prevPredTaken : Bool)
    (instShiftAmt : ℕ) (s : State) : Bool × BranchInfo × State :=
  if condBranch then
    let (loopPred, bi) := getLoop p branchPc p.useSpeculation instShiftAmt bi s
    let used := decide (s.loopUseCounter ≥ 0) && bi.loopPredValid
    let predTaken := if used then loopPred else prevPredTaken
    let bi := { bi with loopPred, loopPredUsed := if used then true else bi.loopPredUsed }
    (predTaken, bi, if p.useSpeculation then specLoopUpdate p predTaken bi s else s)
  else (prevPredTaken, bi, s)

def squash (bi : BranchInfo) : State → State := setIterSpec p bi fun _ => bi.currentIter

/-- A conditional branch. -/
structure Branch where
  branchPc : Addr
  prevPredTaken : Bool
  instShiftAmt : ℕ

/-- Predict some branches, and then squash them, the youngest one first. -/
def predictAndSquash : List Branch → State → State
  | [], s => s
  | b :: bs, s =>
    let (_, bi, s) := loopPredict p b.branchPc true {} b.prevPredTaken b.instShiftAmt s
    squash p bi (predictAndSquash bs s)

/-- The table entry that a prediction of the branch hits. -/
def entryOf (b : Branch) (s : State) : Option ℕ :=
  hitIndex p (getLoop p b.branchPc p.useSpeculation b.instShiftAmt {} s).2

variable {p} {b : Branch} {bi : BranchInfo} {s t : State}

/-- A lookup goes by the tags. -/
theorem entryOf_congr (htag : ∀ i, (t.ltable i).tag = (s.ltable i).tag) :
  entryOf p b t = entryOf p b s
  := by
  simp only [entryOf, getLoop, htag]
  split
  · rfl
  · rfl

theorem ltable_setIterSpec (iter : LoopEntry → BitVec 16) (i : ℕ) :
  (setIterSpec p bi iter s).ltable i
    = { s.ltable i with
        currentIterSpec :=
          if hitIndex p bi = some i then iter (s.ltable i) else (s.ltable i).currentIterSpec }
  := by
  unfold setIterSpec
  cases hitIndex p bi with
  | none => simp
  | some index =>
    by_cases hi : index = i
    · simp [hi]
    · simp [hi, Ne.symm hi]

/-- A prediction saves no count, and changes that of the entry it hits. -/
theorem loopPredict_eq (hspec : p.useSpeculation = true) :
  ∃ taken bi iter,
    loopPredict p b.branchPc true {} b.prevPredTaken b.instShiftAmt s
        = (taken, bi, setIterSpec p bi iter s)
      ∧ bi.currentIter = 0 ∧ hitIndex p bi = entryOf p b s
  := by
  rw [loopPredict, if_pos rfl]
  dsimp only
  rw [if_pos hspec]
  refine ⟨_, _, _, rfl, ?_, rfl⟩
  unfold getLoop
  dsimp only
  split
  · rfl
  · rfl

/-- After the squash the entries that were hit have the count 0, and the others are unchanged. -/
theorem ltable_predictAndSquash (hspec : p.useSpeculation = true) (bs : List Branch) (i : ℕ) :
  (predictAndSquash p bs s).ltable i
    = { s.ltable i with
        currentIterSpec :=
          if ∃ b ∈ bs, entryOf p b s = some i then 0 else (s.ltable i).currentIterSpec }
  := by
  induction bs generalizing s with
  | nil => simp [predictAndSquash]
  | cons b bs ih =>
    obtain ⟨taken, bi, iter, hpredict, hiter, hhit⟩ := loopPredict_eq (b := b) (s := s) hspec
    have htag j : ((setIterSpec p bi iter s).ltable j).tag = (s.ltable j).tag := by
      rw [ltable_setIterSpec]
    simp only [predictAndSquash, hpredict]
    rw [squash, ltable_setIterSpec, ih, hhit, hiter]
    simp only [entryOf_congr htag, ltable_setIterSpec, hhit]
    by_cases hi : entryOf p b s = some i
    · simp [hi]
    · simp [hi]

/-- Squashing the branches restores the counts exactly if those of the entries they hit were 0. -/
theorem squash_restores_iff (hspec : p.useSpeculation = true) (bs : List Branch) (s : State) :
  (∀ i, ((predictAndSquash p bs s).ltable i).currentIterSpec = (s.ltable i).currentIterSpec)
    ↔ ∀ b ∈ bs, ∀ i ∈ entryOf p b s, (s.ltable i).currentIterSpec = 0
  := by
  simp only [ltable_predictAndSquash hspec]
  constructor
  · intro hsame b hb i hi
    rw [← hsame, if_pos ⟨b, hb, hi⟩]
  · intro hzero i
    split_ifs with hhit
    · obtain ⟨b, hb, hi⟩ := hhit
      rw [hzero b hb i hi]
    · rfl

/-- A predictor with one entry. -/
def oneEntry : Params := ⟨0, 1, 8, 8, 0, false, true, false⟩

/-- A branch is predicted and squashed before any iteration is counted. -/
theorem squash_restores_iff_one :
  ((predictAndSquash oneEntry [⟨0, true, 0⟩] ⟨fun _ => {}, -1⟩).ltable 0).currentIterSpec = 0
  := (squash_restores_iff rfl [⟨0, true, 0⟩] ⟨fun _ => {}, -1⟩).mpr (by simp) 0

/-- The entry has counted three iterations, and the squash sets this to 0. -/
theorem squash_forgets :
  let s : State := ⟨fun _ => { currentIterSpec := 3 }, -1⟩
  ((predictAndSquash oneEntry [⟨0, true, 0⟩] s).ltable 0).currentIterSpec
    ≠ (s.ltable 0).currentIterSpec
  := by
  decide

end Gem5Arc.LoopPredictor
