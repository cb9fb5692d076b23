import Gem5Arc.Basic

/-!
# The ARC replacement policy

The policy of `mem/cache/replacement_policies/arc_rp.cc`. Every replaceable entry has a
replacement data, which places it in the list T1 (recent) or T2 (frequent). The policy keeps
for every set the ghost lists B1 and B2 of tags recently evicted from T1 and T2, and the
target size `targetP` of T1. These are vectors indexed by the set number, which grow when a
set is first used.

Entries are the elements of a type `E`. An operation that follows pointers to entries is
given what it reads there: `getSet`, the set number of an entry, and `replacementData`, the
replacement data of an entry.
-/

namespace Gem5Arc

/-- The replacement data of an entry under ARC, with the values its constructor gives. -/
structure ARCReplData (E : Type) where
  /-- The entry this data is linked to; `none` until `setPosition` writes the pointer. -/
  entry : Option E := none
  /-- Last time the block was accessed. -/
  lastTouchTick : Tick := 0
  /-- 1 = T1 (recent), 2 = T2 (frequent). -/
  listId : ℕ := 1
  /-- Whether the block is currently valid. -/
  valid : Bool := false
  /-- Tag of the block. -/
  tag : Addr := 0

/-- The state of the policy. The three vectors have one length, the number of sets used so
far. -/
structure ARC where
  /-- Per-set adaptive target size for T1. -/
  targetP : List ℤ
  /-- Per-set ghost list of tags recently evicted from T1. -/
  ghostB1 : List (List Addr)
  /-- Per-set ghost list of tags recently evicted from T2. -/
  ghostB2 : List (List Addr)
  ghostB2_length : ghostB2.length = ghostB1.length
  targetP_length : targetP.length = ghostB1.length

namespace ARC

variable {E : Type}

/-- The policy before any set is used. -/
def empty : ARC where
  targetP := []
  ghostB1 := []
  ghostB2 := []
  ghostB2_length := rfl
  targetP_length := rfl

/-- The number of sets used so far, `ghostB1.size()`. -/
def size (arc : ARC) : ℕ := arc.ghostB1.length

def B1 (arc : ARC) (set : ℕ) : List Addr := arc.ghostB1.getD set []

def B2 (arc : ARC) (set : ℕ) : List Addr := arc.ghostB2.getD set []

/-- The target size of T1 in a set. -/
def P (arc : ARC) (set : ℕ) : ℤ := arc.targetP.getD set 0

/-- The ghost list B1 or B2 of a set. -/
def ghost (arc : ARC) (set : ℕ) (isB1 : Bool) : List Addr :=
  if isB1 then arc.B1 set else arc.B2 set

/-- Write the ghost list B1 or B2 of a set. -/
def setGhost (arc : ARC) (set : ℕ) (isB1 : Bool) (l : List Addr) : ARC :=
  if isB1 then
    { arc with
      ghostB1 := arc.ghostB1.set set l
      ghostB2_length := by rw [List.length_set, arc.ghostB2_length]
      targetP_length := by rw [List.length_set, arc.targetP_length] }
  else
    { arc with
      ghostB2 := arc.ghostB2.set set l
      ghostB2_length := by rw [List.length_set, arc.ghostB2_length] }

/-- Write the target size of T1 in a set. -/
def setP (arc : ARC) (set : ℕ) (p : ℤ) : ARC :=
  { arc with
    targetP := arc.targetP.set set p
    targetP_length := by rw [List.length_set, arc.targetP_length] }

/-- `std::vector::resize(n, d)` of a vector that has at most `n` elements. -/
def resize {α : Type} (v : List α) (n : ℕ) (d : α) : List α :=
  v ++ List.replicate (n - v.length) d

/-- Ensure that the per-set structures are large enough for a set. -/
def ensureSet (arc : ARC) (set : ℕ) : ARC :=
  if set ≥ arc.size then
    { targetP := resize arc.targetP (set + 1) 0
      ghostB1 := resize arc.ghostB1 (set + 1) []
      ghostB2 := resize arc.ghostB2 (set + 1) []
      ghostB2_length := by simp [resize, arc.ghostB2_length]
      targetP_length := by simp [resize, arc.targetP_length] }
  else
    arc

/-- By how much a hit moves the target size, when the ghost list that was hit now has `hit`
elements and the other one `other`. -/
def delta (hit other : ℕ) : Except Fault ℕ :=
  if hit ≥ other then pure 1 else divide (other + hit - 1) hit

/-- Adjust the target size of a set after a hit in one of its ghost lists. -/
def adjustP (arc : ARC) (set : ℕ) (hitInB1 : Bool) : Except Fault ARC :=
  let b1Size := (arc.B1 set).length
  let b2Size := (arc.B2 set).length
  if hitInB1 then do
    let delta ← delta b1Size b2Size
    pure (arc.setP set (min (arc.P set + delta) (b1Size + b2Size)))
  else do
    let delta ← delta b2Size b1Size
    pure (arc.setP set (max (arc.P set - delta) 0))

/-- Add a tag at the back of a ghost list, and drop the front of the list if it is then
longer than the number of sets used so far. -/
def addToGhost (arc : ARC) (set : ℕ) (isB1 : Bool) (tag : Addr) : ARC :=
  let ghostList := arc.ghost set isB1 ++ [tag]
  arc.setGhost set isB1 (if ghostList.length > arc.size then ghostList.tail else ghostList)

/-- Remove the first occurrence of a tag from a ghost list, and say whether there was one. -/
def removeFromGhost (arc : ARC) (set : ℕ) (isB1 : Bool) (tag : Addr) : Bool × ARC :=
  if tag ∈ arc.ghost set isB1 then
    (true, arc.setGhost set isB1 ((arc.ghost set isB1).erase tag))
  else
    (false, arc)

def instantiateEntry : ARCReplData E := {}

/-- Invalidate a block's data. -/
def invalidate (data : ARCReplData E) : ARCReplData E :=
  { data with valid := false }

/-- Note an access to a block: its data moves from T1 to T2. -/
def touch (now : Tick) (data : ARCReplData E) : ARCReplData E :=
  { data with
    lastTouchTick := now
    listId := if data.listId == 1 then 2 else data.listId }

/-- Promote a newly inserted block of a set from the ghost lists: the list its data goes to,
and the policy after it. -/
def promote (arc : ARC) (set : ℕ) (tag : Addr) : Except Fault (ℕ × ARC) :=
  let (inB1, arc) := arc.removeFromGhost set true tag
  if inB1 then do
    let arc ← arc.adjustP set true
    pure (2, arc)
  else
    let (inB2, arc) := arc.removeFromGhost set false tag
    if inB2 then do
      let arc ← arc.adjustP set false
      pure (2, arc)
    else
      pure (1, arc)

/-- Note the insertion of a block. -/
def reset (getSet : E → ℕ) (now : Tick) (data : ARCReplData E) (arc : ARC) :
    Except Fault (ARCReplData E × ARC) :=
  match data.entry with
  | none => .error (.panic "ARC: ReplacementData not linked to ReplaceableEntry!")
  | some entry => do
      let set := getSet entry
      let (listId, arc) ← (arc.ensureSet set).promote set data.tag
      pure ({ data with lastTouchTick := now, valid := true, listId := listId }, arc)

/-! ### Choosing a victim -/

/-- The numbers of valid candidates in T1 and in T2. -/
def countLists (replacementData : E → ARCReplData E) (candidates : List E) : ℕ × ℕ :=
  candidates.foldl
    (fun (t1Count, t2Count) entry =>
      let data := replacementData entry
      if data.valid then
        if data.listId == 1 then (t1Count + 1, t2Count) else (t1Count, t2Count + 1)
      else
        (t1Count, t2Count))
    (0, 0)

/-- Whether the next victim of a set with target size `p` should come from T1. -/
def evictFromT1 (p : ℤ) (replacementData : E → ARCReplData E) (candidates : List E) : Bool :=
  let (t1Count, t2Count) := countLists replacementData candidates
  decide ((t1Count : ℤ) > p) || t2Count == 0

/-- The least recently used valid candidate of the selected list, among those touched before
now. -/
def leastRecentlyUsed (replacementData : E → ARCReplData E) (fromT1 : Bool) (now : Tick)
    (candidates : List E) : Option E :=
  (candidates.foldl
    (fun (oldest, victim) entry =>
      let data := replacementData entry
      if data.valid && ((fromT1 && data.listId == 1) || (!fromT1 && data.listId == 2)) then
        if data.lastTouchTick < oldest then
          (data.lastTouchTick, some entry)
        else
          (oldest, victim)
      else
        (oldest, victim))
    (now, none)).2

/-- The candidate to be evicted from a set with target size `p`: the least recently used one
of the selected list, or else the first valid one. -/
def selectVictim (p : ℤ) (replacementData : E → ARCReplData E) (now : Tick)
    (candidates : List E) : Option E :=
  match leastRecentlyUsed replacementData (evictFromT1 p replacementData candidates) now
      candidates with
  | some victim => some victim
  | none => candidates.find? fun entry => (replacementData entry).valid

/-- Choose a victim and record its tag in the ghost list of the list it was in. -/
def getVictim (getSet : E → ℕ) (replacementData : E → ARCReplData E) (now : Tick)
    (candidates : List E) (arc : ARC) : Option E × ARC :=
  match candidates with
  | [] => (none, arc)
  | first :: _ =>
    let set := getSet first
    let arc := arc.ensureSet set
    match selectVictim (arc.P set) replacementData now candidates with
    | none => (none, arc)
    | some victim =>
      let victimData := replacementData victim
      (some victim, arc.addToGhost set (victimData.listId == 1) victimData.tag)

end ARC

end Gem5Arc
