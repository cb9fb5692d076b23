import Gem5Arc.CPU.TAGEBase

/-!
# Repair of speculative histories

The histories of a predictor are updated for each branch that is fetched. When a branch turns out to
have been mispredicted, `TAGEBase::squash` discards all younger branches and returns to what the
branch has kept. The outcomes before it are not kept: they are expected to be still in the buffer.

A branch is in flight until it is squashed or committed. The younger branches overwrite the outcomes
before a branch only if they are at least `histBufferSize - 2 * maxHist` in number. This has to
hold at all times for the oldest branch in flight, and not just for the branches that are in flight
when a branch is squashed: branches on a wrong path, which were squashed in the meantime, have
overwritten the buffer as well.
-/

namespace Gem5Arc

variable {ι : Type} {p : TAGEParams ι} {bi : BranchInfo p}

namespace ThreadHistory

/-- The histories after some branches, given from the newest one, and nothing else. -/
def replay (p : TAGEParams ι) : List (Addr × Bool) → ThreadHistory p
  | [] => {}
  | (pc, taken) :: branches => ((replay p branches).updateHistories pc taken).2

/-- The pointer `pt` is `k` branches after the pointer `q`. -/
def Behind (pt q : Fin p.period) (k : ℕ) : Prop :=
  k ≤ q ∧ pt.val + k = q ∨ q < k ∧ pt.val + k = q + p.period

variable {pt q : Fin p.period} {k i : ℕ}

theorem Behind.back (h : Behind pt q k) (hk : k + 1 < p.period) :
  Behind (back pt) q (k + 1)
  := by
  have hpt := pt.isLt
  rw [Behind, val_back] at *
  split_ifs <;> omega

/-- Between two branches, there are as many branches as they are apart. -/
theorem Behind.sub {q' : Fin p.period} (hi : Behind pt q i) (hk : Behind pt q' (i + k)) :
  Behind q q' k
  := by
  rw [Behind] at *
  omega

/-- The elements before a branch are not at the pointer of a younger one. -/
theorem Behind.ne (h : Behind pt q k) (hpos : 0 < k) (hk : k < p.period - p.maxHist)
    (hi : i < p.maxHist) :
  q.val + 1 + i ≠ pt
  := by
  rw [Behind] at h
  omega

/-- An update does not overwrite the elements before a branch that is not too far away. -/
theorem globalHistory_updateGHist (h : ThreadHistory p) (dir : Bool) (hq : Behind h.ptGhist q k)
    (hk : k + 1 < p.period - p.maxHist) (hi : i < p.maxHist) :
  (h.updateGHist dir).globalHistory (q + 1 + i) = h.globalHistory (q + 1 + i)
  := by
  have hnext := (hq.back (by omega)).ne (by omega) hk hi
  have hperiod : p.period = p.histBufferSize - p.maxHist := rfl
  rw [updateGHist]
  dsimp only
  rw [Function.update_of_ne hnext]
  split_ifs with hroll
  · rw [Behind] at hq
    rw [rollOver, if_neg (by omega)]
  · rfl

end ThreadHistory

open ThreadHistory

/-- The branches in flight, with what they keep, and all branches that have not been squashed, with
their addresses and directions, each from the newest one. -/
structure Pipeline (p : TAGEParams ι) where
  history : ThreadHistory p := {}
  inFlight : List (BranchInfo p) := []
  survivors : List (Addr × Bool) := []

/-- A branch is fetched, the branch in flight with a number is squashed and gets another direction,
or the oldest branch is committed. -/
inductive BranchEvent where
  | update (branchPc : Addr) (taken : Bool)
  | squash (i : ℕ) (taken : Bool)
  | commit

namespace Pipeline

def step : BranchEvent → Pipeline p → Pipeline p
  | .update branchPc taken, s =>
    let (bi, history) := s.history.updateHistories branchPc taken
    ⟨history, bi :: s.inFlight, (branchPc, taken) :: s.survivors⟩
  | .squash i taken, s =>
    match s.inFlight[i]?, s.survivors[i]? with
    | some bi, some branch =>
      ⟨s.history.squash taken bi, s.inFlight.drop i,
        (branch.1, taken) :: s.survivors.drop (i + 1)⟩
    | _, _ => s
  | .commit, s => { s with inFlight := s.inFlight.dropLast }

def run (l : List BranchEvent) (s : Pipeline p) : Pipeline p := l.foldl (fun s e => step e s) s

/-- The event is allowed: fewer than `histBufferSize - 2 * maxHist` branches are younger than the
oldest branch in flight. -/
def Room : BranchEvent → Pipeline p → Prop
  | .update _ _, s => s.inFlight.length < p.histBufferSize - 2 * p.maxHist
  | _, _ => True

/-- The same, but only when a branch is squashed, and for this branch. -/
def RoomAtSquash : BranchEvent → Pipeline p → Prop
  | .squash i _, _ => i < p.histBufferSize - 2 * p.maxHist
  | _, _ => True

/-- Every event of a run meets a condition. -/
def Throughout (C : BranchEvent → Pipeline p → Prop) : List BranchEvent → Pipeline p → Prop
  | [], _ => True
  | e :: l, s => C e s ∧ Throughout C l (step e s)

instance decidableRoom : ∀ (e : BranchEvent) (s : Pipeline p), Decidable (Room e s)
  | .update _ _, _ => inferInstanceAs (Decidable (_ < _))
  | .squash _ _, _ => inferInstanceAs (Decidable True)
  | .commit, _ => inferInstanceAs (Decidable True)

instance decidableRoomAtSquash :
    ∀ (e : BranchEvent) (s : Pipeline p), Decidable (RoomAtSquash e s)
  | .update _ _, _ => inferInstanceAs (Decidable True)
  | .squash _ _, _ => inferInstanceAs (Decidable (_ < _))
  | .commit, _ => inferInstanceAs (Decidable True)

instance decidableThroughout (C : BranchEvent → Pipeline p → Prop)
    [hC : ∀ e s, Decidable (C e s)] :
    ∀ (l : List BranchEvent) (s : Pipeline p), Decidable (Throughout C l s)
  | [], _ => inferInstanceAs (Decidable True)
  | e :: l, s =>
    have := hC e s
    have := decidableThroughout C l (step e s)
    inferInstanceAs (Decidable (_ ∧ _))

/-! ### What the branches in flight keep -/

/-- What a branch keeps, and the outcomes before it in the buffer, are those of the older
branches. -/
structure Saved (tab : ℕ → Bool) (bi : BranchInfo p) (branchPc : Addr)
    (older : List (Addr × Bool)) : Prop where
  pathHist : bi.pathHist = nextPath p branchPc (replay p older).pathHist
  comp : bi.comp = (replay p older).comp
  outcomes : ∀ i < p.maxHist, tab (bi.ptGhist + 1 + i) = (replay p older).gHist i

theorem Saved.congr {tab tab' : ℕ → Bool} {branchPc : Addr} {older : List (Addr × Bool)}
    (h : Saved tab bi branchPc older)
    (htab : ∀ i < p.maxHist, tab' (bi.ptGhist + 1 + i) = tab (bi.ptGhist + 1 + i)) :
  Saved tab' bi branchPc older
  := by
  refine ⟨h.pathHist, h.comp, ?_⟩
  intro i hi
  rw [htab i hi]
  apply h.outcomes i hi

/-- The histories are those of the branches that have not been squashed, and every branch in flight
can return to those before it. -/
structure Repairable (s : Pipeline p) : Prop where
  agree : Agree s.history (replay p s.survivors)
  bound : s.inFlight.length ≤ p.histBufferSize - 2 * p.maxHist
  saved : ∀ k bi, s.inFlight[k]? = some bi → ∃ branch older,
    s.survivors.drop k = branch :: older ∧ Saved s.history.globalHistory bi branch.1 older
      ∧ Behind s.history.ptGhist bi.ptGhist k

variable {s : Pipeline p}

section

variable (hs : Repairable s)

include hs

theorem Repairable.lt {k : ℕ} (hk : s.inFlight[k]? = some bi) :
  k < p.period - p.maxHist
  := by
  obtain ⟨hlt, -⟩ := List.getElem?_eq_some_iff.mp hk
  have hbound := hs.bound
  have hperiod : p.period = p.histBufferSize - p.maxHist := rfl
  omega

theorem Repairable.update (branchPc : Addr) (taken : Bool)
    (hroom : s.inFlight.length < p.histBufferSize - 2 * p.maxHist) :
  Repairable (step (.update branchPc taken) s)
  := by
  have hperiod : p.period = p.histBufferSize - p.maxHist := rfl
  refine ⟨hs.agree.updateHistories branchPc taken, hroom, ?_⟩
  intro k bi hk
  cases k with
  | zero =>
    cases hk
    refine ⟨_, s.survivors, rfl, ⟨?_, hs.agree.comp, ?_⟩, .inl ⟨Nat.zero_le _, rfl⟩⟩
    · exact congrArg (nextPath p branchPc) hs.agree.pathHist
    · intro i hi
      rw [← hs.agree.gHist i hi]
      have hgHist := gHist_updateGHist s.history taken (Nat.succ_le_of_lt hi)
      rw [gHist, Nat.succ_eq_one_add, ← Nat.add_assoc, ← Nat.succ_eq_one_add] at hgHist
      apply hgHist
  | succ k =>
    obtain ⟨branch, older, hdrop, hsaved, hbehind⟩ := hs.saved k bi hk
    have hk' : s.inFlight[k]? = some bi := hk
    obtain ⟨hlt, -⟩ := List.getElem?_eq_some_iff.mp hk'
    have hroom' : k + 1 < p.period - p.maxHist := by
      omega
    refine ⟨branch, older, hdrop, hsaved.congr ?_, hbehind.back (by omega)⟩
    intro i hi
    apply globalHistory_updateGHist s.history taken hbehind hroom' hi

theorem Repairable.squash (i : ℕ) (taken : Bool) :
  Repairable (step (.squash i taken) s)
  := by
  cases hi : s.inFlight[i]? with
  | none =>
    rw [step, hi]
    apply hs
  | some bi =>
    obtain ⟨branch, older, hdrop, hsaved, hbehind⟩ := hs.saved i bi hi
    have hbranch : s.survivors[i]? = some branch := by
      rw [← List.head?_drop, hdrop]
      rfl
    have holder : s.survivors.drop (i + 1) = older := by
      rw [← List.tail_drop, hdrop]
      rfl
    rw [step, hi, hbranch, holder]
    have hself : ∀ j < p.maxHist, Function.update s.history.globalHistory bi.ptGhist taken
        (bi.ptGhist + 1 + j) = s.history.globalHistory (bi.ptGhist + 1 + j) := by
      intro j _
      apply Function.update_of_ne
      omega
    refine ⟨?_, ?_, ?_⟩
    · apply Agree.updateFolded hsaved.pathHist hsaved.comp
      intro j hj
      apply Eq.trans _ (gHist_updateGHist (replay p older) taken hj).symm
      cases j with
      | zero => apply Function.update_self
      | succ j =>
        have houtcome := (hself j hj).trans (hsaved.outcomes j hj)
        rw [Nat.add_assoc, Nat.add_comm 1 j] at houtcome
        apply houtcome
    · apply le_trans _ hs.bound
      simp
    · intro k bi' hk
      rw [List.getElem?_drop] at hk
      cases k with
      | zero =>
        cases hi.symm.trans hk
        exact ⟨_, older, rfl, hsaved.congr hself, .inl ⟨Nat.zero_le _, rfl⟩⟩
      | succ k =>
        obtain ⟨branch', older', hdrop', hsaved', hbehind'⟩ := hs.saved _ bi' hk
        have hlt := hs.lt hk
        have hapart := hbehind.sub hbehind'
        refine ⟨branch', older', ?_, hsaved'.congr ?_, hapart⟩
        · rw [← hdrop', ← holder]
          rw [List.drop_succ_cons, List.drop_drop]
          congr 1
          omega
        · intro j hj
          apply Function.update_of_ne
          apply hapart.ne (Nat.succ_pos k) (by omega) hj

theorem Repairable.commit :
  Repairable (step .commit s)
  := by
  refine ⟨hs.agree, ?_, ?_⟩
  · apply le_trans _ hs.bound
    simp [step]
  · intro k bi hk
    apply hs.saved k bi
    rw [step, List.getElem?_dropLast] at hk
    split_ifs at hk with hlt
    apply hk

theorem Repairable.run (l : List BranchEvent) (hl : Throughout Room l s) :
  Repairable (run l s)
  := by
  induction l generalizing s with
  | nil => apply hs
  | cons e l ih =>
    apply ih _ hl.2
    cases e with
    | update branchPc taken => apply hs.update branchPc taken hl.1
    | squash i taken => apply hs.squash i taken
    | commit => apply hs.commit

end

/-- If at all times fewer than `histBufferSize - 2 * maxHist` branches are younger than the oldest
branch in flight, the histories are always those of the branches that have not been squashed. -/
theorem agree_replay (l : List BranchEvent) (hl : Throughout Room l ({} : Pipeline p)) :
  Agree (run l ({} : Pipeline p)).history (replay p (run l ({} : Pipeline p)).survivors)
  := by
  have hinit : Repairable ({} : Pipeline p) := by
    refine ⟨Agree.refl _, Nat.zero_le _, ?_⟩
    nofun
  exact (hinit.run l hl).agree

/-- A history of 2 outcomes in a buffer of 8. -/
def small : TAGEParams Unit := .small

theorem agree_replay_squash :
  Agree (run [.update 4 true, .update 8 false, .update 12 true, .squash 1 true]
      ({} : Pipeline small)).history
    (replay small [(8, true), (4, true)])
  := by
  apply agree_replay
  decide

/-- Five branches, a branch `A` and three younger ones, the youngest of which is `B`. Three more
branches on a wrong path are squashed with `B`, and then `A` is squashed. -/
def wrongPath : List BranchEvent :=
  List.replicate 5 (.update 0 false) ++ List.replicate 4 (.update 4 false)
    ++ List.replicate 3 (.update 8 true) ++ [.squash 3 true, .squash 3 true]

/-- The outcomes before `A` have been overwritten, although only three younger branches were in
flight at each of the two squashes. -/
theorem wrongPath_not_agree :
  Throughout RoomAtSquash wrongPath ({} : Pipeline small)
    ∧ (run wrongPath ({} : Pipeline small)).survivors
      = (4, true) :: List.replicate 5 (0, false)
    ∧ (run wrongPath ({} : Pipeline small)).history.gHist 1 = true
    ∧ (replay small (run wrongPath ({} : Pipeline small)).survivors).gHist 1 = false
  := by
  refine ⟨?_, rfl, rfl, rfl⟩
  decide

end Pipeline

end Gem5Arc
