import Gem5Arc.Arc.Adaptation
import Gem5Arc.Lib.Since
import Mathlib.Data.List.GetD

/-!
# The victims of ARC

Which entry `getVictim` chooses, and what it leaves behind. Three laws are expected of it, and for
each of them this module says exactly when it holds.

* The victim is the least recently used valid candidate of the list that is selected. But the scan
  for it starts with the current time, so that it finds nothing if all these candidates have been
  touched just now. Then the first valid candidate is the victim, whatever list it is in
  (`victim_leastRecent_iff`).
* A query can be repeated: it returns the same victim and changes nothing more. But every query
  adds the victim to a ghost list (`queries_repeatable_iff`).
* There is a victim, and an entry that is not valid comes first. But only valid entries are
  considered (`getVictim_contract_iff`).
-/

namespace Gem5Arc

open Function List

namespace ARC

variable {E : Type} {e : E} {ops : List (Op E)} {now : Tick} {op : Op E}

/-! ### The scan for the least recently used candidate -/

/-- A valid entry of T1 or of T2. -/
def InList (data : E → ARCReplData E) (fromT1 : Bool) (e : E) : Prop :=
  (data e).valid = true ∧ (data e).listId = if fromT1 then 1 else 2

variable {data : E → ARCReplData E} {fromT1 : Bool} {arc arc' : ARC} {cap : ℕ} {tag : Addr}

theorem InList.listId_beq (h : InList data fromT1 e) :
  ((data e).listId == 1) = fromT1
  := by
  cases fromT1 with
  | false => simp [h.2]
  | true => simp [h.2]

/-- One turn of the loop of `leastRecentlyUsed`. -/
def scan (data : E → ARCReplData E) (fromT1 : Bool) (acc : Tick × Option E) (entry : E) :
    Tick × Option E :=
  if (data entry).valid
      && ((fromT1 && (data entry).listId == 1) || (!fromT1 && (data entry).listId == 2)) then
    if (data entry).lastTouchTick < acc.1 then ((data entry).lastTouchTick, some entry) else acc
  else
    acc

theorem selected_iff :
  ((data e).valid && ((fromT1 && (data e).listId == 1) || (!fromT1 && (data e).listId == 2)))
      = true
    ↔ InList data fromT1 e
  := by
  cases fromT1 with
  | false => simp [InList]
  | true => simp [InList]

/-- The loop keeps what it has if no entry of the list is older. Otherwise it ends with the oldest
entry of the list. -/
theorem foldl_scan (data : E → ARCReplData E) (fromT1 : Bool) (candidates : List E)
    (acc : Tick × Option E) :
  (candidates.foldl (scan data fromT1) acc = acc
      ∧ ∀ e ∈ candidates, InList data fromT1 e → acc.1 ≤ (data e).lastTouchTick)
    ∨ ∃ e ∈ candidates, InList data fromT1 e ∧ (data e).lastTouchTick < acc.1
      ∧ candidates.foldl (scan data fromT1) acc = ((data e).lastTouchTick, some e)
      ∧ ∀ e' ∈ candidates, InList data fromT1 e' →
          (data e).lastTouchTick ≤ (data e').lastTouchTick
  := by
  induction candidates generalizing acc with
  | nil =>
    left
    simp
  | cons c candidates ih =>
    rw [foldl_cons]
    by_cases hc : InList data fromT1 c ∧ (data c).lastTouchTick < acc.1
    · obtain ⟨hin, hlt⟩ := hc
      have hscan : scan data fromT1 acc c = ((data c).lastTouchTick, some c) := by
        rw [scan, if_pos (selected_iff.mpr hin), if_pos hlt]
      rw [hscan]
      right
      rcases ih ((data c).lastTouchTick, some c) with ⟨hfold, hle⟩ | ⟨e, he, hin', hlt', hfold, hle⟩
      · refine ⟨c, mem_cons_self, hin, hlt, hfold, ?_⟩
        rw [forall_mem_cons]
        exact ⟨fun _ => le_refl _, hle⟩
      · refine ⟨e, mem_cons_of_mem c he, hin', hlt'.trans hlt, hfold, ?_⟩
        rw [forall_mem_cons]
        exact ⟨fun _ => hlt'.le, hle⟩
    · have hscan : scan data fromT1 acc c = acc := by
        rw [scan]
        split_ifs with hsel hlt
        · exact absurd ⟨selected_iff.mp hsel, hlt⟩ hc
        · rfl
        · rfl
      have hge :=  fun hin => Nat.le_of_not_lt fun hlt => hc ⟨hin, hlt⟩
      rw [hscan]
      rcases ih acc with ⟨hfold, hle⟩ | ⟨e, he, hin', hlt', hfold, hle⟩
      · left
        rw [forall_mem_cons]
        exact ⟨hfold, hge, hle⟩
      · right
        refine ⟨e, mem_cons_of_mem c he, hin', hlt', hfold, ?_⟩
        rw [forall_mem_cons]
        exact ⟨fun hin => hlt'.le.trans (hge hin), hle⟩

/-! ### The list that is selected -/

/-- T1 is selected if it has more valid candidates than the target size says, or if T2 has none. -/
def selectsT1 (p : ℤ) (data : E → ARCReplData E) (candidates : List E) : Bool :=
  decide (p < candidates.countP fun e => (data e).valid && (data e).listId == 1)
    || candidates.all fun e => !((data e).valid && (data e).listId == 2)

theorem countLists_eq (data : E → ARCReplData E) (candidates : List E) :
  countLists data candidates
    = (candidates.countP fun e => (data e).valid && (data e).listId == 1,
        candidates.countP fun e => (data e).valid && (data e).listId != 1)
  := by
  have hfold : ∀ acc : ℕ × ℕ, candidates.foldl
      (fun acc entry =>
        if (data entry).valid then
          if (data entry).listId == 1 then (acc.1 + 1, acc.2) else (acc.1, acc.2 + 1)
        else acc) acc
      = (acc.1 + candidates.countP fun e => (data e).valid && (data e).listId == 1,
          acc.2 + candidates.countP fun e => (data e).valid && (data e).listId != 1) := by
    induction candidates with
    | nil =>
      intro acc
      rfl
    | cons c candidates ih =>
      intro acc
      rw [foldl_cons, ih, countP_cons, countP_cons]
      by_cases hvalid : (data c).valid = true
      · by_cases hlist : (data c).listId = 1
        · simp [hvalid, hlist]
          omega
        · simp [hvalid, hlist]
          omega
      · simp [hvalid]
  apply (hfold (0, 0)).trans
  rw [Nat.zero_add, Nat.zero_add]

/-- Every entry is in T1 or in T2. -/
def State.Listed (s : State E) : Prop :=
  ∀ e, (s.data e).listId = 1 ∨ (s.data e).listId = 2

theorem evictFromT1_eq {s : State E} (hs : s.Listed) (p : ℤ) (candidates : List E) :
  evictFromT1 p s.data candidates = selectsT1 p s.data candidates
  := by
  have hne : ∀ e, ((s.data e).valid && (s.data e).listId != 1)
      = ((s.data e).valid && (s.data e).listId == 2) := by
    intro e
    rcases hs e with h | h
    · simp [h]
    · simp [h]
  have hcount : ((candidates.countP fun e => (s.data e).valid && (s.data e).listId != 1) == 0)
      = candidates.all fun e => !((s.data e).valid && (s.data e).listId == 2) := by
    rw [Bool.eq_iff_iff, beq_iff_eq, countP_eq_zero, all_eq_true]
    simp only [hne, Bool.not_eq_true, Bool.not_eq_true']
  rw [evictFromT1, countLists_eq, selectsT1, ← hcount]

section Calls

variable [DecidableEq E] {getSet : E → ℕ} {s t : State E} {v : Option E}

theorem setData_listed (hs : s.Listed) (e : E) (data : ARCReplData E)
    (h : data.listId = 1 ∨ data.listId = 2) :
  (s.setData e data).Listed
  := by
  apply (forall_update_iff s.data fun _ d => d.listId = 1 ∨ d.listId = 2).mpr
  exact ⟨h, fun e' _ => hs e'⟩

theorem call_listed (hlinked : s.Linked) (hs : s.Listed) (h : call getSet op s = .ok t) :
  t.Listed
  := by
  obtain ⟨v, h⟩ := call_eq_ok.mp h
  cases op with
  | reset e now =>
    obtain ⟨-, i, set', hpromote, hdata, -⟩ := step_reset hlinked h
    have hi : i = 1 ∨ i = 2 := by
      cases SetState.promotion_of_promote hpromote with
      | b1 _ => exact .inr rfl
      | b2 _ _ _ => exact .inr rfl
      | miss _ _ => exact .inl rfl
    intro e'
    rw [hdata]
    exact setData_listed hs e (resetData now i (s.data e)) hi e'
  | touch e now =>
    cases h
    apply setData_listed hs
    rcases hs e with h | h
    · simp [ARC.touch, h]
    · simp [ARC.touch, h]
  | invalidate e =>
    cases h
    exact setData_listed hs e _ (hs e)
  | getVictim candidates now =>
    cases h
    apply hs
  | setTag e tag =>
    cases h
    exact setData_listed hs e _ (hs e)

theorem exec_listed (h : Lib.exec (call getSet) ops State.init = .ok s) :
  s.Listed
  := by
  have hinv : s.Linked ∧ s.Listed := by
    apply (Lib.exec_eq_ok_iff.mp h).invariant (P := fun s => s.Linked ∧ s.Listed) _
      ⟨init_linked, fun _ => .inl rfl⟩
    intro s' op t' hs' hcall
    exact ⟨call_linked hs'.1 hcall, call_listed hs'.1 hs'.2 hcall⟩
  apply hinv.2

/-! ### The victim is the least recently used one -/

/-- The victim is the least recently used valid candidate of the list that is selected, and its tag
is added to the ghost list that goes with this list. Nothing else of the policy changes. -/
def LeastRecent (getSet : E → ℕ) (first : E) (rest : List E) (s t : State E) (v : Option E) :
    Prop :=
  let set := getSet first
  let fromT1 := selectsT1 (s.arc.P set) s.data (first :: rest)
  ∃ e ∈ first :: rest, v = some e ∧ InList s.data fromT1 e
    ∧ (∀ e' ∈ first :: rest, InList s.data fromT1 e' →
        (s.data e).lastTouchTick ≤ (s.data e').lastTouchTick)
    ∧ t.arc.view
      = Function.update s.arc.view set ((s.arc.view set).add t.arc.size fromT1 (s.data e).tag)

/-- The scan finds a candidate, or else the first valid candidate is in the list that is
selected. -/
def Findable (getSet : E → ℕ) (first : E) (rest : List E) (now : Tick) (s : State E) : Prop :=
  let fromT1 := selectsT1 (s.arc.P (getSet first)) s.data (first :: rest)
  (∃ e ∈ first :: rest, InList s.data fromT1 e ∧ (s.data e).lastTouchTick < now)
    ∨ ∀ e, (first :: rest).find? (fun e => (s.data e).valid) = some e → InList s.data fromT1 e

/-- A victim that is in the list that is selected is recorded in the ghost list that goes with
it. -/
theorem view_of_victim {first : E} {rest : List E}
    (hstep : step getSet (.getVictim (first :: rest) now) s = .ok (some e, t))
    (he : InList s.data fromT1 e) :
  t.arc.view = update s.arc.view (getSet first)
    ((s.arc.view (getSet first)).add t.arc.size fromT1 (s.data e).tag)
  := by
  obtain ⟨-, -, hview, hsize⟩ := step_getVictim hstep
  rw [hview, SetAfterVictim, he.listId_beq, hsize]

/-- In every state of a run in which some candidate is valid, and none has been touched in the
future, the victim is the least recently used candidate of the list that is selected exactly if some
valid candidate of this list has not been touched just now, or the first valid candidate is in this
list. -/
theorem victim_leastRecent_iff {ops : List (Op E)} {first : E} {rest : List E} {now : Tick}
    (hrun : Lib.exec (call getSet) ops State.init = .ok s)
    (hnow : ∀ e ∈ first :: rest, (s.data e).lastTouchTick ≤ now)
    (hvalid : ∃ e ∈ first :: rest, (s.data e).valid = true)
    (hstep : step getSet (.getVictim (first :: rest) now) s = .ok (v, t)) :
  LeastRecent getSet first rest s t v ↔ Findable getSet first rest now s
  := by
  have hv := (step_getVictim hstep).1
  have hfrom := evictFromT1_eq (exec_listed hrun) (s.arc.P (getSet first)) (first :: rest)
  rw [show (s.arc.view (getSet first)).p = s.arc.P (getSet first) from rfl, selectVictim, hfrom,
    show leastRecentlyUsed s.data _ now _ = (foldl (scan s.data _) (now, none) _).2 from rfl] at hv
  unfold LeastRecent Findable
  dsimp only
  generalize selectsT1 (s.arc.P (getSet first)) s.data (first :: rest) = fromT1 at *
  rcases foldl_scan s.data fromT1 (first :: rest) (now, none) with
    ⟨hfold, hge⟩ | ⟨e, he, hin, hlt, hfold, hle⟩
  · rw [hfold] at hv
    have hfind : ∃ e, (first :: rest).find? (fun e => (s.data e).valid) = some e := by
      apply Option.isSome_iff_exists.mp
      rw [find?_isSome]
      exact hvalid
    obtain ⟨e, hfind⟩ := hfind
    replace hv : v = some e := hv.trans hfind
    subst hv
    constructor
    · rintro ⟨e', -, heq, hin, -⟩
      right
      intro e'' hfind'
      rw [hfind] at hfind'
      cases hfind'
      cases heq
      exact hin
    · rintro (⟨e', he', hin', hlt⟩ | hin)
      · exact absurd (hge e' he' hin') (Nat.not_le_of_lt hlt)
      · refine ⟨e, mem_of_find?_eq_some hfind, rfl, hin e hfind, ?_,
          view_of_victim hstep (hin e hfind)⟩
        intro e' he' hin'
        exact (hnow e (mem_of_find?_eq_some hfind)).trans (hge e' he' hin')
  · rw [hfold] at hv
    subst hv
    exact iff_of_true ⟨e, he, rfl, hin, hle, view_of_victim hstep hin⟩ (.inl ⟨e, he, hin, hlt⟩)

end Calls

/-- Two entries of a set, in T1 and touched at different times. -/
theorem victim_leastRecent_iff_two :
  ∃ s t : State Bool,
    Lib.exec (call fun _ => 0) [.reset true 1, .reset false 2] State.init = .ok s
      ∧ step (fun _ => 0) (.getVictim [false, true] 3) s = .ok (some true, t)
      ∧ LeastRecent (fun _ => 0) false [true] s t (some true)
  := by
  have hrun : Lib.exec (call fun _ => 0) [.reset true 1, .reset false 2] (State.init : State Bool)
      = .ok _ := rfl
  exact ⟨_, _, hrun, rfl, (victim_leastRecent_iff hrun (by decide) ⟨true, by simp, rfl⟩ rfl).mpr
    (.inl ⟨true, by simp, ⟨rfl, rfl⟩, by decide⟩)⟩

/-- One entry of a set is in T2, and another one has just been inserted into T1. T1 is selected,
but the entry in T2 is the victim. -/
theorem victim_of_other_list :
  ∃ s t : State Bool,
    Lib.exec (call fun _ => 0) [.reset true 1, .touch true 2, .reset false 5] State.init = .ok s
      ∧ step (fun _ => 0) (.getVictim [true, false] 5) s = .ok (some true, t)
      ∧ selectsT1 (s.arc.P 0) s.data [true, false] = true ∧ (s.data true).listId = 2
      ∧ t.arc.B1 0 = [] ∧ t.arc.B2 0 = [0]
  := ⟨_, _, rfl, rfl, by decide, rfl, rfl, rfl⟩

/-! ### Queries that are repeated -/

/-- The victims of `n` queries in a row, and the policy after them. -/
def queries (getSet : E → ℕ) (data : E → ARCReplData E) (now : Tick) (candidates : List E) :
    ℕ → ARC → List (Option E) × ARC
  | 0, arc => ([], arc)
  | n + 1, arc =>
    let (victim, arc) := getVictim getSet data now candidates arc
    let (victims, arc) := queries getSet data now candidates n arc
    (victim :: victims, arc)

/-- However often a query is repeated, it returns the victim of the first query, and leaves the
policy as it was after the first query. -/
def Repeatable (getSet : E → ℕ) (data : E → ARCReplData E) (now : Tick) (candidates : List E)
    (arc : ARC) : Prop :=
  let (victim, arc') := getVictim getSet data now candidates arc
  ∀ n, queries getSet data now candidates (n + 1) arc = (List.replicate (n + 1) victim, arc')

/-- The policy is determined by what it has for every set, and the number of sets. -/
theorem eq_of_view (hview : arc.view = arc'.view) (hsize : arc.size = arc'.size) :
  arc = arc'
  := by
  have heq {α : Type} {l l' : List α} (d : α) (hlength : l.length = l'.length)
      (hget : ∀ set, l.getD set d = l'.getD set d) : l = l' := by
    apply ext_getElem hlength
    intro i h h'
    have hi := hget i
    rwa [getD_eq_getElem _ _ h, getD_eq_getElem _ _ h'] at hi
  have hset (set : ℕ) := SetState.mk.inj (congrFun hview set)
  have hB1 := heq [] hsize fun set => (hset set).1
  have hB2 : arc.ghostB2 = arc'.ghostB2 := by
    apply heq [] _ fun set => (hset set).2.1
    rw [arc.ghostB2_length, arc'.ghostB2_length]
    exact hsize
  have hP : arc.targetP = arc'.targetP := by
    apply heq 0 _ fun set => (hset set).2.2
    rw [arc.targetP_length, arc'.targetP_length]
    exact hsize
  cases arc
  cases arc'
  cases hB1
  cases hB2
  cases hP
  rfl

theorem append_singleton_eq_cons_iff {α : Type} {l : List α} {a b : α} :
  l ++ [a] = b :: l ↔ b = a ∧ ∀ x ∈ l, x = a
  := by
  induction l generalizing b with
  | nil => simp [eq_comm]
  | cons c l ih =>
    rw [cons_append, List.cons.injEq, ih, forall_mem_cons]
    constructor
    · rintro ⟨rfl, hc, hl⟩
      exact ⟨hc, hc, hl⟩
    · rintro ⟨rfl, hc, hl⟩
      exact ⟨hc, hc, hl⟩

/-- Adding a tag to a ghost list leaves it as it is exactly if it is full and has no other tag. -/
theorem push_eq_self_iff {l : List Addr} :
  SetState.push cap l tag = l ↔ cap ≤ l.length ∧ ∀ x ∈ l, x = tag
  := by
  rw [SetState.push]
  split_ifs with hfull
  · have hcap : cap ≤ l.length := Nat.le_of_lt_succ hfull
    cases l with
    | nil => simpa using hcap
    | cons b l =>
      rw [cons_append, tail_cons, append_singleton_eq_cons_iff, forall_mem_cons]
      exact (and_iff_right hcap).symm
  · constructor
    · intro h
      have hlength := congrArg List.length h
      simp at hlength
    · rintro ⟨hcap, -⟩
      omega

/-- Adding a tag once more leaves a ghost list as it is exactly if it lacked at most one tag before,
and had no other tag, but for the first one if this is dropped. -/
theorem push_push_eq_iff {l : List Addr} :
  SetState.push cap (SetState.push cap l tag) tag = SetState.push cap l tag
    ↔ cap ≤ l.length + 1 ∧ ∀ x ∈ if cap ≤ l.length then l.tail else l, x = tag
  := by
  rw [push_eq_self_iff, SetState.push]
  by_cases hfull : cap ≤ l.length
  · rw [if_pos hfull, if_pos (Nat.lt_succ_of_le hfull), and_iff_right (Nat.le_succ_of_le hfull)]
    cases l with
    | nil => simpa using hfull
    | cons b l =>
      rw [length_cons] at hfull
      simp [or_imp, hfull]
  · rw [if_neg hfull, if_neg (by omega)]
    simp [or_imp]

/-- The ghost list in which a query records its victim lacks at most one tag. It has no other tag
than that of the victim, but for the first one if this is dropped. -/
def Saturated (set : ℕ) (arc : ARC) (victim : ARCReplData E) : Prop :=
  let ghostList := arc.ghost set (victim.listId == 1)
  let cap := max arc.size (set + 1)
  cap ≤ ghostList.length + 1
    ∧ ∀ x ∈ if cap ≤ ghostList.length then ghostList.tail else ghostList, x = victim.tag

theorem add_eq_self_iff {v : SetState} {isB1 : Bool} :
  v.add cap isB1 tag = v ↔ SetState.push cap (v.ghost isB1) tag = v.ghost isB1
  := by
  cases v
  cases isB1 with
  | false => simp [SetState.add, SetState.setGhost]
  | true => simp [SetState.add, SetState.setGhost]

/-- A query that comes after another one returns the same victim. It leaves the policy alone exactly
if there is no victim, or the ghost list of the victim was saturated before the first one. -/
theorem getVictim_again (getSet : E → ℕ) (data : E → ARCReplData E) (now : Tick) (first : E)
    (rest : List E) {arc'' : ARC} {victim victim' : Option E}
    (h : getVictim getSet data now (first :: rest) arc = (victim, arc'))
    (h' : getVictim getSet data now (first :: rest) arc' = (victim', arc'')) :
  victim' = victim
    ∧ (arc'' = arc' ↔ ∀ e, victim = some e → Saturated (getSet first) arc (data e))
  := by
  obtain ⟨hvictim, hview, hsize⟩ := getVictim_cons getSet data now first rest arc
  obtain ⟨hvictim', hview', hsize'⟩ := getVictim_cons getSet data now first rest arc'
  rw [← hvictim] at hview
  rw [← hvictim'] at hview'
  rw [h] at hvictim hview hsize
  rw [h'] at hvictim' hview' hsize'
  dsimp only at hvictim hview hsize hvictim' hview' hsize'
  have hp : (arc'.view (getSet first)).p = (arc.view (getSet first)).p := by
    rw [hview, update_self]
    cases victim with
    | none => rfl
    | some e =>
      rw [SetAfterVictim, SetState.add, SetState.setGhost]
      split_ifs
      · rfl
      · rfl
  have hsame : victim' = victim := by
    rw [hvictim, hvictim', hp]
  have hsize'' : max arc'.size (getSet first + 1) = arc'.size := by omega
  rw [hsize''] at hview' hsize'
  subst hsame
  refine ⟨rfl, ?_⟩
  have hiff : arc'' = arc' ↔ SetAfterVictim data arc'.size victim' (arc'.view (getSet first))
      = arc'.view (getSet first) := by
    constructor
    · rintro rfl
      exact (update_eq_self_iff.mp hview'.symm)
    · intro hself
      apply eq_of_view _ hsize'
      rw [hview', hself, update_eq_self]
  rw [hiff]
  cases victim' with
  | none => simp [SetAfterVictim]
  | some e =>
    rw [hview, update_self, ← hsize]
    simp only [SetAfterVictim, Option.some.injEq, forall_eq', add_eq_self_iff]
    simp only [SetState.add, SetState.ghost_setGhost, if_true, push_push_eq_iff]
    rw [Saturated, hsize]
    rfl

/-- A query that leaves the policy alone can be repeated. -/
theorem queries_eq_replicate {getSet : E → ℕ} {candidates : List E} {victim : Option E}
    (h : getVictim getSet data now candidates arc = (victim, arc)) (n : ℕ) :
  queries getSet data now candidates n arc = (List.replicate n victim, arc)
  := by
  induction n with
  | zero => rfl
  | succ n ih =>
    rw [queries, h]
    dsimp only
    rw [ih]
    rfl

/-- A query can be repeated exactly if there is no victim, or the ghost list of the victim is
saturated. -/
theorem queries_repeatable_iff (getSet : E → ℕ) (data : E → ARCReplData E) (now : Tick)
    (candidates : List E) (arc : ARC) :
  Repeatable getSet data now candidates arc
    ↔ ∀ first ∈ candidates.head?, ∀ e,
        (getVictim getSet data now candidates arc).1 = some e →
        Saturated (getSet first) arc (data e)
  := by
  cases candidates with
  | nil =>
    simp only [head?_nil, Option.mem_def, reduceCtorEq, false_imp_iff, implies_true, iff_true]
    intro n
    exact queries_eq_replicate rfl (n + 1)
  | cons first rest =>
    obtain ⟨⟨victim, arc'⟩, h⟩ : ∃ r, getVictim getSet data now (first :: rest) arc = r :=
      ⟨_, rfl⟩
    obtain ⟨⟨victim', arc''⟩, h'⟩ : ∃ r, getVictim getSet data now (first :: rest) arc' = r :=
      ⟨_, rfl⟩
    obtain ⟨hsame, hiff⟩ := getVictim_again getSet data now first rest h h'
    subst hsame
    rw [Repeatable, h]
    simp only [head?_cons, Option.mem_def, Option.some.injEq, forall_eq']
    rw [← hiff]
    constructor
    · intro hrepeat
      have htwo := hrepeat 1
      rw [queries, h] at htwo
      simp only [queries, h'] at htwo
      exact congrArg Prod.snd htwo
    · rintro rfl n
      rw [queries, h]
      dsimp only
      rw [queries_eq_replicate h']
      rfl

/-- One entry has been inserted into set 1. The second query adds its tag to B1 once more. -/
theorem second_query_changes_B1 :
  ∃ s : State Unit, Lib.exec (call fun _ => 1) [.reset () 1] State.init = .ok s
    ∧ (queries (fun _ => 1) s.data 2 [()] 1 s.arc).2.B1 1 = [0]
    ∧ (queries (fun _ => 1) s.data 2 [()] 2 s.arc).2.B1 1 = [0, 0]
  := ⟨_, rfl, rfl, rfl⟩

/-! ### What is expected of a replacement policy -/

section Contract

variable [DecidableEq E] {getSet : E → ℕ} {s t : State E} {v : Option E}

/-- The call inserts an entry. -/
def Inserts (e : E) (event : Lib.Event (State E) (Op E)) : Prop :=
  ∃ now, event.label = .reset e now

/-- The call invalidates an entry. -/
def Invalidates (e : E) (event : Lib.Event (State E) (Op E)) : Prop :=
  event.label = .invalidate e

/-- An entry has been inserted, and not been invalidated since. -/
def Resident (getSet : E → ℕ) (ops : List (Op E)) (e : E) : Prop :=
  Lib.Since (Inserts e) (Invalidates e) (Lib.events (call getSet) ops State.init)

theorem setData_valid_iff (s : State E) (e e' : E) (data : ARCReplData E) :
  ((s.setData e' data).data e).valid = true
    ↔ if e = e' then data.valid = true else (s.data e).valid = true
  := by
  by_cases he : e = e'
  · subst he
    simp [State.setData]
  · simp [State.setData, he]

theorem call_valid_iff (hs : s.Linked) (h : call getSet op s = .ok t) :
  (t.data e).valid = true
    ↔ Inserts e ⟨s, op, t⟩ ∨ ((s.data e).valid = true ∧ ¬ Invalidates e ⟨s, op, t⟩)
  := by
  obtain ⟨v, h⟩ := call_eq_ok.mp h
  cases op with
  | reset e' now =>
    obtain ⟨-, i, set', -, hdata, -⟩ := step_reset hs h
    have hvalid := setData_valid_iff s e e' (resetData now i (s.data e'))
    rw [State.setData, ← hdata] at hvalid
    rw [hvalid]
    by_cases he : e = e'
    · simp [he, resetData, Inserts]
    · simp [he, Ne.symm he, Inserts, Invalidates]
  | touch e' | invalidate e' | setTag e' =>
    cases h
    rw [setData_valid_iff]
    by_cases he : e = e'
    · simp [he, ARC.touch, ARC.invalidate, Inserts, Invalidates]
    · simp [he, Ne.symm he, Inserts, Invalidates]
  | getVictim candidates now =>
    cases h
    simp [Inserts, Invalidates]

/-- An entry is valid exactly if it has been inserted, and not been invalidated since. -/
theorem valid_iff_resident (h : Lib.exec (call getSet) ops State.init = .ok s) :
  (s.data e).valid = true ↔ Resident getSet ops e
  := by
  apply Lib.holds_iff_since (H := fun s : State E => (s.data e).valid = true)
    (I := State.Linked) (A := fun _ _ => True) _ _ init_linked
    (by simp [State.init, instantiateEntry])
    (Lib.meets_of_forall (by simp) _) h
  · intro s' op t' hs' _ hcall
    exact call_valid_iff hs' hcall
  · intro s' op t' hs' _ hcall
    exact call_linked hs' hcall

/-- One of the candidates is returned, and if some candidate is not resident, one that is not. -/
def Honours (resident : E → Prop) (candidates : List E) (victim : Option E) : Prop :=
  ∃ e ∈ candidates, victim = some e ∧ ((∃ e' ∈ candidates, ¬ resident e') → ¬ resident e)

/-- In every state of a run, the choice of a victim is what is expected of a replacement policy
exactly if all candidates are resident. -/
theorem getVictim_contract_iff {ops : List (Op E)} {first : E} {rest : List E} {now : Tick}
    (hrun : Lib.exec (call getSet) ops State.init = .ok s)
    (hstep : step getSet (.getVictim (first :: rest) now) s = .ok (v, t)) :
  Honours (Resident getSet ops) (first :: rest) v
    ↔ ∀ e ∈ first :: rest, Resident getSet ops e
  := by
  have hv := (step_getVictim hstep).1
  have hresident (e : E) := valid_iff_resident (e := e) hrun
  constructor
  · rintro ⟨e, -, rfl, hfirst⟩
    have hvalid := (selectVictim_mem hv.symm).2
    by_contra hnot
    push Not at hnot
    exact hfirst hnot ((hresident e).mp hvalid)
  · intro hall
    have hfirst := (hresident first).mpr (hall first mem_cons_self)
    obtain ⟨e, he⟩ : ∃ e, selectVictim (s.arc.view (getSet first)).p s.data now (first :: rest)
        = some e := exists_selectVictim mem_cons_self hfirst
    refine ⟨e, (selectVictim_mem he).1, hv.trans he, ?_⟩
    rintro ⟨e', he', hnot⟩
    exact absurd (hall e' he') hnot

end Contract

/-- In a set that is full, the victim is one of its entries. -/
theorem getVictim_contract_iff_full :
  ∃ s t : State Unit, Lib.exec (call fun _ => 0) [.reset () 1] State.init = .ok s
    ∧ step (fun _ => 0) (.getVictim [()] 2) s = .ok (some (), t)
    ∧ Honours (Resident (fun _ => 0) [.reset () 1]) [()] (some ())
  := by
  have hrun : ∃ s : State Unit, Lib.exec (call fun _ => 0) [.reset () 1] State.init = .ok s
      ∧ (s.data ()).valid = true
      ∧ ∃ t, step (fun _ => 0) (.getVictim [()] 2) s = .ok (some (), t) := ⟨_, rfl, rfl, _, rfl⟩
  obtain ⟨s, hrun, hvalid, t, hstep⟩ := hrun
  refine ⟨s, t, hrun, hstep, (getVictim_contract_iff hrun hstep).mpr ?_⟩
  intro e _
  exact (valid_iff_resident hrun).mp hvalid

/-- No victim is found in a set that is empty. In a set with one invalid and one valid entry, the
valid one is evicted. -/
theorem evicts_valid_or_none :
  (∃ t : State Bool, step (fun _ => 0) (.getVictim [true, false] 1) State.init = .ok (none, t))
    ∧ ∃ s t : State Bool, Lib.exec (call fun _ => 0) [.reset true 1] State.init = .ok s
      ∧ (s.data false).valid = false
      ∧ step (fun _ => 0) (.getVictim [false, true] 2) s = .ok (some true, t)
  := ⟨⟨_, rfl⟩, _, _, rfl, rfl, rfl⟩

end ARC

end Gem5Arc
