import Gem5Arc.Base.SatCounter
import Mathlib.Data.Nat.Size

/-!
# Re-reference interval prediction

`BRRIP::getVictim` of `mem/cache/replacement_policies/brrip_rp.cc` ages the candidates in one step.
What it is for is to age them by one until one of them has the largest value, and this is also what
it does (`getVictim_eq_textbook`).
-/

namespace Gem5Arc.BRRIP

open Function List

/-- The values of a `GenericSatCounter` of `base/sat_counter.hh`. -/
abbrev SatCounter (maxVal : ℕ) : Type := Fin (maxVal + 1)

variable {maxVal : ℕ}

/-- `GenericSatCounter::operator+=` with a value that is not negative. The type of the counter has
room for `maxVal`. -/
def SatCounter.add (counter : SatCounter maxVal) (value : ℕ) : SatCounter maxVal where
  val := (⟨maxVal, counter⟩ : GenericSatCounter maxVal.size).add value
  isLt := by
    rw [GenericSatCounter.add_eq counter.is_le maxVal.lt_size_self]
    exact Nat.lt_succ_of_le (Nat.min_le_right _ _)

theorem SatCounter.val_add (counter : SatCounter maxVal) (value : ℕ) :
  (counter.add value).val = min (counter.val + value) maxVal
  := GenericSatCounter.add_eq counter.is_le maxVal.lt_size_self value

/-- `GenericSatCounter::saturate`. -/
def SatCounter.saturate (counter : SatCounter maxVal) : ℕ × SatCounter maxVal :=
  (maxVal - counter.val, Fin.last maxVal)

structure BRRIPReplData (maxVal : ℕ) where
  rrpv : SatCounter maxVal
  valid : Bool

variable {E : Type} {data : E → BRRIPReplData maxVal} {l : List E} {v : E}

/-- The search for a victim. An invalid candidate ends it, as an error. -/
def search (data : E → BRRIPReplData maxVal) (victim : E) : List E → Except E E :=
  foldlM (fun victim candidate =>
    if !(data candidate).valid then .error candidate
    else .ok (if (data candidate).rrpv.val > (data victim).rrpv.val then candidate else victim))
    victim

/-- The search finds the first of the candidates with the largest value. -/
theorem search_spec (hvalid : ∀ e ∈ l, (data e).valid = true) :
  ∃ w, search data v l = .ok w ∧ (∀ e ∈ v :: l, (data e).rrpv.val ≤ (data w).rrpv.val)
    ∧ (v :: l).find? (fun e => (data e).rrpv.val = (data w).rrpv.val) = some w
  := by
  induction l generalizing v with
  | nil => exact ⟨v, rfl, by simp, by simp⟩
  | cons c l ih =>
    obtain ⟨hc, hvalid⟩ := forall_mem_cons.mp hvalid
    have hstep : search data v (c :: l)
        = search data (if (data c).rrpv.val > (data v).rrpv.val then c else v) l := by
      simp [search, hc]
    rw [hstep]
    split_ifs with hlt
    · obtain ⟨w, hw, hle, hfind⟩ := ih hvalid (v := c)
      have hcw := hle c mem_cons_self
      refine ⟨w, hw, forall_mem_cons.mpr ⟨by omega, hle⟩, ?_⟩
      rw [find?_cons_of_neg (by simp; omega), hfind]
    · obtain ⟨w, hw, hle, hfind⟩ := ih hvalid (v := v)
      obtain ⟨hvw, hle⟩ := forall_mem_cons.mp hle
      refine ⟨w, hw, forall_mem_cons.mpr ⟨hvw, forall_mem_cons.mpr ⟨by omega, hle⟩⟩, ?_⟩
      by_cases heq : (data v).rrpv.val = (data w).rrpv.val
      · rw [find?_cons_of_pos (by simp [heq])] at hfind ⊢
        exact hfind
      · rw [find?_cons_of_neg (by simpa using heq)] at hfind ⊢
        rw [find?_cons_of_neg (by simp; omega), hfind]

variable [DecidableEq E]

def setRRPV (e : E) (f : SatCounter maxVal → SatCounter maxVal) (data : E → BRRIPReplData maxVal) :
    E → BRRIPReplData maxVal :=
  update data e { data e with rrpv := f (data e).rrpv }

theorem foldl_setRRPV (hnodup : l.Nodup) (f : SatCounter maxVal → SatCounter maxVal) (e : E) :
  l.foldl (fun data e => setRRPV e f data) data e
    = if e ∈ l then { data e with rrpv := f (data e).rrpv } else data e
  := by
  induction l generalizing data with
  | nil => rfl
  | cons c l ih =>
    obtain ⟨hc, hnodup⟩ := nodup_cons.mp hnodup
    rw [foldl_cons, ih hnodup]
    by_cases he : e = c
    · subst he
      simp [hc, setRRPV]
    · simp [he, setRRPV]

/-- The victim is saturated, and all candidates are aged. -/
def age (candidates : List E) (victim : E) (data : E → BRRIPReplData maxVal) :
    E → BRRIPReplData maxVal :=
  let diff := (data victim).rrpv.saturate.1
  let data := setRRPV victim (·.saturate.2) data
  if diff > 0 then candidates.foldl (fun data e => setRRPV e (·.add diff) data) data else data

def getVictim (candidates : List E) (data : E → BRRIPReplData maxVal) :
    Except Fault (E × (E → BRRIPReplData maxVal)) := do
  assert !candidates.isEmpty
  let first ← deref candidates.head?
  match search data first candidates with
  | .error candidate => return (candidate, data)
  | .ok victim => return (victim, age candidates victim data)

/-- All candidates are aged by the same amount. -/
theorem age_apply (hnodup : l.Nodup) (hv : v ∈ l)
    (hle : ∀ e ∈ l, (data e).rrpv.val ≤ (data v).rrpv.val) (e : E) :
  (age l v data e).rrpv.val
    = if e ∈ l then (data e).rrpv.val + (maxVal - (data v).rrpv.val) else (data e).rrpv.val
  := by
  by_cases hpos : (data v).rrpv.saturate.1 > 0
  · rw [age, if_pos hpos, foldl_setRRPV hnodup]
    by_cases hev : e = v
    · subst hev
      simp [hv, setRRPV, SatCounter.val_add, SatCounter.saturate]
      omega
    · by_cases he : e ∈ l
      · have hlt := hle e he
        simp [he, hev, setRRPV, SatCounter.val_add, SatCounter.saturate]
        omega
      · simp [he, hev, setRRPV]
  · rw [age, if_neg hpos]
    simp only [SatCounter.saturate] at hpos
    by_cases hev : e = v
    · subst hev
      simp [hv, setRRPV, SatCounter.saturate]
      omega
    · simp [hev, setRRPV]
      omega

/-! ### The textbook -/

/-- Age all candidates by one until one of them has the largest value. -/
def textbook (maxVal : ℕ) (candidates : List E) : ℕ → (E → ℕ) → Option (E × (E → ℕ))
  | 0, _ => none
  | turns + 1, rrpv =>
    match candidates.find? fun e => rrpv e = maxVal with
    | some e => some (e, rrpv)
    | none =>
      textbook maxVal candidates turns fun e => if e ∈ candidates then rrpv e + 1 else rrpv e

theorem textbook_eq {diff : ℕ} {rrpv : E → ℕ} (hle : ∀ e ∈ l, rrpv e + diff ≤ maxVal)
    (hfind : l.find? (fun e => rrpv e + diff = maxVal) = some v) :
  textbook maxVal l (diff + 1) rrpv = some (v, fun e => if e ∈ l then rrpv e + diff else rrpv e)
  := by
  induction diff generalizing rrpv with
  | zero =>
    rw [textbook]
    simp only [Nat.add_zero] at hfind
    simp [hfind]
  | succ diff ih =>
    have hnone : l.find? (fun e => rrpv e = maxVal) = none := by
      rw [find?_eq_none]
      intro e he heq
      have hlt := hle e he
      rw [decide_eq_true_eq] at heq
      omega
    rw [textbook, hnone]
    dsimp only
    rw [ih]
    · congr 2
      funext e
      split_ifs
      · omega
      · rfl
    · intro e he
      rw [if_pos he]
      have hlt := hle e he
      omega
    · rw [← hfind]
      apply find?_congr
      intro e he
      rw [if_pos he, Nat.add_assoc, Nat.add_comm 1]

/-- The victim and the counters are those of the textbook, and no counter is clipped. -/
def EqTextbook (candidates : List E) (data : E → BRRIPReplData maxVal) : Prop :=
  ∃ victim data' turns diff, getVictim candidates data = .ok (victim, data')
    ∧ textbook maxVal candidates turns (fun e => (data e).rrpv.val)
      = some (victim, fun e => (data' e).rrpv.val)
    ∧ ∀ e ∈ candidates, (data' e).rrpv.val = (data e).rrpv.val + diff

theorem getVictim_eq_textbook {candidates : List E} (hne : candidates ≠ [])
    (hnodup : candidates.Nodup) (hvalid : ∀ e ∈ candidates, (data e).valid = true) :
  EqTextbook candidates data
  := by
  obtain ⟨first, l, rfl⟩ := exists_cons_of_ne_nil hne
  obtain ⟨hfirst, hl⟩ := forall_mem_cons.mp hvalid
  obtain ⟨v, hsearch, hle, hfind⟩ := search_spec (v := first) hl
  have hage := age_apply hnodup (mem_of_find?_eq_some hfind) hle
  refine ⟨v, age (first :: l) v data, maxVal - (data v).rrpv.val + 1,
    maxVal - (data v).rrpv.val, ?_, ?_, ?_⟩
  · have hsearch' : search data first (first :: l) = .ok v := by
      rw [← hsearch]
      simp [search, hfirst]
    simp [getVictim, deref, hsearch']
  · rw [funext hage]
    apply textbook_eq
    · intro e he
      have hev := hle e he
      omega
    · rw [← hfind]
      congr 1
      funext e
      rw [decide_eq_decide]
      omega
  · intro e he
    rw [hage, if_pos he]

/-- Two candidates with counters of two bits. -/
def sample (e : Bool) : BRRIPReplData 3 := ⟨if e then 1 else 0, true⟩

theorem getVictim_eq_textbook_sample :
  EqTextbook [false, true] sample
  := getVictim_eq_textbook (by decide) (by decide) fun _ _ => rfl

end Gem5Arc.BRRIP
