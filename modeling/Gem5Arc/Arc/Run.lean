import Gem5Arc.Arc.SetState
import Gem5Arc.Lib.Run

/-!
# Runs of the ARC policy

The policy under any sequence of `reset`, `touch`, `invalidate` and `getVictim` calls. Every
entry has its own replacement data, linked to the entry. The tag of a replacement data is
written by nobody in the simulator; `setTag` stands for a host that does, so that what is
proved here covers any tags.

The main result is `noDivision_iff`: a run divides by zero exactly when it resets an entry
whose tag is the only element of one ghost list of its set while the other is not empty.
-/

namespace Gem5Arc.ARC

variable {E : Type}

/-- The calls a host makes. -/
inductive Op (E : Type) where
  | reset (entry : E) (now : Tick)
  | touch (entry : E) (now : Tick)
  | invalidate (entry : E)
  | getVictim (candidates : List E) (now : Tick)
  | setTag (entry : E) (tag : Addr)

/-- The replacement data of all entries, and the policy. -/
structure State (E : Type) where
  data : E → ARCReplData E
  arc : ARC

/-- Before the first call: every entry has been given its data. -/
def State.init : State E where
  data e := { (instantiateEntry : ARCReplData E) with entry := some e }
  arc := ARC.empty

def State.setData [DecidableEq E] (s : State E) (e : E) (data : ARCReplData E) : State E :=
  { s with data := Function.update s.data e data }

/-- A call, and the victim it returns if it is a `getVictim`. -/
def step [DecidableEq E] (getSet : E → ℕ) : Op E → State E → Except Fault (Option E × State E)
  | .reset e now, s => do
      let (data, arc) ← ARC.reset getSet now (s.data e) s.arc
      pure (none, { s.setData e data with arc := arc })
  | .touch e now, s => pure (none, s.setData e (ARC.touch now (s.data e)))
  | .invalidate e, s => pure (none, s.setData e (ARC.invalidate (s.data e)))
  | .getVictim candidates now, s =>
    let result := ARC.getVictim getSet s.data now candidates s.arc
    pure (result.1, { s with arc := result.2 })
  | .setTag e tag, s => pure (none, s.setData e { s.data e with tag := tag })

/-- A call, without the victim it returns. -/
def call [DecidableEq E] (getSet : E → ℕ) (op : Op E) (s : State E) : Except Fault (State E) :=
  (step getSet op s).map Prod.snd

/-- The set a call is about, if it is about one. -/
def Op.set (getSet : E → ℕ) : Op E → Option ℕ
  | .reset e _ => some (getSet e)
  | .touch e _ => some (getSet e)
  | .invalidate e => some (getSet e)
  | .getVictim [] _ => none
  | .getVictim (first :: _) _ => some (getSet first)
  | .setTag e _ => some (getSet e)

/-- The entry is linked to its data. -/
def State.Linked (s : State E) : Prop := ∀ e, (s.data e).entry = some e

theorem init_linked :
  (State.init : State E).Linked
  := fun _ => rfl

section Calls

variable [DecidableEq E] {getSet : E → ℕ} {s t : State E} {v : Option E}

theorem setData_linked (hs : s.Linked) {e : E} {data : ARCReplData E} (h : data.entry = some e) :
  (s.setData e data).Linked
  := by
  apply (Function.forall_update_iff s.data fun e d => d.entry = some e).mpr
  exact ⟨h, fun e' _ => hs e'⟩

variable {now : Tick} {op : Op E}

/-- What a successful call of `reset` does. -/
theorem step_reset {e : E} (hs : s.Linked) (h : step getSet (.reset e now) s = .ok (v, t)) :
  v = none ∧ ∃ i set', (s.arc.view (getSet e)).promote (s.data e).tag = .ok (i, set')
    ∧ t.data = Function.update s.data e (resetData now i (s.data e))
    ∧ t.arc.view = Function.update s.arc.view (getSet e) set'
    ∧ t.arc.size = max s.arc.size (getSet e + 1)
  := by
  obtain ⟨⟨data, arc⟩, hreset, hpure⟩ := bind_eq_ok.mp h
  cases hpure
  obtain ⟨i, set', hpromote, rfl, hview, hsize⟩ := reset_inv (hs e) hreset
  exact ⟨rfl, i, set', hpromote, rfl, hview, hsize⟩

/-- What a call of `getVictim` with a first candidate does. -/
theorem step_getVictim {first : E} {rest : List E}
    (h : step getSet (.getVictim (first :: rest) now) s = .ok (v, t)) :
  v = selectVictim (s.arc.view (getSet first)).p s.data now (first :: rest)
    ∧ t.data = s.data
    ∧ t.arc.view = Function.update s.arc.view (getSet first)
        (SetAfterVictim s.data (max s.arc.size (getSet first + 1)) v
          (s.arc.view (getSet first)))
    ∧ t.arc.size = max s.arc.size (getSet first + 1)
  := by
  obtain ⟨hv, hview, hsize⟩ := getVictim_cons getSet s.data now first rest s.arc
  obtain ⟨rfl, rfl⟩ := Prod.mk.inj (Except.ok.inj h)
  rw [hv]
  exact ⟨rfl, rfl, hview, hsize⟩

theorem step_linked (hs : s.Linked) (h : step getSet op s = .ok (v, t)) :
  t.Linked
  := by
  cases op with
  | reset e now =>
    obtain ⟨-, i, set', -, hdata, -⟩ := step_reset hs h
    intro e'
    rw [hdata]
    apply setData_linked hs
    apply hs
  | touch e now | invalidate e | setTag e tag =>
    cases h
    apply setData_linked hs
    apply hs e
  | getVictim candidates now =>
    cases h
    apply hs

/-! ### Division by zero -/

/-- The call resets an entry whose tag is the only element of the ghost list it is found in,
while the other ghost list of the set is not empty. -/
def Op.DividesByZero (getSet : E → ℕ) (s : State E) : Op E → Prop
  | .reset e _ => (s.arc.view (getSet e)).DividesByZero (s.data e).tag
  | _ => False

theorem call_ne_divisionByZero_iff (hs : s.Linked) (op : Op E) :
  call getSet op s ≠ .error .divisionByZero ↔ ¬op.DividesByZero getSet s
  := by
  cases op with
  | reset e now =>
    rw [Op.DividesByZero, call, step]
    cases hpromote : (s.arc.view (getSet e)).promote (s.data e).tag with
    | error f =>
      rw [reset_error (hs e) hpromote]
      rw [SetState.promote] at hpromote
      split_ifs at hpromote with hdiv
      cases hpromote
      simp [Except.map, hdiv]
    | ok r =>
      obtain ⟨i, set'⟩ := r
      obtain ⟨arc', hreset, -⟩ := reset_ok now (hs e) hpromote
      rw [hreset]
      rw [SetState.promote] at hpromote
      split_ifs at hpromote with hdiv
      all_goals simp [Except.map, hdiv]
  | touch e now => simp [call, step, Op.DividesByZero, Except.map]
  | invalidate e => simp [call, step, Op.DividesByZero, Except.map]
  | getVictim candidates now => simp [call, step, Op.DividesByZero, Except.map]
  | setTag e tag => simp [call, step, Op.DividesByZero, Except.map]

/-- A successful call is a successful step, whatever victim it returns. -/
theorem call_eq_ok :
  call getSet op s = .ok t ↔ ∃ v, step getSet op s = .ok (v, t)
  := by
  rw [call]
  cases step getSet op s with
  | error f => simp [Except.map]
  | ok r =>
    obtain ⟨v, u⟩ := r
    simp [Except.map]

theorem call_linked (hs : s.Linked) (h : call getSet op s = .ok t) :
  t.Linked
  := by
  obtain ⟨v, hstep⟩ := call_eq_ok.mp h
  apply step_linked hs hstep

theorem exec_linked {ops : List (Op E)} (hs : s.Linked) (h : Lib.exec (call getSet) ops s = .ok t) :
  t.Linked
  := by
  apply (Lib.exec_eq_ok_iff.mp h).invariant _ hs
  intro s' op t' hs' hcall
  apply call_linked hs' hcall

/-- A run of calls on an empty policy does not divide by zero exactly when no call of it
resets an entry whose tag is the only element of one ghost list of its set while the other
is not empty. -/
theorem noDivision_iff (getSet : E → ℕ) (ops : List (Op E)) :
  Lib.exec (call getSet) ops State.init ≠ .error .divisionByZero
    ↔ ∀ pre op s, pre ++ [op] <+: ops → Lib.exec (call getSet) pre State.init = .ok s →
        ¬op.DividesByZero getSet s
  := by
  rw [Lib.exec_ne_error_iff]
  constructor
  · intro h pre op s hpre hexec
    apply (call_ne_divisionByZero_iff (exec_linked init_linked hexec) op).mp
    apply h pre op s hpre hexec
  · intro h pre op s hpre hexec
    apply (call_ne_divisionByZero_iff (exec_linked init_linked hexec) op).mpr
    apply h pre op s hpre hexec

end Calls

/-- Five calls on the only entry of a set: the entry is evicted once from T1 and once from
T2, and is then inserted again. -/
theorem divides_by_zero :
  Lib.exec (call (fun _ : Unit => 0))
      [.reset () 1, .getVictim [()] 2, .touch () 3, .getVictim [()] 4, .reset () 5] State.init
    = .error .divisionByZero
  := rfl

end Gem5Arc.ARC
