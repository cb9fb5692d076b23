import Gem5Arc.Sim.ServiceOrder

/-!
# The checker of the event queue

`debugVerify` goes through both levels of a queue and compares each event with the one before it.
For the first event it makes up an event at tick 0 with priority 0.

The calls of a run are those of the service order, except that an event may also be inserted for a
time in the past. The pointers of a queue lead the checker through the queued events in the order of
service. So nothing is wrong with any of them, except that the first one may come before the event
that is made up (`debugVerify_iff`).
-/

namespace Gem5Arc.EventQueue

open Lib

variable {I : Type} [DecidableEq I]

/-! ### The checker -/

/-- The local variables of `debugVerify`. -/
structure Verifier (I : Type) where
  /-- The events that have been seen. -/
  map : I → Bool := fun _ => false
  time : Tick := 0
  priority : ℤ := 0

/-- Look at one event. The result is what is printed if there is something wrong with it. -/
def visit (q : EventQueue I) (v : Verifier I) (i : I) : Except String (Verifier I) :=
  let event := q.events i
  if event.when < v.time then .error "time goes backwards!"
  else if event.when = v.time ∧ event.priority < v.priority then .error "priority inverted!"
  else if v.map i then .error "Node already seen"
  else
    .ok
      { map := Function.update v.map i true
        time := event.when
        priority := event.priority }

/-- The inner loop, which goes through the events of a bin. -/
def verifyBin (q : EventQueue I) :
    ℕ → Option I → Verifier I → Except Fault (Except String (Verifier I))
  | 0, _, _ => .error .outOfFuel
  | _ + 1, none, v => .ok (.ok v)
  | fuel + 1, some i, v =>
    match q.visit v i with
    | .error msg => .ok (.error msg)
    | .ok v => verifyBin q fuel (q.events i).nextInBin v

/-- The outer loop, which goes through the bins. The inner loop may take `turns` turns each time. -/
def verifyBins (q : EventQueue I) (turns : ℕ) :
    ℕ → Option I → Verifier I → Except Fault (Except String (Verifier I))
  | 0, _, _ => .error .outOfFuel
  | _ + 1, none, v => .ok (.ok v)
  | fuel + 1, some i, v => do
      match ← q.verifyBin turns (some i) v with
      | .error msg => pure (.error msg)
      | .ok v => verifyBins q turns fuel (q.events i).nextBin v

/-- Whether nothing is wrong with the events of the queue. -/
def debugVerify (fuel : ℕ) (q : EventQueue I) : Except Fault Bool := do
  match ← q.verifyBins fuel fuel q.head {} with
  | .error _ => pure false
  | .ok _ => pure true

/-! ### The events one after the other -/

/-- Look at some events one after the other. -/
def visitAll (q : EventQueue I) (v : Verifier I) (l : List I) : Except String (Verifier I) :=
  l.foldlM q.visit v

variable {q : EventQueue I} {v : Verifier I} {l : List I} {p : Option I} {fuel : ℕ}
  {s : List I × EventQueue I}

theorem visitAll_cons {i : I} :
  q.visitAll v (i :: l) = q.visit v i >>= fun v => q.visitAll v l
  := List.foldlM_cons

theorem visitAll_append {m : List I} :
  q.visitAll v (l ++ m) = q.visitAll v l >>= fun v => q.visitAll v m
  := List.foldlM_append

theorem verifyBin_eq (h : Seg q.nextInBin p l none) (hfuel : l.length < fuel) (v : Verifier I) :
  q.verifyBin fuel p v = .ok (q.visitAll v l)
  := by
  induction l generalizing p fuel v with
  | nil =>
    obtain rfl := h
    obtain ⟨fuel, rfl⟩ := Nat.exists_eq_add_one.mpr hfuel
    rfl
  | cons i l ih =>
    obtain ⟨rfl, hnext⟩ := h
    obtain ⟨fuel, rfl⟩ := Nat.exists_eq_add_one.mpr (Nat.zero_lt_of_lt hfuel)
    rw [verifyBin, visitAll_cons]
    cases q.visit v i with
    | error msg => rfl
    | ok v => exact ih hnext (Nat.lt_of_succ_lt_succ hfuel) v

/-- The loops go through the events in the order of the queue. -/
theorem verifyBins_eq {bins : List (Bin I)} {turns : ℕ} (h : q.Part p bins none)
    (hturns : (items bins).length < turns) (hfuel : bins.length < fuel) (v : Verifier I) :
  q.verifyBins turns fuel p v = .ok (q.visitAll v (items bins))
  := by
  induction bins generalizing p fuel v with
  | nil =>
    obtain rfl := h.chain
    obtain ⟨fuel, rfl⟩ := Nat.exists_eq_add_one.mpr hfuel
    rfl
  | cons b bins ih =>
    obtain ⟨rfl, hbin, hrest, -⟩ := Part.cons_iff.mp h
    obtain ⟨fuel, rfl⟩ := Nat.exists_eq_add_one.mpr (Nat.zero_lt_of_lt hfuel)
    rw [items_cons, List.length_append] at hturns
    rw [verifyBins, verifyBin_eq hbin.stack (by omega), ok_bind, items_cons, visitAll_append]
    cases q.visitAll v b.items with
    | error msg => rfl
    | ok v => exact ih hrest (by omega) (Nat.lt_of_succ_lt_succ hfuel) v

/-! ### When nothing is wrong -/

/-- Time and priority of the last event that has been seen. -/
def Verifier.key (v : Verifier I) : ℕ ×ₗ ℤ := toLex (v.time, v.priority)

/-- Nothing is wrong with an event that is not before the last one and has not been seen. -/
theorem visit_eq_ok {v' : Verifier I} {i : I} :
  q.visit v i = .ok v' ↔ v.key ≤ q.key i ∧ v.map i = false
    ∧ v' = ⟨Function.update v.map i true, (q.events i).when, (q.events i).priority⟩
  := by
  have hle : v.key ≤ q.key i ↔ ¬ (q.events i).when < v.time
      ∧ ¬ ((q.events i).when = v.time ∧ (q.events i).priority < v.priority) := by
    rw [← not_lt, Verifier.key, key, Event.key, Prod.Lex.toLex_lt_toLex, not_or]
  rw [hle, visit]
  split_ifs with htime hpriority hseen
  · simp [htime]
  · simp [hpriority]
  · simp [hseen]
  · rw [Except.ok.injEq, eq_comm]
    exact ⟨fun h => ⟨⟨htime, hpriority⟩, Bool.eq_false_iff.mpr hseen, h⟩, fun h => h.2.2⟩

/-- Events that are sorted and have not been seen are right exactly if they are not before the last
event that has been seen. -/
theorem visitAll_isOk (hsorted : l.Pairwise (q.key · ≤ q.key ·)) (hnodup : l.Nodup)
    (hnew : ∀ i ∈ l, v.map i = false) :
  (∃ v', q.visitAll v l = .ok v') ↔ ∀ i ∈ l, v.key ≤ q.key i
  := by
  induction l generalizing v with
  | nil => exact ⟨by simp, fun _ => ⟨v, rfl⟩⟩
  | cons i l ih =>
    obtain ⟨hfirst, hsorted⟩ := List.pairwise_cons.mp hsorted
    obtain ⟨hi, hnodup⟩ := List.nodup_cons.mp hnodup
    obtain ⟨hnewi, hnew⟩ := List.forall_mem_cons.mp hnew
    rw [List.forall_mem_cons, visitAll_cons]
    constructor
    · rintro ⟨v', h⟩
      obtain ⟨v₁, hvisit, -⟩ := bind_eq_ok.mp h
      have hle := (visit_eq_ok.mp hvisit).1
      exact ⟨hle, fun j hj => hle.trans (hfirst j hj)⟩
    · rintro ⟨hle, -⟩
      rw [visit_eq_ok.mpr ⟨hle, hnewi, rfl⟩, ok_bind]
      have hnew' : ∀ j ∈ l, Function.update v.map i true j = false := by
        intro j hj
        rw [Function.update_of_ne (ne_of_mem_of_not_mem hj hi)]
        exact hnew j hj
      exact (ih hsorted hnodup hnew').mpr hfirst

/-! ### Runs -/

/-- A call that returns. An event is not inserted while it is queued, its time does not change while
it is queued, and only a queued event is removed. -/
inductive FreeStep : List I × EventQueue I → Op I → List I × EventQueue I → Prop
  | setWhen {pending : List I} {q : EventQueue I} {event : I} (when : Tick) :
      event ∉ pending → FreeStep (pending, q) (.setWhen event when) (pending, q.setWhen event when)
  | squash {pending : List I} {q : EventQueue I} (event : I) :
      FreeStep (pending, q) (.squash event) (pending, q.squash event)
  | insert {pending : List I} {q q' : EventQueue I} {event : I} (fuel : ℕ) :
      event ∉ pending → q.insert fuel event = .ok q' →
      FreeStep (pending, q) (.insert event) (event :: pending, q')
  | remove {pending : List I} {q q' : EventQueue I} {event : I} (fuel : ℕ) :
      event ∈ pending → q.remove fuel event = .ok q' →
      FreeStep (pending, q) (.remove event) (pending.erase event, q')
  | serviceOne {pending : List I} {q q' : EventQueue I} {event : I} :
      q.serviceOne = .ok (event, q') →
      FreeStep (pending, q) .serviceOne (pending.erase event, q')

theorem Lined.freeStep {t : List I × EventQueue I} {op : Op I} (h : Lined s)
    (hstep : FreeStep s op t) :
  Lined t
  := by
  cases hstep with
  | setWhen when hnew =>
    refine h.congr rfl ?_
    intro i hi
    apply sameLinks_edit
    rintro rfl
    apply hnew hi
  | squash event =>
    refine h.congr rfl ?_
    intro i _
    apply sameLinks_setSquashed
  | insert fuel hnew hinsert =>
    obtain ⟨q', hreturns, hlined, -⟩ := h.insert hnew
    obtain rfl := hreturns.unique hinsert
    exact hlined
  | remove fuel hmem hremove =>
    obtain ⟨q', hreturns, hlined, -⟩ := h.remove hmem (queue_of_remove hremove)
    obtain rfl := hreturns.unique hremove
    exact hlined
  | serviceOne hservice => exact (h.of_serviceOne hservice).2.2.1

theorem reachable_lined {events : I → Event I} (h : Lib.Reachable FreeStep ([], init events) s) :
  Lined s
  := by
  apply h.invariant
  · intro s op t hs hstep
    exact hs.freeStep hstep
  · exact ⟨List.nodup_nil, [], Part.nil, Ordered.nil⟩

/-- In every state of a run the checker ends, and says that nothing is wrong exactly if no queued
event is at tick 0 with a negative priority. -/
theorem debugVerify_iff {events : I → Event I} {pending : List I} {q : EventQueue I}
    (h : Lib.Reachable FreeStep ([], init events) (pending, q)) {fuel : ℕ}
    (hfuel : pending.length < fuel) :
  ∃ verdict, q.debugVerify fuel = .ok verdict
    ∧ (verdict = true ↔ ∀ i ∈ pending, (q.events i).when = 0 → 0 ≤ (q.events i).priority)
  := by
  obtain ⟨hnodup, bins, hbins, hordered⟩ := reachable_lined h
  rw [← hordered.perm.length_eq] at hfuel
  have hturns := Nat.lt_of_le_of_lt (length_le_items bins) hfuel
  have hok := visitAll_isOk (v := {}) hordered.sorted (hordered.perm.nodup_iff.mpr hnodup) (by simp)
  have hkey : (∀ i ∈ items bins, (Verifier.key ({} : Verifier I)) ≤ q.key i)
      ↔ ∀ i ∈ pending, (q.events i).when = 0 → 0 ≤ (q.events i).priority := by
    apply forall_congr'
    intro i
    rw [hordered.mem_iff, ← not_lt, Verifier.key, key, Event.key, Prod.Lex.toLex_lt_toLex]
    simp
  rw [hkey] at hok
  rw [debugVerify, verifyBins_eq hbins hfuel hturns, ok_bind, ← hok]
  cases q.visitAll {} (items bins) with
  | error msg => exact ⟨false, rfl, by simp⟩
  | ok v => exact ⟨true, rfl, by simp⟩

/-- Two events, one of them at tick 0. -/
theorem debugVerify_iff_two :
  ∃ q, Lib.Reachable FreeStep ([], init fun i : ℕ => { when := i, priority := 3 * i }) ([1, 0], q)
    ∧ ∃ verdict, q.debugVerify 3 = .ok verdict
      ∧ (verdict = true ↔ ∀ i ∈ [1, 0], (q.events i).when = 0 → 0 ≤ (q.events i).priority)
  := by
  have h : ∃ q, Lib.Reachable FreeStep
      ([], init fun i : ℕ => { when := i, priority := 3 * i }) ([1, 0], q) :=
    ⟨_, [.insert 0, .insert 1],
      .cons (.insert 1 (by decide) rfl) (.cons (.insert 1 (by decide) rfl) (.nil _))⟩
  obtain ⟨q, hq⟩ := h
  exact ⟨q, hq, debugVerify_iff hq (by decide)⟩

/-- One event at tick 0 with priority -1 is queued, and the checker complains. -/
theorem debugVerify_complains :
  ∃ q, Lib.Reachable FreeStep ([], init fun _ : Unit => { priority := -1 }) ([()], q)
    ∧ q.debugVerify 2 = .ok false
  := ⟨_, ⟨[.insert ()], .cons (.insert 1 (by decide) rfl) (.nil _)⟩, rfl⟩

end Gem5Arc.EventQueue
