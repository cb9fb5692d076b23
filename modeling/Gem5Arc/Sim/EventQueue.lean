import Gem5Arc.Basic
import Gem5Arc.Lib.Run

/-!
# The event queue

The queue of events of the simulator, `sim/eventq.cc`. It is a linked list of linked lists: the
events with the same time and priority form a bin, a stack that is linked by `nextInBin`, and the
tops of the bins are linked by `nextBin`.

Events are objects `I`, and the queue has the contents of all of them. What `process` does when an
event is serviced is up to the event: the calls it makes to the queue are taken to come after the
call of `serviceOne`. Names, traces, the asynchronous queue of the parallel mode and the release
of managed events are left out.
-/

namespace Gem5Arc

variable {I : Type}

structure Event (I : Type) where
  /-- The top of the next bin. This can be stale, unless the event is the top of its bin. -/
  nextBin : Option I := none
  /-- The next event of the same bin. -/
  nextInBin : Option I := none
  /-- When the event should be processed. -/
  when : Tick := 0
  priority : ℤ := 0
  scheduled : Bool := false
  squashed : Bool := false
  /-- Whether the queue the event belongs to is this one. -/
  queue : Bool := false

namespace Event

/-- The operator `<`. -/
def lt (l r : Event I) : Bool :=
  l.when < r.when || (l.when == r.when && l.priority < r.priority)

/-- The operator `<=`. -/
def le (l r : Event I) : Bool :=
  l.when < r.when || (l.when == r.when && l.priority ≤ r.priority)

/-- The operator `==`. -/
def eq (l r : Event I) : Bool := l.when == r.when && l.priority == r.priority

/-- The operator `!=`. -/
def ne (l r : Event I) : Bool := l.when != r.when || l.priority != r.priority

/-- Time and priority, which decide the order of events. -/
def key (e : Event I) : ℕ ×ₗ ℤ := toLex (e.when, e.priority)

variable {l r : Event I}

theorem lt_iff :
  l.lt r = true ↔ l.key < r.key
  := by
  simp [lt, key, Prod.Lex.toLex_lt_toLex]

theorem le_iff :
  l.le r = true ↔ l.key ≤ r.key
  := by
  simp [le, key, Prod.Lex.toLex_le_toLex]

theorem eq_iff :
  l.eq r = true ↔ l.key = r.key
  := by
  simp [eq, key, Prod.ext_iff]

theorem ne_iff :
  l.ne r = true ↔ l.key ≠ r.key
  := by
  simp [ne, key, Prod.ext_iff, or_iff_not_imp_left]

end Event

/-- A queue, with the contents of the events. -/
structure EventQueue (I : Type) where
  head : Option I
  curTick : Tick
  events : I → Event I

namespace EventQueue

variable [DecidableEq I]

/-- A new queue, before any event is inserted. -/
def init (events : I → Event I) : EventQueue I := ⟨none, 0, events⟩

/-- Rewrite an event. -/
def edit (event : I) (f : Event I → Event I) (q : EventQueue I) : EventQueue I :=
  { q with events := Function.update q.events event (f (q.events event)) }

/-- Write the pointer `nextBin` of an event. -/
def setNextBin (event : I) (p : Option I) (q : EventQueue I) : EventQueue I :=
  q.edit event fun e => { e with nextBin := p }

/-- Write the pointer `nextInBin` of an event. -/
def setNextInBin (event : I) (p : Option I) (q : EventQueue I) : EventQueue I :=
  q.edit event fun e => { e with nextInBin := p }

/-- Set the time of an event, which then belongs to this queue. -/
def setWhen (event : I) (when : Tick) (q : EventQueue I) : EventQueue I :=
  q.edit event fun e => { e with when := when, queue := true }

/-- Set or clear the flag `Scheduled` of an event. -/
def setScheduled (event : I) (scheduled : Bool) (q : EventQueue I) : EventQueue I :=
  q.edit event fun e => { e with scheduled := scheduled }

/-- Set or clear the flag `Squashed` of an event. -/
def setSquashed (event : I) (squashed : Bool) (q : EventQueue I) : EventQueue I :=
  q.edit event fun e => { e with squashed := squashed }

def squash (event : I) (q : EventQueue I) : EventQueue I := q.setSquashed event true

/-! ### Insertion -/

/-- Put an event before the bin with the top `curr`, or on top of this bin. Either way the event
is the top of its bin. -/
def insertBefore (event : I) (curr : Option I) (q : EventQueue I) : Option I × EventQueue I :=
  match curr with
  | none => (some event, (q.setNextBin event none).setNextInBin event none)
  | some c =>
    if (q.events event).lt (q.events c) then
      (some event, (q.setNextBin event (some c)).setNextInBin event none)
    else
      (some event, (q.setNextBin event (q.events c).nextBin).setNextInBin event (some c))

/-- Follow the bins until one is not before an event, or there are no more. The result is the top
of the bin before, and the top of this one. -/
def findBin (event : I) (q : EventQueue I) : ℕ → I → Option I → Except Fault (I × Option I)
  | 0, _, _ => .error .outOfFuel
  | _ + 1, prev, none => .ok (prev, none)
  | fuel + 1, prev, some curr =>
    if (q.events curr).lt (q.events event) then
      findBin event q fuel curr (q.events curr).nextBin
    else
      .ok (prev, some curr)

def insert (fuel : ℕ) (event : I) (q : EventQueue I) : Except Fault (EventQueue I) :=
  match q.head with
  | none =>
    let (top, q) := q.insertBefore event none
    .ok { q with head := top }
  | some head =>
    if (q.events event).le (q.events head) then
      let (top, q) := q.insertBefore event (some head)
      .ok { q with head := top }
    else do
      let (prev, curr) ← findBin event q fuel head (q.events head).nextBin
      let (top, q) := q.insertBefore event curr
      pure (q.setNextBin prev top)

/-! ### Removal -/

/-- Follow the events of a bin until the next one is a given event. The result is the event
before. -/
def findItem (event : I) (q : EventQueue I) : ℕ → I → Option I → Except Fault I
  | 0, _, _ => .error .outOfFuel
  | fuel + 1, curr, next =>
    if next = some event then .ok curr
    else
      match next with
      | none => .error (.panic "event not found!")
      | some n => findItem event q fuel n (q.events n).nextInBin

/-- Remove an event from the bin with a given top. The result is the new top, or the top of the
next bin if the bin is empty now. -/
def removeItem (fuel : ℕ) (event top : I) (q : EventQueue I) :
    Except Fault (Option I × EventQueue I) :=
  if event = top then
    match (q.events top).nextInBin with
    | none => .ok ((q.events top).nextBin, q)
    | some next => .ok (some next, q.setNextBin next (q.events top).nextBin)
  else do
    let curr ← findItem event q fuel top (q.events top).nextInBin
    pure (some top, q.setNextInBin curr (q.events event).nextInBin)

def remove (fuel : ℕ) (event : I) (q : EventQueue I) : Except Fault (EventQueue I) :=
  match q.head with
  | none => .error (.panic "event not found!")
  | some head => do
      assert (q.events event).queue
      if (q.events head).eq (q.events event) then
        let (top, q) ← q.removeItem fuel event head
        pure { q with head := top }
      else
        let (prev, curr) ← findBin event q fuel head (q.events head).nextBin
        match curr with
        | none => .error (.panic "event not found!")
        | some curr =>
          if (q.events curr).ne (q.events event) then
            .error (.panic "event not found!")
          else
            let (top, q) ← q.removeItem fuel event curr
            pure (q.setNextBin prev top)

/-! ### Service -/

/-- Take the first event off the queue. -/
def pop (event : I) (q : EventQueue I) : EventQueue I :=
  match (q.events event).nextInBin with
  | some next =>
    { q.setNextBin next (q.events event).nextBin with head := some next }
  | none => { q with head := (q.events event).nextBin }

/-- Service the first event: unless it is squashed, time is forwarded to that of the event, and it
is processed. The result has the event that is serviced. -/
def serviceOne (q : EventQueue I) : Except Fault (I × EventQueue I) := do
  let event ← deref q.head
  let q := (q.setScheduled event false).pop event
  if (q.events event).squashed then
    pure (event, q.setSquashed event false)
  else
    pure (event, { q with curTick := (q.events event).when })

end EventQueue

end Gem5Arc
