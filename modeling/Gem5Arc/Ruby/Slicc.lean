import Gem5Arc.Basic

/-!
# State machines written in SLICC

A controller is described in SLICC by its transitions. A transition names states, events, the next
state and a list of actions. The code that is generated looks up the state and the event, runs the
actions one after another, and sets the next state. If one of the actions is `z_stall`, nothing is
done, and the message that has caused the event stays where it is. If there is no transition, the
simulator panics.
-/

namespace Gem5Arc.Slicc

variable {State Event Action Work : Type} [DecidableEq State] [DecidableEq Event]

/-- `transition(states, events, next) { actions }`. Without a next state the state is kept. -/
structure Transition (State Event Action : Type) where
  states : List State
  events : List Event
  next : Option State := none
  actions : List Action

/-- The next state and the actions of a table for a state and an event. -/
def lookup (table : List (Transition State Event Action)) (state : State) (event : Event) :
    Option (State × List Action) :=
  (table.find? fun t => state ∈ t.states && event ∈ t.events).map fun t =>
    (t.next.getD state, t.actions)

variable {next : State} {event : Event} {actions : List Action}

/-- What a table has for a state and an event comes from one of its transitions. -/
theorem lookup_eq_some {table : List (Transition State Event Action)} {state : State}
    (h : lookup table state event = some (next, actions)) :
  ∃ t ∈ table, state ∈ t.states ∧ event ∈ t.events ∧ t.next.getD state = next
    ∧ t.actions = actions
  := by
  obtain ⟨t, hfind, ht⟩ := Option.map_eq_some_iff.mp h
  have hmem := List.find?_some hfind
  rw [Bool.and_eq_true, decide_eq_true_eq, decide_eq_true_eq] at hmem
  cases ht
  exact ⟨t, List.mem_of_find?_eq_some hfind, hmem.1, hmem.2, rfl, rfl⟩

/-- What the generated code knows of a controller: its transitions, how an action and the change of
state are carried out on what the controller works on, and which actions stall. -/
structure Machine (State Event Action Work : Type) where
  transitions : List (Transition State Event Action)
  isStall : Action → Bool
  perform : Action → Work → Except Fault Work
  getState : Work → State
  setState : State → Work → Except Fault Work

/-- The panic for a state and an event without a transition. -/
def invalidTransition : Fault := .panic "Invalid transition"

/-- `doTransition`: the result is `none` if the transition stalls. -/
def Machine.doTransition (m : Machine State Event Action Work) (event : Event) (work : Work) :
    Except Fault (Option Work) :=
  match lookup m.transitions (m.getState work) event with
  | none => .error invalidTransition
  | some (next, actions) =>
    if actions.any m.isStall then .ok none
    else do
      let work ← actions.foldlM (fun work action => m.perform action work) work
      let work ← m.setState next work
      .ok (some work)

/-- A transition of a machine none of whose actions stalls. -/
theorem Machine.doTransition_of_lookup {m : Machine State Event Action Work} {work : Work}
    (hstall : ∀ a, m.isStall a = false)
    (h : lookup m.transitions (m.getState work) event = some (next, actions)) :
  m.doTransition event work
    = actions.foldlM (fun work action => m.perform action work) work >>= fun work =>
        m.setState next work >>= fun work => .ok (some work)
  := by
  have hany : ¬ actions.any m.isStall := by
    simp [hstall]
  rw [doTransition, h]
  exact if_neg hany

/-- `is_valid(pointer)` is asserted, and the pointer followed. -/
def valid {α : Type} (pointer : Option α) : Except Fault α :=
  match pointer with
  | none => .error .assertion
  | some a => .ok a

theorem valid_bind_eq_ok {α β : Type} {pointer : Option α} {f : α → Except Fault β} {b : β} :
  (valid pointer >>= f) = .ok b ↔ ∃ a, pointer = some a ∧ f a = .ok b
  := by
  cases pointer with
  | none => simp [valid]
  | some a => simp [valid]

end Gem5Arc.Slicc
