import Mathlib.Data.BitVec
import Mathlib.Tactic

/-!
# Words, ticks and faults

The types every part of the simulator shares. An `Addr` is a 64-bit word. A `Tick` counts
simulated time from 0.

Code that can stop the simulator returns in `Except Fault`. A fault says how it stops: a
`panic` or `fatal`, a failed `assert`, a null pointer that is followed, an empty function that is
called, a write past the end of a vector, or a division by zero. An overflow of a signed integer and
the use of an invalid reference are undefined, and count as faults. A loop that follows pointers is
given the number of turns it may take, and running out of them is a fault too.
-/

namespace Gem5Arc

/-- A physical or line address. -/
abbrev Addr : Type := BitVec 64

instance lawfulBEqAddr : LawfulBEq Addr := inferInstance

/-- For the numbers of two ports, links or ways. -/
instance neZeroTwo : NeZero 2 := inferInstance

/-- A point in simulated time. -/
abbrev Tick : Type := ℕ

/-- How the simulator stops. -/
inductive Fault where
  /-- `panic(msg)`. -/
  | panic (msg : String)
  /-- `fatal(msg)`, which blames the configuration. -/
  | fatal (msg : String)
  /-- `assert(cond)` with a false condition. -/
  | assertion
  /-- A null pointer is followed. -/
  | nullPointer
  /-- A reference or an iterator is used that is no longer valid. -/
  | danglingPointer
  /-- An empty `std::function` is called. -/
  | badFunctionCall
  /-- A write past the end of a vector. -/
  | outOfBounds
  /-- An integer division by zero. -/
  | divisionByZero
  /-- A signed integer overflows. -/
  | overflow
  /-- A loop takes more turns than it has been given. -/
  | outOfFuel
deriving DecidableEq, Repr

/-- `assert(cond)`. -/
def assert (cond : Bool) : Except Fault Unit :=
  if cond then .ok () else .error .assertion

@[simp]
theorem assert_true :
  assert true = .ok ()
  := rfl

/-- `panic_if(cond, msg)`. -/
def panicIf (cond : Bool) (msg : String) : Except Fault Unit :=
  if cond then .error (.panic msg) else .ok ()

/-- `fatal_if(cond, msg)`. -/
def fatalIf (cond : Bool) (msg : String) : Except Fault Unit :=
  if cond then .error (.fatal msg) else .ok ()

/-- Follow a pointer that may be null. -/
def deref {α : Type} (pointer : Option α) : Except Fault α :=
  match pointer with
  | none => .error .nullPointer
  | some a => .ok a

/-- The quotient of two sizes, which stops the simulator when the divisor is 0. -/
def divide (n d : ℕ) : Except Fault ℕ :=
  if d = 0 then .error .divisionByZero else .ok (n / d)

/-! ### Sequencing code that can fault -/

section Sequencing

variable {ε α β : Type}

@[simp]
theorem ok_bind (a : α) (f : α → Except ε β) :
  (Except.ok a >>= f) = f a
  := rfl

@[simp]
theorem error_bind (e : ε) (f : α → Except ε β) :
  (Except.error e >>= f) = .error e
  := rfl

@[simp]
theorem pure_eq_ok (a : α) :
  (pure a : Except ε α) = .ok a
  := rfl

variable {x : Except ε α} {b : β} {cond : Bool} {f : Unit → Except Fault β}

/-- A sequence of two computations returns exactly when both do. -/
theorem bind_eq_ok {f : α → Except ε β} :
  (x >>= f) = .ok b ↔ ∃ a, x = .ok a ∧ f a = .ok b
  := by
  cases x with
  | error e => simp
  | ok a => simp

theorem map_eq_ok {f : α → β} :
  (f <$> x) = .ok b ↔ ∃ a, x = .ok a ∧ f a = b
  := by
  cases x with
  | error e => simp [Functor.map, Except.map]
  | ok a => simp [Functor.map, Except.map]

theorem assert_bind_eq_ok :
  (assert cond >>= f) = .ok b ↔ cond = true ∧ f () = .ok b
  := by
  cases cond with
  | false => simp [assert]
  | true => simp [assert]

theorem panicIf_bind_eq_ok {msg : String} :
  (panicIf cond msg >>= f) = .ok b ↔ cond = false ∧ f () = .ok b
  := by
  cases cond with
  | false => simp [panicIf]
  | true => simp [panicIf]

theorem deref_bind_eq_ok {pointer : Option α} {f : α → Except Fault β} :
  (deref pointer >>= f) = .ok b ↔ ∃ a, pointer = some a ∧ f a = .ok b
  := by
  cases pointer with
  | none => simp [deref]
  | some a => simp [deref]

end Sequencing

end Gem5Arc
