import Gem5Arc.MIExample.Protocol

/-!
# The phases of a cache

In every reachable state a cache is in one of the phases below. A phase fixes the line of the cache
together with everything that is on its way to it or from it, and depends on the rest of the system
in two points only: the part that the cache plays for the directory, and whether the cache has the
only valid copy.
-/

namespace Gem5Arc

open List

namespace MIExample

variable {C D V W : Type} {n n' : Node C V} {c : C}

/-- The part that a cache plays for the directory. -/
inductive Role where
  | none
  | fetching
  | owner
  | recalled
  | writing

/-- The part of cache `c`. -/
def Home.role [DecidableEq C] (c : C) : Home C D W → Role
  | .IM o => if o = c then .fetching else .none
  | .M o => if o = c then .owner else .none
  | .M_DRD _ o => if o = c then .recalled else .none
  | .M_DWR _ o _ => if o = c then .recalled else .none
  | .MI o => if o = c then .writing else .none
  | .M_DRDI o => if o = c then .writing else .none
  | .M_DWRI _ o => if o = c then .writing else .none
  | _ => .none

/-- What the directory has sent to a cache that it has given the line to: nothing, or that the line
is to be passed on to another cache, or that it is recalled. -/
inductive Side : Role → List (Forward C) → Prop
  | owner : Side .owner []
  | passed (x : C) : Side .none [.getx x]
  | recalled : Side .recalled [.inv]
  | answered : Side .recalled []

inductive Line.Waits : Line V → Prop
  | IS : Waits .IS
  | IM (store : V → V) : Waits (.IM store)

/-- The phases of a cache that plays a part for the directory and `holds` the only valid copy or
not. -/
inductive Phase (role : Role) (holds : Prop) : Node C V → Prop
  | idle : role = .none → ¬ holds → Phase role holds {}
  | asked {line : Line V} : line.Waits → role = .none → ¬ holds →
      Phase role holds { line := line, req := some .getx }
  | fetching {line : Line V} : line.Waits → role = .fetching → ¬ holds →
      Phase role holds { line := line }
  | awaiting {line : Line V} {fwd : List (Forward C)} (q : C) :
      line.Waits → Side role fwd → ¬ holds →
      Phase role holds { line := line, fwd := fwd, source := some q }
  | coming {line : Line V} {fwd : List (Forward C)} (v : V) : line.Waits → Side role fwd → holds →
      Phase role holds { line := line, data := some v, fwd := fwd }
  | modified {fwd : List (Forward C)} (v : V) : Side role fwd → holds →
      Phase role holds { line := .M v, fwd := fwd }
  | evicting {fwd : List (Forward C)} (v : V) : Side role fwd → holds →
      Phase role holds { line := .MI v, req := some (.putx v), fwd := fwd }
  | accepted {fwd : List (Forward C)} (v : V) :
      fwd = [] ∨ fwd = [.inv] → role = .writing → ¬ holds →
      Phase role holds { line := .MI v, fwd := fwd }
  | acked {fwd : List (Forward C)} (v : V) : fwd = [.ack] ∨ fwd = [.inv, .ack] → role = .none →
      ¬ holds → Phase role holds { line := .MI v, fwd := fwd }
  | nacked (v : V) (x : C) : role = .none → holds →
      Phase role holds { line := .MI v, fwd := [.getx x, .nack] }
  | refused (v : V) (x : C) : role = .none → holds →
      Phase role holds { line := .MII v, fwd := [.getx x] }
  | lost (v : V) : role = .none → ¬ holds →
      Phase role holds { line := .II, req := some (.putx v) }
  | lostNacked : role = .none → ¬ holds →
      Phase role holds { line := .II, fwd := [.nack] }

namespace Phase

variable {role role' : Role} {holds : Prop} {v : V}

section

variable (h : Phase role holds n)

include h

/-- A phase depends on the part and on the copy only. -/
theorem congr {holds' : Prop} (hrole : role' = role) (hholds : holds' ↔ holds) :
  Phase role' holds' n
  := by
  rw [hrole, propext hholds]
  apply h

/-! ### The phases with a given line -/

theorem of_I (hline : n.line = .I) :
  n = {} ∧ role = .none ∧ ¬ holds
  := by
  cases h with
  | idle hrole hholds => exact ⟨rfl, hrole, hholds⟩
  | _ => cases hline <;> contradiction

theorem of_M (hline : n.line = .M v) :
  ∃ fwd, n = { line := .M v, fwd := fwd } ∧ Side role fwd ∧ holds
  := by
  cases h with
  | modified v' hside hholds =>
    cases hline
    exact ⟨_, rfl, hside, hholds⟩
  | _ => cases hline <;> contradiction

theorem of_MII (hline : n.line = .MII v) :
  ∃ x, n = { line := .MII v, fwd := [.getx x] } ∧ role = .none ∧ holds
  := by
  cases h with
  | refused v' x hrole hholds =>
    cases hline
    exact ⟨x, rfl, hrole, hholds⟩
  | _ => cases hline <;> contradiction

theorem of_II (hline : n.line = .II) :
  ((∃ v, n = { line := .II, req := some (.putx v) }) ∨ n = { line := .II, fwd := [.nack] })
    ∧ role = .none ∧ ¬ holds
  := by
  cases h with
  | lost v hrole hholds => exact ⟨.inl ⟨v, rfl⟩, hrole, hholds⟩
  | lostNacked hrole hholds => exact ⟨.inr rfl, hrole, hholds⟩
  | _ => cases hline <;> contradiction

/-! ### The phases with a given message -/

theorem of_data (hdata : n.data = some v) :
  ∃ line fwd, n = { line := line, data := some v, fwd := fwd } ∧ line.Waits ∧ Side role fwd ∧ holds
  := by
  cases h with
  | coming v' hwaits hside hholds =>
    cases hdata
    exact ⟨_, _, rfl, hwaits, hside, hholds⟩
  | _ => cases hdata

theorem of_source {q : C} (hsource : n.source = some q) :
  ∃ line fwd, n = { line := line, fwd := fwd, source := some q } ∧ line.Waits ∧ Side role fwd
    ∧ ¬ holds
  := by
  cases h with
  | awaiting q' hwaits hside hholds =>
    cases hsource
    exact ⟨_, _, rfl, hwaits, hside, hholds⟩
  | _ => cases hsource

theorem of_getx (hreq : n.req = some .getx) :
  ∃ line, n = { line := line, req := some .getx } ∧ line.Waits ∧ role = .none ∧ ¬ holds
  := by
  cases h with
  | asked hwaits hrole hholds => exact ⟨_, rfl, hwaits, hrole, hholds⟩
  | _ => cases hreq

theorem of_putx (hreq : n.req = some (.putx v)) :
  (∃ fwd, n = { line := .MI v, req := some (.putx v), fwd := fwd } ∧ Side role fwd ∧ holds)
    ∨ n = { line := .II, req := some (.putx v) } ∧ role = .none ∧ ¬ holds
  := by
  cases h with
  | evicting v' hside hholds =>
    cases hreq
    exact .inl ⟨_, rfl, hside, hholds⟩
  | lost v' hrole hholds =>
    cases hreq
    exact .inr ⟨rfl, hrole, hholds⟩
  | _ => cases hreq

end

/-! ### The phases of a cache that plays a given part -/

theorem of_fetching (h : Phase .fetching holds n) :
  ∃ line, n = { line := line } ∧ line.Waits ∧ ¬ holds
  := by
  cases h with
  | fetching hwaits _ hholds => exact ⟨_, rfl, hwaits, hholds⟩
  | _ => contradiction

theorem of_writing (h : Phase .writing holds n) :
  ∃ v fwd, n = { line := .MI v, fwd := fwd } ∧ (fwd = [] ∨ fwd = [.inv]) ∧ ¬ holds
  := by
  cases h with
  | accepted v hfwd _ hholds => exact ⟨v, _, rfl, hfwd, hholds⟩
  | _ => contradiction

/-- The owner of the line can get a message that ends its part as the owner. -/
theorem of_owner {m : Forward C} (h : Phase .owner holds n) (hside : Side role' [m]) :
  n.fwd = [] ∧ Phase role' holds { n with fwd := [m] }
  := by
  cases h with
  | awaiting q hwaits howner hholds =>
    cases howner
    exact ⟨rfl, .awaiting q hwaits hside hholds⟩
  | coming v hwaits howner hholds =>
    cases howner
    exact ⟨rfl, .coming v hwaits hside hholds⟩
  | modified v howner hholds =>
    cases howner
    exact ⟨rfl, .modified v hside hholds⟩
  | evicting v howner hholds =>
    cases howner
    exact ⟨rfl, .evicting v hside hholds⟩
  | _ => contradiction

end Phase

variable {i : ℕ} {m a : Forward C} {send : Option (C × V)}

theorem Side.of_getx {role : Role} {fwd : List (Forward C)} {x : C} (h : Side role fwd)
    (hi : fwd[i]? = some (.getx x)) :
  role = .none ∧ fwd = [.getx x] ∧ i = 0
  := by
  cases h with
  | passed y =>
    cases i with
    | zero =>
      cases hi
      exact ⟨rfl, rfl, rfl⟩
    | succ i => cases hi
  | recalled =>
    cases i with
    | zero => cases hi
    | succ i => cases hi
  | _ => cases hi

/-- The lines that a message of the directory can find. -/
inductive Reaches : Forward C → Line V → Prop
  | getxWaits {line : Line V} (x : C) : line.Waits → Reaches (.getx x) line
  | getxM (x : C) (v : V) : Reaches (.getx x) (.M v)
  | getxMI (x : C) (v : V) : Reaches (.getx x) (.MI v)
  | getxMII (x : C) (v : V) : Reaches (.getx x) (.MII v)
  | invWaits {line : Line V} : line.Waits → Reaches .inv line
  | invM (v : V) : Reaches .inv (.M v)
  | invMI (v : V) : Reaches .inv (.MI v)
  | ackMI (v : V) : Reaches .ack (.MI v)
  | nackMI (v : V) : Reaches .nack (.MI v)
  | nackII : Reaches .nack .II

/-- No message finds a line that it is not meant for. -/
theorem Phase.reaches {role : Role} {holds : Prop} (h : Phase role holds n) (hm : m ∈ n.fwd) :
  Reaches m n.line
  := by
  cases h with
  | idle | asked | fetching | lost => cases hm
  | awaiting _ hwaits hside | coming _ hwaits hside =>
    cases hside with
    | owner | answered => cases hm
    | passed x =>
      cases mem_singleton.mp hm
      exact .getxWaits x hwaits
    | recalled =>
      cases mem_singleton.mp hm
      exact .invWaits hwaits
  | modified v hside =>
    cases hside with
    | owner | answered => cases hm
    | passed x =>
      cases mem_singleton.mp hm
      exact .getxM x v
    | recalled =>
      cases mem_singleton.mp hm
      exact .invM v
  | evicting v hside =>
    cases hside with
    | owner | answered => cases hm
    | passed x =>
      cases mem_singleton.mp hm
      exact .getxMI x v
    | recalled =>
      cases mem_singleton.mp hm
      exact .invMI v
  | accepted v hfwd =>
    rcases hfwd with rfl | rfl
    · cases hm
    · cases mem_singleton.mp hm
      exact .invMI v
  | acked v hfwd =>
    rcases hfwd with rfl | rfl
    · cases mem_singleton.mp hm
      exact .ackMI v
    · rcases mem_pair.mp hm with rfl | rfl
      · exact .invMI v
      · exact .ackMI v
  | nacked v x =>
    rcases mem_pair.mp hm with rfl | rfl
    · exact .getxMI x v
    · exact .nackMI v
  | refused v x =>
    cases mem_singleton.mp hm
    exact .getxMII x v
  | lostNacked =>
    cases mem_singleton.mp hm
    exact .nackII

/-! ### The steps of a cache -/

/-- The value of the line that a cache has or is about to get. -/
def Node.value (n : Node C V) : Option V :=
  match n.data, n.line with
  | some v, _ => some v
  | none, .M v => some v
  | none, .MI v => some v
  | none, .MII v => some v
  | none, _ => none

variable {ordered : Bool} {told : List (Event C D V W)}

/-- What a message that arrives can be. -/
theorem Node.Arrives.cases_singleton (h : n.Arrives ordered i m) (hfwd : n.fwd = [a]) :
  i = 0 ∧ m = a
  := by
  have hi := h.1
  rw [hfwd] at hi
  cases i with
  | zero =>
    cases hi
    exact ⟨rfl, rfl⟩
  | succ i => cases hi

theorem Node.Arrives.cases_pair {a' : Forward C} (h : n.Arrives ordered i m)
    (hfwd : n.fwd = [a, a']) :
  i = 0 ∧ m = a ∨ i = 1 ∧ m = a' ∧ ordered = false
  := by
  have hi := h.1
  rw [hfwd] at hi
  match i with
  | 0 =>
    cases hi
    exact .inl ⟨rfl, rfl⟩
  | 1 =>
    cases hi
    refine .inr ⟨rfl, rfl, ?_⟩
    cases ordered with
    | false => rfl
    | true => cases h.2 rfl
  | i + 2 => cases hi

/-- No message but the one that arrives is lost. -/
theorem Node.mem_pop_iff (hi : n.fwd[i]? = some m) (hne : a ≠ m) :
  a ∈ (n.pop i).fwd ↔ a ∈ n.fwd
  := by
  rw [Node.pop, mem_eraseIdx_iff_getElem?, mem_iff_getElem?]
  constructor
  · intro ⟨j, _, hj⟩
    exact ⟨j, hj⟩
  · intro ⟨j, hj⟩
    refine ⟨j, ?_, hj⟩
    rintro rfl
    rw [hj] at hi
    exact hne (Option.some.inj hi)

/-- A cache that sends no block has not been asked to send one. -/
theorem Node.Step.getx_mem_iff (hstep : n.Step ordered c n' none told) (y : C) :
  .getx y ∈ n'.fwd ↔ .getx y ∈ n.fwd
  := by
  cases hstep with
  | skip i v _ harr | ack i v _ harr | nackMI i v _ harr | nackII i _ harr =>
    exact Node.mem_pop_iff harr.1 nofun
  | _ => rfl

theorem Node.Step.source_eq (hstep : n.Step ordered c n' send told) :
  n'.source = n.source
  := by
  cases hstep with
  | _ => rfl

/-- A cache sends nothing to itself on the forward network. -/
theorem Node.Step.fwd_subset (hstep : n.Step ordered c n' send told) :
  n'.fwd ⊆ n.fwd
  := by
  cases hstep with
  | skip i | ack i | nackMI i | nackII i | supplyM i | supplyMI i | supplyMII i =>
    exact eraseIdx_subset
  | _ => exact List.Subset.refl _

namespace Phase

variable {role : Role} {holds : Prop} (h : Phase role holds n)

include h

/-- The messages that can arrive at a cache that writes its block back. -/
theorem of_MI_arrives {v : V} (hline : n.line = .MI v) (harr : n.Arrives ordered i m) :
  (m = .inv ∧ Phase role holds (n.pop i))
    ∨ (m = .ack ∧ role = .none ∧ ¬ holds
      ∧ (ordered = true ∨ .inv ∉ n.fwd → n = { line := .MI v, fwd := [.ack] } ∧ i = 0))
    ∨ (∃ x, n = { line := .MI v, fwd := [.getx x, .nack] } ∧ i = 1 ∧ m = .nack ∧ role = .none
      ∧ holds)
    ∨ (∃ x, (n = { line := .MI v, req := some (.putx v), fwd := [.getx x] }
        ∨ n = { line := .MI v, fwd := [.getx x, .nack] })
      ∧ i = 0 ∧ m = .getx x ∧ role = .none ∧ holds)
  := by
  cases h with
  | evicting v' hside hholds =>
    cases hline
    cases hside with
    | owner | answered => cases harr.1
    | passed x =>
      obtain ⟨rfl, rfl⟩ := harr.cases_singleton rfl
      exact .inr (.inr (.inr ⟨x, .inl rfl, rfl, rfl, rfl, hholds⟩))
    | recalled =>
      obtain ⟨rfl, rfl⟩ := harr.cases_singleton rfl
      exact .inl ⟨rfl, .evicting v .answered hholds⟩
  | accepted v' hfwd hrole hholds =>
    cases hline
    rcases hfwd with rfl | rfl
    · cases harr.1
    · obtain ⟨rfl, rfl⟩ := harr.cases_singleton rfl
      exact .inl ⟨rfl, .accepted v (.inl rfl) hrole hholds⟩
  | acked v' hfwd hrole hholds =>
    cases hline
    rcases hfwd with rfl | rfl
    · obtain ⟨rfl, rfl⟩ := harr.cases_singleton rfl
      exact .inr (.inl ⟨rfl, hrole, hholds, fun _ => ⟨rfl, rfl⟩⟩)
    · obtain ⟨rfl, rfl⟩ | ⟨rfl, rfl, rfl⟩ := harr.cases_pair rfl
      · exact .inl ⟨rfl, .acked v (.inl rfl) hrole hholds⟩
      · exact .inr (.inl ⟨rfl, hrole, hholds, by simp⟩)
  | nacked v' x hrole hholds =>
    cases hline
    obtain ⟨rfl, rfl⟩ | ⟨rfl, rfl, -⟩ := harr.cases_pair rfl
    · exact .inr (.inr (.inr ⟨x, .inr rfl, rfl, rfl, hrole, hholds⟩))
    · exact .inr (.inr (.inl ⟨x, rfl, rfl, rfl, hrole, hholds⟩))
  | _ => cases hline <;> contradiction

/-- A cache that sends no block stays in a phase. If the line can be recalled, this needs that the
directory's messages arrive in order: an acknowledgement must not overtake a reclaim. -/
theorem step (hstep : n.Step ordered c n' none told) (hordered : ordered = true ∨ .inv ∉ n.fwd) :
  Phase role holds n'
  := by
  cases hstep with
  | loadMiss hline =>
    obtain ⟨rfl, hrole, hholds⟩ := h.of_I hline
    exact .asked .IS hrole hholds
  | storeMiss f hline =>
    obtain ⟨rfl, hrole, hholds⟩ := h.of_I hline
    exact .asked (.IM f) hrole hholds
  | loadHit v hline => exact h
  | storeHit v f hline =>
    obtain ⟨fwd, rfl, hside, hholds⟩ := h.of_M hline
    exact .modified (f v) hside hholds
  | replace v hline | reclaim i v hline harr =>
    obtain ⟨fwd, rfl, hside, hholds⟩ := h.of_M hline
    exact .evicting v hside hholds
  | load v hline hdata =>
    obtain ⟨line, fwd, rfl, -, hside, hholds⟩ := h.of_data hdata
    exact .modified v hside hholds
  | store v f hline hdata =>
    obtain ⟨line, fwd, rfl, -, hside, hholds⟩ := h.of_data hdata
    exact .modified (f v) hside hholds
  | skip i v hline harr =>
    obtain ⟨-, hphase⟩ | ⟨⟨⟩, -⟩ | ⟨-, -, -, ⟨⟩, -⟩ | ⟨-, -, -, ⟨⟩, -⟩ := h.of_MI_arrives hline harr
    exact hphase
  | ack i v hline harr =>
    obtain ⟨⟨⟩, -⟩ | ⟨-, hrole, hholds, hn⟩ | ⟨-, -, -, ⟨⟩, -⟩ | ⟨-, -, -, ⟨⟩, -⟩ :=
      h.of_MI_arrives hline harr
    obtain ⟨rfl, rfl⟩ := hn hordered
    exact .idle hrole hholds
  | nackMI i v hline harr =>
    obtain ⟨⟨⟩, -⟩ | ⟨⟨⟩, -⟩ | ⟨x, rfl, rfl, -, hrole, hholds⟩ | ⟨-, -, -, ⟨⟩, -⟩ :=
      h.of_MI_arrives hline harr
    exact .refused v x hrole hholds
  | nackII i hline harr =>
    obtain ⟨⟨v, rfl⟩ | rfl, hrole, hholds⟩ := h.of_II hline
    · cases harr.1
    · obtain ⟨rfl, -⟩ := harr.cases_singleton rfl
      exact .idle hrole hholds

/-- A cache that sends a block has the only valid copy, sends it to the one cache that it has been
told to send it to, and has no copy then. -/
theorem supply {x : C} {v : V} (hstep : n.Step ordered c n' (some (x, v)) told) :
  holds ∧ n.value = some v ∧ n.source = none ∧ (∀ y, .getx y ∈ n.fwd ↔ y = x)
    ∧ (∀ y, .getx y ∉ n'.fwd) ∧ Phase role False n'
  := by
  cases hstep with
  | supplyM i _ _ hline harr =>
    obtain ⟨fwd, rfl, hside, hholds⟩ := h.of_M hline
    obtain ⟨rfl, rfl, rfl⟩ := hside.of_getx harr.1
    refine ⟨hholds, rfl, rfl, ?_, ?_, .idle rfl not_false⟩
    · simp
    · simp [Node.pop]
  | supplyMI i _ _ hline harr =>
    obtain ⟨⟨⟩, -⟩ | ⟨⟨⟩, -⟩ | ⟨-, -, -, ⟨⟩, -⟩ | ⟨y, hn, rfl, ⟨⟩, rfl, hholds⟩ :=
      h.of_MI_arrives hline harr
    rcases hn with rfl | rfl
    · refine ⟨hholds, rfl, rfl, ?_, ?_, .lost v rfl not_false⟩
      · simp
      · simp [Node.pop]
    · refine ⟨hholds, rfl, rfl, ?_, ?_, .lostNacked rfl not_false⟩
      · simp
      · simp [Node.pop]
  | supplyMII i _ _ hline harr =>
    obtain ⟨y, rfl, rfl, hholds⟩ := h.of_MII hline
    obtain ⟨rfl, hm⟩ := harr.cases_singleton rfl
    cases hm
    refine ⟨hholds, rfl, rfl, ?_, ?_, .idle rfl not_false⟩
    · simp
    · simp [Node.pop]

/-- What a cache tells its processor is about the only valid copy. -/
theorem told_cases (hstep : n.Step ordered c n' none told) :
  told = [] ∧ (holds → n'.value = n.value)
    ∨ (∃ v, holds ∧ n.value = some v ∧ told = [.read c v] ∧ n'.value = some v)
    ∨ (∃ v f, holds ∧ n.value = some v ∧ told = [.write c f] ∧ n'.value = some (f v))
  := by
  cases hstep with
  | loadMiss hline | storeMiss _ hline =>
    obtain ⟨-, -, hholds⟩ := h.of_I hline
    exact .inl ⟨rfl, fun hh => absurd hh hholds⟩
  | loadHit v hline =>
    obtain ⟨fwd, rfl, -, hholds⟩ := h.of_M hline
    exact .inr (.inl ⟨v, hholds, rfl, rfl, rfl⟩)
  | storeHit v f hline =>
    obtain ⟨fwd, rfl, -, hholds⟩ := h.of_M hline
    exact .inr (.inr ⟨v, f, hholds, rfl, rfl, rfl⟩)
  | replace v hline | reclaim _ v hline _ =>
    obtain ⟨fwd, rfl, -, hholds⟩ := h.of_M hline
    exact .inl ⟨rfl, fun _ => rfl⟩
  | load v hline hdata =>
    obtain ⟨line, fwd, rfl, -, -, hholds⟩ := h.of_data hdata
    exact .inr (.inl ⟨v, hholds, rfl, rfl, rfl⟩)
  | store v f hline hdata =>
    obtain ⟨line, fwd, rfl, -, -, hholds⟩ := h.of_data hdata
    exact .inr (.inr ⟨v, f, hholds, rfl, rfl, rfl⟩)
  | skip i v hline harr => exact .inl ⟨rfl, fun _ => rfl⟩
  | ack i v hline harr =>
    obtain ⟨⟨⟩, -⟩ | ⟨-, -, hholds, -⟩ | ⟨-, -, -, ⟨⟩, -⟩ | ⟨-, -, -, ⟨⟩, -⟩ :=
      h.of_MI_arrives hline harr
    exact .inl ⟨rfl, fun hh => absurd hh hholds⟩
  | nackMI i v hline harr =>
    obtain ⟨⟨⟩, -⟩ | ⟨⟨⟩, -⟩ | ⟨x, rfl, rfl, -⟩ | ⟨-, -, -, ⟨⟩, -⟩ := h.of_MI_arrives hline harr
    exact .inl ⟨rfl, fun _ => rfl⟩
  | nackII i hline harr =>
    obtain ⟨-, -, hholds⟩ := h.of_II hline
    exact .inl ⟨rfl, fun hh => absurd hh hholds⟩

end Phase

end MIExample

end Gem5Arc
