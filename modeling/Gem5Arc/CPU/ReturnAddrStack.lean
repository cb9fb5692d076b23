import Gem5Arc.Basic

/-!
# The return address stack

`cpu/pred/ras.cc`: the stack of a thread is an array that is used in a cycle. A branch pops the
stack, pushes an address, or does one after the other, and keeps in its history what is needed to
undo this. Branches are squashed from the youngest one on.

The undoing of a pop counts one more entry, unless the stack is full. But a pop of the empty stack
does not count one less. So the stack is restored exactly if no branch pops the empty stack before
one has popped the full stack (`squashAll_restores_iff`).
-/

namespace Gem5Arc

/-- The stack of a thread. An entry that was never written is a null pointer. -/
structure AddrStack where
  numEntries : ℕ
  addrStack : ℕ → Option Addr := fun _ => none
  usedEntries : ℕ := 0
  tos : ℕ := 0

/-- What a branch keeps of the stack. -/
structure RASHistory where
  pushed : Bool := false
  poped : Bool := false
  rasEntry : Option Addr := none
  tos : ℕ := 0

namespace AddrStack

/-- `AddrStack::incrTos`. -/
def incrTos (numEntries tos : ℕ) : ℕ := if tos + 1 = numEntries then 0 else tos + 1

/-- `AddrStack::decrTos`. -/
def decrTos (numEntries tos : ℕ) : ℕ := if tos = 0 then numEntries - 1 else tos - 1

/-- `AddrStack::push`. -/
def push (returnAddr : Addr) (s : AddrStack) : AddrStack :=
  let tos := incrTos s.numEntries s.tos
  { s with
    tos := tos
    addrStack := Function.update s.addrStack tos (some returnAddr)
    usedEntries := if s.usedEntries ≠ s.numEntries then s.usedEntries + 1 else s.usedEntries }

/-- `AddrStack::pop`. -/
def pop (s : AddrStack) : AddrStack :=
  { s with
    usedEntries := if s.usedEntries > 0 then s.usedEntries - 1 else s.usedEntries
    tos := decrTos s.numEntries s.tos }

/-- `AddrStack::restore`. -/
def restore (tos : ℕ) (restored : Option Addr) (s : AddrStack) : AddrStack :=
  { s with
    tos := tos
    addrStack := Function.update s.addrStack tos restored
    usedEntries := if s.usedEntries ≠ s.numEntries then s.usedEntries + 1 else s.usedEntries }

/-! ### Branches -/

/-- What a branch does: it may pop the stack, and then push an address. -/
structure Branch where
  pops : Bool
  pushes : Option Addr

/-- `ReturnAddrStack::pop` with the history of the branch, which is made if there is none. -/
def popBranch (h : Option RASHistory) (s : AddrStack) : Option RASHistory × AddrStack :=
  (some { h.getD {} with poped := true, tos := s.tos, rasEntry := s.addrStack s.tos }, s.pop)

/-- `ReturnAddrStack::push` with the history of the branch. -/
def pushBranch (pc : Addr) (h : Option RASHistory) (s : AddrStack) :
    Option RASHistory × AddrStack :=
  (some { h.getD {} with pushed := true }, s.push pc)

/-- The history of a branch, and the stack after it. -/
def perform (b : Branch) (s : AddrStack) : Option RASHistory × AddrStack :=
  let (h, s) := if b.pops then popBranch none s else (none, s)
  match b.pushes with
  | some pc => pushBranch pc h s
  | none => (h, s)

/-- `ReturnAddrStack::squash`. -/
def squash (h : Option RASHistory) (s : AddrStack) : AddrStack :=
  match h with
  | none => s
  | some h =>
    let s := if h.pushed then s.pop else s
    if h.poped then s.restore h.tos h.rasEntry else s

/-- The histories of some branches, the youngest one first, and the stack after them. -/
def performAll : List Branch → AddrStack → List (Option RASHistory) × AddrStack
  | [], s => ([], s)
  | b :: bs, s =>
    let (h, s) := perform b s
    let (hs, s) := performAll bs s
    (hs ++ [h], s)

/-- Squash branches, the first one first. -/
def squashAll (hs : List (Option RASHistory)) (s : AddrStack) : AddrStack :=
  hs.foldl (fun s h => s.squash h) s

/-! ### Undoing -/

/-- The index of the entry that is `i` below the top. -/
def slot (numEntries tos i : ℕ) : ℕ := if i ≤ tos then tos - i else tos + numEntries - i

structure Valid (s : AddrStack) : Prop where
  tos_lt : s.tos < s.numEntries
  used_le : s.usedEntries ≤ s.numEntries

/-- The top of the stack, the number of entries and the used entries are the same. -/
structure Same (s t : AddrStack) : Prop where
  numEntries : t.numEntries = s.numEntries
  tos : t.tos = s.tos
  usedEntries : t.usedEntries = s.usedEntries
  entries : ∀ i < s.usedEntries,
    t.addrStack (slot s.numEntries s.tos i) = s.addrStack (slot s.numEntries s.tos i)

/-- The stack is as it was, but more entries may be counted. -/
structure Covers (s t : AddrStack) : Prop where
  numEntries : t.numEntries = s.numEntries
  tos : t.tos = s.tos
  le_used : s.usedEntries ≤ t.usedEntries
  used_le : t.usedEntries ≤ s.numEntries
  entries : ∀ i < s.usedEntries,
    t.addrStack (slot s.numEntries s.tos i) = s.addrStack (slot s.numEntries s.tos i)

/-- There is room for the push of a branch. -/
def Fits (b : Branch) (s : AddrStack) : Prop :=
  b.pushes.isSome = true → (if b.pops then s.pop else s).usedEntries < s.numEntries

/-- All pushes of a sequence of branches find room. -/
def AllFit : List Branch → AddrStack → Prop
  | [], _ => True
  | b :: bs, s => Fits b s ∧ AllFit bs (perform b s).2

/-- No branch pops the empty stack before one has popped the full stack. -/
def NonemptyPops : List Branch → AddrStack → Prop
  | [], _ => True
  | b :: bs, s => b.pops = true ∧ s.usedEntries = s.numEntries
    ∨ (b.pops = true → 0 < s.usedEntries) ∧ NonemptyPops bs (perform b s).2

section Slots

variable {n tos i : ℕ}

theorem slot_incrTos (hi : i < n) :
  slot n (incrTos n tos) (i + 1) = slot n tos i
  := by
  rw [slot, slot, incrTos]
  split_ifs <;> omega

theorem slot_succ_ne (hi : i + 1 < n) :
  slot n tos (i + 1) ≠ tos
  := by
  rw [slot]
  split_ifs <;> omega

theorem decrTos_incrTos :
  decrTos n (incrTos n tos) = tos
  := by
  rw [incrTos]
  split_ifs with h
  · rw [decrTos, if_pos rfl]
    omega
  · rw [decrTos, if_neg (Nat.succ_ne_zero tos), Nat.add_sub_cancel]

variable (hlt : tos < n)

include hlt

theorem slot_decrTos (hi : i < n) :
  slot n (decrTos n tos) i = slot n tos (i + 1)
  := by
  rw [slot, slot, decrTos]
  split_ifs <;> omega

theorem incrTos_lt :
  incrTos n tos < n
  := by
  rw [incrTos]
  split_ifs <;> omega

theorem decrTos_lt :
  decrTos n tos < n
  := by
  rw [decrTos]
  split_ifs <;> omega

end Slots

variable {s t : AddrStack}

theorem Valid.push (hs : s.Valid) (pc : Addr) :
  (s.push pc).Valid
  := by
  refine ⟨incrTos_lt hs.tos_lt, ?_⟩
  have hle := hs.used_le
  simp only [AddrStack.push]
  split_ifs <;> omega

theorem Valid.pop (hs : s.Valid) :
  s.pop.Valid
  := by
  refine ⟨decrTos_lt hs.tos_lt, ?_⟩
  have hle := hs.used_le
  simp only [AddrStack.pop]
  split_ifs <;> omega

/-- A push into a free entry is undone by a pop. -/
theorem Covers.pop_of_push (hroom : s.usedEntries < s.numEntries) {pc : Addr}
    (h : Covers (s.push pc) t) :
  Covers s t.pop
    ∧ (t.pop.usedEntries = s.usedEntries ↔ t.usedEntries = (s.push pc).usedEntries)
  := by
  obtain ⟨hnum, htos, hused, hle, hentries⟩ := h
  simp only [AddrStack.push, if_pos (Nat.ne_of_lt hroom)] at hnum htos hused hle hentries ⊢
  have hpop : t.pop.usedEntries = t.usedEntries - 1 := if_pos (by omega)
  refine ⟨⟨hnum, ?_, by omega, by omega, ?_⟩, by omega⟩
  · simp only [AddrStack.pop, hnum, htos, decrTos_incrTos]
  · intro i hi
    have hentry := hentries (i + 1) (by omega)
    rw [Function.update_of_ne (slot_succ_ne (by omega)), slot_incrTos (by omega)] at hentry
    exact hentry

/-- The pop of an entry is undone by restoring it. Its number is right if the stack was full, or if
it was not empty and the number was right before. -/
theorem Covers.restore_of_pop (hs : s.Valid) (h : Covers s.pop t) :
  Covers s (t.restore s.tos (s.addrStack s.tos))
    ∧ ((t.restore s.tos (s.addrStack s.tos)).usedEntries = s.usedEntries
      ↔ s.usedEntries = s.numEntries
        ∨ 0 < s.usedEntries ∧ t.usedEntries = s.pop.usedEntries)
  := by
  obtain ⟨hnum, htos, hused, hle, hentries⟩ := h
  obtain ⟨hlt, hmax⟩ := hs
  have hpop : s.pop.usedEntries = s.usedEntries - 1 := by
    simp only [AddrStack.pop]
    split_ifs <;> omega
  have hrestore : (t.restore s.tos (s.addrStack s.tos)).usedEntries
      = min (t.usedEntries + 1) s.numEntries := by
    change t.numEntries = s.numEntries at hnum
    change t.usedEntries ≤ s.numEntries at hle
    simp only [AddrStack.restore, hnum]
    split_ifs <;> omega
  rw [hpop] at hused hentries ⊢
  rw [hrestore]
  refine ⟨⟨hnum, rfl, ?_, ?_, ?_⟩, ?_⟩
  · omega
  · omega
  · intro i hi
    simp only [AddrStack.restore]
    cases i with
    | zero => simp [slot]
    | succ i =>
      have hentry := hentries i (by omega)
      simp only [AddrStack.pop] at hentry
      rw [slot_decrTos hlt (by omega)] at hentry
      rw [Function.update_of_ne (slot_succ_ne (by omega)), hentry]
  · change t.usedEntries ≤ s.numEntries at hle
    omega

/-- A branch is undone. -/
theorem Covers.squash_of_perform (hs : s.Valid) {b : Branch} (hfits : Fits b s)
    (h : Covers (perform b s).2 t) :
  Covers s (t.squash (perform b s).1)
    ∧ ((t.squash (perform b s).1).usedEntries = s.usedEntries
      ↔ b.pops = true ∧ s.usedEntries = s.numEntries
        ∨ (b.pops = true → 0 < s.usedEntries) ∧ t.usedEntries = (perform b s).2.usedEntries)
  := by
  obtain ⟨pops, pushes⟩ := b
  cases pops with
  | false =>
    cases pushes with
    | none => exact ⟨h, by simp [squash, perform]⟩
    | some pc =>
      obtain ⟨hcovers, hiff⟩ := h.pop_of_push (hfits rfl)
      exact ⟨hcovers, by simpa [perform, pushBranch, squash] using hiff⟩
  | true =>
    cases pushes with
    | none =>
      obtain ⟨hcovers, hiff⟩ := h.restore_of_pop hs
      exact ⟨hcovers, by simpa [perform, popBranch, squash] using hiff⟩
    | some pc =>
      have hroom : s.pop.usedEntries < s.numEntries := hfits rfl
      obtain ⟨hpopped, hpush⟩ := Covers.pop_of_push hroom h
      obtain ⟨hcovers, hiff⟩ := hpopped.restore_of_pop hs
      rw [hpush] at hiff
      exact ⟨hcovers, by simpa [perform, popBranch, pushBranch, squash] using hiff⟩

theorem Valid.perform (hs : s.Valid) (b : Branch) :
  (perform b s).2.Valid
  := by
  obtain ⟨pops, pushes⟩ := b
  cases pops with
  | false =>
    cases pushes with
    | none => exact hs
    | some pc => exact hs.push pc
  | true =>
    cases pushes with
    | none => exact hs.pop
    | some pc => exact hs.pop.push pc

theorem covers_squashAll (hs : s.Valid) {bs : List Branch} (hfit : AllFit bs s) :
  Covers s (squashAll (performAll bs s).1 (performAll bs s).2)
    ∧ ((squashAll (performAll bs s).1 (performAll bs s).2).usedEntries = s.usedEntries
      ↔ NonemptyPops bs s)
  := by
  induction bs generalizing s with
  | nil => exact ⟨⟨rfl, rfl, le_refl _, hs.used_le, fun _ _ => rfl⟩, iff_of_true rfl trivial⟩
  | cons b bs ih =>
    obtain ⟨hrest, hiff⟩ := ih (hs.perform b) hfit.2
    rw [NonemptyPops, ← hiff]
    simp only [performAll, squashAll, List.foldl_append] at hrest ⊢
    exact hrest.squash_of_perform hs hfit.1

/-- Squashing branches whose pushes found room, the youngest one first, restores the stack exactly
if none of them popped the empty stack before one had popped the full stack. -/
theorem squashAll_restores_iff (hs : s.Valid) {bs : List Branch} (hfit : AllFit bs s) :
  Same s (squashAll (performAll bs s).1 (performAll bs s).2) ↔ NonemptyPops bs s
  := by
  obtain ⟨hcovers, hiff⟩ := covers_squashAll hs hfit
  rw [← hiff]
  constructor
  · intro hsame
    exact hsame.usedEntries
  · intro hused
    exact ⟨hcovers.numEntries, hcovers.tos, hused, hcovers.entries⟩

/-- A coroutine call and a return, on a stack with one address. -/
theorem squashAll_restores_iff_two :
  Same (push 8 ⟨2, fun _ => none, 0, 0⟩)
    (squashAll (performAll [⟨true, some 4⟩, ⟨true, none⟩] (push 8 ⟨2, fun _ => none, 0, 0⟩)).1
      (performAll [⟨true, some 4⟩, ⟨true, none⟩] (push 8 ⟨2, fun _ => none, 0, 0⟩)).2)
  := by
  refine (squashAll_restores_iff ⟨by decide, by decide⟩ ?_).mpr ?_
  · exact ⟨fun _ => by decide, nofun, trivial⟩
  · exact .inr ⟨by decide, .inr ⟨by decide, trivial⟩⟩

/-- A pop of the empty stack, when it is squashed, leaves an entry. -/
theorem squash_pop_empty :
  let s : AddrStack := { numEntries := 2 }
  (squashAll (performAll [⟨true, none⟩] s).1 (performAll [⟨true, none⟩] s).2).usedEntries
    ≠ s.usedEntries
  := by decide

end AddrStack

end Gem5Arc
