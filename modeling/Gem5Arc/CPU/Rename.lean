import Gem5Arc.CPU.RenameHistory
import Gem5Arc.Lib.Run

/-!
# Runs of the rename stage

The rename stage with any number of threads, which share the free lists. A step renames the
destination registers of an instruction of a thread, squashes a thread, takes committed instructions
from its history, releases its registers in `freeingInProgress`, or is a change of the pinned writes
of a physical register by a later stage.

* `registers_in_one_place`: along every run every physical register is in exactly one place, and
  squashing a thread restores the map of that time.
-/

open Lib

namespace Gem5Arc.O3

variable {N : RegClass → ℕ} {n : ℕ} {pool : Pool} {x : Traced N} {t : Fin n}

structure System (n : ℕ) (N : RegClass → ℕ) where
  threads : Fin n → Traced N
  pool : Pool

/-- The physical registers in the places of all threads and in the free lists. -/
def System.places (s : System n N) : Multiset PhysReg :=
  (∑ t, (s.threads t).thread.places) + s.pool.places

def System.view (s : System n N) (t : Fin n) : View N := ⟨(s.threads t).thread, s.pool⟩

/-- The system with one thread and the pool replaced. -/
def System.set (s : System n N) (t : Fin n) (x : Traced N) (pool : Pool) : System n N :=
  ⟨Function.update s.threads t x, pool⟩

/-- The system with an initial map for every thread. -/
def System.start (maps : Fin n → ArchReg N → PhysReg) (pool : Pool) : System n N :=
  ⟨fun t => { thread := { map := maps t } }, pool⟩

inductive Label (n : ℕ) (N : RegClass → ℕ) where
  | rename (t : Fin n) (inst : DynInst N)
  | squash (t : Fin n) (squashed : ℕ)
  | commit (t : Fin n) (seqNum : ℕ)
  | release (t : Fin n)
  /-- A later stage changes the number of pinned writes of a register. -/
  | pin (p : PhysReg) (numPinnedWrites : ℤ)

def step (l : Label n N) (s : System n N) : Except Fault (System n N) :=
  match l with
  | .rename t inst => do
      let w ← renameDestRegs inst.seqNum inst.dests (s.view t)
      let x := { s.threads t with
        thread := w.thread
        trace := (inst.seqNum, w.thread.map) :: (s.threads t).trace
        next := inst.seqNum + 1 }
      .ok (s.set t x w.pool)
  | .squash t squashed => do
      let th ← doSquash squashed (s.threads t).thread
      let x := { s.threads t with
        thread := th
        trace := (s.threads t).trace.dropWhile (squashed < ·.1) }
      .ok (s.set t x s.pool)
  | .commit t seqNum => do
      let w ← removeFromHistory seqNum (s.view t)
      let x := { s.threads t with
        thread := w.thread
        committed := max (s.threads t).committed seqNum }
      .ok (s.set t x w.pool)
  | .release t => do
      let w ← releaseFreeing (s.view t)
      .ok (s.set t { s.threads t with thread := w.thread } w.pool)
  | .pin p k =>
    let pool := { s.pool with numPinnedWrites := Function.update s.pool.numPinnedWrites p k }
    .ok { s with pool := pool }

/-- Instructions are renamed only when there are free registers for them. -/
def CanRename : Label n N → System n N → Prop
  | .rename _ inst, s => canRename inst.dests s.pool
  | _, _ => True

/-- Moreover sequence numbers increase, and what has been committed is not squashed. -/
def InOrder : Label n N → System n N → Prop
  | .rename t inst, s => canRename inst.dests s.pool ∧ (s.threads t).next ≤ inst.seqNum
  | .squash t squashed, s => (s.threads t).committed ≤ squashed
  | _, _ => True

/-- Instructions do not pin registers that are pinned. -/
def PinsOnceEach : Label n N → System n N → Prop
  | .rename t inst, s => PinsOnce inst.seqNum inst.dests (s.view t)
  | _, _ => True

variable {l : Label n N}

theorem InOrder.canRename {s : System n N} (h : InOrder l s) :
  CanRename l s
  := by
  cases l with
  | rename t inst => exact h.1
  | _ => trivial

/-- A step that has returned did not pin a register that was pinned. -/
theorem PinsOnceEach.of_ok {s s' : System n N} (h : step l s = .ok s') :
  PinsOnceEach l s
  := by
  cases l with
  | rename t inst =>
    obtain ⟨w, hw, -⟩ := bind_eq_ok.mp h
    exact PinsOnce.of_ok hw
  | _ => trivial

/-! ### The places of the registers -/

/-- The threads and the pool are well formed, and the registers are in their places. -/
structure System.Kept (regs : Finset PhysReg) (s : System n N) : Prop where
  threads : ∀ t, (s.threads t).thread.WellFormed
  pool : s.pool.WellFormed
  places : s.places = regs.val

namespace System.Kept

variable {regs : Finset PhysReg} {s s' : System n N}

section

variable (h : s.Kept regs)

include h

/-- A step of one thread that keeps the places of the thread and the pool together. -/
theorem set (hx : x.thread.WellFormed) (hpool : pool.WellFormed)
    (hplaces : View.places ⟨x.thread, pool⟩ = (s.view t).places) :
  (s.set t x pool).Kept regs
  := by
  refine ⟨?_, hpool, ?_⟩
  · apply (Function.forall_update_iff s.threads fun _ x => x.thread.WellFormed).mpr
    exact ⟨hx, fun t' _ => h.threads t'⟩
  · have hsum := sum_update (fun y : Traced N => y.thread.places) s.threads t x
    rw [← h.places]
    simp only [System.places, System.set]
    simp only [View.places, System.view] at hplaces
    apply add_right_cancel
    rw [add_right_comm, hsum, add_assoc, hplaces, add_assoc]
    congr 1
    rw [add_comm]

theorem view_nodup (t : Fin n) :
  (s.view t).places.Nodup
  := by
  apply Multiset.nodup_of_le _ regs.nodup
  rw [← h.places]
  apply add_le_add_left
  exact Finset.single_le_sum (fun _ _ => Multiset.zero_le _) (Finset.mem_univ t)

/-- Every step returns and keeps the registers in their places, unless it pins a register that is
pinned. -/
theorem step (hcan : CanRename l s) (hpin : PinsOnceEach l s) :
  ∃ s', step l s = .ok s' ∧ s'.Kept regs
  := by
  cases l with
  | rename t inst =>
    obtain ⟨w, hs, heq, hw⟩ := renameDestRegs_eq (h.threads t) h.pool (h.view_nodup t)
      inst.seqNum hpin hcan
    exact ⟨_, bind_eq_ok.mpr ⟨w, heq, rfl⟩, h.set hw.thread hw.pool hw.places⟩
  | squash t squashed =>
    obtain ⟨th, heq, -, -, hth, hplaces⟩ := doSquash_eq (h.threads t) squashed
    refine ⟨_, bind_eq_ok.mpr ⟨th, heq, rfl⟩, h.set hth h.pool ?_⟩
    rw [View.places, hplaces]
    rfl
  | commit t seqNum =>
    obtain ⟨w, removed, heq, -, -, -, hth, hpool, hplaces⟩ :=
      removeFromHistory_eq (v := s.view t) (h.threads t) h.pool seqNum
    exact ⟨_, bind_eq_ok.mpr ⟨w, heq, rfl⟩, h.set hth hpool hplaces⟩
  | release t =>
    obtain ⟨pool', heq, hpool, hplaces⟩ :=
      releaseFreeing_eq (v := s.view t) (h.threads t) h.pool
    refine ⟨_, bind_eq_ok.mpr ⟨_, heq, rfl⟩, h.set ?_ hpool hplaces⟩
    exact ⟨(h.threads t).classes, (h.threads t).undoable, by simp⟩
  | pin p k => exact ⟨_, rfl, h.threads, h.pool, h.places⟩

theorem of_step (hcan : CanRename l s) (hstep : O3.step l s = .ok s') :
  s'.Kept regs
  := by
  obtain ⟨s₁, hs₁, hkept⟩ := h.step hcan (PinsOnceEach.of_ok hstep)
  cases hstep.symm.trans hs₁
  exact hkept

end

/-- The registers are in their places at the start, if the maps and the free lists list each of
them once. -/
theorem start {initial : Fin n → ArchReg N → PhysReg}
    (hclasses : ∀ t a, (initial t a).is a.1 = true) (hpool : pool.WellFormed)
    (hplaces : (System.start initial pool).places = regs.val) :
  (System.start initial pool).Kept regs
  := ⟨fun t => ⟨hclasses t, trivial, by simp [System.start]⟩, hpool, hplaces⟩

end System.Kept

/-! ### Rolling back -/

/-- Every thread can be rolled back to the maps its instructions have left. -/
def System.RollsBack (initial : Fin n → ArchReg N → PhysReg) (s : System n N) : Prop :=
  ∀ t, (s.threads t).Inv (initial t)

namespace System.RollsBack

variable {regs : Finset PhysReg} {initial : Fin n → ArchReg N → PhysReg} {s s' : System n N}

theorem set (h : s.RollsBack initial) (hx : x.Inv (initial t)) (pool : Pool) :
  (s.set t x pool).RollsBack initial
  := by
  apply (Function.forall_update_iff s.threads fun t x => x.Inv (initial t)).mpr
  exact ⟨hx, fun t' _ => h t'⟩

theorem of_step (h : s.RollsBack initial) (hkept : s.Kept regs) (hl : InOrder l s)
    (hstep : step l s = .ok s') :
  s'.RollsBack initial
  := by
  cases l with
  | rename t inst =>
    obtain ⟨w, hw, hs'⟩ := bind_eq_ok.mp hstep
    cases hs'
    obtain ⟨w', hs, heq, hrenamed⟩ := renameDestRegs_eq (hkept.threads t) hkept.pool
      (hkept.view_nodup t) inst.seqNum (PinsOnce.of_ok hw) hl.1
    cases hw.symm.trans heq
    exact h.set ((h t).rename hl.2 hrenamed) _
  | squash t squashed =>
    obtain ⟨th, hth, hs'⟩ := bind_eq_ok.mp hstep
    cases hs'
    obtain ⟨th', heq, -, -, hx⟩ := (h t).squash hl
    cases hth.symm.trans heq
    exact h.set hx _
  | commit t seqNum =>
    obtain ⟨w, hw, hs'⟩ := bind_eq_ok.mp hstep
    cases hs'
    obtain ⟨w', heq, -, -, hx⟩ := (h t).commit hkept.pool seqNum
    cases hw.symm.trans heq
    exact h.set hx _
  | release t =>
    obtain ⟨w, hw, hs'⟩ := bind_eq_ok.mp hstep
    cases hs'
    obtain ⟨pool', heq, -, -⟩ := releaseFreeing_eq (v := s.view t) (hkept.threads t) hkept.pool
    cases hw.symm.trans heq
    exact h.set (h t).release _
  | pin p k =>
    cases hstep
    exact h

theorem start (hclasses : ∀ t a, (initial t a).is a.1 = true) :
  (System.start initial pool).RollsBack initial
  := by
  intro t
  refine ⟨⟨hclasses t, trivial, by simp [System.start]⟩, by simp [System.start], ?_⟩
  intro k _
  rfl

end System.RollsBack

/-! ### Whole runs -/

section Runs

variable {regs : Finset PhysReg} {initial : Fin n → ArchReg N → PhysReg} {labels : List (Label n N)}

/-- A run that renames only with free registers at hand stops only at the assertion against pinning
a register twice. -/
theorem run_returns (hclasses : ∀ t a, (initial t a).is a.1 = true) (hpool : pool.WellFormed)
    (hplaces : (System.start initial pool).places = regs.val)
    (hlabels : Meets step (fun l s => CanRename l s ∧ PinsOnceEach l s) labels
      (System.start initial pool)) :
  ∃ s, exec step labels (System.start initial pool) = .ok s
  := by
  have halways := always_of_meets (fun s l h hl => h.step hl.1 hl.2)
      (System.Kept.start hclasses hpool hplaces) hlabels
  obtain ⟨s, hs, -⟩ := halways.exec
  exact ⟨s, hs⟩

/-- Let the initial maps and the free lists list every physical register exactly once. If
instructions are renamed only when there are free registers for them, then every physical register
is in exactly one place in every state that is reached: in the image of a map, in a free list, in
`freeingInProgress`, or displaced by an entry of a history. If moreover sequence numbers increase
and what has been committed is not squashed, then squashing leaves the map that existed right after
the last instruction up to the given number was renamed. -/
theorem registers_in_one_place (hclasses : ∀ t a, (initial t a).is a.1 = true)
    (hpool : pool.WellFormed) (hplaces : (System.start initial pool).places = regs.val)
    {s : System n N} (hrun : exec step labels (System.start initial pool) = .ok s) :
  (Meets step CanRename labels (System.start initial pool) → ∀ p ∈ regs, s.places.count p = 1)
    ∧ (Meets step InOrder labels (System.start initial pool) →
      ∀ t squashed, (s.threads t).committed ≤ squashed →
        ∃ th, doSquash squashed (s.threads t).thread = .ok th
          ∧ th.map = mapAfter (initial t) (s.threads t).trace squashed)
  := by
  have hstart := System.Kept.start hclasses hpool hplaces
  constructor
  · intro hcan p hp
    have hkept : s.Kept regs :=
      hcan.invariant (fun s l s' h hl hstep => h.of_step hl hstep) hstart hrun
    rw [hkept.places]
    exact Multiset.count_eq_one_of_mem regs.nodup hp
  · intro horder t squashed hle
    have hboth : s.Kept regs ∧ s.RollsBack initial := by
      apply horder.invariant (P := fun s => s.Kept regs ∧ s.RollsBack initial) _
        ⟨hstart, System.RollsBack.start hclasses⟩ hrun
      rintro s₁ l s₂ ⟨hkept, hback⟩ hl hstep
      exact ⟨hkept.of_step hl.canRename hstep, hback.of_step hkept hl hstep⟩
    obtain ⟨th, hsquash, -, hmap, -⟩ := (hboth.2 t).squash hle
    exact ⟨th, hsquash, hmap⟩

end Runs

/-- A thread with one integer register, and two more physical registers. -/
def oneReg : RegClass → ℕ
  | .int => 1
  | _ => 0

/-- The integer registers 1 and 2 are free. -/
def twoFree : Pool where
  freeLists
    | .int => [.reg .int 1, .reg .int 2]
    | _ => []

def oneThread : System 1 oneReg := .start (fun _ _ => .reg .int 0) twoFree

/-- Instruction 1 writes the register. -/
def write : Label 1 oneReg := .rename 0 ⟨1, [⟨.reg ⟨.int, ⟨0, by decide⟩⟩, 0⟩]⟩

theorem oneThread_classes (_ : Fin 1) (a : ArchReg oneReg) :
  (PhysReg.reg .int 0).is a.1 = true
  := by
  obtain ⟨c, i⟩ := a
  cases c with
  | int => rfl
  | _ => exact i.elim0

theorem twoFree_wellFormed :
  twoFree.WellFormed
  := by
  intro c
  cases c <;> decide

theorem inOrder_write :
  InOrder write oneThread
  := by
  refine ⟨fun c => ?_, by decide⟩
  cases c <;> decide

/-- The register is renamed by an instruction, which is then squashed. -/
theorem registers_in_one_place_squash :
  ∃ s, exec step [write] oneThread = .ok s
    ∧ (∀ p ∈ ({.reg .int 0, .reg .int 1, .reg .int 2} : Finset PhysReg), s.places.count p = 1)
    ∧ ∃ th, doSquash 0 (s.threads 0).thread = .ok th ∧ th.map = fun _ => .reg .int 0
  := by
  have hinitial : oneThread.places = Finset.val {.reg .int 0, .reg .int 1, .reg .int 2} := by
    decide
  refine ⟨_, rfl, ?_⟩
  obtain ⟨hplaces, hmap⟩ := registers_in_one_place oneThread_classes twoFree_wellFormed hinitial
    (rfl : exec step [write] oneThread = .ok _)
  constructor
  · exact hplaces ⟨inOrder_write.canRename, fun _ _ => trivial⟩
  · exact hmap ⟨inOrder_write, fun _ _ => trivial⟩ 0 0 (Nat.le_refl 0)

theorem run_returns_squash :
  ∃ s, exec step [write, .squash 0 0] oneThread = .ok s
  := by
  refine run_returns oneThread_classes twoFree_wellFormed
    (?_ : _ = Finset.val {.reg .int 0, .reg .int 1, .reg .int 2}) ?_
  · decide
  · refine ⟨⟨inOrder_write.canRename, ?_⟩, fun _ _ => ⟨⟨trivial, trivial⟩, fun _ _ => trivial⟩⟩
    exact PinsOnceEach.of_ok rfl

end Gem5Arc.O3
