import Gem5Arc.CPU.RenameMap

/-!
# Physical registers are neither leaked nor shared

Every step of the rename stage only moves physical registers between the rename map, the free
lists, `freeingInProgress` and the previous registers of the history buffer: `View.places`, which
collects them with their multiplicities, stays the same. A register that was in one place at the
start is therefore in one place ever after.

`undo h m` takes back what an entry of the history has done to the map. `Undoable` says that the
entries of a history can be taken back in order, newest first: each finds its new register in the
map. Undoing the entries that are younger than a sequence number leads back to the map that the
last instruction up to this number had left (`Traced.Inv`).
-/

namespace Gem5Arc.O3

open Function List Thread

variable {N : RegClass → ℕ} {l : List PhysReg} {p : PhysReg} {w : View N}

/-! ### Well-formed threads and pools -/

/-- Whether a physical register is of a class that is renamed. -/
def PhysReg.IsReg (p : PhysReg) : Prop := ∃ c, p.is c = true

/-- The map before an entry of the history was made. -/
def undo (h : RenameHistory N) (m : ArchReg N → PhysReg) : ArchReg N → PhysReg :=
  if h.newPhysReg ≠ h.prevPhysReg then
    match h.archReg with
    | .reg a => Function.update m a h.prevPhysReg
    | _ => m
  else m

/-- The map before some entries of the history were made, the newest first. -/
def undoAll (hs : List (RenameHistory N)) (m : ArchReg N → PhysReg) : ArchReg N → PhysReg :=
  hs.foldl (fun m h => undo h m) m

theorem undoAll_append (hs hs' : List (RenameHistory N)) (m : ArchReg N → PhysReg) :
  undoAll (hs ++ hs') m = undoAll hs' (undoAll hs m)
  := foldl_append

/-- Each entry of a history finds its new register in the map, when the entries are undone in
order. -/
def Undoable : List (RenameHistory N) → (ArchReg N → PhysReg) → Prop
  | [], _ => True
  | h :: hs, m =>
    (h.newPhysReg ≠ h.prevPhysReg →
      ∃ a, h.archReg = .reg a ∧ m a = h.newPhysReg ∧ h.prevPhysReg.is a.1 = true)
    ∧ Undoable hs (undo h m)

variable {m : ArchReg N → PhysReg} {a : ArchReg N} {c : RegClass} {seqNum : ℕ} {ds : List (Dest N)}
  {th : Thread N}

theorem Undoable.of_append {hs hs' : List (RenameHistory N)} (h : Undoable (hs ++ hs') m) :
  Undoable hs m
  := by
  induction hs generalizing m with
  | nil => trivial
  | cons x hs ih => exact ⟨h.1, ih h.2⟩

variable {hs : List (RenameHistory N)} {pool : Pool} {v : View N}

/-- The registers that an undoable history has displaced are of a class that is renamed. -/
theorem Undoable.isReg (h : Undoable hs m) {x : RenameHistory N} (hx : x ∈ hs)
    (hne : x.newPhysReg ≠ x.prevPhysReg) :
  x.prevPhysReg.IsReg
  := by
  induction hs generalizing m with
  | nil => cases hx
  | cons y hs ih =>
    rcases mem_cons.mp hx with rfl | hx
    · obtain ⟨a, -, -, his⟩ := h.1 hne
      exact ⟨a.1, his⟩
    · exact ih h.2 hx

structure Thread.WellFormed (th : Thread N) : Prop where
  classes : ∀ a, (th.map a).is a.1 = true
  undoable : Undoable th.historyBuffer th.map
  freeing : ∀ p ∈ th.freeingInProgress, p.IsReg

theorem is_update {map : ArchReg N → PhysReg} (h : ∀ a, (map a).is a.1 = true)
    (hp : p.is a.1 = true) :
  ∀ a', (update map a p a').is a'.1 = true
  := (forall_update_iff map fun a p => p.is a.1 = true).mpr ⟨hp, fun a' _ => h a'⟩

/-- The registers in the free list of a class are of this class. -/
def Pool.WellFormed (pool : Pool) : Prop := ∀ c, ∀ p ∈ pool.freeLists c, p.is c = true

theorem Pool.WellFormed.update (h : pool.WellFormed) (hl : ∀ p ∈ l, p.is c = true)
    (pinned : PhysReg → ℤ) :
  Pool.WellFormed ⟨update pool.freeLists c l, pinned⟩
  := (forall_update_iff pool.freeLists fun c l => ∀ p ∈ l, p.is c = true).mpr
    ⟨hl, fun c _ => h c⟩

/-! ### The free lists -/

theorem displaced_cons (h : RenameHistory N) (hs : List (RenameHistory N)) :
  displaced (h :: hs)
    = if h.newPhysReg ≠ h.prevPhysReg then h.prevPhysReg :: displaced hs else displaced hs
  := by
  by_cases hne : h.newPhysReg = h.prevPhysReg
  · simp [displaced, hne]
  · simp [displaced, hne]

theorem displaced_append (hs hs' : List (RenameHistory N)) :
  displaced (hs ++ hs') = displaced hs ++ displaced hs'
  := by rw [displaced, filter_append, map_append, displaced, displaced]

/-- The next register of a free list is taken from the places of the pool. -/
theorem Pool.places_pop (h : pool.freeLists c = p :: l) :
  Pool.places { pool with freeLists := update pool.freeLists c l } + {p} = pool.places
  := by
  have hfree := free_update pool c l
  rw [h, ← Multiset.cons_coe, ← Multiset.singleton_add, ← add_assoc] at hfree
  exact add_right_cancel hfree

/-- A register of a class that is renamed can be put on its free list. -/
theorem Pool.addReg_eq (hpool : pool.WellFormed) (hp : p.IsReg) :
  ∃ pool', pool.addReg p = .ok pool' ∧ pool'.WellFormed ∧ pool'.places = pool.places + {p}
    ∧ pool'.numPinnedWrites = pool.numPinnedWrites
  := by
  obtain ⟨c, hc⟩ := hp
  cases p with
  | misc index => cases hc
  | invalid => cases hc
  | reg c' index =>
    refine ⟨_, rfl, ?_, ?_, rfl⟩
    · refine hpool.update ?_ _
      exact forall_mem_append.mpr ⟨hpool c', forall_mem_singleton.mpr (decide_eq_true rfl)⟩
    · have hfree := free_update pool c' (pool.freeLists c' ++ [.reg c' index])
      rw [← Multiset.coe_add, Multiset.coe_singleton,
        add_comm (↑(pool.freeLists c') : Multiset PhysReg), ← add_assoc] at hfree
      exact add_right_cancel hfree

theorem Pool.addRegs_eq (hpool : pool.WellFormed) (hl : ∀ p ∈ l, p.IsReg) :
  ∃ pool', pool.addRegs l = .ok pool' ∧ pool'.WellFormed ∧ pool'.places = pool.places + ↑l
  := by
  induction l generalizing pool with
  | nil => exact ⟨pool, rfl, hpool, (add_zero _).symm⟩
  | cons p l ih =>
    obtain ⟨hp, hl⟩ := forall_mem_cons.mp hl
    obtain ⟨pool₁, hadd, hpool₁, hplaces₁, -⟩ := Pool.addReg_eq hpool hp
    obtain ⟨pool₂, hadds, hpool₂, hplaces₂⟩ := ih hpool₁ hl
    refine ⟨pool₂, bind_eq_ok.mpr ⟨pool₁, hadd, hadds⟩, hpool₂, ?_⟩
    rw [hplaces₂, hplaces₁, add_assoc, Multiset.singleton_add, Multiset.cons_coe]

/-- An exchange of two registers between the image of the map and another place. -/
theorem exchange_places {image image' rest displaced : Multiset PhysReg} {p q : PhysReg}
    (h : image' + {p} = image + {q}) :
  image' + (rest + {p}) + displaced = image + rest + ({q} + displaced)
  := by
  calc image' + (rest + {p}) + displaced
      = (image' + {p}) + rest + displaced := by abel
    _ = image + rest + ({q} + displaced) := by rw [h]; abel

/-! ### Renaming -/

/-- What renaming a destination register does to a thread and to the pool: an entry is put on
the history that can be undone, and every physical register stays in its place or moves to another
one. -/
structure Renamed (seqNum : ℕ) (hs : List (RenameHistory N)) (v w : View N) : Prop where
  thread : w.thread.WellFormed
  pool : w.pool.WellFormed
  places : w.places = v.places
  history : w.thread.historyBuffer = hs ++ v.thread.historyBuffer
  seqNums : ∀ h ∈ hs, h.instSeqNum = seqNum
  undone : undoAll hs w.thread.map = v.thread.map

section

variable (hth : v.thread.WellFormed) (hpool : v.pool.WellFormed) (seqNum : ℕ)

include hth hpool

/-- A register that keeps its mapping leaves an entry that changes nothing. -/
theorem Renamed.same (r : RegId N) (p : PhysReg) (pins : PhysReg → ℤ) :
  Renamed seqNum [⟨seqNum, r, p, p⟩] v
    ⟨v.thread.record ⟨seqNum, r, p, p⟩, { v.pool with numPinnedWrites := pins }⟩
  := by
  have hundo : undo ⟨seqNum, r, p, p⟩ v.thread.map = v.thread.map := if_neg (not_not.mpr rfl)
  constructor
  · refine ⟨hth.classes, ⟨?_, ?_⟩, hth.freeing⟩
    · intro hne
      exact absurd rfl hne
    · simp only [Thread.record]
      rw [hundo]
      exact hth.undoable
  · exact hpool
  · simp [View.places, Thread.places, Thread.record, displaced_cons, Pool.places]
  · rfl
  · exact forall_mem_singleton.mpr rfl
  · exact hundo

/-- A register that is mapped anew displaces the previous one. -/
theorem Renamed.fresh (hnd : v.places.Nodup) (hfree : v.pool.freeLists a.1 = p :: l)
    (pins : PhysReg → ℤ) :
  Renamed seqNum [⟨seqNum, .reg a, p, v.thread.map a⟩] v
    ⟨{ v.thread with map := update v.thread.map a p }.record
        ⟨seqNum, .reg a, p, v.thread.map a⟩,
      ⟨update v.pool.freeLists a.1 l, pins⟩⟩
  := by
  have hpop := Pool.places_pop hfree
  have himage := image_update v.thread.map a p
  have hp : p ∈ v.pool.places := by
    rw [← hpop]
    exact Multiset.mem_add.mpr (.inr (Multiset.mem_singleton_self p))
  have hprev : v.thread.map a ∈ v.thread.places := by
    apply Multiset.mem_add.mpr (.inl (Multiset.mem_add.mpr (.inl _)))
    rw [Multiset.mem_sum]
    exact ⟨a, Finset.mem_univ a, Multiset.mem_singleton_self _⟩
  have hne : p ≠ v.thread.map a := by
    rintro rfl
    have hdisjoint := (Multiset.nodup_add.mp hnd).2.2
    exact Multiset.disjoint_left.mp hdisjoint hprev hp
  have hundo : undo ⟨seqNum, .reg a, p, v.thread.map a⟩ (update v.thread.map a p)
      = v.thread.map := by
    rw [undo, if_pos hne]
    simp only [update_idem, update_eq_self]
  have hpclass : p.is a.1 = true := by
    apply hpool a.1
    rw [hfree]
    exact mem_cons_self
  constructor
  · refine ⟨?_, ⟨?_, ?_⟩, hth.freeing⟩
    · exact is_update hth.classes hpclass
    · intro _
      exact ⟨a, rfl, update_self _ _ _, hth.classes a⟩
    · simp only [Thread.record]
      rw [hundo]
      exact hth.undoable
  · refine hpool.update ?_ _
    intro q hq
    apply hpool
    rw [hfree]
    exact mem_cons_of_mem p hq
  · simp only [View.places, Thread.places, Thread.record, displaced_cons, if_pos hne]
    rw [← hpop, ← Multiset.cons_coe, ← Multiset.singleton_add]
    rw [← exchange_places himage.symm]
    abel
  · rfl
  · exact forall_mem_singleton.mpr rfl
  · exact hundo

/-- A destination register does not pin a register that is pinned. -/
def Dest.PinOk (d : Dest N) (v : View N) : Prop :=
  ∀ a, d.reg = .reg a → 0 < v.pool.numPinnedWrites (v.thread.map a) → d.numPinnedWrites = 0

/-- Renaming a destination register returns if its class has a free register and it does not pin a
register that is pinned. It takes at most one register from the free list of its class. -/
theorem renameDestReg_eq (hnd : v.places.Nodup) {d : Dest N} (hpin : d.PinOk v)
    (hfree : ∀ c, d.ofClass c = true → v.pool.freeLists c ≠ []) :
  ∃ w hs, renameDestReg seqNum d v = .ok w ∧ Renamed seqNum hs v w
    ∧ ∀ c, (v.pool.freeLists c).length
      ≤ (w.pool.freeLists c).length + if d.ofClass c = true then 1 else 0
  := by
  obtain ⟨r, n⟩ := d
  cases r with
  | misc index | invalid =>
    refine ⟨_, _, rfl, Renamed.same hth hpool seqNum _ _ v.pool.numPinnedWrites, ?_⟩
    intro c
    exact Nat.le_add_right _ _
  | reg a =>
    by_cases hpinned : 0 < v.pool.numPinnedWrites (v.thread.map a)
    · have hn : n = 0 := hpin a rfl hpinned
      have heq : renameDestReg seqNum ⟨.reg a, n⟩ v = .ok
          ⟨v.thread.record ⟨seqNum, .reg a, v.thread.map a, v.thread.map a⟩,
            { v.pool with
              numPinnedWrites := update v.pool.numPinnedWrites (v.thread.map a)
                (v.pool.numPinnedWrites (v.thread.map a) - 1) }⟩ := by
        simp [renameDestReg, rename, renameReg, hpinned, hn]
      refine ⟨_, _, heq, Renamed.same hth hpool seqNum _ _ _, ?_⟩
      intro c
      exact Nat.le_add_right _ _
    · have hclass : Dest.ofClass ⟨.reg a, n⟩ a.1 = true := decide_eq_true rfl
      obtain ⟨p, l, hl⟩ := exists_cons_of_ne_nil (hfree a.1 hclass)
      have heq : renameDestReg seqNum ⟨.reg a, n⟩ v = .ok
          ⟨{ v.thread with map := update v.thread.map a p }.record
              ⟨seqNum, .reg a, p, v.thread.map a⟩,
            ⟨update v.pool.freeLists a.1 l, update v.pool.numPinnedWrites p n⟩⟩ := by
        simp [renameDestReg, rename, renameReg, hpinned, Pool.getReg, hl]
      refine ⟨_, _, heq, Renamed.fresh hth hpool seqNum hnd hl _, ?_⟩
      intro c
      by_cases hc : c = a.1
      · subst hc
        simp [hl, hclass]
      · simp [update_of_ne hc]

end

/-- No destination register of an instruction pins a register that is pinned when its turn
comes. -/
def PinsOnce (seqNum : ℕ) : List (Dest N) → View N → Prop
  | [], _ => True
  | d :: ds, v => d.PinOk v ∧ ∀ w, renameDestReg seqNum d v = .ok w → PinsOnce seqNum ds w

/-- An instruction that has been renamed did not pin a register that was pinned. -/
theorem PinsOnce.of_ok (h : renameDestRegs seqNum ds v = .ok w) :
  PinsOnce seqNum ds v
  := by
  induction ds generalizing v with
  | nil => trivial
  | cons d ds ih =>
    obtain ⟨u, hu, hrest⟩ := bind_eq_ok.mp h
    constructor
    · intro a ha hpinned
      obtain ⟨r, hrename, -⟩ := bind_eq_ok.mp hu
      simp only [rename, ha, renameReg, if_pos hpinned] at hrename
      obtain ⟨hzero, -⟩ := assert_bind_eq_ok.mp hrename
      exact of_decide_eq_true hzero
    · intro u' hu'
      cases hu.symm.trans hu'
      exact ih hrest

/-- Renaming an instruction returns if there are free registers for it. -/
theorem renameDestRegs_eq (hth : v.thread.WellFormed) (hpool : v.pool.WellFormed)
    (hnd : v.places.Nodup) (seqNum : ℕ) (hpin : PinsOnce seqNum ds v) (hcan : canRename ds v.pool) :
  ∃ w hs, renameDestRegs seqNum ds v = .ok w ∧ Renamed seqNum hs v w
  := by
  induction ds generalizing v with
  | nil => exact ⟨v, [], rfl, hth, hpool, rfl, rfl, by simp, rfl⟩
  | cons d ds ih =>
    have hfree : ∀ c, d.ofClass c = true → v.pool.freeLists c ≠ [] := by
      intro c hc hnil
      have hle := hcan c
      rw [countP_cons, hc, hnil, length_nil] at hle
      simp at hle
    obtain ⟨w, hs, heq, hw, hlen⟩ := renameDestReg_eq hth hpool seqNum hnd hpin.1 hfree
    have hcan' : canRename ds w.pool := by
      intro c
      have hle := hcan c
      have hlen := hlen c
      rw [countP_cons] at hle
      omega
    obtain ⟨w', hs', heq', hw'⟩ := ih hw.thread hw.pool (hw.places ▸ hnd) (hpin.2 w heq) hcan'
    refine ⟨w', hs' ++ hs, bind_eq_ok.mpr ⟨w, heq, heq'⟩, hw'.thread, hw'.pool, ?_, ?_, ?_, ?_⟩
    · rw [hw'.places, hw.places]
    · rw [hw'.history, hw.history, append_assoc]
    · exact forall_mem_append.mpr ⟨hw'.seqNums, hw.seqNums⟩
    · rw [undoAll_append, hw'.undone, hw.undone]

/-! ### Squashing -/

/-- Undoing the newest entry of a history takes its new register from the map to
`freeingInProgress`, and its previous register back to the map. -/
theorem Thread.undoEntry_eq (hclasses : ∀ a, (th.map a).is a.1 = true)
    (hfreeing : ∀ p ∈ th.freeingInProgress, p.IsReg) {h : RenameHistory N}
    (hh : h.newPhysReg ≠ h.prevPhysReg →
      ∃ a, h.archReg = .reg a ∧ th.map a = h.newPhysReg ∧ h.prevPhysReg.is a.1 = true) :
  ∃ th', th.undoEntry h = .ok th' ∧ th'.map = undo h th.map
    ∧ (∀ a, (th'.map a).is a.1 = true) ∧ (∀ p ∈ th'.freeingInProgress, p.IsReg)
    ∧ ∀ hs, places { th' with historyBuffer := hs }
      = places { th with historyBuffer := h :: hs }
  := by
  by_cases hne : h.newPhysReg = h.prevPhysReg
  · refine ⟨th, if_neg (not_not.mpr hne), (if_neg (not_not.mpr hne)).symm, hclasses, hfreeing, ?_⟩
    intro hs
    simp only [places, displaced_cons, hne, ne_eq, not_true_eq_false, if_false]
  · obtain ⟨a, harch, hnew, hprev⟩ := hh hne
    have hundo : undo h th.map = update th.map a h.prevPhysReg := by
      rw [undo, if_pos hne, harch]
    refine ⟨{ th with
      map := update th.map a h.prevPhysReg
      freeingInProgress := th.freeingInProgress ++ [h.newPhysReg] }, ?_, hundo.symm, ?_, ?_, ?_⟩
    · simp [undoEntry, setEntry, hne, harch, hprev]
    · exact is_update hclasses hprev
    · apply forall_mem_append.mpr ⟨hfreeing, forall_mem_singleton.mpr _⟩
      rw [← hnew]
      exact ⟨a.1, hclasses a⟩
    · intro hs
      have himage := image_update th.map a h.prevPhysReg
      rw [hnew] at himage
      simp only [places, displaced_cons, if_pos hne]
      rw [← Multiset.coe_add, Multiset.coe_singleton, ← Multiset.cons_coe, ← Multiset.singleton_add]
      exact exchange_places himage

/-- The loop of `doSquash` returns: it undoes the entries that are younger than the number, down to
the first that is not. -/
theorem squashLoop_eq (hclasses : ∀ a, (th.map a).is a.1 = true) (hundoable : Undoable hs th.map)
    (hfreeing : ∀ p ∈ th.freeingInProgress, p.IsReg) (squashed : ℕ) :
  ∃ th', squashLoop squashed hs th = .ok th'
    ∧ th'.historyBuffer = hs.dropWhile (squashed < ·.instSeqNum)
    ∧ th'.map = undoAll (hs.takeWhile (squashed < ·.instSeqNum)) th.map
    ∧ th'.WellFormed ∧ th'.places = places { th with historyBuffer := hs }
  := by
  induction hs generalizing th with
  | nil => exact ⟨_, rfl, rfl, rfl, ⟨hclasses, trivial, hfreeing⟩, rfl⟩
  | cons h hs ih =>
    by_cases hlt : squashed < h.instSeqNum
    · obtain ⟨th₁, hentry, hmap₁, hclasses₁, hfreeing₁, hplaces₁⟩ :=
        undoEntry_eq hclasses hfreeing hundoable.1
      obtain ⟨th₂, hloop, hhist, hmap, hwf, hplaces⟩ :=
        ih hclasses₁ (hmap₁ ▸ hundoable.2) hfreeing₁
      refine ⟨th₂, ?_, ?_, ?_, hwf, ?_⟩
      · rw [squashLoop, if_pos hlt]
        exact bind_eq_ok.mpr ⟨th₁, hentry, hloop⟩
      · simp only [hhist, dropWhile_cons, hlt, decide_true, if_true]
      · simp only [hmap, hmap₁, takeWhile_cons, hlt, decide_true, if_true]
        rfl
      · rw [hplaces, hplaces₁]
    · refine ⟨{ th with historyBuffer := h :: hs }, if_neg hlt, ?_, ?_,
        ⟨hclasses, hundoable, hfreeing⟩, rfl⟩
      · simp only [dropWhile_cons, hlt, decide_false, Bool.false_eq_true, if_false]
      · simp only [takeWhile_cons, hlt, decide_false, Bool.false_eq_true, if_false]
        rfl

theorem doSquash_eq (hth : th.WellFormed) (squashed : ℕ) :
  ∃ th', doSquash squashed th = .ok th'
    ∧ th'.historyBuffer = th.historyBuffer.dropWhile (squashed < ·.instSeqNum)
    ∧ th'.map = undoAll (th.historyBuffer.takeWhile (squashed < ·.instSeqNum)) th.map
    ∧ th'.WellFormed ∧ th'.places = th.places
  := squashLoop_eq hth.classes hth.undoable hth.freeing squashed

/-! ### Committing -/

/-- The loop of `removeFromHistory` returns: it takes the oldest entries up to the number from the
history, and frees the registers they have displaced. -/
theorem commitLoop_eq (hreg : ∀ h ∈ hs, h.newPhysReg ≠ h.prevPhysReg → h.prevPhysReg.IsReg)
    (hpool : pool.WellFormed) (seqNum : ℕ) :
  ∃ removed left pool', commitLoop seqNum hs pool = .ok (left, pool') ∧ hs = removed ++ left
    ∧ (∀ h ∈ removed, h.instSeqNum ≤ seqNum) ∧ pool'.WellFormed
    ∧ pool'.places = pool.places + ↑(displaced removed)
  := by
  induction hs generalizing pool with
  | nil => exact ⟨[], [], pool, rfl, rfl, by simp, hpool, (add_zero _).symm⟩
  | cons h hs ih =>
    obtain ⟨hh, hreg⟩ := forall_mem_cons.mp hreg
    by_cases hle : h.instSeqNum ≤ seqNum
    · by_cases hne : h.newPhysReg = h.prevPhysReg
      · obtain ⟨removed, left, pool', hloop, happend, hseq, hpool', hplaces⟩ := ih hreg hpool
        refine ⟨h :: removed, left, pool', ?_, by rw [happend, cons_append], ?_, hpool', ?_⟩
        · rw [commitLoop, if_pos hle, if_neg (not_not.mpr hne), ok_bind]
          exact hloop
        · exact forall_mem_cons.mpr ⟨hle, hseq⟩
        · rw [displaced_cons, if_neg (not_not.mpr hne), hplaces]
      · obtain ⟨pool₁, hadd, hpool₁, hplaces₁, -⟩ := Pool.addReg_eq hpool (hh hne)
        obtain ⟨removed, left, pool', hloop, happend, hseq, hpool', hplaces⟩ := ih hreg hpool₁
        refine ⟨h :: removed, left, pool', ?_, by rw [happend, cons_append], ?_, hpool', ?_⟩
        · rw [commitLoop, if_pos hle, if_pos hne, hadd, ok_bind]
          exact hloop
        · exact forall_mem_cons.mpr ⟨hle, hseq⟩
        · rw [displaced_cons, if_pos hne, hplaces, hplaces₁, add_assoc, Multiset.singleton_add,
            Multiset.cons_coe]
    · exact ⟨[], h :: hs, pool, if_neg hle, rfl, by simp, hpool, (add_zero _).symm⟩

theorem removeFromHistory_eq (hth : v.thread.WellFormed) (hpool : v.pool.WellFormed) (seqNum : ℕ) :
  ∃ w removed, removeFromHistory seqNum v = .ok w
    ∧ v.thread.historyBuffer = w.thread.historyBuffer ++ removed
    ∧ (∀ h ∈ removed, h.instSeqNum ≤ seqNum) ∧ w.thread.map = v.thread.map
    ∧ w.thread.WellFormed ∧ w.pool.WellFormed ∧ w.places = v.places
  := by
  have hreg : ∀ h ∈ v.thread.historyBuffer.reverse, h.newPhysReg ≠ h.prevPhysReg →
      h.prevPhysReg.IsReg := by
    intro h hh hne
    exact hth.undoable.isReg (mem_reverse.mp hh) hne
  obtain ⟨removed, left, pool', hloop, happend, hseq, hpool', hplaces⟩ :=
    commitLoop_eq hreg hpool seqNum
  have hhist : v.thread.historyBuffer = left.reverse ++ removed.reverse := by
    rw [← reverse_append, ← happend, reverse_reverse]
  refine ⟨⟨{ v.thread with historyBuffer := left.reverse }, pool'⟩, removed.reverse,
    bind_eq_ok.mpr ⟨_, hloop, rfl⟩, hhist, ?_, rfl, ?_, hpool', ?_⟩
  · intro h hh
    exact hseq h (mem_reverse.mp hh)
  · have hundoable := hth.undoable
    rw [hhist] at hundoable
    exact ⟨hth.classes, hundoable.of_append, hth.freeing⟩
  · have hdisplaced : (↑(displaced removed.reverse) : Multiset PhysReg) = ↑(displaced removed) := by
      rw [displaced, filter_reverse, map_reverse, Multiset.coe_reverse, displaced]
    simp only [View.places, places]
    rw [hplaces, hhist, displaced_append, ← Multiset.coe_add, hdisplaced]
    abel

theorem releaseFreeing_eq (hth : v.thread.WellFormed) (hpool : v.pool.WellFormed) :
  ∃ pool', releaseFreeing v = .ok ⟨{ v.thread with freeingInProgress := [] }, pool'⟩
    ∧ pool'.WellFormed
    ∧ View.places ⟨{ v.thread with freeingInProgress := [] }, pool'⟩ = v.places
  := by
  obtain ⟨pool', hadd, hpool', hplaces⟩ := Pool.addRegs_eq hpool hth.freeing
  refine ⟨pool', bind_eq_ok.mpr ⟨pool', hadd, rfl⟩, hpool', ?_⟩
  simp only [View.places, places]
  rw [hplaces, Multiset.coe_nil]
  abel

/-! ### Rolling back -/

/-- A thread with the instructions it has renamed and not squashed, each with the map it has left.
Sequence numbers of later instructions are not below `next`, and the instructions up to `committed`
have been committed. -/
structure Traced (N : RegClass → ℕ) where
  thread : Thread N
  trace : List (ℕ × (ArchReg N → PhysReg)) := []
  next : ℕ := 0
  committed : ℕ := 0

/-- The map right after the last instruction up to a sequence number was renamed. -/
def mapAfter (initial : ArchReg N → PhysReg) (trace : List (ℕ × (ArchReg N → PhysReg)))
    (seqNum : ℕ) : ArchReg N → PhysReg :=
  match trace.find? (·.1 ≤ seqNum) with
  | some x => x.2
  | none => initial

/-- Undoing the entries that are younger than a sequence number leads to the map right after the
last instruction up to this number was renamed. -/
structure Traced.Inv (initial : ArchReg N → PhysReg) (x : Traced N) : Prop where
  wellFormed : x.thread.WellFormed
  bound : ∀ h ∈ x.thread.historyBuffer, h.instSeqNum < x.next
  rollback : ∀ k, x.committed ≤ k →
    undoAll (x.thread.historyBuffer.takeWhile (k < ·.instSeqNum)) x.thread.map
      = mapAfter initial x.trace k

section TakeWhile

variable {α : Type} {p q : α → Bool} {l l' : List α}

theorem takeWhile_append_of_none (h : ∀ x ∈ l', p x = false) :
  (l ++ l').takeWhile p = l.takeWhile p
  := by
  induction l with
  | nil =>
    cases l' with
    | nil => rfl
    | cons x l' => simp [h x mem_cons_self]
  | cons x l ih =>
    rw [cons_append, takeWhile_cons, takeWhile_cons, ih]

theorem takeWhile_eq_append (h : ∀ x, q x = true → p x = true) :
  l.takeWhile p = l.takeWhile q ++ (l.dropWhile q).takeWhile p
  := by
  rw [← takeWhile_append_of_pos fun x hx => h x (all_eq_true.mp all_takeWhile x hx),
    takeWhile_append_dropWhile]

theorem takeWhile_dropWhile_eq_nil (h : ∀ x, p x = true → q x = true) :
  (l.dropWhile q).takeWhile p = []
  := by
  induction l with
  | nil => rfl
  | cons x l ih =>
    by_cases hq : q x = true
    · rw [dropWhile_cons_of_pos hq, ih]
    · rw [dropWhile_cons_of_neg hq, takeWhile_cons_of_neg (fun hp => hq (h x hp))]

end TakeWhile

theorem mapAfter_cons {initial : ArchReg N → PhysReg} {trace : List (ℕ × (ArchReg N → PhysReg))}
    {k : ℕ} :
  mapAfter initial ((seqNum, m) :: trace) k = if seqNum ≤ k then m else mapAfter initial trace k
  := by
  unfold mapAfter
  by_cases h : seqNum ≤ k
  · simp [h]
  · simp [h]

/-- Dropping the instructions that are younger than a number keeps the maps up to this number, and
makes the map of the number the last one. -/
theorem mapAfter_dropWhile (initial : ArchReg N → PhysReg)
    (trace : List (ℕ × (ArchReg N → PhysReg))) (squashed k : ℕ) :
  mapAfter initial (trace.dropWhile (squashed < ·.1)) k = mapAfter initial trace (min squashed k)
  := by
  induction trace with
  | nil => rfl
  | cons x trace ih =>
    obtain ⟨seqNum, m⟩ := x
    by_cases hlt : squashed < seqNum
    · simp only [dropWhile_cons, hlt, decide_true, if_true]
      rw [ih, mapAfter_cons, if_neg (by omega)]
    · simp only [dropWhile_cons, hlt, decide_false, Bool.false_eq_true, if_false]
      rw [mapAfter_cons, mapAfter_cons]
      by_cases hk : seqNum ≤ k
      · rw [if_pos hk, if_pos (by omega)]
      · rw [if_neg hk, if_neg (by omega), Nat.min_eq_right (by omega)]

namespace Traced.Inv

variable {initial : ArchReg N → PhysReg} {x : Traced N}

section

variable (hx : x.Inv initial)

include hx

theorem rename (hseq : x.next ≤ seqNum) (hw : Renamed seqNum hs ⟨x.thread, pool⟩ w) :
  Traced.Inv initial
    { x with
      thread := w.thread
      trace := (seqNum, w.thread.map) :: x.trace
      next := seqNum + 1 }
  := by
  have hbound : ∀ h ∈ hs ++ x.thread.historyBuffer, h.instSeqNum ≤ seqNum := by
    intro h hh
    rcases mem_append.mp hh with hh | hh
    · exact Nat.le_of_eq (hw.seqNums h hh)
    · exact (Nat.le_of_lt (hx.bound h hh)).trans hseq
  refine ⟨hw.thread, ?_, ?_⟩
  · intro h hh
    rw [hw.history] at hh
    exact Nat.lt_succ_of_le (hbound h hh)
  · intro k hk
    simp only [hw.history, mapAfter_cons]
    by_cases hle : seqNum ≤ k
    · have hnone : ∀ h ∈ hs ++ x.thread.historyBuffer, decide (k < h.instSeqNum) = false := by
        intro h hh
        have := hbound h hh
        exact decide_eq_false (by omega)
      rw [if_pos hle, ← nil_append (hs ++ x.thread.historyBuffer), takeWhile_append_of_none hnone]
      rfl
    · have hall : ∀ h ∈ hs, decide (k < h.instSeqNum) = true := by
        intro h hh
        rw [hw.seqNums h hh]
        exact decide_eq_true (by omega)
      rw [if_neg hle, takeWhile_append_of_pos hall, undoAll_append, hw.undone]
      exact hx.rollback k hk

/-- Squashing restores the map of the number, and keeps what can be restored later. -/
theorem squash {squashed : ℕ} (hcommitted : x.committed ≤ squashed) :
  ∃ th', doSquash squashed x.thread = .ok th' ∧ th'.places = x.thread.places
    ∧ th'.map = mapAfter initial x.trace squashed
    ∧ Traced.Inv initial
      { x with thread := th', trace := x.trace.dropWhile (squashed < ·.1) }
  := by
  obtain ⟨th', hsquash, hhist, hmap, hwf, hplaces⟩ := doSquash_eq hx.wellFormed squashed
  have hmap' := hmap.trans (hx.rollback squashed hcommitted)
  refine ⟨th', hsquash, hplaces, hmap', hwf, ?_, ?_⟩
  · intro h hh
    rw [hhist] at hh
    exact hx.bound h ((dropWhile_sublist _).subset hh)
  · intro k hk
    simp only [hhist, mapAfter_dropWhile]
    rcases Nat.le_total squashed k with hle | hle
    · rw [takeWhile_dropWhile_eq_nil (by simp; omega), Nat.min_eq_left hle]
      exact hmap'
    · have hsplit := takeWhile_eq_append (l := x.thread.historyBuffer)
        (p := fun h => decide (k < h.instSeqNum)) (q := fun h => decide (squashed < h.instSeqNum))
        (by simp; omega)
      have hk' := hx.rollback k hk
      rw [hsplit, undoAll_append, ← hmap] at hk'
      rw [hk', Nat.min_eq_right hle]

/-- Committing takes entries from the history that need not be undone any more. -/
theorem commit (hpool : pool.WellFormed) (seqNum : ℕ) :
  ∃ w, removeFromHistory seqNum ⟨x.thread, pool⟩ = .ok w ∧ w.pool.WellFormed
    ∧ w.places = View.places ⟨x.thread, pool⟩
    ∧ Traced.Inv initial { x with thread := w.thread, committed := max x.committed seqNum }
  := by
  obtain ⟨w, removed, heq, hhist, hseq, hmap, hth, hpool', hplaces⟩ :=
    removeFromHistory_eq (v := ⟨x.thread, pool⟩) hx.wellFormed hpool seqNum
  refine ⟨w, heq, hpool', hplaces, hth, ?_, ?_⟩
  · intro h hh
    apply hx.bound h
    rw [hhist]
    exact mem_append_left removed hh
  · intro k hk
    simp only at hk
    have hnone : ∀ h ∈ removed, decide (k < h.instSeqNum) = false := by
      intro h hh
      have := hseq h hh
      exact decide_eq_false (by omega)
    have hk' := hx.rollback k (by omega)
    rw [hhist, takeWhile_append_of_none hnone] at hk'
    simp only [hmap]
    exact hk'

theorem release :
  Traced.Inv initial { x with thread := { x.thread with freeingInProgress := [] } }
  := ⟨⟨hx.wellFormed.classes, hx.wellFormed.undoable, by simp⟩, hx.bound, hx.rollback⟩

end

end Traced.Inv

end Gem5Arc.O3
