import Gem5Arc.Lib.Run
import Gem5Arc.Mem.MemCtrl

/-!
# The write queue of the memory controller

What `mem/mem_ctrl.cc` keeps about the writes it has accepted: the packets, with the queues of all
priorities as one list, the set of their bursts, and their number, which `logRequest` and
`logResponse` of `mem/qos/mem_ctrl.cc` count. A packet that moves to the queue of another priority
changes none of them.
-/

namespace Gem5Arc.MemCtrl

open List

namespace Writes

variable {P : Params}

/-- The burst addresses of the packets. -/
def bursts (s : Writes P) : List ℕ :=
  s.writeQueue.map fun w => burstAlign P.burstBits w.piece.addr

/-- A write arrives, or the packet at a position is issued. -/
inductive Event (P : Params) where
  | write (q : Fin P.numPriorities) (r : Region)
  | issue (i : ℕ)

def step : Event P → Writes P → Except Fault (Writes P)
  | .write q r, s =>
    if s.writeQueueFull (r.pktCount P.burstBits) then .ok s
    else s.addToWriteQueue q (r.subRequests P.burstBits)
  | .issue i, s => .ok (s.issue i)

/-- The set has the bursts of the packets, no two packets are in one burst, and their number is
right and within the bound. -/
structure Counted (s : Writes P) : Prop where
  isInWriteQueue : s.isInWriteQueue = s.bursts.toFinset
  nodup : s.bursts.Nodup
  length : s.totalWriteQueueSize = s.writeQueue.length
  card : s.totalWriteQueueSize = s.isInWriteQueue.card
  bounded : s.totalWriteQueueSize ≤ P.writeBufferSize

variable {s : Writes P}

theorem Counted.of_nodup (hset : s.isInWriteQueue = s.bursts.toFinset) (hnodup : s.bursts.Nodup)
    (hlength : s.totalWriteQueueSize = s.writeQueue.length)
    (hbounded : s.totalWriteQueueSize ≤ P.writeBufferSize) :
  s.Counted
  := by
  refine ⟨hset, hnodup, hlength, ?_, hbounded⟩
  rw [hset, toFinset_card_of_nodup hnodup, hlength, bursts, length_map]

/-- A turn of the loop adds at most one packet, if there is room. -/
theorem Counted.add (hs : s.Counted) (q : Fin P.numPriorities) (p : Piece)
    (hroom : s.totalWriteQueueSize < P.writeBufferSize) :
  ∃ t, s.add q p = .ok t ∧ t.Counted ∧ t.totalWriteQueueSize ≤ s.totalWriteQueueSize + 1
    ∧ ∀ w ∈ t.writeQueue, w ∈ s.writeQueue ∨ w = ⟨q, p⟩
  := by
  unfold Writes.add
  split_ifs with hin
  · exact ⟨s, rfl, hs, Nat.le_succ _, fun w => .inl⟩
  · have hadded : Counted ⟨s.writeQueue ++ [⟨q, p⟩],
        insert (burstAlign P.burstBits p.addr) s.isInWriteQueue, s.totalWriteQueueSize + 1⟩ := by
      have hperm := perm_append_singleton (burstAlign P.burstBits p.addr) s.bursts
      rw [hs.isInWriteQueue, mem_toFinset] at hin
      apply of_nodup
      · rw [bursts, map_append, map_singleton, ← bursts, toFinset_eq_of_perm _ _ hperm,
          toFinset_cons, hs.isInWriteQueue]
      · rw [bursts, map_append, map_singleton, ← bursts, hperm.nodup_iff, nodup_cons]
        exact ⟨hin, hs.nodup⟩
      · rw [length_append, length_singleton, hs.length]
      · exact hroom
    refine ⟨_, ?_, hadded, Nat.le_refl _, ?_⟩
    · rw [decide_eq_true hroom, assert_true, ok_bind]
      exact assert_bind_eq_ok.mpr ⟨decide_eq_true hadded.card, rfl⟩
    · intro w hw
      exact (mem_append.mp hw).imp_right mem_singleton.mp

/-- The loop adds at most as many packets as it has turns. -/
theorem Counted.addToWriteQueue (hs : s.Counted) (q : Fin P.numPriorities) {l : List Piece}
    (hroom : s.totalWriteQueueSize + l.length ≤ P.writeBufferSize) :
  ∃ t, s.addToWriteQueue q l = .ok t ∧ t.Counted
    ∧ ∀ w ∈ t.writeQueue, w ∈ s.writeQueue ∨ w.piece ∈ l
  := by
  induction l generalizing s with
  | nil => exact ⟨s, rfl, hs, fun w => .inl⟩
  | cons p l ih =>
    rw [length_cons] at hroom
    obtain ⟨s', hadd, hcounted, hle, hmem⟩ := hs.add q p (by omega)
    obtain ⟨t, ht, hcounted', hmem'⟩ := ih hcounted (by omega)
    refine ⟨t, bind_eq_ok.mpr ⟨s', hadd, ht⟩, hcounted', ?_⟩
    intro w hw
    rcases hmem' w hw with hw | hw
    · rcases hmem w hw with hw | rfl
      · exact .inl hw
      · exact .inr mem_cons_self
    · exact .inr (mem_cons_of_mem p hw)

theorem mem_of_mem_issue {i : ℕ} {w : WritePacket P.numPriorities}
    (hw : w ∈ (s.issue i).writeQueue) :
  w ∈ s.writeQueue
  := by
  unfold issue at hw
  split at hw
  · exact hw
  · exact mem_of_mem_eraseIdx hw

theorem Counted.issue (hs : s.Counted) (i : ℕ) :
  (s.issue i).Counted
  := by
  rw [Writes.issue]
  cases hw : s.writeQueue[i]? with
  | none => exact hs
  | some w =>
    obtain ⟨hi, rfl⟩ := List.getElem?_eq_some_iff.mp hw
    have hperm : s.bursts.Perm (burstAlign P.burstBits s.writeQueue[i].piece.addr
        :: (s.writeQueue.eraseIdx i).map fun w => burstAlign P.burstBits w.piece.addr) :=
      ((getElem_cons_eraseIdx_perm hi).map _).symm
    have hnodup := nodup_cons.mp (hperm.nodup_iff.mp hs.nodup)
    dsimp only
    apply Counted.of_nodup
    · rw [hs.isInWriteQueue, toFinset_eq_of_perm _ _ hperm, toFinset_cons, Finset.erase_insert]
      · rfl
      · rw [mem_toFinset]
        exact hnodup.1
    · exact hnodup.2
    · rw [hs.length, length_eraseIdx_of_lt hi]
    · exact Nat.le_trans (Nat.sub_le _ _) hs.bounded

/-- There is room for the sub-requests of a packet that is not refused. -/
theorem room_of_writeQueueFull {r : Region}
    (h : s.writeQueueFull (r.pktCount P.burstBits) = false) :
  s.totalWriteQueueSize + (r.subRequests P.burstBits).length ≤ P.writeBufferSize
  := by
  rw [Region.length_subRequests]
  exact Nat.not_lt.mp (of_decide_eq_false h)

theorem Counted.initial :
  Counted ({} : Writes P)
  := .of_nodup rfl .nil rfl (Nat.zero_le _)

/-- The bookkeeping of the writes is right all along. -/
theorem writes_counted (events : List (Event P)) :
  Lib.Always step Counted events ({} : Writes P)
  := by
  apply Lib.always_of_forall (A := fun _ => True)
  · intro s e hs _
    cases e with
    | issue i => exact ⟨_, rfl, hs.issue i⟩
    | write q r =>
      rw [step]
      split_ifs with hfull
      · exact ⟨s, rfl, hs⟩
      · rw [Bool.not_eq_true] at hfull
        obtain ⟨t, ht, hcounted, -⟩ := hs.addToWriteQueue q (room_of_writeQueueFull hfull)
        exact ⟨t, ht, hcounted⟩
  · exact .initial
  · exact fun _ _ => trivial

end Writes

end Gem5Arc.MemCtrl
