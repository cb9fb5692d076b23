import Gem5Arc.Mem.WriteQueue

/-!
# Reads are answered once

Every packet the memory controller accepts is answered exactly once, when its last sub-request has
been serviced. `Accounts` is the invariant of the read side: a waiting sub-request without a helper
is the only one of its packet that waits, and the helper of a packet has counted all its
sub-requests but those that wait. `Writes.Merged` is the invariant of the write side: no two
entries of the write queue are in the same burst, so that a sub-request is found in it at most
once, although the search goes on in the other priorities.

`reads_answered_once` says which packets are cut right, and that a run of such packets is
consistent all along.
-/

open Lib List

namespace Gem5Arc.MemCtrl

open Function List State

variable {P : Params} {helper : Option ℕ} {l : List Piece}

/-! ### The accounts of the controller -/

/-- What the helpers, the queues and the answers say about one another. -/
structure Accounts (b : ℕ) (queue : Multiset MemPacket) (serviced : Multiset (ℕ × Piece))
    (helpers : ℕ → Option BurstHelper) (packets : List Region) (responses : List ℕ) : Prop where
  known : ∀ m ∈ queue, m.pkt < packets.length
  known_done : ∀ x ∈ serviced, x.1 < packets.length
  parts : ∀ i r, packets[i]? = some r →
    doneIn serviced i + waitingIn queue i = ↑(r.subRequests b)
  answers : ∀ i,
    responses.count i = if i < packets.length ∧ waitingIn queue i = 0 then 1 else 0
  /-- An entry without a helper is the only one of its packet that waits. The helper of a packet
  has all of its sub-requests counted but those that wait. -/
  helper : ∀ m ∈ queue,
    m.burstHelper = none ∧ (waitingIn queue m.pkt).card = 1
      ∨ m.burstHelper = some m.pkt ∧ ∃ n k, helpers m.pkt = some ⟨n, k⟩
        ∧ k + (waitingIn queue m.pkt).card = n

namespace Accounts

variable {b : ℕ} {queue : Multiset MemPacket} {serviced : Multiset (ℕ × Piece)}
  {helpers helpers' : ℕ → Option BurstHelper} {packets : List Region} {responses : List ℕ}
  {m : MemPacket} {r : Region} {found wait : List Piece}

section

variable (h : Accounts b queue serviced helpers packets responses)

include h

theorem queue_known {i : ℕ} (hi : packets.length ≤ i) :
  waitingIn queue i = 0 ∧ doneIn serviced i = 0
  := by
  rw [waitingIn_eq_zero, doneIn, Multiset.map_eq_zero, Multiset.filter_eq_nil]
  constructor
  · intro m hm heq
    have := h.known m hm
    omega
  · intro x hx heq
    have := h.known_done x hx
    omega

/-- The sub-requests of a packet that has just been accepted. -/
theorem parts_accept (hperm : (found ++ wait).Perm (r.subRequests b)) (helper : Option ℕ) (i : ℕ)
    (r' : Region) (hr' : (packets ++ [r])[i]? = some r') :
  doneIn (serviced + ↑(found.map fun p => (packets.length, p))) i
      + waitingIn (queue + ↑(wait.map fun p => MemPacket.mk packets.length p helper)) i
    = ↑(r'.subRequests b)
  := by
  rw [doneIn_add, waitingIn_add, doneIn_map, waitingIn_map]
  by_cases hi : packets.length = i
  · obtain ⟨hw, hd⟩ := h.queue_known (Nat.le_of_eq hi)
    have hr : r = r' := by
      rw [← hi, getElem?_concat_length] at hr'
      exact Option.some.inj hr'
    rw [if_pos hi, if_pos hi, hw, hd, zero_add, zero_add, Multiset.coe_add, ← hr]
    exact Multiset.coe_eq_coe.mpr hperm
  · have hlt : i < packets.length := by
      obtain ⟨hlt, -⟩ := List.getElem?_eq_some_iff.mp hr'
      rw [List.length_append, length_singleton] at hlt
      omega
    rw [if_neg hi, if_neg hi, add_zero, add_zero]
    apply h.parts
    rwa [getElem?_append_left hlt] at hr'

theorem known_accept (r : Region) (found wait : List Piece) (helper : Option ℕ) :
  (∀ m ∈ queue + ↑(wait.map fun p => MemPacket.mk packets.length p helper),
      m.pkt < (packets ++ [r]).length)
    ∧ ∀ x ∈ serviced + ↑(found.map fun p => (packets.length, p)), x.1 < (packets ++ [r]).length
  := by
  rw [length_append, length_singleton]
  constructor
  · intro m hm
    rcases Multiset.mem_add.mp hm with hm | hm
    · exact Nat.lt_succ_of_lt (h.known m hm)
    · obtain ⟨p, -, rfl⟩ := mem_map.mp hm
      apply Nat.lt_succ_self
  · intro x hx
    rcases Multiset.mem_add.mp hx with hx | hx
    · exact Nat.lt_succ_of_lt (h.known_done x hx)
    · obtain ⟨p, -, rfl⟩ := mem_map.mp hx
      apply Nat.lt_succ_self

/-- A packet is accepted, and all its sub-requests are found in the write queue. -/
theorem accept_all (hperm : found.Perm (r.subRequests b)) :
  Accounts b queue (serviced + ↑(found.map fun p => (packets.length, p))) helpers
    (packets ++ [r]) (packets.length :: responses)
  := by
  obtain ⟨hknown, hdone⟩ := h.known_accept r found [] none
  rw [map_nil, Multiset.coe_nil, add_zero] at hknown
  refine ⟨hknown, hdone, ?_, ?_, h.helper⟩
  · intro i r' hr'
    rw [← append_nil found] at hperm
    have hparts := h.parts_accept hperm none i r' hr'
    rwa [map_nil, Multiset.coe_nil, add_zero] at hparts
  · intro i
    rw [count_cons, h.answers, length_append, length_singleton]
    by_cases hi : packets.length = i
    · have hw := (h.queue_known (Nat.le_of_eq hi)).1
      rw [← hi] at hw ⊢
      simp [hw]
    · have hlt : i < packets.length + 1 ↔ i < packets.length := by omega
      simp [hlt, hi]

/-- A packet is accepted, and some of its sub-requests go to the read queue. -/
theorem accept_some (hperm : (found ++ wait).Perm (r.subRequests b)) (hwait : wait ≠ [])
    (hagree : ∀ i, i ≠ packets.length → helpers' i = helpers i)
    (hhelper : helper = none ∧ wait.length = 1
      ∨ helper = some packets.length ∧ ∃ n k, helpers' packets.length = some ⟨n, k⟩
        ∧ k + wait.length = n) :
  Accounts b (queue + ↑(wait.map fun p => MemPacket.mk packets.length p helper))
    (serviced + ↑(found.map fun p => (packets.length, p))) helpers' (packets ++ [r]) responses
  := by
  obtain ⟨hknown, hdone⟩ := h.known_accept r found wait helper
  refine ⟨hknown, hdone, h.parts_accept hperm helper, ?_, ?_⟩
  · intro i
    rw [h.answers, length_append, length_singleton, waitingIn_add, waitingIn_map]
    by_cases hi : packets.length = i
    · rw [if_pos hi, if_neg (by omega), if_neg]
      rintro ⟨-, hzero⟩
      have hle := Multiset.le_add_left (wait : Multiset Piece) (waitingIn queue i)
      rw [hzero] at hle
      exact hwait ((Multiset.coe_eq_zero wait).mp (Multiset.le_zero.mp hle))
    · have hlt : i < packets.length + 1 ↔ i < packets.length := by omega
      simp only [if_neg hi, add_zero, hlt]
  · intro m hm
    rw [waitingIn_add, waitingIn_map]
    rcases Multiset.mem_add.mp hm with hm | hm
    · have hne := Nat.ne_of_gt (h.known m hm)
      rw [if_neg hne, add_zero, hagree m.pkt hne.symm]
      exact h.helper m hm
    · obtain ⟨p, -, rfl⟩ := mem_map.mp hm
      rw [if_pos rfl, (h.queue_known (Nat.le_refl _)).1, zero_add, Multiset.coe_card]
      exact hhelper

end

section

variable (h : Accounts b (m ::ₘ queue) serviced helpers packets responses)

include h

theorem parts_service (i : ℕ) (r' : Region) (hr' : packets[i]? = some r') :
  doneIn ((m.pkt, m.piece) ::ₘ serviced) i + waitingIn queue i = ↑(r'.subRequests b)
  := by
  have hparts := h.parts i r' hr'
  rw [waitingIn_cons] at hparts
  rw [doneIn_cons]
  split_ifs at hparts ⊢ with hi
  · rw [Multiset.cons_add, ← hparts, Multiset.add_cons]
  · exact hparts

theorem known_service :
  (∀ m' ∈ queue, m'.pkt < packets.length)
    ∧ ∀ x ∈ (m.pkt, m.piece) ::ₘ serviced, x.1 < packets.length
  := by
  obtain ⟨hm, hqueue⟩ := Multiset.forall_mem_cons.mp h.known
  exact ⟨hqueue, Multiset.forall_mem_cons.mpr ⟨hm, h.known_done⟩⟩

/-- The last sub-request of a packet comes back, and the packet is answered. -/
theorem service_last (hlast : waitingIn queue m.pkt = 0)
    (hagree : ∀ i, i ≠ m.pkt → helpers' i = helpers i) :
  Accounts b queue ((m.pkt, m.piece) ::ₘ serviced) helpers' packets (m.pkt :: responses)
  := by
  obtain ⟨hknown, hdone⟩ := h.known_service
  refine ⟨hknown, hdone, h.parts_service, ?_, ?_⟩
  · intro i
    have hm := h.known m (Multiset.mem_cons_self m queue)
    rw [count_cons, h.answers, waitingIn_cons]
    by_cases hi : m.pkt = i
    · rw [hi] at hm hlast
      simp [hi, hm, hlast]
    · simp [hi]
  · intro m' hm'
    have hne : m'.pkt ≠ m.pkt := waitingIn_eq_zero.mp hlast m' hm'
    have hhelper := h.helper m' (Multiset.mem_cons_of_mem hm')
    rwa [waitingIn_cons, if_neg hne.symm, ← hagree m'.pkt hne] at hhelper

end

/-- A sub-request of a packet comes back, and others are still waiting. -/
theorem service_more {n k : ℕ} (h : Accounts b (m ::ₘ queue) serviced helpers packets responses)
    (hmore : waitingIn queue m.pkt ≠ 0) (hk : helpers m.pkt = some ⟨n, k⟩) :
  Accounts b queue ((m.pkt, m.piece) ::ₘ serviced)
    (Function.update helpers m.pkt (some ⟨n, k + 1⟩)) packets responses
  := by
  obtain ⟨hknown, hdone⟩ := h.known_service
  refine ⟨hknown, hdone, h.parts_service, ?_, ?_⟩
  · intro i
    rw [h.answers, waitingIn_cons]
    by_cases hi : m.pkt = i
    · rw [hi] at hmore
      simp [hi, hmore]
    · simp [hi]
  · intro m' hm'
    have hhelper := h.helper m' (Multiset.mem_cons_of_mem hm')
    rw [waitingIn_cons] at hhelper
    by_cases hpkt : m.pkt = m'.pkt
    · have hcard : 0 < (waitingIn queue m'.pkt).card := by
        rw [← hpkt]
        exact Multiset.card_pos.mpr hmore
      rw [if_pos hpkt, Multiset.card_cons, ← hpkt, hk] at hhelper
      rw [← hpkt] at hcard ⊢
      rcases hhelper with ⟨-, hone⟩ | ⟨hsome, n', k', heq, hsum⟩
      · omega
      · cases heq
        refine .inr ⟨hsome, n, k + 1, update_self _ _ _, ?_⟩
        omega
    · rwa [if_neg hpkt, ← update_of_ne (Ne.symm hpkt) (some ⟨n, k + 1⟩) helpers] at hhelper

end Accounts

/-! ### Writes -/

/-- The bookkeeping of the writes is right, and they lie each within one burst, below the end of the
address space. -/
structure Writes.Merged (s : Writes P) : Prop extends Counted s where
  within : ∀ w ∈ s.writeQueue,
    w.piece.addr % 2 ^ P.burstBits + w.piece.size ≤ 2 ^ P.burstBits
      ∧ w.piece.addr + w.piece.size < 2 ^ 64

variable {p : Piece} {s : State P} {r : Region}

/-- A write that subsumes a read is in the burst of the read. -/
theorem burstAlign_of_subsumes {w : WritePacket P.numPriorities}
    (hwithin : w.piece.addr % 2 ^ P.burstBits + w.piece.size ≤ 2 ^ P.burstBits)
    (hw : w.piece.addr + w.piece.size < 2 ^ 64) (hpos : 0 < p.size) (hp : p.addr + p.size < 2 ^ 64)
    (h : subsumes w p = true) :
  burstAlign P.burstBits w.piece.addr = burstAlign P.burstBits p.addr
  := by
  simp only [subsumes, Bool.and_eq_true, decide_eq_true_eq] at h
  obtain ⟨hle, hend⟩ := h
  have hburst := burstEnd_add_mod P.burstBits w.piece.addr
  have hdiv : p.addr / 2 ^ P.burstBits = w.piece.addr / 2 ^ P.burstBits := by
    apply Nat.div_eq_of_lt_le
    · exact (Nat.div_mul_le_self _ _).trans hle
    · change p.addr < burstEnd P.burstBits w.piece.addr
      omega
  rw [burstAlign_eq P.burstBits_le (by omega), burstAlign_eq P.burstBits_le (by omega), hdiv]

/-- A read is found at most once in the write queue: at most one entry is in its burst. -/
theorem timesFound_le_one (h : s.Merged) (hpos : 0 < p.size) (hp : p.addr + p.size < 2 ^ 64) :
  s.timesFound p ≤ 1
  := by
  unfold timesFound
  split_ifs
  · rw [countP_eq_length_filter, ← toFinset_card_of_nodup ((nodup_finRange _).filter _),
      Finset.card_le_one]
    intro q hq q' hq'
    simp only [mem_toFinset, mem_filter, any_eq_true, Bool.and_eq_true, decide_eq_true_eq] at hq hq'
    obtain ⟨-, w, hw, rfl, hsub⟩ := hq
    obtain ⟨-, w', hw', rfl, hsub'⟩ := hq'
    obtain ⟨hwithin, hlt⟩ := h.within w hw
    obtain ⟨hwithin', hlt'⟩ := h.within w' hw'
    have heq : w = w' := by
      apply inj_on_of_nodup_map h.nodup hw hw'
      rw [burstAlign_of_subsumes hwithin hlt hpos hp hsub,
        burstAlign_of_subsumes hwithin' hlt' hpos hp hsub']
    rw [heq]
  · apply Nat.zero_le

/-! ### Reads -/

/-- The entry of a sub-request of a packet in the read queue. -/
def entry (pkt pktCount : ℕ) (p : Piece) : MemPacket :=
  ⟨pkt, p, if 1 < pktCount then some pkt else none⟩

/-- The state after some sub-requests of a packet have been found in the write queue and others
have been put into the read queue. -/
def State.enqueue (s : State P) (pkt pktCount : ℕ) (found wait : List Piece) : State P :=
  { s with
    readQueue := s.readQueue ++ wait.map (entry pkt pktCount)
    serviced := s.serviced ++ found.map fun p => (pkt, p)
    helpers :=
      if wait ≠ [] ∧ 1 < pktCount then Function.update s.helpers pkt (some ⟨pktCount, 0⟩)
      else s.helpers }

variable {v : ReadLoop} {pkt pktCount : ℕ}

/-- A turn of the loop of `addToReadQueue` for a sub-request that is in the write queue. -/
theorem addRead_found (hfound : s.timesFound p = 1) :
  addRead pkt pktCount p v s
    = .ok ({ v with pktsServicedByWrQ := v.pktsServicedByWrQ + 1 },
        { s with serviced := s.serviced ++ [(pkt, p)] })
  := by
  have hne : s.timesFound p ≠ 0 := by omega
  rw [addRead, if_pos hne, hfound]

/-- A turn of the loop of `addToReadQueue` for a sub-request that is not in the write queue. -/
theorem addRead_wait (hfound : s.timesFound p = 0)
    (hroom : s.readQueue.length + s.respQueue.length < P.readBufferSize)
    (hv : v.burstHelper = none
      ∨ 1 < pktCount ∧ v.burstHelper = some pkt ∧ s.helpers pkt = some ⟨pktCount, 0⟩) :
  addRead pkt pktCount p v s
    = .ok (⟨v.pktsServicedByWrQ, if 1 < pktCount then some pkt else none⟩,
        s.enqueue pkt pktCount [] [p])
  := by
  obtain ⟨n, helper⟩ := v
  unfold addRead
  rw [if_neg (Decidable.not_not.mpr hfound)]
  have hfull : ∀ helpers, readQueueFull { s with helpers } 1 = false := by
    intro helpers
    simp only [readQueueFull, decide_eq_false_iff_not]
    omega
  by_cases hcount : 1 < pktCount
  · by_cases hnone : helper = none
    · rw [makeHelper, if_pos ⟨hcount, hnone⟩]
      simp [enqueue, entry, hcount, hfull]
    · rcases hv with h | ⟨-, hsome, hhelper⟩
      · contradiction
      · rw [makeHelper, if_neg (fun h => hnone h.2)]
        have hself : Function.update s.helpers pkt (some ⟨pktCount, 0⟩) = s.helpers := by
          rw [← hhelper, update_eq_self]
        simp only at hsome
        simp [enqueue, entry, hcount, hfull s.helpers, hsome, hself]
  · rcases hv with hnone | ⟨h, -⟩
    · rw [makeHelper, if_neg (fun h => hcount h.1)]
      simp only at hnone
      simp [enqueue, entry, hcount, hfull s.helpers, hnone]
    · contradiction

theorem enqueue_found (s : State P) (pkt pktCount : ℕ) (p : Piece) (found wait : List Piece) :
  enqueue { s with serviced := s.serviced ++ [(pkt, p)] } pkt pktCount found wait
    = s.enqueue pkt pktCount (p :: found) wait
  := by simp [enqueue]

theorem enqueue_wait (s : State P) (pkt pktCount : ℕ) (p : Piece) (found wait : List Piece) :
  (s.enqueue pkt pktCount [] [p]).enqueue pkt pktCount found wait
    = s.enqueue pkt pktCount found (p :: wait)
  := by
  by_cases hcount : 1 < pktCount
  · simp [enqueue, hcount]
  · simp [enqueue, hcount]

/-- The loop of `addToReadQueue` returns; it has found some of the sub-requests in the write queue
and put the others into the read queue. -/
theorem addReads_eq (pkt pktCount : ℕ) (hfound : ∀ p ∈ l, s.timesFound p ≤ 1)
    (hroom : s.readQueue.length + s.respQueue.length + l.length ≤ P.readBufferSize)
    (hv : v.burstHelper = none
      ∨ 1 < pktCount ∧ v.burstHelper = some pkt ∧ s.helpers pkt = some ⟨pktCount, 0⟩) :
  ∃ found wait, (found ++ wait).Perm l
    ∧ addReads pkt pktCount l v s
      = .ok (⟨v.pktsServicedByWrQ + found.length,
            if wait ≠ [] ∧ 1 < pktCount then some pkt else v.burstHelper⟩,
          s.enqueue pkt pktCount found wait)
  := by
  induction l generalizing s v with
  | nil =>
    refine ⟨[], [], List.Perm.refl _, ?_⟩
    simp [addReads, enqueue]
  | cons p l ih =>
    rw [length_cons] at hroom
    obtain ⟨hp, hfound⟩ := forall_mem_cons.mp hfound
    by_cases hzero : s.timesFound p = 0
    · have hadd := addRead_wait hzero (by omega) hv
      have hroom' : (s.enqueue pkt pktCount [] [p]).readQueue.length + s.respQueue.length
          + l.length ≤ P.readBufferSize := by
        simp only [enqueue, length_append, length_map, length_singleton]
        omega
      obtain ⟨found, wait, hperm, hadds⟩ := ih (s := s.enqueue pkt pktCount [] [p])
        (v := ⟨v.pktsServicedByWrQ, if 1 < pktCount then some pkt else none⟩) hfound hroom' (by
          by_cases hcount : 1 < pktCount
          · right
            simp [enqueue, hcount]
          · left
            simp [hcount])
      refine ⟨found, p :: wait, perm_middle.trans (hperm.cons p), ?_⟩
      refine bind_eq_ok.mpr ⟨_, hadd, ?_⟩
      simp only [hadds, enqueue_wait]
      by_cases hcount : 1 < pktCount
      · simp [hcount]
      · rcases hv with hnone | ⟨h, -⟩
        · simp [hcount, hnone]
        · contradiction
    · have hone : s.timesFound p = 1 := by omega
      obtain ⟨found, wait, hperm, hadds⟩ := ih
        (s := { s with serviced := s.serviced ++ [(pkt, p)] })
        (v := { v with pktsServicedByWrQ := v.pktsServicedByWrQ + 1 }) hfound
        (by simp only; omega) hv
      refine ⟨p :: found, wait, hperm.cons p, ?_⟩
      refine bind_eq_ok.mpr ⟨_, addRead_found hone, ?_⟩
      simp only [hadds, enqueue_found, length_cons, Nat.add_assoc, Nat.add_comm 1]

/-! ### Runs of packets that are cut right -/

/-- A packet whose number of sub-requests is computed without overflow, and which has no byte in
the last burst of the address space. -/
def Proper (P : Params) (r : Region) : Prop := r.CountFits P.burstBits ∧ r.Below P.burstBits

instance (r : Region) : Decidable (Proper P r) := inferInstanceAs (Decidable (_ ∧ _))

theorem Proper.mem (h : Proper P r) (hp : p ∈ r.subRequests P.burstBits) :
  0 < p.size ∧ p.addr % 2 ^ P.burstBits + p.size ≤ 2 ^ P.burstBits ∧ p.addr + p.size < 2 ^ 64
  := by
  have htiles := (r.tiles_subRequests_iff P.burstBits_le).mpr ⟨h.1, .inl h.2⟩
  obtain ⟨hpos, hwithin, hle⟩ := htiles.mem hp
  refine ⟨hpos, hwithin, ?_⟩
  have hbelow : r.addr + r.size + 2 ^ P.burstBits ≤ 2 ^ 64 := h.2
  omega

/-- The write queue is merged, and the accounts are right. -/
structure State.Inv (s : State P) : Prop where
  merged : s.Merged
  accounts : Accounts P.burstBits s.queued ↑s.serviced s.helpers s.packets s.responses

theorem State.Inv.consistent (h : s.Inv) :
  s.Consistent
  := by
  intro i r hr
  refine ⟨h.accounts.parts i r hr, ?_⟩
  obtain ⟨hlt, -⟩ := List.getElem?_eq_some_iff.mp hr
  rw [h.accounts.answers]
  simp [hlt]

theorem State.Inv.initial :
  State.Inv ({} : State P)
  := by
  refine ⟨⟨.initial, by simp⟩, ?_⟩
  constructor <;> simp [queued]

/-- The state after a packet has been accepted that has to wait. -/
theorem queued_enqueue (s : State P) (pkt pktCount : ℕ) (found wait : List Piece) :
  (s.enqueue pkt pktCount found wait).queued = s.queued + ↑(wait.map (entry pkt pktCount))
  := by
  simp only [queued, enqueue, ← Multiset.coe_add]
  rw [add_right_comm]

section

variable (h : s.Inv)

include h

variable {found wait : List Piece}

/-- After the loop a packet is answered if none of its sub-requests has to wait. -/
theorem finishRead_all (hperm : found.Perm (r.subRequests P.burstBits)) :
  ∃ t, finishRead s.packets.length (r.pktCount P.burstBits) ⟨found.length, helper⟩
      ((s.accept r).enqueue s.packets.length (r.pktCount P.burstBits) found []) = .ok t ∧ t.Inv
  := by
  have hall : found.length = r.pktCount P.burstBits := by
    rw [hperm.length_eq, r.length_subRequests]
  refine ⟨_, if_pos hall, h.merged, ?_⟩
  have haccounts := h.accounts.accept_all hperm
  simpa [accept, accessAndRespond, enqueue, queued] using haccounts

section

variable (hperm : (found ++ wait).Perm (r.subRequests P.burstBits))

include hperm

/-- After the loop, with a helper for the sub-requests that wait, the accounts are right. -/
theorem State.Inv.enqueue (hwait : wait ≠ []) {helpers' : ℕ → Option BurstHelper}
    (hagree : ∀ i, i ≠ s.packets.length → helpers' i = s.helpers i)
    (hhelper : (if 1 < pktCount then some s.packets.length else none) = none ∧ wait.length = 1
      ∨ (if 1 < pktCount then some s.packets.length else none) = some s.packets.length
        ∧ ∃ n k, helpers' s.packets.length = some ⟨n, k⟩ ∧ k + wait.length = n) :
  State.Inv { (s.accept r).enqueue s.packets.length pktCount found wait with helpers := helpers' }
  := by
  refine ⟨h.merged, ?_⟩
  have haccounts := h.accounts.accept_some hperm hwait hagree hhelper
  have hqueued := queued_enqueue (s.accept r) s.packets.length pktCount found wait
  exact hqueued.symm ▸ haccounts

/-- After the loop a packet whose sub-requests wait shares a helper among them that counts those
found in the write queue, or has only one of them. -/
theorem finishRead_some (hwait : wait ≠ []) :
  ∃ t, finishRead s.packets.length (r.pktCount P.burstBits)
      ⟨found.length, if 1 < r.pktCount P.burstBits then some s.packets.length else none⟩
      ((s.accept r).enqueue s.packets.length (r.pktCount P.burstBits) found wait) = .ok t ∧ t.Inv
  := by
  have hsum : found.length + wait.length = r.pktCount P.burstBits := by
    rw [← r.length_subRequests, ← hperm.length_eq, length_append]
  have hpos := length_pos_iff.mpr hwait
  have hne : found.length ≠ r.pktCount P.burstBits := by omega
  rw [finishRead, if_neg hne]
  by_cases hcount : 1 < r.pktCount P.burstBits
  · use { (s.accept r).enqueue s.packets.length (r.pktCount P.burstBits) found wait with
      helpers := Function.update s.helpers s.packets.length
        (some ⟨r.pktCount P.burstBits, found.length⟩) }
    constructor
    · simp [setServiced, enqueue, accept, hcount, hwait, deref]
    · apply h.enqueue hperm hwait
      · intro i hi
        exact update_of_ne hi _ s.helpers
      · right
        exact ⟨if_pos hcount, _, _, update_self _ _ _, hsum⟩
  · use (s.accept r).enqueue s.packets.length (r.pktCount P.burstBits) found wait
    constructor
    · simp [setServiced, hcount]
    · have hhelpers : ((s.accept r).enqueue s.packets.length (r.pktCount P.burstBits) found
          wait).helpers = s.helpers := if_neg fun h => hcount h.2
      apply h.enqueue hperm hwait
      · intro i _
        exact congrFun hhelpers i
      · left
        exact ⟨if_neg hcount, by omega⟩

end

/-- Accepting a packet keeps the accounts. -/
theorem State.Inv.addToReadQueue (hr : Proper P r)
    (hroom : s.readQueueFull (r.pktCount P.burstBits) = false) :
  ∃ t, addToReadQueue r s = .ok t ∧ t.Inv
  := by
  have hcount := Nat.ne_of_gt (Region.pktCount_pos hr.1)
  have hfound : ∀ p ∈ r.subRequests P.burstBits, (s.accept r).timesFound p ≤ 1 := by
    intro p hp
    obtain ⟨hpos, -, hlt⟩ := hr.mem hp
    exact timesFound_le_one h.merged hpos hlt
  have hfits : (s.accept r).readQueue.length + (s.accept r).respQueue.length
      + (r.subRequests P.burstBits).length ≤ P.readBufferSize := by
    rw [r.length_subRequests]
    simp only [readQueueFull, decide_eq_false_iff_not] at hroom
    exact Nat.le_of_not_lt hroom
  obtain ⟨found, wait, hperm, hadds⟩ := addReads_eq s.packets.length (r.pktCount P.burstBits)
    (v := {}) hfound hfits (.inl rfl)
  have heq : MemCtrl.addToReadQueue r s
      = finishRead s.packets.length (r.pktCount P.burstBits)
        ⟨found.length, if wait ≠ [] ∧ 1 < r.pktCount P.burstBits then some s.packets.length
          else none⟩
        ((s.accept r).enqueue s.packets.length (r.pktCount P.burstBits) found wait) := by
    simp [MemCtrl.addToReadQueue, hadds, hcount]
  rw [heq]
  by_cases hwait : wait = []
  · rw [hwait, append_nil] at hperm
    rw [hwait]
    exact finishRead_all h hperm
  · simp only [hwait, ne_eq, not_false_eq_true, true_and]
    exact finishRead_some h hperm hwait

/-- Answering a sub-request keeps the accounts. -/
theorem State.Inv.processRespondEvent :
  ∃ t, processRespondEvent s = .ok t ∧ t.Inv
  := by
  rw [MemCtrl.processRespondEvent]
  cases hresp : s.respQueue with
  | nil => exact ⟨s, rfl, h⟩
  | cons m l =>
    have hqueued : s.queued = m ::ₘ (↑s.readQueue + ↑l) := by
      rw [queued, hresp, ← Multiset.cons_coe, Multiset.add_cons]
    have hserviced : (↑(s.serviced ++ [(m.pkt, m.piece)]) : Multiset (ℕ × Piece))
        = (m.pkt, m.piece) ::ₘ ↑s.serviced := by
      rw [← Multiset.coe_add, Multiset.coe_singleton, ← Multiset.singleton_add, add_comm]
    have haccounts := h.accounts
    rw [hqueued] at haccounts
    have hwaiting := waitingIn_cons m (↑s.readQueue + ↑l) m.pkt
    rw [if_pos rfl] at hwaiting
    simp only [serviceBurst]
    rcases haccounts.helper m (Multiset.mem_cons_self m _) with
      ⟨hnone, hone⟩ | ⟨hsome, n, k, hhelper, hsum⟩
    · rw [hwaiting, Multiset.card_cons] at hone
      have hlast := Multiset.card_eq_zero.mp (Nat.succ.inj hone)
      rw [hnone]
      refine ⟨_, rfl, h.merged, ?_⟩
      have hdone := haccounts.service_last hlast (fun i _ => rfl)
      rwa [← hserviced] at hdone
    · rw [hwaiting, Multiset.card_cons] at hsum
      rw [hsome]
      simp only [hhelper, deref, ok_bind]
      by_cases hn : k + 1 = n
      · have hlast : waitingIn (↑s.readQueue + ↑l) m.pkt = 0 := by
          apply Multiset.card_eq_zero.mp
          omega
        rw [if_pos hn]
        refine ⟨_, rfl, h.merged, ?_⟩
        have hdone := haccounts.service_last hlast (fun i hi => update_of_ne hi none s.helpers)
        rwa [← hserviced] at hdone
      · have hmore : waitingIn (↑s.readQueue + ↑l) m.pkt ≠ 0 := by
          intro hzero
          rw [hzero, Multiset.card_zero] at hsum
          omega
        rw [if_neg hn]
        refine ⟨_, rfl, h.merged, ?_⟩
        have hdone := haccounts.service_more hmore hhelper
        rwa [← hserviced] at hdone

end

/-- Issuing a read moves its entry to the response queue. -/
theorem queued_issueRead (s : State P) (i : ℕ) :
  (s.issueRead i).queued = s.queued
  := by
  unfold issueRead
  cases hi : s.readQueue[i]? with
  | none => rfl
  | some m =>
    obtain ⟨hlt, hm⟩ := List.getElem?_eq_some_iff.mp hi
    have hperm := getElem_cons_eraseIdx_perm hlt
    rw [hm] at hperm
    simp only [queued, ← Multiset.coe_add, Multiset.coe_singleton]
    rw [← Multiset.coe_eq_coe.mpr hperm, ← Multiset.cons_coe, Multiset.cons_add,
      ← add_assoc, ← Multiset.singleton_add, add_comm]

theorem State.Inv.issueRead (h : s.Inv) (i : ℕ) :
  (s.issueRead i).Inv
  := by
  have hqueued := queued_issueRead s i
  unfold State.issueRead at hqueued ⊢
  cases hi : s.readQueue[i]? with
  | none => exact h
  | some m =>
    rw [hi] at hqueued
    refine ⟨h.merged, ?_⟩
    exact hqueued.symm ▸ h.accounts

/-- The packets of an event are cut right. -/
def Event.Proper : Event P → Prop
  | .read r => MemCtrl.Proper P r
  | .write _ r => MemCtrl.Proper P r
  | _ => True

instance : ∀ e : Event P, Decidable e.Proper
  | .read r => inferInstanceAs (Decidable (MemCtrl.Proper P r))
  | .write _ r => inferInstanceAs (Decidable (MemCtrl.Proper P r))
  | .issueRead _ => .isTrue trivial
  | .issueWrite _ => .isTrue trivial
  | .respond => .isTrue trivial

/-- Every event with a packet that is cut right is handled without a fault and keeps the
accounts. -/
theorem State.Inv.step (h : s.Inv) {e : Event P} (he : e.Proper) :
  ∃ t, step e s = .ok t ∧ t.Inv
  := by
  cases e with
  | read r =>
    rw [MemCtrl.step, recvTimingReq]
    cases hfull : s.readQueueFull (r.pktCount P.burstBits) with
    | true => exact ⟨s, rfl, h⟩
    | false => exact h.addToReadQueue he hfull
  | write q r =>
    rw [MemCtrl.step, recvTimingReq]
    cases hfull : s.writeQueueFull (r.pktCount P.burstBits) with
    | true => exact ⟨s, rfl, h⟩
    | false =>
      obtain ⟨writes, hadd, hcounted, hmem⟩ :=
        h.merged.addToWriteQueue q (Writes.room_of_writeQueueFull hfull)
      refine ⟨_, bind_eq_ok.mpr ⟨writes, hadd, rfl⟩, ⟨hcounted, ?_⟩, h.accounts⟩
      intro w hw
      rcases hmem w hw with hw | hw
      · exact h.merged.within w hw
      · exact (MemCtrl.Proper.mem he hw).2
  | issueRead i => exact ⟨_, rfl, h.issueRead i⟩
  | issueWrite i =>
    refine ⟨_, rfl, ⟨h.merged.issue i, ?_⟩, h.accounts⟩
    intro w hw
    exact h.merged.within w (Writes.mem_of_mem_issue hw)
  | respond => exact h.processRespondEvent

/-- The sub-requests of a packet are non-empty, lie each within one burst and partition the packet
exactly if the packet is cut right. In every run of the controller whose packets have their
sub-requests counted without overflow and have no byte in the last burst of the address space, no
assertion fails, and in every state on the way every packet that has been accepted has been
answered exactly once if none of its sub-requests waits, and not at all otherwise. -/
theorem reads_answered_once (P : Params) :
  (∀ r : Region, Tiles P.burstBits r.addr r.size (r.subRequests P.burstBits)
      ↔ r.CutRight P.burstBits)
    ∧ ∀ events : List (Event P), (∀ e ∈ events, e.Proper)
      → Always step State.Consistent events ({} : State P)
  := by
  constructor
  · exact Region.tiles_subRequests_iff P.burstBits_le
  · intro events hevents
    apply Always.mono (P := State.Inv) (fun s h => h.consistent)
    exact always_of_forall (fun s e h he => h.step he) State.Inv.initial hevents

/-- A controller with bursts of 64 bytes, room for 4 reads and 4 writes, and 2 priorities. -/
def example64 : Params := ⟨6, 4, 4, 2, by decide⟩

/-- A write of the first burst of a read of two bursts, the read, and the answer of its other
burst. -/
theorem reads_answered_once_split :
  Always step State.Consistent
    [.write ⟨0, by decide⟩ ⟨0, 64, by decide, by decide, by decide⟩,
      .read ⟨32, 64, by decide, by decide, by decide⟩, .issueRead 0, .respond]
    ({} : State example64)
  := by
  apply (reads_answered_once example64).2
  decide

/-- A read of 8 bytes at the start of the last burst of the address space is served as a read of
64 bytes: the end of the burst is computed as 0. A read of `2 ^ 32 - 1` bytes has no sub-request at
all, and the assertion in `addToReadQueue` fails. -/
theorem subRequests_wrong :
  Region.subRequests 6 ⟨2 ^ 64 - 64, 8, by decide, by decide, by decide⟩ = [⟨2 ^ 64 - 64, 64⟩]
    ∧ ¬Tiles 6 (2 ^ 64 - 64) 8
      (Region.subRequests 6 ⟨2 ^ 64 - 64, 8, by decide, by decide, by decide⟩)
    ∧ addToReadQueue ⟨0, 2 ^ 32 - 1, by decide, by decide, by decide⟩ ({} : State example64)
      = .error .assertion
  := by
  have hcount : Region.pktCount example64.burstBits
      ⟨0, 2 ^ 32 - 1, by decide, by decide, by decide⟩ = 0 := by decide
  refine ⟨by decide, by decide, ?_⟩
  rw [addToReadQueue, hcount]
  rfl

end Gem5Arc.MemCtrl
