import Gem5Arc.Lib.Run
import Gem5Arc.Ruby.BufferSteps

/-!
# The order of delivery

A run of a buffer whose messages arrive in the order in which they are enqueued, which is what the
check of a strict buffer enforces. Next to the buffer it keeps what has been sent, the newest
first, and the messages that have been delivered.

In every state of such a run no message is lost or duplicated, and the message that is dequeued
next has the smallest number of all messages in the heap. A message that was stalled keeps its
time and its number, so when it is put back it is not overtaken by a later one (`delivery_inOrder`).
-/

namespace Gem5Arc

open List Message StallMsgMap

variable {M : Type}

/-- What a message keeps from when it is enqueued until it is delivered: its number, the time of
its arrival, and its payload. -/
def Message.stamp (m : Message M) : ℕ × Tick × M := (m.msgCounter, m.lastEnqueueTime, m.payload)

/-- A buffer, with what has been sent and delivered. -/
structure Traffic (M : Type) where
  buffer : MessageBuffer M := {}
  /-- The stamps of the messages that have been enqueued, the newest first. -/
  sent : List (ℕ × Tick × M) := []
  delivered : List (Message M) := []

namespace Traffic

open Lib MessageBuffer

variable (H : HeapOps (Message.gt (M := M))) (p : BufferParams)

def heap (s : Traffic M) : List (Message M) := s.buffer.prioHeap

def stalled (s : Traffic M) : List (Message M) := s.buffer.stallMsgMap.messages

/-- A call that returns. Messages arrive in the order in which they are enqueued. -/
inductive Step : Traffic M → Op M → Traffic M → Prop
  | enqueue {s : Traffic M} {m : Message M} {a : EnqueueArgs} {b : MessageBuffer M} :
      (∀ x ∈ s.sent, x.2.1 ≤ s.buffer.arrivalTime p a) → s.buffer.enqueue H p m a = .ok b →
      Step s (.enqueue m a)
        { s with
          buffer := b
          sent := (s.buffer.msgCounter + 1, s.buffer.arrivalTime p a, m.payload) :: s.sent }
  | dequeue {s : Traffic M} {now : Tick} {m : Message M} {b : MessageBuffer M} :
      s.buffer.dequeue H p now = .ok (m, b) →
      Step s (.dequeue now) { s with buffer := b, delivered := m :: s.delivered }
  | stallMessage {s : Traffic M} {addr : Addr} {now : Tick} {b : MessageBuffer M} :
      s.buffer.stallMessage H p addr now = .ok b →
      Step s (.stallMessage addr now) { s with buffer := b }
  | reanalyzeMessages {s : Traffic M} {addr : Addr} {now : Tick} {b : MessageBuffer M} :
      s.buffer.reanalyzeMessages H addr now = .ok b →
      Step s (.reanalyzeMessages addr now) { s with buffer := b }
  | reanalyzeAllMessages {s : Traffic M} {now : Tick} {b : MessageBuffer M} :
      s.buffer.reanalyzeAllMessages H now = .ok b →
      Step s (.reanalyzeAllMessages now) { s with buffer := b }

/-- The states of the runs that start with a new buffer. -/
def Reachable (s : Traffic M) : Prop := Lib.Reachable (Step H p) {} s

variable {H p} {s t : Traffic M} {op : Op M}

/-! ### One call -/

/-- What a call does to the messages: one arrives, the first one is delivered or stalled, or
stalled ones are put back. -/
inductive Effect (s t : Traffic M) : Prop
  | arrive (m : Message M) : t.heap.Perm (m :: s.heap) → t.stalled = s.stalled →
      t.delivered = s.delivered → (∀ x ∈ s.sent, x.2.1 ≤ m.lastEnqueueTime) →
      m.msgCounter = s.buffer.msgCounter + 1 → t.buffer.msgCounter = s.buffer.msgCounter + 1 →
      t.sent = m.stamp :: s.sent → Effect s t
  | deliver (m m' : Message M) : s.heap.head? = some m → s.heap.Perm (m :: t.heap) →
      m'.stamp = m.stamp → t.stalled = s.stalled → t.delivered = m' :: s.delivered →
      t.buffer.msgCounter = s.buffer.msgCounter → t.sent = s.sent → Effect s t
  | stall (m m' : Message M) : s.heap.head? = some m → s.heap.Perm (m :: t.heap) →
      m'.stamp = m.stamp → t.stalled.Perm (m' :: s.stalled) → t.delivered = s.delivered →
      t.buffer.msgCounter = s.buffer.msgCounter → t.sent = s.sent → Effect s t
  | putBack (l : List (Message M)) : t.heap.Perm (l ++ s.heap) → s.stalled.Perm (l ++ t.stalled) →
      t.delivered = s.delivered → t.buffer.msgCounter = s.buffer.msgCounter → t.sent = s.sent →
      Effect s t

theorem Step.effect (h : Step H p s op t) (hheap : IsHeap gt s.heap) :
  IsHeap gt t.heap ∧ Effect s t
  := by
  cases h with
  | enqueue horder h =>
    obtain ⟨b, hinsert, h⟩ := bind_eq_ok.mp h
    obtain ⟨-, h⟩ := assert_bind_eq_ok.mp h
    cases h
    cases insert_eq_ok hinsert
    refine ⟨H.isHeap_pushHeap hheap _, ?_⟩
    exact Effect.arrive _ (H.pushHeap_perm hheap _) rfl rfl horder rfl rfl rfl
  | @dequeue now _ _ h =>
    obtain ⟨-, m₀, hm₀, rfl, rfl⟩ := dequeue_eq_ok h
    obtain ⟨hheap', hperm⟩ := H.popHeap_spec hheap hm₀
    refine ⟨hheap', ?_⟩
    exact Effect.deliver m₀ (delayed now m₀) hm₀ hperm rfl rfl rfl rfl rfl
  | @stallMessage _ now _ h =>
    obtain ⟨m, b₁, hdequeue, rfl⟩ := stallMessage_eq_ok h
    obtain ⟨-, m₀, hm₀, rfl, rfl⟩ := dequeue_eq_ok hdequeue
    obtain ⟨hheap', hperm⟩ := H.popHeap_spec hheap hm₀
    refine ⟨hheap', ?_⟩
    exact Effect.stall m₀ (delayed now m₀) hm₀ hperm rfl (messages_pushBack ..) rfl
      rfl rfl
  | reanalyzeMessages h =>
    obtain ⟨l, heap, hfind, hheap', hperm, rfl⟩ := reanalyzeMessages_eq_ok hheap h
    refine ⟨hheap', ?_⟩
    exact Effect.putBack l hperm (messages_erase hfind) rfl rfl rfl
  | reanalyzeAllMessages h =>
    obtain ⟨heap, hheap', hperm, rfl⟩ := reanalyzeAllMessages_eq_ok hheap h
    refine ⟨hheap', ?_⟩
    refine Effect.putBack _ hperm ?_ rfl rfl rfl
    rw [stalled, stalled, messages, messages, flatMap_nil, append_nil]

/-! ### The invariant -/

/-- All messages that are not lost. -/
def messages (s : Traffic M) : List (Message M) := s.heap ++ s.stalled ++ s.delivered

/-- The heap is one, the messages are those that have been sent, and their numbers and times
increase. -/
structure Sound (s : Traffic M) : Prop where
  heap : IsHeap Message.gt s.heap
  conserved : (s.messages.map Message.stamp).Perm s.sent
  increasing : s.sent.Pairwise fun x y => y.1 < x.1 ∧ y.2.1 ≤ x.2.1
  bounded : ∀ x ∈ s.sent, x.1 ≤ s.buffer.msgCounter

theorem Effect.conserved (h : Effect s t) (hs : (s.messages.map stamp).Perm s.sent) :
  (t.messages.map stamp).Perm t.sent
  := by
  cases h with
  | arrive m hheap hstalled hdelivered _ _ _ hsent =>
    rw [hsent, messages, hstalled, hdelivered]
    apply (((hheap.append_right _).append_right _).map _).trans
    apply hs.cons
  | deliver m m' _ hheap hstamp hstalled hdelivered _ hsent =>
    rw [hsent, messages, hstalled, hdelivered]
    apply List.Perm.trans _ hs
    apply (perm_middle.map _).trans
    rw [map_cons, hstamp, ← map_cons]
    apply List.Perm.map
    apply ((hheap.append_right _).append_right _).symm
  | stall m m' _ hheap hstamp hstalled hdelivered _ hsent =>
    rw [hsent, messages, hdelivered]
    apply List.Perm.trans _ hs
    apply (((hstalled.append_left _).append_right _).map _).trans
    apply ((perm_middle.append_right _).map _).trans
    rw [cons_append, map_cons, hstamp, ← map_cons]
    apply List.Perm.map
    apply ((hheap.append_right _).append_right _).symm
  | putBack l hheap hstalled hdelivered _ hsent =>
    rw [hsent, messages, hdelivered]
    apply List.Perm.trans _ hs
    apply List.Perm.map
    apply List.Perm.append_right
    apply (hheap.append_right _).trans
    apply List.Perm.trans _ (hstalled.append_left _).symm
    rw [← append_assoc]
    apply perm_append_comm.append_right

theorem Sound.step (hs : Sound s) (h : Step H p s op t) :
  Sound t
  := by
  obtain ⟨hheap, heffect⟩ := h.effect hs.heap
  have hconserved := heffect.conserved hs.conserved
  cases heffect with
  | arrive m _ _ _ horder hnumber hcounter hsent =>
    refine ⟨hheap, hconserved, ?_, ?_⟩
    · rw [hsent, pairwise_cons]
      refine ⟨?_, hs.increasing⟩
      intro x hx
      refine ⟨?_, horder x hx⟩
      rw [stamp, hnumber]
      apply Nat.lt_succ_of_le (hs.bounded x hx)
    · intro x hx
      rw [hsent] at hx
      rw [hcounter]
      rcases mem_cons.mp hx with rfl | hx
      · apply hnumber.le
      · apply Nat.le_succ_of_le (hs.bounded x hx)
  | deliver _ _ _ _ _ _ _ hcounter hsent | stall _ _ _ _ _ _ _ hcounter hsent
  | putBack _ _ _ _ hcounter hsent =>
    refine ⟨hheap, hconserved, ?_, ?_⟩
    · rw [hsent]
      apply hs.increasing
    · rw [hsent, hcounter]
      apply hs.bounded

theorem Reachable.sound (h : Reachable H p s) :
  Sound s
  := by
  apply Lib.Reachable.invariant _ h
  · exact ⟨isHeap_nil, List.Perm.refl _, List.Pairwise.nil, by simp⟩
  · intro s op t hs hstep
    apply hs.step hstep

/-! ### Order -/

/-- Of two messages that have been sent, the one with the smaller number does not arrive later. -/
theorem Sound.time_le (hs : Sound s) {x y : ℕ × Tick × M} (hx : x ∈ s.sent) (hy : y ∈ s.sent)
    (hlt : x.1 < y.1) :
  x.2.1 ≤ y.2.1
  := by
  obtain ⟨l, m, hsent⟩ := append_of_mem hy
  have hincreasing := hs.increasing
  rw [hsent] at hx hincreasing
  obtain ⟨-, hright, hcross⟩ := pairwise_append.mp hincreasing
  rcases mem_append.mp hx with hx | hx
  · have hgt := (hcross x hx y (mem_cons_self ..)).1
    omega
  · rcases mem_cons.mp hx with rfl | hx
    · apply le_refl
    · apply ((pairwise_cons.mp hright).1 x hx).2

variable {m m' : Message M}

theorem Sound.stamp_mem (hs : Sound s) (hm : m ∈ s.heap) :
  m.stamp ∈ s.sent
  := by
  apply hs.conserved.mem_iff.mp
  apply mem_map_of_mem
  apply mem_append_left
  apply mem_append_left _ hm

/-- The first message of the heap has the smallest number. -/
theorem Sound.smallest (hs : Sound s) (hm : s.heap.head? = some m) (hm' : m' ∈ s.heap) :
  m.msgCounter ≤ m'.msgCounter
  := by
  obtain ⟨l, hl⟩ := head?_eq_some_iff.mp hm
  have hheap := hs.heap
  rw [hl] at hheap
  have hkey : m.key ≤ m'.key := by
    rw [hl] at hm'
    apply hheap.le_of_mem gt_iff hm'
  by_contra hlt
  rw [not_le] at hlt
  have htime := hs.time_le (hs.stamp_mem hm') (hs.stamp_mem (mem_of_mem_head? hm)) hlt
  rcases Prod.Lex.toLex_le_toLex.mp hkey with hless | ⟨-, hcounter⟩
  · apply absurd htime (not_le_of_gt hless)
  · apply absurd hcounter (not_le_of_gt hlt)

/-- The second message does not leave the heap while the first one is there: when it does, there
has been a state in which the first one had left, and the second one had not. -/
def NotOvertaken (H : HeapOps (Message.gt (M := M))) (p : BufferParams) (s : Traffic M)
    (m m' : Message M) : Prop :=
  ∀ l t, Run (Step H p) s l t → m' ∉ t.heap →
    ∃ l₁ l₂ u, l = l₁ ++ l₂ ∧ Run (Step H p) s l₁ u ∧ Run (Step H p) u l₂ t
      ∧ m ∉ u.heap ∧ m' ∈ u.heap

/-- A call does not take a message out of the heap while there is one with a smaller number. -/
theorem Sound.mem_heap (hs : Sound s) (h : Step H p s op t) (hm : m ∈ s.heap) (hm' : m' ∈ s.heap)
    (hlt : m.msgCounter < m'.msgCounter) :
  m' ∈ t.heap
  := by
  have hnot {x : Message M} (hx : s.heap.head? = some x) : m' ≠ x := by
    rintro rfl
    apply absurd (hs.smallest hx hm) (not_le_of_gt hlt)
  cases (h.effect hs.heap).2 with
  | arrive x hheap => apply hheap.mem_iff.mpr (mem_cons_of_mem _ hm')
  | deliver x _ hx hheap | stall x _ hx hheap =>
    apply (mem_cons.mp (hheap.mem_iff.mp hm')).resolve_left (hnot hx)
  | putBack l hheap => apply hheap.mem_iff.mpr (mem_append_right _ hm')

theorem Sound.notOvertaken (hs : Sound s) (hm : m ∈ s.heap) (hm' : m' ∈ s.heap)
    (hlt : m.msgCounter < m'.msgCounter) :
  NotOvertaken H p s m m'
  := by
  intro l t hrun hgone
  induction hrun with
  | nil => apply absurd hm' hgone
  | @cons s u t op l hstep hrun ih =>
    have hu' := hs.mem_heap hstep hm hm' hlt
    by_cases hu : m ∈ u.heap
    · obtain ⟨l₁, l₂, v, rfl, hleft, hright, hv⟩ := ih (hs.step hstep) hu hu' hgone
      exact ⟨op :: l₁, l₂, v, rfl, Run.cons hstep hleft, hright, hv⟩
    · exact ⟨[op], l, u, rfl, Run.single hstep, hrun, hu, hu'⟩

/-- What holds of a buffer, what has been sent, and what has been delivered. -/
structure Delivers (H : HeapOps (Message.gt (M := M))) (p : BufferParams) (s : Traffic M) :
    Prop where
  /-- Each message that has been sent is in the heap, stalled or delivered, and just once. -/
  conserved : (s.messages.map Message.stamp).Perm s.sent
  distinct : (s.sent.map Prod.fst).Nodup
  /-- The message that is dequeued has the smallest number of those in the heap. -/
  smallest : ∀ now m b, s.buffer.dequeue H p now = .ok (m, b) →
    (∃ m₀ ∈ s.heap, m₀.stamp = m.stamp) ∧ ∀ m' ∈ s.heap, m.msgCounter ≤ m'.msgCounter
  /-- All stalled messages of an address are put back. -/
  reanalyzed : ∀ addr now l b, s.buffer.stallMsgMap.find addr = some l →
    s.buffer.reanalyzeMessages H addr now = .ok b → ∀ m ∈ l, m ∈ b.prioHeap
  /-- A stalled message that is put back is not overtaken by one with a greater number. -/
  putBack : ∀ op t, Step H p s op t → ∀ m ∈ s.stalled, m ∈ t.heap → ∀ m' ∈ t.heap,
    m.msgCounter < m'.msgCounter → NotOvertaken H p t m m'

/-- In every state of a run, messages are delivered in order. -/
theorem delivery_inOrder (h : Reachable H p s) :
  Delivers H p s
  := by
  have hs := h.sound
  constructor
  · apply hs.conserved
  · apply pairwise_map.mpr
    apply hs.increasing.imp
    intro x y hxy
    apply hxy.1.ne'
  · intro now m b hdequeue
    obtain ⟨-, m₀, hm₀, rfl, -⟩ := dequeue_eq_ok hdequeue
    refine ⟨⟨m₀, mem_of_mem_head? hm₀, rfl⟩, ?_⟩
    intro m' hm'
    apply hs.smallest hm₀ hm'
  · intro addr now l b hfind hreanalyze m hm
    obtain ⟨l', heap, hfind', -, hperm, rfl⟩ := reanalyzeMessages_eq_ok hs.heap hreanalyze
    rw [hfind] at hfind'
    cases hfind'
    apply hperm.mem_iff.mpr (mem_append_left _ hm)
  · intro op t hstep m _ hm m' hm' hlt
    apply (hs.step hstep).notOvertaken hm hm' hlt

/-- Two messages, of which the first one is stalled and put back. -/
theorem delivery_inOrder_two :
  ∃ s, Reachable (binaryHeap Message.gt_iff) ⟨0, 0, true, .disabled, false⟩ s
    ∧ s.heap.map Message.payload = ["first", "second"]
    ∧ Delivers (binaryHeap Message.gt_iff) ⟨0, 0, true, .disabled, false⟩ s
  := by
  have hs : Reachable (binaryHeap gt_iff) ⟨0, 0, true, .disabled, false⟩ _ :=
    ⟨[.enqueue ⟨"first", 0, 0, 0⟩ { currentTime := 1, delta := 1 },
        .enqueue ⟨"second", 0, 0, 0⟩ { currentTime := 1, delta := 1 }, .stallMessage 0 2,
        .reanalyzeMessages 0 3],
      .cons (.enqueue (by simp) rfl) (.cons (.enqueue (by simp [arrivalTime, isRandom]) rfl)
        (.cons (.stallMessage rfl) (.cons (.reanalyzeMessages rfl) (.nil _))))⟩
  exact ⟨_, hs, rfl, delivery_inOrder hs⟩

end Traffic

end Gem5Arc
