import Gem5Arc.Lib.Run
import Gem5Arc.Ruby.BufferSteps

/-!
# The capacity of a message buffer

A sender asks `areNSlotsAvailable` before it enqueues messages, and `enqueue` asserts that they
fit. The answer is not about the messages that are in the buffer: messages dequeued in the current
cycle still count. `shownSize` is the number it is about, and it is never less than the number of
messages (`Bounded.shown`).

The sums are sums of `unsigned int`, and they wrap around. As long as they do not, the answer can
be relied on: the messages the sender asked for fit, whatever else happens in the cycle
(`enqueue_fits`). If they do, it cannot (`enqueue_does_not_fit`).
-/

namespace Gem5Arc

open BitVec Message

variable {M : Type} {a : EnqueueArgs}

namespace MessageBuffer

open Lib

/-- The call enqueues a message. -/
def Op.isEnqueue : Op M → Bool
  | .enqueue _ _ => true
  | _ => false

/-- The count of messages in the cycle does not wrap around. -/
def Op.NoWrap : Op M → MessageBuffer M → Prop
  | .enqueue _ a, b =>
    b.timeLastTimeEnqueue < a.currentTime ∨ b.msgsThisCycle.toNat + 1 < 2 ^ 32
  | _, _ => True

variable (H : HeapOps (Message.gt (M := M))) (p : BufferParams)

/-- A call that returns. Time does not go back, and the count of messages does not wrap around. -/
def Step (s : Tick × MessageBuffer M) (op : Op M) (t : Tick × MessageBuffer M) : Prop :=
  s.1 ≤ op.time ∧ op.NoWrap s.2 ∧ call H p op s.2 = .ok t.2 ∧ t.1 = op.time

/-- The buffer after a call, if `enqueue` did not check that the message fits. -/
def callUnchecked : Op M → MessageBuffer M → Except Fault (MessageBuffer M)
  | .enqueue m a, b => b.insert H p m a
  | op, b => call H p op b

/-- A call at the time `now` that returns, if `enqueue` did not check that the message fits. -/
def Within (now : Tick) (b : MessageBuffer M) (op : Op M) (b' : MessageBuffer M) : Prop :=
  op.time = now ∧ callUnchecked H p op b = .ok b'

/-- The number of messages that `areNSlotsAvailable` takes to be in the buffer. -/
def shownSize (now : Tick) (b : MessageBuffer M) : ℕ :=
  if b.timeLastTimePop < now then b.prioHeap.length + b.stallMapSize.toNat
  else b.sizeAtCycleStart.toNat + b.stalledAtCycleStart.toNat
    + if b.timeLastTimeEnqueue < now then 0 else b.msgsThisCycle.toNat

variable {H p} {b b' : MessageBuffer M} {now : Tick} {op : Op M}

/-! ### What the answer means -/

/-- If the sum does not wrap around, the answer is about the size that is shown. -/
theorem areNSlotsAvailable_iff {n : BitVec 32} (hp : p.maxSize ≠ 0) (hstall : 0 ≤ b.stallMapSize)
    (hwrap : b.shownSize now + n.toNat < 2 ^ 32) :
  b.areNSlotsAvailable p n now = true ↔ b.shownSize now + n.toNat ≤ p.maxSize.toNat
  := by
  have hsum : (b.currentSize now + b.currentStallSize now + n).toNat
      = b.shownSize now + n.toNat := by
    rw [toNat_add, toNat_add, currentSize, currentStallSize]
    rw [shownSize] at hwrap ⊢
    split_ifs at hwrap ⊢
    · rw [toNat_ofNat, toNat_ofInt]
      omega
    · omega
    · rw [toNat_add]
      omega
  rw [areNSlotsAvailable, if_neg hp, decide_eq_true_iff, le_def, hsum]

/-! ### The invariant -/

/-- The number of stalled messages is right, the buffer has no more messages than it may have and
than it shows, and nothing has happened after the current time. -/
structure Bounded (p : BufferParams) (now : Tick) (b : MessageBuffer M) : Prop where
  heap : IsHeap Message.gt b.prioHeap
  stalled : b.stallMapSize = b.stallMsgMap.messages.length
  fits : b.size ≤ p.maxSize.toNat
  pop : b.timeLastTimePop ≤ now
  enqueue : b.timeLastTimeEnqueue ≤ now
  shown : b.size ≤ b.shownSize now

/-- When time goes on, all messages that are in the buffer are shown. -/
theorem Bounded.mono {now' : Tick} (h : Bounded p now b) (hle : now ≤ now') :
  Bounded p now' b
  := by
  refine ⟨h.heap, h.stalled, h.fits, h.pop.trans hle, h.enqueue.trans hle, ?_⟩
  rcases hle.eq_or_lt with rfl | hlt
  · apply h.shown
  · have hstalled := h.stalled
    rw [shownSize, if_pos (lt_of_le_of_lt h.pop hlt), size]
    omega

/-- What a call does to the number of messages. -/
structure SizeStep (op : Op M) (b b' : MessageBuffer M) : Prop where
  heap : IsHeap Message.gt b'.prioHeap
  stalled : b'.stallMapSize = b'.stallMsgMap.messages.length
  size : b'.size ≤ b.size ∨ op.isEnqueue = true ∧ b'.size = b.size + 1

theorem SizeStep.size_le (h : SizeStep op b b') (hop : op.isEnqueue = false) :
  b'.size ≤ b.size
  := by
  rcases h.size with hle | ⟨henqueue, -⟩
  · apply hle
  · rw [hop] at henqueue
    cases henqueue

variable {m : Message M} {l : List (Op M)}

/-- Dequeuing takes out one message. -/
theorem size_dequeue (hheap : IsHeap gt b.prioHeap) (h : b.dequeue H p now = .ok (m, b')) :
  IsHeap gt b'.prioHeap ∧ b'.stallMsgMap = b.stallMsgMap
    ∧ b'.stallMapSize = b.stallMapSize ∧ b'.size + 1 = b.size
  := by
  obtain ⟨-, m₀, hm₀, -, rfl⟩ := dequeue_eq_ok h
  obtain ⟨hheap', hperm⟩ := H.popHeap_spec hheap hm₀
  refine ⟨hheap', rfl, rfl, ?_⟩
  rw [size, size, hperm.length_eq, List.length_cons]
  dsimp only [countDequeue]
  omega

/-- Reanalyzing moves messages, and does not change their number. -/
theorem size_restock {heap l : List (Message M)} (hperm : heap.Perm (l ++ b.prioHeap))
    (hheap : b'.prioHeap = heap) (hstall : b'.stallMapSize = b.stallMapSize - l.length) :
  b'.size = b.size
  := by
  have hlength := hperm.length_eq
  rw [List.length_append] at hlength
  rw [size, size, hheap, hstall, hlength]
  omega

section SizeStep

variable (hheap : IsHeap Message.gt b.prioHeap)
    (hstalled : b.stallMapSize = b.stallMsgMap.messages.length)

include hheap hstalled

variable {addr : Addr}

theorem insert_sizeStep (h : b.insert H p m a = .ok b') :
  SizeStep (.enqueue m a) b b'
  := by
  obtain rfl := insert_eq_ok h
  refine ⟨H.isHeap_pushHeap hheap _, hstalled, .inr ⟨rfl, ?_⟩⟩
  rw [size, size, (H.pushHeap_perm hheap _).length_eq, List.length_cons]
  dsimp only [countMessage]
  omega

theorem dequeue_sizeStep (h : b.dequeue H p now = .ok (m, b')) :
  SizeStep (.dequeue now) b b'
  := by
  obtain ⟨hheap', hmap, hstall, hsize⟩ := size_dequeue hheap h
  refine ⟨hheap', ?_, ?_⟩
  · rw [hmap, hstall, hstalled]
  · left
    omega

theorem recycle_sizeStep {latency : Tick} (h : b.recycle H p now latency = .ok b') :
  SizeStep (.recycle now latency) b b'
  := by
  obtain ⟨m, hm, rfl⟩ := recycle_eq_ok h
  obtain ⟨hheap', hperm⟩ := H.popHeap_spec hheap hm
  refine ⟨H.isHeap_pushHeap hheap' _, hstalled, .inl (le_of_eq ?_)⟩
  rw [size, size, (H.pushHeap_perm hheap' _).length_eq, hperm.length_eq]
  rfl

theorem stallMessage_sizeStep (h : b.stallMessage H p addr now = .ok b') :
  SizeStep (.stallMessage addr now) b b'
  := by
  obtain ⟨m, b₁, hdequeue, rfl⟩ := stallMessage_eq_ok h
  obtain ⟨hheap', hmap, hstall, hsize⟩ := size_dequeue hheap hdequeue
  have hlength := (StallMsgMap.messages_pushBack addr m b₁.stallMsgMap).length_eq
  refine ⟨hheap', ?_, ?_⟩
  · dsimp only
    rw [hlength, hmap, hstall, hstalled]
    rfl
  · left
    rw [← hsize, size, size]
    dsimp only
    omega

theorem reanalyzeMessages_sizeStep (h : b.reanalyzeMessages H addr now = .ok b') :
  SizeStep (.reanalyzeMessages addr now) b b'
  := by
  obtain ⟨l, heap, hfind, hheap', hperm, rfl⟩ := reanalyzeMessages_eq_ok hheap h
  have hlength := (StallMsgMap.messages_erase hfind).length_eq
  rw [List.length_append] at hlength
  refine ⟨hheap', ?_, .inl (size_restock hperm rfl rfl).le⟩
  dsimp only [restock]
  omega

theorem reanalyzeAllMessages_sizeStep (h : b.reanalyzeAllMessages H now = .ok b') :
  SizeStep (.reanalyzeAllMessages now) b b'
  := by
  obtain ⟨heap, hheap', hperm, rfl⟩ := reanalyzeAllMessages_eq_ok hheap h
  refine ⟨hheap', ?_, .inl (size_restock hperm rfl rfl).le⟩
  rw [hstalled, Int.sub_self]
  rfl

theorem callUnchecked_sizeStep (h : callUnchecked H p op b = .ok b') :
  SizeStep op b b'
  := by
  cases op with
  | enqueue m a => apply insert_sizeStep hheap hstalled h
  | dequeue now =>
    obtain ⟨⟨m, b₁⟩, hdequeue, rfl⟩ := map_eq_ok.mp h
    apply dequeue_sizeStep hheap hstalled hdequeue
  | recycle now latency => apply recycle_sizeStep hheap hstalled h
  | stallMessage addr now => apply stallMessage_sizeStep hheap hstalled h
  | reanalyzeMessages addr now => apply reanalyzeMessages_sizeStep hheap hstalled h
  | reanalyzeAllMessages now => apply reanalyzeAllMessages_sizeStep hheap hstalled h

theorem call_sizeStep (h : call H p op b = .ok b') :
  SizeStep op b b'
  := by
  apply callUnchecked_sizeStep (H := H) (p := p) hheap hstalled
  cases op with
  | enqueue m a =>
    obtain ⟨b₁, hinsert, h⟩ := bind_eq_ok.mp h
    obtain ⟨-, h⟩ := assert_bind_eq_ok.mp h
    cases h
    apply hinsert
  | _ => apply h

end SizeStep

/-! ### The size that is shown -/

structure SameCounts (b b' : MessageBuffer M) : Prop where
  pop : b'.timeLastTimePop = b.timeLastTimePop
  enqueue : b'.timeLastTimeEnqueue = b.timeLastTimeEnqueue
  size : b'.sizeAtCycleStart = b.sizeAtCycleStart
  stalled : b'.stalledAtCycleStart = b.stalledAtCycleStart
  msgs : b'.msgsThisCycle = b.msgsThisCycle

/-- After a message has been dequeued, the size that is shown depends on the counts only. -/
theorem SameCounts.shownSize (h : SameCounts b b') (hpop : ¬b.timeLastTimePop < now) :
  b'.shownSize now = b.shownSize now
  := by
  rw [MessageBuffer.shownSize, MessageBuffer.shownSize, h.pop, if_neg hpop, if_neg hpop, h.enqueue,
    h.size, h.stalled, h.msgs]

/-- If no message has been dequeued, the size that is shown is right. -/
theorem shownSize_of_lt (hpop : b.timeLastTimePop < now)
    (hstalled : b.stallMapSize = b.stallMsgMap.messages.length) :
  b.shownSize now = b.size
  := by
  rw [shownSize, if_pos hpop, size]
  omega

/-- A message that is enqueued is shown at once. -/
theorem shownSize_countMessage
    (hwrap : b.timeLastTimeEnqueue < now ∨ b.msgsThisCycle.toNat + 1 < 2 ^ 32)
    (hpop : ¬b.timeLastTimePop < now) :
  (b.countMessage now).shownSize now = b.shownSize now + 1
  := by
  rw [shownSize, shownSize, countMessage]
  rw [if_neg hpop, if_neg hpop]
  by_cases hfirst : b.timeLastTimeEnqueue < now
  · rw [if_pos hfirst, if_pos hfirst, if_pos hfirst, if_neg (Nat.lt_irrefl now)]
    rfl
  · have hcount : (b.msgsThisCycle + 1).toNat = b.msgsThisCycle.toNat + 1 := by
      apply Nat.mod_eq_of_lt (hwrap.resolve_left hfirst)
    rw [if_neg hfirst, if_neg hfirst, if_neg hfirst, if_neg hfirst, hcount]
    rfl

/-- Messages that are dequeued are shown until the end of the cycle. -/
theorem size_le_shownSize_countDequeue (h : Bounded p now b) :
  b.size ≤ (b.countDequeue now).shownSize now
  := by
  by_cases hpop : b.timeLastTimePop < now
  · have hfits := h.fits
    have hstalled := h.stalled
    rw [size] at hfits ⊢
    have hlength : (BitVec.ofNat 32 b.prioHeap.length).toNat = b.prioHeap.length := by
      rw [toNat_ofNat]
      omega
    have hstall : (BitVec.ofInt 32 b.stallMapSize).toNat = b.stallMapSize.toNat := by
      rw [toNat_ofInt]
      omega
    rw [shownSize, countDequeue]
    simp only [if_pos hpop, if_neg (Nat.lt_irrefl now), hlength, hstall]
    omega
  · have hsame : SameCounts b (b.countDequeue now) := by
      constructor
      all_goals simp [countDequeue, hpop]
    rw [hsame.shownSize hpop]
    apply h.shown

/-! ### Every call keeps the bounds -/

/-- A call that dequeues a message. -/
theorem Bounded.countDequeue (hb : Bounded p now b) (hstep : SizeStep op b b')
    (hop : op.isEnqueue = false) (hsame : SameCounts (b.countDequeue now) b') :
  Bounded p now b'
  := by
  have hsize := hstep.size_le hop
  have hpop : (b.countDequeue now).timeLastTimePop = now := by
    rw [MessageBuffer.countDequeue]
    split_ifs with hlt
    · rfl
    · apply le_antisymm hb.pop (not_lt.mp hlt)
  refine ⟨hstep.heap, hstep.stalled, hsize.trans hb.fits, ?_, ?_, ?_⟩
  · rw [hsame.pop, hpop]
  · rw [hsame.enqueue]
    apply hb.enqueue
  · rw [hsame.shownSize (by rw [hpop]; apply lt_irrefl)]
    apply hsize.trans (size_le_shownSize_countDequeue hb)

/-- A call that neither enqueues nor dequeues messages. -/
theorem Bounded.keep (hb : Bounded p now b) (hstep : SizeStep op b b') (hop : op.isEnqueue = false)
    (hsame : SameCounts b b') :
  Bounded p now b'
  := by
  have hsize := hstep.size_le hop
  refine ⟨hstep.heap, hstep.stalled, hsize.trans hb.fits, ?_, ?_, ?_⟩
  · rw [hsame.pop]
    apply hb.pop
  · rw [hsame.enqueue]
    apply hb.enqueue
  · by_cases hpop : b.timeLastTimePop < now
    · rw [← hsame.pop] at hpop
      rw [shownSize_of_lt hpop hstep.stalled]
    · rw [hsame.shownSize hpop]
      apply hsize.trans hb.shown

/-- A message that is enqueued, and fits. -/
theorem Bounded.insert (hb : Bounded p a.currentTime b) (hwrap : Op.NoWrap (.enqueue m a) b)
    (h : b.insert H p m a = .ok b') (hfits : b'.size ≤ p.maxSize.toNat) :
  Bounded p a.currentTime b'
  := by
  have hstep := insert_sizeStep hb.heap hb.stalled h
  have hsize : b'.size ≤ b.size + 1 := by
    rcases hstep.size with hle | ⟨-, heq⟩
    · omega
    · omega
  have hsame : SameCounts (b.countMessage a.currentTime) b' := by
    rw [insert_eq_ok h]
    exact ⟨rfl, rfl, rfl, rfl, rfl⟩
  refine ⟨hstep.heap, hstep.stalled, hfits, ?_, ?_, ?_⟩
  · rw [hsame.pop]
    apply hb.pop
  · rw [hsame.enqueue, countMessage]
    split_ifs
    · apply le_refl
    · apply hb.enqueue
  · by_cases hpop : b.timeLastTimePop < a.currentTime
    · have hpop' : b'.timeLastTimePop < a.currentTime := by
        rw [hsame.pop]
        apply hpop
      rw [shownSize_of_lt hpop' hstep.stalled]
    · have hshown := hb.shown
      rw [hsame.shownSize hpop, shownSize_countMessage hwrap hpop]
      omega

theorem Bounded.step (hp : p.maxSize ≠ 0) (hb : Bounded p op.time b) (hwrap : op.NoWrap b)
    (h : call H p op b = .ok b') :
  Bounded p op.time b'
  := by
  have hstep := call_sizeStep hb.heap hb.stalled h
  cases op with
  | enqueue m a =>
    obtain ⟨b₁, hinsert, h⟩ := bind_eq_ok.mp h
    obtain ⟨hfits, h⟩ := assert_bind_eq_ok.mp h
    cases h
    apply hb.insert hwrap hinsert
    rw [MessageBuffer.fits, Bool.or_eq_true, decide_eq_true_iff, decide_eq_true_iff] at hfits
    apply hfits.resolve_left hp
  | dequeue now =>
    obtain ⟨⟨m, b₁⟩, hdequeue, rfl⟩ := map_eq_ok.mp h
    obtain ⟨-, m₀, -, -, rfl⟩ := dequeue_eq_ok hdequeue
    exact hb.countDequeue hstep rfl ⟨rfl, rfl, rfl, rfl, rfl⟩
  | recycle now latency =>
    obtain ⟨m, -, rfl⟩ := recycle_eq_ok h
    exact hb.keep hstep rfl ⟨rfl, rfl, rfl, rfl, rfl⟩
  | stallMessage addr now =>
    obtain ⟨m, b₁, hdequeue, rfl⟩ := stallMessage_eq_ok h
    obtain ⟨-, m₀, -, -, rfl⟩ := dequeue_eq_ok hdequeue
    exact hb.countDequeue hstep rfl ⟨rfl, rfl, rfl, rfl, rfl⟩
  | reanalyzeMessages addr now =>
    obtain ⟨l, heap, -, -, -, rfl⟩ := reanalyzeMessages_eq_ok hb.heap h
    exact hb.keep hstep rfl ⟨rfl, rfl, rfl, rfl, rfl⟩
  | reanalyzeAllMessages now =>
    obtain ⟨heap, -, -, rfl⟩ := reanalyzeAllMessages_eq_ok hb.heap h
    exact hb.keep hstep rfl ⟨rfl, rfl, rfl, rfl, rfl⟩

theorem Bounded.init (p : BufferParams) :
  Bounded p 0 ({} : MessageBuffer M)
  := ⟨isHeap_nil, rfl, Int.natCast_nonneg _, le_refl 0, le_refl 0, le_refl 0⟩

theorem Bounded.run (hp : p.maxSize ≠ 0) (h : Run (Step H p) (0, {}) l (now, b)) :
  Bounded p now b
  := by
  apply h.invariant (P := fun s => Bounded p s.1 s.2)
  · rintro s op t hs ⟨hle, hwrap, hcall, htime⟩
    rw [htime]
    apply (hs.mono hle).step hp hwrap hcall
  · apply Bounded.init

/-! ### The answer can be relied on -/

/-- The check in `enqueue` is the only difference between the two kinds of calls. -/
theorem call_of_fits (h : callUnchecked H p op b = .ok b') (hfits : b'.fits p = true) :
  call H p op b = .ok b'
  := by
  cases op with
  | enqueue m a =>
    apply bind_eq_ok.mpr
    use b', h
    apply assert_bind_eq_ok.mpr
    use hfits
    rfl
  | _ => apply h

/-- Messages for which there is room fit, whatever else happens. -/
theorem fits_of_room (hheap : IsHeap gt b.prioHeap)
    (hstalled : b.stallMapSize = b.stallMsgMap.messages.length)
    (hroom : b.size + l.countP Op.isEnqueue ≤ p.maxSize.toNat)
    (hrun : Run (Within H p now) b l b') :
  b'.fits p = true ∧ Run (fun b op b' => call H p op b = .ok b') b l b'
  := by
  have hfits : ∀ {c : MessageBuffer M}, c.size ≤ p.maxSize.toNat → c.fits p = true := by
    intro c hc
    rw [fits, Bool.or_eq_true, decide_eq_true_iff, decide_eq_true_iff]
    right
    apply hc
  induction hrun with
  | nil b =>
    use hfits (by simpa using hroom)
    apply Run.nil
  | @cons b c _ op l hcall _ ih =>
    have hstep := callUnchecked_sizeStep hheap hstalled hcall.2
    have hsize : c.size + l.countP Op.isEnqueue ≤ p.maxSize.toNat := by
      rw [List.countP_cons] at hroom
      rcases hstep.size with hle | ⟨henqueue, heq⟩
      · omega
      · rw [if_pos henqueue] at hroom
        omega
    obtain ⟨hlast, hrun⟩ := ih hstep.heap hstep.stalled hsize
    use hlast
    apply Run.cons _ hrun
    apply call_of_fits hcall.2 (hfits (by omega))

/-- If `n` slots are available, then `n` messages can be enqueued in the cycle, in any order with
other calls, and no check fails. -/
theorem enqueue_fits {l l' : List (Op M)} {t : Tick} {n : BitVec 32} (hp : p.maxSize ≠ 0)
    (hrun : Run (Step H p) (0, {}) l (now, b)) (hle : now ≤ t)
    (hwrap : b.shownSize t + n.toNat < 2 ^ 32) (havailable : b.areNSlotsAvailable p n t = true)
    (hcount : l'.countP Op.isEnqueue ≤ n.toNat) (hrun' : Run (Within H p t) b l' b') :
  b'.fits p = true ∧ Run (fun b op b' => call H p op b = .ok b') b l' b'
  := by
  have hb := (Bounded.run hp hrun).mono hle
  have hstalled := hb.stalled
  have hshown := hb.shown
  apply fits_of_room hb.heap hstalled _ hrun'
  have hroom := (areNSlotsAvailable_iff hp (by omega) hwrap).mp havailable
  omega

/-- A buffer for two messages, of which one is taken. -/
theorem enqueue_fits_one :
  ∃ b b' : MessageBuffer String,
    Run (Step (binaryHeap Message.gt_iff) ⟨2, 0, true, .disabled, false⟩) (0, {})
      [.enqueue ⟨"first", 0, 0, 0⟩ { currentTime := 1, delta := 1 }] (1, b)
    ∧ b.areNSlotsAvailable ⟨2, 0, true, .disabled, false⟩ 1 2 = true
    ∧ Run (Within (binaryHeap Message.gt_iff) ⟨2, 0, true, .disabled, false⟩ 2) b
      [.stallMessage 0 2, .enqueue ⟨"second", 0, 0, 0⟩ { currentTime := 2, delta := 1 }] b'
    ∧ b'.fits ⟨2, 0, true, .disabled, false⟩ = true
  := by
  have h : ∃ b b' : MessageBuffer String,
      Run (Step (binaryHeap gt_iff) ⟨2, 0, true, .disabled, false⟩) (0, {})
        [.enqueue ⟨"first", 0, 0, 0⟩ { currentTime := 1, delta := 1 }] (1, b)
      ∧ b.shownSize 2 = 1
      ∧ b.areNSlotsAvailable ⟨2, 0, true, .disabled, false⟩ 1 2 = true
      ∧ Run (Within (binaryHeap gt_iff) ⟨2, 0, true, .disabled, false⟩ 2) b
        [.stallMessage 0 2, .enqueue ⟨"second", 0, 0, 0⟩ { currentTime := 2, delta := 1 }] b' :=
    ⟨_, _, .single ⟨Nat.zero_le 1, .inl Nat.one_pos, rfl, rfl⟩, rfl, rfl,
      .cons ⟨rfl, rfl⟩ (.single ⟨rfl, rfl⟩)⟩
  obtain ⟨b, b', hrun, hshown, havailable, hrun'⟩ := h
  refine ⟨b, b', hrun, havailable, hrun', ?_⟩
  apply (enqueue_fits (by decide) hrun (by decide) _ havailable (by decide) hrun').1
  rw [hshown]
  decide

/-- A full buffer for one message. For 2³² - 1 messages the sum wraps around to 0, and slots are
available. The next message does not fit. -/
theorem enqueue_does_not_fit :
  ∃ b : MessageBuffer String,
    Run (Step (binaryHeap Message.gt_iff) ⟨1, 0, true, .disabled, false⟩) (0, {})
      [.enqueue ⟨"first", 0, 0, 0⟩ { currentTime := 1, delta := 1 }] (1, b)
    ∧ b.areNSlotsAvailable ⟨1, 0, true, .disabled, false⟩ 0xffffffff 1 = true
    ∧ b.enqueue (binaryHeap Message.gt_iff) ⟨1, 0, true, .disabled, false⟩ ⟨"second", 0, 0, 0⟩
        { currentTime := 1, delta := 1 } = .error .assertion
  := ⟨_, .single ⟨Nat.zero_le 1, .inl Nat.one_pos, rfl, rfl⟩, rfl, rfl⟩

end MessageBuffer

end Gem5Arc
