import Gem5Arc.Ruby.MessageBuffer

/-!
# What the calls of a message buffer do

For each call of a buffer, what it has done if it returns.
-/

namespace Gem5Arc

open List Message StallMsgMap

variable {M : Type} {map : StallMsgMap M}

/-! ### The map of stalled messages -/

namespace StallMsgMap

@[simp]
theorem messages_cons (entry : Addr × List (Message M)) (map : StallMsgMap M) :
  messages (entry :: map) = entry.2 ++ messages map
  := flatMap_cons

/-- A stalled message is added to those in the map. -/
theorem messages_pushBack (addr : Addr) (m : Message M) (map : StallMsgMap M) :
  (map.pushBack addr m).messages.Perm (m :: map.messages)
  := by
  induction map with
  | nil => apply List.Perm.refl
  | cons entry map ih =>
    rw [pushBack]
    split_ifs
    · apply List.Perm.refl
    · rw [messages_cons, messages_cons, append_assoc]
      apply perm_middle
    · rw [messages_cons, messages_cons]
      apply (ih.append_left _).trans perm_middle

/-- The messages of an address leave the map, and no others. -/
theorem messages_erase {addr : Addr} {lt : List (Message M)} (h : map.find addr = some lt) :
  map.messages.Perm (lt ++ (map.erase addr).messages)
  := by
  induction map with
  | nil => cases h
  | cons entry map ih =>
    rw [find] at h
    rw [erase]
    split_ifs at h ⊢
    · cases h
      apply List.Perm.refl
    · rw [messages_cons, messages_cons]
      apply ((ih h).append_left _).trans
      rw [← append_assoc, ← append_assoc]
      apply perm_append_comm.append_right

end StallMsgMap

namespace MessageBuffer

open Lib

variable {H : HeapOps (Message.gt (M := M))} {p : BufferParams} {b b' : MessageBuffer M}
  {m : Message M} {a : EnqueueArgs} {now : Tick}

/-! ### Enqueuing -/

/-- The message as it is put into the heap. -/
def arrived (p : BufferParams) (m : Message M) (a : EnqueueArgs) (b : MessageBuffer M) :
    Message M where
  payload := m.payload
  lastEnqueueTime := b.arrivalTime p a
  delayedTicks := m.delayedTicks + (a.currentTime - m.lastEnqueueTime)
  msgCounter := b.msgCounter + 1

/-- The buffer after a message is enqueued. -/
theorem insert_eq_ok (h : b.insert H p m a = .ok b') :
  b' =
    { b.countMessage a.currentTime with
      lastArrivalTime := if a.rubyWarmup then b.baseArrivalTime p a else b.arrivalTime p a
      lastMessageStrictFifoBypassed := a.bypassStrictFIFO
      prioHeap := H.pushHeap (b.prioHeap ++ [b.arrived p m a]) }
  := by
  obtain ⟨-, h⟩ := panicIf_bind_eq_ok.mp h
  obtain ⟨-, h⟩ := assert_bind_eq_ok.mp h
  obtain ⟨-, h⟩ := panicIf_bind_eq_ok.mp h
  obtain ⟨-, h⟩ := assert_bind_eq_ok.mp h
  obtain ⟨m', hm', h⟩ := bind_eq_ok.mp h
  obtain ⟨-, hm'⟩ := assert_bind_eq_ok.mp hm'
  cases hm'
  cases h
  rfl

/-! ### Dequeuing -/

/-- A buffer is ready if the arrival time of its first message has come. -/
theorem isReady_eq_ok (h : b.isReady p now = .ok true) :
  b.timeLastTimePop ≤ now ∧ ∃ m, b.prioHeap.head? = some m ∧ m.lastEnqueueTime ≤ now
  := by
  obtain ⟨hpop, h⟩ := assert_bind_eq_ok.mp h
  refine ⟨of_decide_eq_true hpop, ?_⟩
  cases hhead : b.prioHeap.head? with
  | none => simp [hhead] at h
  | some m =>
    refine ⟨m, rfl, ?_⟩
    simp [hhead] at h
    apply h.2

/-- The message as it is dequeued. -/
def delayed (now : Tick) (m : Message M) : Message M :=
  { m with delayedTicks := m.delayedTicks + (now - m.lastEnqueueTime) }

/-- The first message of the heap is dequeued. -/
theorem dequeue_eq_ok (h : b.dequeue H p now = .ok (m, b')) :
  b.timeLastTimePop ≤ now
    ∧ ∃ m₀, b.prioHeap.head? = some m₀ ∧ m = delayed now m₀
      ∧ b' =
        { b.countDequeue now with
          prioHeap := (H.popHeap b.prioHeap).dropLast }
  := by
  obtain ⟨ready, hready, h⟩ := bind_eq_ok.mp h
  obtain ⟨rfl, h⟩ := assert_bind_eq_ok.mp h
  obtain ⟨m₀, hm₀, h⟩ := deref_bind_eq_ok.mp h
  obtain ⟨m₁, hm₁, h⟩ := bind_eq_ok.mp h
  obtain ⟨-, hm₁⟩ := assert_bind_eq_ok.mp hm₁
  cases hm₁
  cases h
  exact ⟨(isReady_eq_ok hready).1, m₀, hm₀, rfl, rfl⟩

/-- The first message is put back with a later arrival time. -/
theorem recycle_eq_ok {latency : Tick} (h : b.recycle H p now latency = .ok b') :
  ∃ m, b.prioHeap.head? = some m
    ∧ b' =
      { b with
        prioHeap := H.pushHeap ((H.popHeap b.prioHeap).dropLast
          ++ [{ m with lastEnqueueTime := now + latency }]) }
  := by
  obtain ⟨ready, -, h⟩ := bind_eq_ok.mp h
  obtain ⟨rfl, h⟩ := assert_bind_eq_ok.mp h
  obtain ⟨m, hm, h⟩ := deref_bind_eq_ok.mp h
  cases h
  exact ⟨m, hm, rfl⟩

/-! ### Stalling -/

variable {addr : Addr} {lt : List (Message M)}

/-- To stall a message is to dequeue it and to add it to the map. -/
theorem stallMessage_eq_ok (h : b.stallMessage H p addr now = .ok b') :
  ∃ m b₁, b.dequeue H p now = .ok (m, b₁)
    ∧ b' =
      { b₁ with
        stallMsgMap := b₁.stallMsgMap.pushBack addr m
        stallMapSize := b₁.stallMapSize + 1 }
  := by
  obtain ⟨ready, -, hassert⟩ := bind_eq_ok.mp h
  obtain ⟨-, hrest⟩ := assert_bind_eq_ok.mp hassert
  obtain ⟨⟨m, b₁⟩, hdequeue, hstall⟩ := bind_eq_ok.mp hrest
  refine ⟨m, b₁, hdequeue, ?_⟩
  dsimp only at hstall
  split_ifs at hstall
  cases hstall
  rfl

/-- The buffer with other messages in its heap, and another number of stalled messages. -/
def restock (heap : List (Message M)) (stalled : ℤ) (b : MessageBuffer M) : MessageBuffer M :=
  { b with prioHeap := heap, stallMapSize := stalled }

variable (hheap : IsHeap gt b.prioHeap)

include hheap

/-- The messages are put back into the heap, one by one. -/
theorem reanalyzeList_eq_ok (h : b.reanalyzeList H now lt = .ok b') :
  ∃ heap, IsHeap gt heap ∧ heap.Perm (lt ++ b.prioHeap)
    ∧ b' = b.restock heap b.stallMapSize
  := by
  induction lt generalizing b with
  | nil => exact ⟨b.prioHeap, hheap, List.Perm.refl _, (Except.ok.inj h).symm⟩
  | cons m lt ih =>
    obtain ⟨-, h⟩ := assert_bind_eq_ok.mp h
    obtain ⟨heap, hheap', hperm, hb'⟩ := ih (H.isHeap_pushHeap hheap m) h
    refine ⟨heap, hheap', ?_, hb'⟩
    apply hperm.trans
    apply ((H.pushHeap_perm hheap m).append_left lt).trans
    apply perm_middle

theorem reanalyzeEntry_eq_ok (h : b.reanalyzeEntry H now lt = .ok b') :
  ∃ heap, IsHeap gt heap ∧ heap.Perm (lt ++ b.prioHeap)
    ∧ b' = b.restock heap (b.stallMapSize - lt.length)
  := by
  obtain ⟨-, h⟩ := assert_bind_eq_ok.mp h
  obtain ⟨heap, hheap', hperm, hb'⟩ := reanalyzeList_eq_ok
    (b := b.restock b.prioHeap (b.stallMapSize - lt.length)) hheap h
  exact ⟨heap, hheap', hperm, hb'⟩

/-- All messages of the address are moved from the map to the heap. -/
theorem reanalyzeMessages_eq_ok (h : b.reanalyzeMessages H addr now = .ok b') :
  ∃ lt heap, b.stallMsgMap.find addr = some lt
    ∧ IsHeap gt heap ∧ heap.Perm (lt ++ b.prioHeap)
    ∧ b' =
      { b.restock heap (b.stallMapSize - lt.length) with
        stallMsgMap := b.stallMsgMap.erase addr }
  := by
  rw [reanalyzeMessages] at h
  cases hfind : b.stallMsgMap.find addr with
  | none =>
    rw [hfind] at h
    cases h
  | some lt =>
    rw [hfind] at h
    obtain ⟨b₁, hentry, h⟩ := bind_eq_ok.mp h
    obtain ⟨heap, hheap', hperm, rfl⟩ := reanalyzeEntry_eq_ok hheap hentry
    cases h
    exact ⟨lt, heap, rfl, hheap', hperm, rfl⟩

theorem foldlM_reanalyzeEntry_eq_ok
    (h : map.foldlM (fun b entry => b.reanalyzeEntry H now entry.2) b = .ok b') :
  ∃ heap, IsHeap gt heap ∧ heap.Perm (map.messages ++ b.prioHeap)
    ∧ b' = b.restock heap (b.stallMapSize - map.messages.length)
  := by
  induction map generalizing b with
  | nil =>
    refine ⟨b.prioHeap, hheap, List.Perm.refl _, ?_⟩
    rw [← Except.ok.inj h]
    simp [restock, messages]
  | cons entry map ih =>
    obtain ⟨b₁, hentry, h⟩ := bind_eq_ok.mp h
    obtain ⟨heap₁, hheap₁, hperm₁, rfl⟩ := reanalyzeEntry_eq_ok hheap hentry
    obtain ⟨heap, hheap', hperm, rfl⟩ := ih hheap₁ h
    refine ⟨heap, hheap', ?_, ?_⟩
    · rw [messages_cons, append_assoc]
      apply hperm.trans
      apply (hperm₁.append_left _).trans
      rw [← append_assoc, ← append_assoc]
      apply perm_append_comm.append_right
    · have hsize : b.stallMapSize - (messages (entry :: map)).length
          = b.stallMapSize - entry.2.length - (messages map).length := by
        rw [messages_cons, List.length_append]
        omega
      rw [hsize]
      rfl

/-- All stalled messages are moved to the heap. -/
theorem reanalyzeAllMessages_eq_ok (h : b.reanalyzeAllMessages H now = .ok b') :
  ∃ heap, IsHeap gt heap ∧ heap.Perm (b.stallMsgMap.messages ++ b.prioHeap)
    ∧ b' =
      { b.restock heap (b.stallMapSize - b.stallMsgMap.messages.length) with
        stallMsgMap := [] }
  := by
  obtain ⟨b₁, hfold, h⟩ := bind_eq_ok.mp h
  obtain ⟨heap, hheap', hperm, rfl⟩ := foldlM_reanalyzeEntry_eq_ok hheap hfold
  cases h
  exact ⟨heap, hheap', hperm, rfl⟩

end MessageBuffer

end Gem5Arc
