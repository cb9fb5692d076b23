import Gem5Arc.Lib.Run
import Gem5Arc.Ruby.BufferSteps
import Mathlib.Data.List.AList

/-!
# Stalled buffers of a controller

A controller of Ruby that cannot handle the first message of a buffer stalls it for an address, and
notes in `m_waiting_buffers`, under the address and the rank of the input port it is working on,
that this buffer waits. The functions that wake buffers up find them by these notes. A note is per
address and rank, and stalled messages are per buffer and address: so a message can be left behind
when notes are removed.

The buffers of a controller are named by a type `B`. The rank of a port is below the number of
ports, as `stallBuffer` asserts. The entries of the map are visited in the order of their
addresses, which makes no difference to what is reanalyzed.
-/

namespace Gem5Arc

open AList Function List MessageBuffer

variable {M : Type}

/-! ### Looking up stalled messages -/

namespace StallMsgMap

variable {map : StallMsgMap M} {a addr : Addr}

/-- The entries are sorted by their addresses. -/
def Sorted (map : StallMsgMap M) : Prop := map.Pairwise fun x y => x.1 < y.1

/-- An address below all entries is not found. -/
theorem find_eq_none (h : ∀ x ∈ map, addr < x.1) :
  map.find addr = none
  := by
  induction map with
  | nil => rfl
  | cons x map ih =>
    obtain ⟨hx, hmap⟩ := forall_mem_cons.mp h
    rw [find, if_neg (BitVec.ne_of_lt hx)]
    apply ih hmap

/-- Only the entry of the address gets the message. -/
theorem find_pushBack (h : map.Sorted) (m : Message M) :
  (map.pushBack addr m).find a
    = if a = addr then some ((map.find addr).getD [] ++ [m]) else map.find a
  := by
  induction map with
  | nil => rfl
  | cons x map ih =>
    obtain ⟨hx, hmap⟩ := pairwise_cons.mp h
    by_cases ha : a = addr
    · subst ha
      rw [if_pos rfl, pushBack]
      split_ifs with hlt heq
      · have hnone : find a (x :: map) = none := by
          apply find_eq_none
          rintro y (_ | ⟨_, hy⟩)
          · apply hlt
          · apply BitVec.lt_trans hlt (hx y hy)
        rw [hnone, find, if_pos rfl]
        rfl
      · rw [find, find, if_pos heq, if_pos heq]
        rfl
      · rw [find, find, if_neg heq, if_neg heq, ih hmap, if_pos rfl]
    · rw [if_neg ha, pushBack]
      split_ifs with hlt heq
      · rw [find, if_neg ha]
      · rw [find, find, if_neg (heq ▸ ha), if_neg (heq ▸ ha)]
      · rw [find, find, ih hmap, if_neg ha]

/-- No other address gets an entry. -/
theorem mem_of_mem_pushBack {m : Message M} {y : Addr × List (Message M)}
    (h : y ∈ map.pushBack addr m) :
  y.1 = addr ∨ ∃ x ∈ map, x.1 = y.1
  := by
  induction map with
  | nil =>
    rw [pushBack, mem_singleton] at h
    rw [h]
    apply Or.inl rfl
  | cons x map ih =>
    rw [pushBack] at h
    split_ifs at h with hlt heq
    · rcases mem_cons.mp h with rfl | hy
      · apply Or.inl rfl
      · exact .inr ⟨y, hy, rfl⟩
    · rcases mem_cons.mp h with rfl | hy
      · exact .inl heq.symm
      · exact .inr ⟨y, mem_cons_of_mem x hy, rfl⟩
    · rcases mem_cons.mp h with rfl | hy
      · exact .inr ⟨_, mem_cons_self, rfl⟩
      · obtain h | ⟨z, hz, hzy⟩ := ih hy
        · apply Or.inl h
        · exact .inr ⟨z, mem_cons_of_mem x hz, hzy⟩

theorem Sorted.pushBack (h : map.Sorted) (addr : Addr) (m : Message M) :
  (map.pushBack addr m).Sorted
  := by
  induction map with
  | nil => apply pairwise_singleton
  | cons x map ih =>
    obtain ⟨hx, hmap⟩ := pairwise_cons.mp h
    rw [StallMsgMap.pushBack]
    split_ifs with hlt heq
    · apply pairwise_cons.mpr ⟨_, h⟩
      rintro y (_ | ⟨_, hy⟩)
      · apply hlt
      · apply BitVec.lt_trans hlt (hx y hy)
    · exact pairwise_cons.mpr ⟨hx, hmap⟩
    · apply pairwise_cons.mpr ⟨_, ih hmap⟩
      intro y hy
      obtain hy | ⟨z, hz, hzy⟩ := mem_of_mem_pushBack hy
      · dsimp only
        bv_omega
      · rw [← hzy]
        apply hx z hz

/-- Only the entry of the address is removed. -/
theorem find_erase (h : map.Sorted) :
  (map.erase addr).find a = if a = addr then none else map.find a
  := by
  induction map with
  | nil => exact (ite_self none).symm
  | cons x map ih =>
    obtain ⟨hx, hmap⟩ := pairwise_cons.mp h
    rw [erase]
    split_ifs with heq ha ha
    · rw [ha, heq]
      apply find_eq_none hx
    · rw [find, if_neg (heq ▸ ha)]
    · rw [find, ih hmap, if_pos ha, if_neg (ha ▸ heq)]
    · rw [find, find, ih hmap, if_neg ha]

theorem Sorted.erase (h : map.Sorted) (addr : Addr) :
  (map.erase addr).Sorted
  := by
  have hsub : (StallMsgMap.erase addr map).Sublist map := by
    induction map with
    | nil => apply List.Sublist.refl
    | cons x map ih =>
      rw [StallMsgMap.erase]
      split_ifs
      · apply sublist_cons_self
      · exact (ih (pairwise_cons.mp h).2).cons_cons x
  apply List.Pairwise.sublist hsub h

end StallMsgMap

/-! ### The calls of a buffer -/

namespace MessageBuffer

open Lib

variable {H : HeapOps (Message.gt (M := M))} {p : BufferParams} {b b' : MessageBuffer M}
  {a addr : Addr} {now : Tick}

/-- A message is stalled under the address. -/
def Stalls (b : MessageBuffer M) (addr : Addr) : Prop :=
  ∃ lt, b.stallMsgMap.find addr = some lt ∧ ∃ m, m ∈ lt

variable {m : Message M}

theorem stallMsgMap_enqueue {args : EnqueueArgs} (h : b.enqueue H p m args = .ok b') :
  b'.stallMsgMap = b.stallMsgMap
  := by
  obtain ⟨b₁, hinsert, h⟩ := bind_eq_ok.mp h
  obtain ⟨-, h⟩ := assert_bind_eq_ok.mp h
  cases h
  rw [insert_eq_ok hinsert]
  rfl

theorem stallMsgMap_dequeue (h : b.dequeue H p now = .ok (m, b')) :
  b'.stallMsgMap = b.stallMsgMap
  := by
  obtain ⟨-, -, -, -, rfl⟩ := dequeue_eq_ok h
  rfl

/-- Stalling adds one message under the address. -/
theorem stallMsgMap_stallMessage (h : b.stallMessage H p addr now = .ok b') :
  ∃ m, b'.stallMsgMap = b.stallMsgMap.pushBack addr m
  := by
  obtain ⟨m, b₁, hdequeue, rfl⟩ := stallMessage_eq_ok h
  use m
  rw [← stallMsgMap_dequeue hdequeue]

theorem stallMsgMap_reanalyzeList {lt : List (Message M)} (h : b.reanalyzeList H now lt = .ok b') :
  b'.stallMsgMap = b.stallMsgMap
  := by
  induction lt generalizing b with
  | nil =>
    cases h
    rfl
  | cons m lt ih =>
    obtain ⟨-, h⟩ := assert_bind_eq_ok.mp h
    apply ih h

/-- The entry of a reanalyzed address is removed. -/
theorem stallMsgMap_reanalyzeMessages (h : b.reanalyzeMessages H addr now = .ok b') :
  b'.stallMsgMap = b.stallMsgMap.erase addr
  := by
  rw [reanalyzeMessages] at h
  split at h
  · cases h
  · obtain ⟨b₁, hentry, h⟩ := bind_eq_ok.mp h
    cases h
    obtain ⟨-, hlist⟩ := assert_bind_eq_ok.mp hentry
    rw [stallMsgMap_reanalyzeList hlist]

theorem stallMsgMap_reanalyzeAllMessages (h : b.reanalyzeAllMessages H now = .ok b') :
  b'.stallMsgMap = []
  := by
  obtain ⟨b₁, -, h⟩ := bind_eq_ok.mp h
  cases h
  rfl

/-- The buffer stalls a message under the address, and under those as before. -/
theorem stalls_stallMessage (hb : b.stallMsgMap.Sorted) (h : b.stallMessage H p addr now = .ok b') :
  b'.stallMsgMap.Sorted ∧ ∀ a, b'.Stalls a ↔ a = addr ∨ b.Stalls a
  := by
  obtain ⟨m, hmap⟩ := stallMsgMap_stallMessage h
  rw [hmap]
  refine ⟨hb.pushBack addr m, ?_⟩
  intro a
  rw [Stalls, hmap, StallMsgMap.find_pushBack hb]
  by_cases ha : a = addr
  · simp [ha]
  · simp [ha, Stalls]

/-- The buffer stalls no message under the address any more. -/
theorem stalls_reanalyzeMessages (hb : b.stallMsgMap.Sorted)
    (h : b.reanalyzeMessages H addr now = .ok b') :
  b'.stallMsgMap.Sorted ∧ ∀ a, b'.Stalls a ↔ b.Stalls a ∧ a ≠ addr
  := by
  rw [stallMsgMap_reanalyzeMessages h]
  refine ⟨hb.erase addr, ?_⟩
  intro a
  rw [Stalls, stallMsgMap_reanalyzeMessages h, StallMsgMap.find_erase hb]
  by_cases ha : a = addr
  · simp [ha]
  · simp [ha, Stalls]

end MessageBuffer

/-! ### Controllers -/

/-- The buffers of a controller, and which of them wait for an address, by the rank of the port
for which they were stalled. -/
structure WaitingBuffers (M B : Type) (inPorts : ℕ) where
  buffers : B → MessageBuffer M := fun _ => {}
  waitingBuffers : AList (fun _ : Addr => Fin inPorts → Option B) := ∅

namespace WaitingBuffers

open Lib

variable {B : Type} [DecidableEq B] {inPorts : ℕ}

def stallBuffer (buf : B) (addr : Addr) (curInPort : Fin inPorts)
    (s : WaitingBuffers M B inPorts) : WaitingBuffers M B inPorts :=
  let msgVec := (s.waitingBuffers.lookup addr).getD fun _ => none
  { s with
    waitingBuffers :=
      s.waitingBuffers.insert addr (Function.update msgVec curInPort (some buf)) }

section

variable (H : HeapOps (Message.gt (M := M)))

/-- Reanalyze the messages of an address in the buffers that are noted for some ports. -/
def reanalyzePorts (addr : Addr) (now : Tick) : List (Option B) → (B → MessageBuffer M) →
    Except Fault (B → MessageBuffer M)
  | [], buffers => .ok buffers
  | none :: ports, buffers => reanalyzePorts addr now ports buffers
  | some buf :: ports, buffers => do
      let b ← (buffers buf).reanalyzeMessages H addr now
      reanalyzePorts addr now ports (Function.update buffers buf b)

/-- Reanalyze all messages of the buffers that are noted for some ports, except for those
buffers that have been reanalyzed already. -/
def reanalyzeAllPorts (now : Tick) : List (Option B) → List B → (B → MessageBuffer M) →
    Except Fault (B → MessageBuffer M)
  | [], _, buffers => .ok buffers
  | none :: ports, wokeUp, buffers => reanalyzeAllPorts now ports wokeUp buffers
  | some buf :: ports, wokeUp, buffers =>
    if buf ∈ wokeUp then reanalyzeAllPorts now ports wokeUp buffers
    else do
      let b ← (buffers buf).reanalyzeAllMessages H now
      reanalyzeAllPorts now ports (buf :: wokeUp) (Function.update buffers buf b)

def wakeUpBuffer (buf : B) (addr : Addr) (now : Tick) (s : WaitingBuffers M B inPorts) :
    Except Fault (WaitingBuffers M B inPorts) :=
  match s.waitingBuffers.lookup addr with
  | none => .ok s
  | some msgVec => do
      let buffers ← reanalyzePorts H addr now
        (((List.finRange inPorts).map msgVec).filter (· = some buf)) s.buffers
      if ∃ port, msgVec port ≠ some buf ∧ msgVec port ≠ none then
        let rest := fun port => if msgVec port = some buf then none else msgVec port
        pure ⟨buffers, s.waitingBuffers.insert addr rest⟩
      else pure ⟨buffers, s.waitingBuffers.erase addr⟩

/-- Wake up the buffers that wait for an address at the given ports, and remove all notes for
the address. -/
def wakeUpPorts (ports : List (Fin inPorts)) (addr : Addr) (now : Tick)
    (s : WaitingBuffers M B inPorts) : Except Fault (WaitingBuffers M B inPorts) :=
  match s.waitingBuffers.lookup addr with
  | none => .ok s
  | some msgVec => do
      let buffers ← reanalyzePorts H addr now (ports.map msgVec) s.buffers
      pure ⟨buffers, s.waitingBuffers.erase addr⟩

/-- Wake up the buffers of a lower rank. -/
def wakeUpBuffers (addr : Addr) (curInPort : Fin inPorts) (now : Tick) :
    WaitingBuffers M B inPorts → Except Fault (WaitingBuffers M B inPorts) :=
  wakeUpPorts H ((List.finRange inPorts).filter (· < curInPort)).reverse addr now

/-- Wake up all buffers that wait for an address. -/
def wakeUpAllBuffersFor (addr : Addr) (now : Tick) :
    WaitingBuffers M B inPorts → Except Fault (WaitingBuffers M B inPorts) :=
  wakeUpPorts H (List.finRange inPorts).reverse addr now

def wakeUpAllBuffers (now : Tick) (s : WaitingBuffers M B inPorts) :
    Except Fault (WaitingBuffers M B inPorts) := do
  let ports := s.waitingBuffers.entries.flatMap fun entry =>
    (List.finRange inPorts).map entry.2
  let buffers ← reanalyzeAllPorts H now ports [] s.buffers
  pure ⟨buffers, ∅⟩

end

variable (M B inPorts) in
/-- What a controller does with its buffers. -/
inductive Call where
  | enqueue (buf : B) (m : Message M) (args : EnqueueArgs)
  | dequeue (buf : B) (now : Tick)
  | stall (buf : B) (addr : Addr) (curInPort : Fin inPorts) (now : Tick)
  | wakeUpBuffer (buf : B) (addr : Addr) (now : Tick)
  | wakeUpBuffers (addr : Addr) (curInPort : Fin inPorts) (now : Tick)
  | wakeUpAllBuffersFor (addr : Addr) (now : Tick)
  | wakeUpAllBuffers (now : Tick)

variable (H : HeapOps (Message.gt (M := M))) (p : B → BufferParams)

/-- The controller after a call. Its buffer is stalled right after it is noted. -/
def call : Call M B inPorts → WaitingBuffers M B inPorts →
    Except Fault (WaitingBuffers M B inPorts)
  | .enqueue buf m args, s => do
      let b ← (s.buffers buf).enqueue H (p buf) m args
      pure ⟨Function.update s.buffers buf b, s.waitingBuffers⟩
  | .dequeue buf now, s => do
      let (_, b) ← (s.buffers buf).dequeue H (p buf) now
      pure ⟨Function.update s.buffers buf b, s.waitingBuffers⟩
  | .stall buf addr curInPort now, s => do
      let s := s.stallBuffer buf addr curInPort
      let b ← (s.buffers buf).stallMessage H (p buf) addr now
      pure ⟨Function.update s.buffers buf b, s.waitingBuffers⟩
  | .wakeUpBuffer buf addr now, s => s.wakeUpBuffer H buf addr now
  | .wakeUpBuffers addr curInPort now, s => s.wakeUpBuffers H addr curInPort now
  | .wakeUpAllBuffersFor addr now, s => s.wakeUpAllBuffersFor H addr now
  | .wakeUpAllBuffers now, s => s.wakeUpAllBuffers H now

/-- One call that returns. -/
def Step (s : WaitingBuffers M B inPorts) (c : Call M B inPorts)
    (t : WaitingBuffers M B inPorts) : Prop :=
  call H p c s = .ok t

/-- A port for which the buffer is noted under the address. -/
def NotedAt (s : WaitingBuffers M B inPorts) (addr : Addr) (port : Fin inPorts) (buf : B) : Prop :=
  ∃ msgVec, s.waitingBuffers.lookup addr = some msgVec ∧ msgVec port = some buf

/-- Every buffer with a message that is stalled under an address is noted under this address. -/
def NoneForgotten (s : WaitingBuffers M B inPorts) : Prop :=
  ∀ buf addr, (s.buffers buf).Stalls addr → ∃ port, s.NotedAt addr port buf

/-- What the controller has to meet in order not to forget a message. The buffer that is stalled
does not take the only note of another buffer with stalled messages, and when the buffers of a
lower rank are woken up, there are no others. -/
def Keeps : Call M B inPorts → WaitingBuffers M B inPorts → Prop
  | .stall buf addr curInPort _, s =>
    ∀ other, other ≠ buf → s.NotedAt addr curInPort other → (s.buffers other).Stalls addr →
      ∃ port, port ≠ curInPort ∧ s.NotedAt addr port other
  | .wakeUpBuffers addr curInPort _, s =>
    ∀ buf, (s.buffers buf).Stalls addr → ∃ port, port < curInPort ∧ s.NotedAt addr port buf
  | _, _ => True

/-! ### What the calls keep -/

section

variable {H} {p} {s t : WaitingBuffers M B inPorts} {buffers buffers' : B → MessageBuffer M}
  {addr : Addr} {now : Tick} {b : MessageBuffer M}

theorem sorted_update (hs : ∀ buf, (buffers buf).stallMsgMap.Sorted) (buf : B)
    (hb : b.stallMsgMap.Sorted) :
  ∀ buf', (Function.update buffers buf b buf').stallMsgMap.Sorted
  := (forall_update_iff buffers fun _ b => b.stallMsgMap.Sorted).mpr
    ⟨hb, fun buf' _ => hs buf'⟩

variable {ports : List (Option B)} {buf : B} {curInPort : Fin inPorts}

section

variable (hs : ∀ buf, (buffers buf).stallMsgMap.Sorted)

include hs

/-- Exactly the buffers of the ports lose their messages of the address. -/
theorem reanalyzePorts_eq_ok (h : reanalyzePorts H addr now ports buffers = .ok buffers') :
  (∀ buf, (buffers' buf).stallMsgMap.Sorted)
    ∧ ∀ buf a, (buffers' buf).Stalls a
      ↔ (buffers buf).Stalls a ∧ ¬ (a = addr ∧ some buf ∈ ports)
  := by
  induction ports generalizing buffers with
  | nil =>
    cases h
    exact ⟨hs, by simp⟩
  | cons port ports ih =>
    cases port with
    | none =>
      refine ⟨(ih hs h).1, ?_⟩
      intro buf a
      rw [(ih hs h).2 buf a, mem_cons]
      simp
    | some buf₀ =>
      obtain ⟨b, hb, h⟩ := bind_eq_ok.mp h
      obtain ⟨hsorted, hstalls⟩ := stalls_reanalyzeMessages (hs buf₀) hb
      have hs₁ := sorted_update hs buf₀ hsorted
      refine ⟨(ih hs₁ h).1, ?_⟩
      intro buf a
      rw [(ih hs₁ h).2 buf a, mem_cons]
      by_cases hbuf : buf = buf₀
      · rw [hbuf, update_self, hstalls a]
        tauto
      · rw [update_of_ne hbuf]
        simp [hbuf]

/-- Exactly the buffers of the ports that are not woken up yet lose their messages. -/
theorem reanalyzeAllPorts_eq_ok {wokeUp : List B}
    (h : reanalyzeAllPorts H now ports wokeUp buffers = .ok buffers') :
  (∀ buf, (buffers' buf).stallMsgMap.Sorted)
    ∧ ∀ buf a, (buffers' buf).Stalls a
      ↔ (buffers buf).Stalls a ∧ (buf ∈ wokeUp ∨ some buf ∉ ports)
  := by
  induction ports generalizing buffers wokeUp with
  | nil =>
    cases h
    exact ⟨hs, by simp⟩
  | cons port ports ih =>
    cases port with
    | none =>
      refine ⟨(ih hs h).1, ?_⟩
      intro buf a
      rw [(ih hs h).2 buf a, mem_cons]
      simp
    | some buf₀ =>
      rw [reanalyzeAllPorts] at h
      split_ifs at h with hwoken
      · refine ⟨(ih hs h).1, ?_⟩
        intro buf a
        rw [(ih hs h).2 buf a, mem_cons]
        by_cases hbuf : buf = buf₀
        · simp [hbuf, hwoken]
        · simp [hbuf]
      · obtain ⟨b, hb, h⟩ := bind_eq_ok.mp h
        have hs₁ := sorted_update hs buf₀ (by
          rw [stallMsgMap_reanalyzeAllMessages hb]
          apply List.Pairwise.nil)
        refine ⟨(ih hs₁ h).1, ?_⟩
        intro buf a
        rw [(ih hs₁ h).2 buf a, mem_cons, mem_cons]
        by_cases hbuf : buf = buf₀
        · rw [hbuf, update_self]
          simp [Stalls, stallMsgMap_reanalyzeAllMessages hb, StallMsgMap.find, hwoken]
        · rw [update_of_ne hbuf]
          simp [hbuf]

end

/-- The stalled messages of every buffer are sorted by their addresses. -/
def Sorted (s : WaitingBuffers M B inPorts) : Prop :=
  ∀ buf, (s.buffers buf).stallMsgMap.Sorted

theorem Sorted.update (hs : s.Sorted) (hb : b.stallMsgMap.Sorted)
    (waiting : AList fun _ : Addr => Fin inPorts → Option B) :
  Sorted (⟨Function.update s.buffers buf b, waiting⟩ : WaitingBuffers M B inPorts)
  := sorted_update hs buf hb

/-- A call of one buffer that leaves its stalled messages alone. -/
theorem step_of_stallMsgMap_eq (hs : s.Sorted) (hP : s.NoneForgotten)
    (hb : b.stallMsgMap = (s.buffers buf).stallMsgMap)
    (ht : t = ⟨Function.update s.buffers buf b, s.waitingBuffers⟩) :
  t.Sorted ∧ t.NoneForgotten
  := by
  subst ht
  constructor
  · apply hs.update
    rw [hb]
    apply hs buf
  · have hstalls (buf' : B) (a : Addr) :
        (Function.update s.buffers buf b buf').Stalls a ↔ (s.buffers buf').Stalls a := by
      by_cases hbuf : buf' = buf
      · rw [hbuf, update_self, MessageBuffer.Stalls, hb]
        rfl
      · rw [update_of_ne hbuf]
    intro buf' a hstall
    exact hP buf' a ((hstalls buf' a).mp hstall)

omit [DecidableEq B] in
/-- The notes for an address after a buffer is noted. -/
theorem notedAt_stallBuffer {buf' : B} {port : Fin inPorts} {a : Addr} :
  (s.stallBuffer buf addr curInPort).NotedAt a port buf'
    ↔ (a = addr ∧ port = curInPort ∧ buf' = buf)
      ∨ ((a = addr → port ≠ curInPort) ∧ s.NotedAt a port buf')
  := by
  by_cases ha : a = addr
  · subst ha
    simp only [NotedAt, stallBuffer, lookup_insert, Option.some.injEq, exists_eq_left']
    by_cases hport : port = curInPort
    · subst hport
      simp [eq_comm]
    · rw [update_of_ne hport]
      cases s.waitingBuffers.lookup a <;> simp [hport]
  · simp only [NotedAt, stallBuffer, lookup_insert_ne ha]
    simp [ha]

variable (hs : s.Sorted) (hP : s.NoneForgotten)

include hs hP

/-- A stalled buffer may take the only note of another one. -/
theorem step_stall (h : Step H p s (.stall buf addr curInPort now) t) :
  t.Sorted ∧ (t.NoneForgotten ↔ Keeps (.stall buf addr curInPort now) s)
  := by
  obtain ⟨b, hb, h⟩ := bind_eq_ok.mp h
  cases h
  obtain ⟨hsorted, hstalls⟩ := stalls_stallMessage (hs buf) hb
  refine ⟨hs.update hsorted _, ?_⟩
  constructor
  · intro hkeep other hne hnoted hother
    obtain ⟨port, hport⟩ := hkeep other addr (by
      dsimp only
      rw [update_of_ne hne]
      apply hother)
    rcases notedAt_stallBuffer.mp hport with ⟨-, -, heq⟩ | ⟨hport, hnoted'⟩
    · exact absurd heq hne
    · exact ⟨port, hport rfl, hnoted'⟩
  · intro hkeep buf' a hstall
    dsimp only at hstall
    by_cases hbuf : buf' = buf
    · subst hbuf
      rw [update_self, hstalls] at hstall
      by_cases ha : a = addr
      · exact ⟨curInPort, notedAt_stallBuffer.mpr (.inl ⟨ha, rfl, rfl⟩)⟩
      · obtain ⟨port, hport⟩ := hP buf' a (hstall.resolve_left ha)
        exact ⟨port, notedAt_stallBuffer.mpr (.inr ⟨fun h => absurd h ha, hport⟩)⟩
    · rw [update_of_ne hbuf] at hstall
      obtain ⟨port, hport⟩ := hP buf' a hstall
      by_cases hslot : a = addr ∧ port = curInPort
      · obtain ⟨rfl, rfl⟩ := hslot
        obtain ⟨port', hne, hport'⟩ := hkeep buf' hbuf hport hstall
        exact ⟨port', notedAt_stallBuffer.mpr (.inr ⟨fun _ => hne, hport'⟩)⟩
      · exact ⟨port, notedAt_stallBuffer.mpr (.inr ⟨fun h h' => hslot ⟨h, h'⟩, hport⟩)⟩

/-- All notes of the address are removed, so the ports have to cover its messages. -/
theorem step_wakeUpPorts {ports : List (Fin inPorts)} (h : s.wakeUpPorts H ports addr now = .ok t) :
  t.Sorted ∧ (t.NoneForgotten
    ↔ ∀ buf, (s.buffers buf).Stalls addr → ∃ port, port ∈ ports ∧ s.NotedAt addr port buf)
  := by
  rw [wakeUpPorts] at h
  split at h
  next hnone =>
    cases h
    refine ⟨hs, fun _ buf hstall => ?_, fun _ => hP⟩
    obtain ⟨port, msgVec, hsome, -⟩ := hP buf addr hstall
    cases hnone.symm.trans hsome
  next msgVec hsome =>
    obtain ⟨buffers, hbuffers, h⟩ := bind_eq_ok.mp h
    cases h
    obtain ⟨hsorted, hstalls⟩ := reanalyzePorts_eq_ok hs hbuffers
    refine ⟨hsorted, ?_, ?_⟩
    · intro hkeep buf hstall
      by_contra hno
      obtain ⟨port, msgVec', herased, -⟩ := hkeep buf addr (by
        refine (hstalls buf addr).mpr ⟨hstall, ?_⟩
        rintro ⟨-, hmem⟩
        obtain ⟨port, hport, hvec⟩ := mem_map.mp hmem
        exact hno ⟨port, hport, msgVec, hsome, hvec⟩)
      rw [lookup_erase] at herased
      cases herased
    · intro hkeep buf a hstall
      obtain ⟨hstall₀, hnot⟩ := (hstalls buf a).mp hstall
      by_cases ha : a = addr
      · subst ha
        obtain ⟨port, hport, msgVec', hsome', hvec⟩ := hkeep buf hstall₀
        cases hsome.symm.trans hsome'
        exact absurd ⟨rfl, mem_map.mpr ⟨port, hport, hvec⟩⟩ hnot
      · obtain ⟨port, msgVec', hsome', hvec⟩ := hP buf a hstall₀
        refine ⟨port, msgVec', ?_, hvec⟩
        rw [lookup_erase_ne ha]
        apply hsome'

/-- The notes of other buffers stay. -/
theorem step_wakeUpBuffer (h : s.wakeUpBuffer H buf addr now = .ok t) :
  t.Sorted ∧ t.NoneForgotten
  := by
  rw [wakeUpBuffer] at h
  split at h
  next hnone =>
    cases h
    exact ⟨hs, hP⟩
  next msgVec hsome =>
    obtain ⟨buffers, hbuffers, h⟩ := bind_eq_ok.mp h
    obtain ⟨hsorted, hstalls⟩ := reanalyzePorts_eq_ok hs hbuffers
    have hother : ∀ buf' port, (buffers buf').Stalls addr → msgVec port = some buf' →
        msgVec port ≠ some buf := by
      intro buf' port hstall hport heq
      refine ((hstalls buf' addr).mp hstall).2 ⟨rfl, ?_⟩
      rw [mem_filter]
      refine ⟨mem_map.mpr ⟨port, mem_finRange port, hport⟩, ?_⟩
      rw [← hport, decide_eq_true_eq]
      apply heq
    have hnoted : ∀ buf' a, (buffers buf').Stalls a → ∃ port, s.NotedAt a port buf' := by
      intro buf' a hstall
      apply hP buf' a ((hstalls buf' a).mp hstall).1
    split_ifs at h with hrest
    · cases h
      refine ⟨hsorted, ?_⟩
      intro buf' a hstall
      obtain ⟨port, msgVec', hsome', hport⟩ := hnoted buf' a hstall
      by_cases ha : a = addr
      · subst ha
        cases hsome.symm.trans hsome'
        refine ⟨port, _, lookup_insert _, ?_⟩
        rw [if_neg (hother buf' port hstall hport)]
        apply hport
      · refine ⟨port, msgVec', ?_, hport⟩
        rw [lookup_insert_ne ha]
        apply hsome'
    · cases h
      refine ⟨hsorted, ?_⟩
      intro buf' a hstall
      obtain ⟨port, msgVec', hsome', hport⟩ := hnoted buf' a hstall
      by_cases ha : a = addr
      · subst ha
        cases hsome.symm.trans hsome'
        refine absurd ⟨port, hother buf' port hstall hport, ?_⟩ hrest
        rw [hport]
        apply Option.some_ne_none
      · refine ⟨port, msgVec', ?_, hport⟩
        rw [lookup_erase_ne ha]
        apply hsome'

/-- Every noted buffer is reanalyzed as a whole, so no message stays stalled. -/
theorem step_wakeUpAllBuffers (h : s.wakeUpAllBuffers H now = .ok t) :
  t.Sorted ∧ t.NoneForgotten
  := by
  obtain ⟨buffers, hbuffers, h⟩ := bind_eq_ok.mp h
  cases h
  obtain ⟨hsorted, hstalls⟩ := reanalyzeAllPorts_eq_ok hs hbuffers
  refine ⟨hsorted, ?_⟩
  intro buf a hstall
  obtain ⟨hstall, hnot⟩ := (hstalls buf a).mp hstall
  obtain ⟨port, msgVec, hsome, hport⟩ := hP buf a hstall
  refine absurd ?_ (hnot.resolve_left not_mem_nil)
  apply mem_flatMap.mpr
  exact ⟨⟨a, msgVec⟩, mem_lookup_iff.mp hsome,
    mem_map.mpr ⟨port, mem_finRange port, hport⟩⟩

/-- Whether a call forgets a message is decided by the state in which it is made. -/
theorem step_iff {c : Call M B inPorts} (h : Step H p s c t) :
  t.Sorted ∧ (t.NoneForgotten ↔ Keeps c s)
  := by
  cases c with
  | enqueue buf m args =>
    obtain ⟨b, hb, h⟩ := bind_eq_ok.mp h
    have hstep := step_of_stallMsgMap_eq hs hP (stallMsgMap_enqueue hb) (Except.ok.inj h).symm
    exact hstep.imp_right (iff_of_true · trivial)
  | dequeue buf now =>
    obtain ⟨⟨m, b⟩, hb, h⟩ := bind_eq_ok.mp h
    have hstep := step_of_stallMsgMap_eq hs hP (stallMsgMap_dequeue hb) (Except.ok.inj h).symm
    exact hstep.imp_right (iff_of_true · trivial)
  | stall buf addr curInPort now => exact step_stall hs hP h
  | wakeUpBuffer buf addr now =>
    exact (step_wakeUpBuffer hs hP h).imp_right (iff_of_true · trivial)
  | wakeUpBuffers addr curInPort now =>
    obtain ⟨hsorted, hiff⟩ := step_wakeUpPorts hs hP h
    refine ⟨hsorted, hiff.trans ?_⟩
    simp [Keeps]
  | wakeUpAllBuffersFor addr now =>
    obtain ⟨hsorted, hiff⟩ := step_wakeUpPorts hs hP h
    refine ⟨hsorted, fun _ => trivial, fun _ => hiff.mpr ?_⟩
    intro buf hstall
    obtain ⟨port, hport⟩ := hP buf addr hstall
    exact ⟨port, by simp, hport⟩
  | wakeUpAllBuffers now =>
    exact (step_wakeUpAllBuffers hs hP h).imp_right (iff_of_true · trivial)

end

/-! ### Runs -/

/-- From buffers without messages, no message is ever forgotten exactly when every call is made in a
state in which it keeps the messages in view. -/
theorem noneForgotten_iff_keeps (l : List (Call M B inPorts)) :
  (∀ l' t, l' <+: l → Run (Step H p) {} l' t → t.NoneForgotten)
    ↔ ∀ l' c t u, l' ++ [c] <+: l → Run (Step H p) {} l' t → Step H p t c u → Keeps c t
  := by
  apply Run.always_iff_under (Q := Sorted)
  · intro s c t hs hP h
    apply step_iff hs hP h
  · intro buf
    apply List.Pairwise.nil
  · rintro buf addr ⟨lt, ⟨⟩, -⟩

/-- The binary heap of the C++ library. -/
def heap : HeapOps (Message.gt (M := ℕ)) := binaryHeap Message.gt_iff

/-- Buffers of any size. -/
def unbounded : BufferParams where
  maxSize := 0
  maxDequeueRate := 0
  strictFifo := false
  randomization := .disabled
  allowZeroLatency := false

/-- A message is enqueued in a buffer, and stalled for the port of rank 1. Then this port wakes up
the buffers of a lower rank. -/
def lowerRanks : List (Call ℕ Unit 2) :=
  [.enqueue () ⟨7, 0, 0, 0⟩ ⟨0, 1, false, false, false, 0⟩, .stall () 64 1 1, .wakeUpBuffers 64 1 2]

/-- The message is still stalled, and no buffer waits for its address. -/
theorem wakeUpBuffers_forgets :
  ∃ t, Run (Step heap fun _ => unbounded) ({} : WaitingBuffers ℕ Unit 2) lowerRanks t
    ∧ (t.buffers ()).Stalls 64 ∧ ∀ port, ¬ t.NotedAt 64 port ()
  := by
  apply Exists.intro
  refine ⟨.cons rfl <| .cons rfl <| .cons rfl <| .nil _, ?_, ?_⟩
  · exact ⟨_, rfl, _, mem_cons_self⟩
  · rintro port ⟨msgVec, ⟨⟩, -⟩

end WaitingBuffers

end Gem5Arc
