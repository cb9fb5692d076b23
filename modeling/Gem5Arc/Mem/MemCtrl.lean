import Gem5Arc.Mem.Bursts

/-!
# The queues of the memory controller

The memory controller (`mem/mem_ctrl.cc`) keeps the sub-requests of reads in a read queue, moves
them to a response queue when it issues them to the memory, and answers a packet when the last of
its sub-requests has come back. A sub-request that is subsumed in a write still in the write queue
is served at once. The sub-requests of a packet with more than one of them share a `BurstHelper`,
which counts those that are done; it is made when the first of them goes to the read queue, and
what the write queue has served is written into it after the loop.

The packets that have been accepted are numbered from 0, and a `BurstHelper` is known by the
number of its packet. The read queues of all priorities are one list here, from which any entry
may be issued next. `serviced` and `responses` record what has been done: the sub-requests that are
done, and the packets `accessAndRespond` has been called for.

`State.Consistent` says that the sub-requests of a packet are those that are done and those that
wait, and that the packet has been answered once if none waits, and not at all otherwise.
-/

namespace Gem5Arc.MemCtrl

open Multiset

/-- How many sub-requests a packet has, and how many of them are done. -/
structure BurstHelper where
  burstCount : ℕ
  burstsServiced : ℕ

/-- A sub-request of a read. -/
structure MemPacket where
  pkt : ℕ
  piece : Piece
  burstHelper : Option ℕ

/-- A sub-request of a write, in the write queue of its priority. -/
structure WritePacket (q : ℕ) where
  qosValue : Fin q
  piece : Piece

/-- A memory controller: the size of a burst, the sizes of the buffers, and the number of
priorities. -/
structure Params where
  burstBits : ℕ
  readBufferSize : ℕ
  writeBufferSize : ℕ
  numPriorities : ℕ
  burstBits_le : burstBits ≤ 31

/-- What the controller keeps about the writes it has accepted. -/
structure Writes (P : Params) where
  writeQueue : List (WritePacket P.numPriorities) := []
  /-- The burst addresses in the write queue. -/
  isInWriteQueue : Finset ℕ := ∅
  totalWriteQueueSize : ℕ := 0

structure State (P : Params) extends Writes P where
  readQueue : List MemPacket := []
  respQueue : List MemPacket := []
  /-- The burst helpers that have not been deleted, by the number of their packet. -/
  helpers : ℕ → Option BurstHelper := fun _ => none
  /-- The read packets that have been accepted. -/
  packets : List Region := []
  /-- The sub-requests that are done, with the number of their packet. -/
  serviced : List (ℕ × Piece) := []
  /-- The packets `accessAndRespond` has been called for. -/
  responses : List ℕ := []

variable {P : Params}

/-! ### The write queue -/

/-- Whether a read is subsumed in a write. -/
def subsumes (w : WritePacket P.numPriorities) (p : Piece) : Bool :=
  w.piece.addr ≤ p.addr
    && (p.addr + p.size) % 2 ^ 64 ≤ (w.piece.addr + w.piece.size) % 2 ^ 64

/-- How often a read is found in the write queue. Each priority has its own vector, and finding
the read in one of them ends the search in that vector only. -/
def State.timesFound (s : State P) (p : Piece) : ℕ :=
  if burstAlign P.burstBits p.addr ∈ s.isInWriteQueue then
    (List.finRange P.numPriorities).countP fun q =>
      s.writeQueue.any fun w => w.qosValue = q && subsumes w p
  else 0

namespace Writes

def writeQueueFull (s : Writes P) (neededEntries : ℕ) : Bool :=
  P.writeBufferSize < s.totalWriteQueueSize + neededEntries

/-- One turn of the loop of `addToWriteQueue`. -/
def add (q : Fin P.numPriorities) (p : Piece) (s : Writes P) : Except Fault (Writes P) :=
  if burstAlign P.burstBits p.addr ∈ s.isInWriteQueue then .ok s
  else do
    assert (s.totalWriteQueueSize < P.writeBufferSize)
    let s : Writes P :=
      { writeQueue := s.writeQueue ++ [⟨q, p⟩]
        isInWriteQueue := insert (burstAlign P.burstBits p.addr) s.isInWriteQueue
        totalWriteQueueSize := s.totalWriteQueueSize + 1 }
    assert (s.totalWriteQueueSize = s.isInWriteQueue.card)
    .ok s

/-- The loop of `addToWriteQueue`. -/
def addToWriteQueue (q : Fin P.numPriorities) (l : List Piece) (s : Writes P) :
    Except Fault (Writes P) :=
  l.foldlM (fun s p => s.add q p) s

/-- The entry at a position of the write queue is issued to the memory. -/
def issue (i : ℕ) (s : Writes P) : Writes P :=
  match s.writeQueue[i]? with
  | none => s
  | some w =>
    { writeQueue := s.writeQueue.eraseIdx i
      isInWriteQueue := s.isInWriteQueue.erase (burstAlign P.burstBits w.piece.addr)
      totalWriteQueueSize := s.totalWriteQueueSize - 1 }

end Writes

/-! ### The read queue -/

def State.readQueueFull (s : State P) (neededEntries : ℕ) : Bool :=
  P.readBufferSize < s.readQueue.length + s.respQueue.length + neededEntries

/-- The variables of the loop of `addToReadQueue`. -/
structure ReadLoop where
  pktsServicedByWrQ : ℕ := 0
  burstHelper : Option ℕ := none

/-- Make the burst helper of a split packet, unless it has been made. -/
def makeHelper (pkt pktCount : ℕ) (v : ReadLoop) (s : State P) : ReadLoop × State P :=
  if 1 < pktCount ∧ v.burstHelper = none then
    ({ v with burstHelper := some pkt },
      { s with helpers := Function.update s.helpers pkt (some ⟨pktCount, 0⟩) })
  else (v, s)

/-- One turn of the loop of `addToReadQueue`. -/
def addRead (pkt pktCount : ℕ) (p : Piece) (v : ReadLoop) (s : State P) :
    Except Fault (ReadLoop × State P) :=
  if s.timesFound p ≠ 0 then
    .ok ({ v with pktsServicedByWrQ := v.pktsServicedByWrQ + s.timesFound p },
      { s with serviced := s.serviced ++ [(pkt, p)] })
  else do
    let (v, s) := makeHelper pkt pktCount v s
    assert (!s.readQueueFull 1)
    .ok (v, { s with readQueue := s.readQueue ++ [⟨pkt, p, v.burstHelper⟩] })

/-- The loop of `addToReadQueue`. -/
def addReads (pkt pktCount : ℕ) :
    List Piece → ReadLoop → State P → Except Fault (ReadLoop × State P)
  | [], v, s => .ok (v, s)
  | p :: l, v, s => do
      let (v, s) ← addRead pkt pktCount p v s
      addReads pkt pktCount l v s

/-- The call of `accessAndRespond` for a packet. -/
def State.accessAndRespond (pkt : ℕ) (s : State P) : State P :=
  { s with responses := pkt :: s.responses }

/-- Write what the write queue has served into the burst helper, if there is one. -/
def setServiced (v : ReadLoop) (s : State P) : Except Fault (State P) :=
  match v.burstHelper with
  | none => .ok s
  | some h => do
      let helper ← deref (s.helpers h)
      .ok { s with
        helpers := Function.update s.helpers h
          (some { helper with burstsServiced := v.pktsServicedByWrQ }) }

/-- What `addToReadQueue` does after the loop. -/
def finishRead (pkt pktCount : ℕ) (v : ReadLoop) (s : State P) : Except Fault (State P) :=
  if v.pktsServicedByWrQ = pktCount then .ok (s.accessAndRespond pkt)
  else setServiced v s

def State.accept (r : Region) (s : State P) : State P := { s with packets := s.packets ++ [r] }

def addToReadQueue (r : Region) (s : State P) : Except Fault (State P) := do
  let pktCount := r.pktCount P.burstBits
  let pkt := s.packets.length
  assert (pktCount ≠ 0)
  let (v, s) ← addReads pkt pktCount (r.subRequests P.burstBits) {} (s.accept r)
  finishRead pkt pktCount v s

/-! ### Responses -/

/-- A sub-request has come back: answer its packet, if it is the last one. -/
def serviceBurst (m : MemPacket) (s : State P) : Except Fault (State P) :=
  match m.burstHelper with
  | none => .ok (s.accessAndRespond m.pkt)
  | some h => do
      let helper ← deref (s.helpers h)
      let helper := { helper with burstsServiced := helper.burstsServiced + 1 }
      if helper.burstsServiced = helper.burstCount then
        .ok ({ s with helpers := Function.update s.helpers h none }.accessAndRespond m.pkt)
      else .ok { s with helpers := Function.update s.helpers h (some helper) }

/-- The event is scheduled only while there is a sub-request in the response queue. -/
def processRespondEvent (s : State P) : Except Fault (State P) :=
  match s.respQueue with
  | [] => .ok s
  | m :: l => serviceBurst m
      { s with respQueue := l, serviced := s.serviced ++ [(m.pkt, m.piece)] }

/-! ### Runs -/

/-- What can happen to the memory controller. -/
inductive Event (P : Params) where
  /-- A read arrives. -/
  | read (r : Region)
  /-- A write arrives, and is given a priority. -/
  | write (q : Fin P.numPriorities) (r : Region)
  /-- The entry at a position of the read queue is issued to the memory. -/
  | issueRead (i : ℕ)
  /-- The entry at a position of the write queue is issued to the memory. -/
  | issueWrite (i : ℕ)
  /-- The first sub-request of the response queue comes back. -/
  | respond

/-- A packet is refused if there is no room for its sub-requests. -/
def recvTimingReq (e : State P → Except Fault (State P)) (full : Bool) (s : State P) :
    Except Fault (State P) :=
  if full then .ok s else e s

def State.issueRead (i : ℕ) (s : State P) : State P :=
  match s.readQueue[i]? with
  | none => s
  | some m => { s with readQueue := s.readQueue.eraseIdx i, respQueue := s.respQueue ++ [m] }

def State.addToWriteQueue (q : Fin P.numPriorities) (l : List Piece) (s : State P) :
    Except Fault (State P) := do
  let writes ← s.toWrites.addToWriteQueue q l
  .ok { s with toWrites := writes }

def step (e : Event P) (s : State P) : Except Fault (State P) :=
  match e with
  | .read r => recvTimingReq (addToReadQueue r) (s.readQueueFull (r.pktCount P.burstBits)) s
  | .write q r =>
    recvTimingReq (State.addToWriteQueue q (r.subRequests P.burstBits))
      (s.writeQueueFull (r.pktCount P.burstBits)) s
  | .issueRead i => .ok (s.issueRead i)
  | .issueWrite i => .ok { s with toWrites := s.toWrites.issue i }
  | .respond => processRespondEvent s

/-! ### Sub-requests and answers -/

/-- The sub-requests of a packet that wait in a queue. -/
def waitingIn (queue : Multiset MemPacket) (pkt : ℕ) : Multiset Piece :=
  (queue.filter (·.pkt = pkt)).map (·.piece)

/-- The sub-requests of a packet that are done. -/
def doneIn (serviced : Multiset (ℕ × Piece)) (pkt : ℕ) : Multiset Piece :=
  (serviced.filter (·.1 = pkt)).map (·.2)

/-- The sub-requests that are in the read queue or in the response queue. -/
def State.queued (s : State P) : Multiset MemPacket := ↑s.readQueue + ↑s.respQueue

/-- The sub-requests of a packet are those that are done and those that wait. A packet has been
answered exactly once if none of its sub-requests waits, and not at all otherwise. -/
def State.Consistent (s : State P) : Prop :=
  ∀ i r, s.packets[i]? = some r →
    doneIn ↑s.serviced i + waitingIn s.queued i = ↑(r.subRequests P.burstBits)
      ∧ s.responses.count i = if waitingIn s.queued i = 0 then 1 else 0

theorem waitingIn_cons (m : MemPacket) (queue : Multiset MemPacket) (i : ℕ) :
  waitingIn (m ::ₘ queue) i
    = if m.pkt = i then m.piece ::ₘ waitingIn queue i else waitingIn queue i
  := by
  unfold waitingIn
  split_ifs with h
  · rw [filter_cons_of_pos queue h, map_cons]
  · rw [filter_cons_of_neg queue h]

theorem waitingIn_add (queue queue' : Multiset MemPacket) (i : ℕ) :
  waitingIn (queue + queue') i = waitingIn queue i + waitingIn queue' i
  := by rw [waitingIn, filter_add, Multiset.map_add, waitingIn, waitingIn]

theorem waitingIn_eq_zero {queue : Multiset MemPacket} {i : ℕ} :
  waitingIn queue i = 0 ↔ ∀ m ∈ queue, m.pkt ≠ i
  := by rw [waitingIn, Multiset.map_eq_zero, filter_eq_nil]

theorem waitingIn_map (pkt : ℕ) (l : List Piece) (helper : Option ℕ) (i : ℕ) :
  waitingIn ↑(l.map fun p => MemPacket.mk pkt p helper) i = if pkt = i then ↑l else 0
  := by
  induction l with
  | nil => simp [waitingIn]
  | cons p l ih =>
    rw [List.map_cons, ← cons_coe, waitingIn_cons, ih]
    split_ifs with h
    · rw [← cons_coe]
    · rfl

theorem doneIn_cons (x : ℕ × Piece) (serviced : Multiset (ℕ × Piece)) (i : ℕ) :
  doneIn (x ::ₘ serviced) i = if x.1 = i then x.2 ::ₘ doneIn serviced i else doneIn serviced i
  := by
  unfold doneIn
  split_ifs with h
  · rw [filter_cons_of_pos serviced h, map_cons]
  · rw [filter_cons_of_neg serviced h]

theorem doneIn_add (serviced serviced' : Multiset (ℕ × Piece)) (i : ℕ) :
  doneIn (serviced + serviced') i = doneIn serviced i + doneIn serviced' i
  := by rw [doneIn, filter_add, Multiset.map_add, doneIn, doneIn]

theorem doneIn_map (pkt : ℕ) (l : List Piece) (i : ℕ) :
  doneIn ↑(l.map fun p => (pkt, p)) i = if pkt = i then ↑l else 0
  := by
  induction l with
  | nil => simp [doneIn]
  | cons p l ih =>
    rw [List.map_cons, ← cons_coe, doneIn_cons, ih]
    split_ifs with h
    · rw [← cons_coe]
    · rfl

end Gem5Arc.MemCtrl
