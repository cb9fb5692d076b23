import Gem5Arc.Basic
import Gem5Arc.Lib.Heap

/-!
# Message buffers

The buffers `MessageBuffer` that carry messages between the controllers and the network of Ruby.
Messages wait in a binary heap, ordered by the time of their arrival, and among those of the same
time by the number they get when they are enqueued. The receiver can stall the first message: it
is put aside in a list for an address, until the messages of this address are reanalyzed and go
back to the heap.

A message is in one buffer at a time, so a pointer to a message is its contents. The heap
operations of the C++ library are a parameter. The counters of `unsigned int` wrap around, and
those with 64 bits do not. Left out are the statistics, the wake-ups of the consumer, the dequeue
callback and deferred messages.
-/

namespace Gem5Arc

variable {M : Type}

/-- A message, with the payload `M` of its class. -/
structure Message (M : Type) where
  payload : M
  /-- When the message arrives. -/
  lastEnqueueTime : Tick
  delayedTicks : Tick := 0
  /-- The number the message got when it was enqueued. -/
  msgCounter : ℕ := 0
deriving DecidableEq

namespace Message

/-- The operator `>` of pointers to messages. -/
def gt (l r : Message M) : Bool :=
  if l.lastEnqueueTime == r.lastEnqueueTime then l.msgCounter > r.msgCounter
  else l.lastEnqueueTime > r.lastEnqueueTime

/-- What decides the order of messages. -/
def key (m : Message M) : ℕ ×ₗ ℕ := toLex (m.lastEnqueueTime, m.msgCounter)

theorem gt_iff (l r : Message M) :
  l.gt r = true ↔ r.key < l.key
  := by
  rw [gt, key, key, Prod.Lex.toLex_lt_toLex]
  split_ifs with h
  · simp_all
  · simp only [beq_iff_eq] at h
    simp [Ne.symm h]

/-- Update the delay this message has experienced so far. -/
def updateDelayedTicks (curTime : Tick) (m : Message M) : Except Fault (Message M) := do
  assert (m.lastEnqueueTime ≤ curTime)
  pure { m with delayedTicks := m.delayedTicks + (curTime - m.lastEnqueueTime) }

end Message

/-- When a buffer delays messages at random. -/
inductive MessageRandomization where
  | disabled
  | enabled
  | rubySystem
deriving DecidableEq

structure BufferParams where
  /-- The maximum number of messages, or 0 for an infinite buffer. -/
  maxSize : BitVec 32
  /-- The maximum number of messages dequeued per cycle, or 0 for no limit. -/
  maxDequeueRate : BitVec 32
  strictFifo : Bool
  randomization : MessageRandomization
  allowZeroLatency : Bool

/-- The stalled messages, by line address. The entries are sorted by their addresses. -/
abbrev StallMsgMap (M : Type) : Type := List (Addr × List (Message M))

namespace StallMsgMap

/-- Add a message at the end of the list for an address. -/
def pushBack (addr : Addr) (m : Message M) : StallMsgMap M → StallMsgMap M
  | [] => [(addr, [m])]
  | (a, ms) :: map =>
    if addr < a then (addr, [m]) :: (a, ms) :: map
    else if addr = a then (a, ms ++ [m]) :: map
    else (a, ms) :: pushBack addr m map

/-- The list for an address, if there is one. -/
def find (addr : Addr) : StallMsgMap M → Option (List (Message M))
  | [] => none
  | (a, ms) :: map => if addr = a then some ms else find addr map

/-- Remove the list for an address. -/
def erase (addr : Addr) : StallMsgMap M → StallMsgMap M
  | [] => []
  | (a, ms) :: map => if addr = a then map else (a, ms) :: erase addr map

def messages (map : StallMsgMap M) : List (Message M) := map.flatMap Prod.snd

end StallMsgMap

/-- A buffer, with the values its constructor gives. -/
structure MessageBuffer (M : Type) where
  prioHeap : List (Message M) := []
  stallMsgMap : StallMsgMap M := []
  stallMapSize : ℤ := 0
  dequeuesThisCy : BitVec 32 := 0
  timeLastTimeEnqueue : Tick := 0
  timeLastTimePop : Tick := 0
  lastArrivalTime : Tick := 0
  sizeAtCycleStart : BitVec 32 := 0
  stalledAtCycleStart : BitVec 32 := 0
  msgsThisCycle : BitVec 32 := 0
  msgCounter : ℕ := 0
  lastMessageStrictFifoBypassed : Bool := false

/-- The arguments of `enqueue`, and what `random_time` returns. -/
structure EnqueueArgs where
  currentTime : Tick
  delta : Tick
  rubyIsRandom : Bool := false
  rubyWarmup : Bool := false
  bypassStrictFIFO : Bool := false
  randomTime : Tick := 0

namespace MessageBuffer

variable (H : Lib.HeapOps (Message.gt (M := M))) (p : BufferParams)

/-! ### Capacity -/

/-- The number of messages that the sender takes to be in the buffer: dequeued messages count until
the end of the cycle. -/
def currentSize (currentTime : Tick) (b : MessageBuffer M) : BitVec 32 :=
  if b.timeLastTimePop < currentTime then BitVec.ofNat 32 b.prioHeap.length
  else if b.timeLastTimeEnqueue < currentTime then b.sizeAtCycleStart
  else b.sizeAtCycleStart + b.msgsThisCycle

/-- The number of messages that the sender takes to be stalled. -/
def currentStallSize (currentTime : Tick) (b : MessageBuffer M) : BitVec 32 :=
  if b.timeLastTimePop < currentTime then BitVec.ofInt 32 b.stallMapSize
  else b.stalledAtCycleStart

/-- Whether there is room for more messages. -/
def areNSlotsAvailable (n : BitVec 32) (currentTime : Tick) (b : MessageBuffer M) : Bool :=
  if p.maxSize = 0 then true
  else decide (b.currentSize currentTime + b.currentStallSize currentTime + n ≤ p.maxSize)

/-! ### Enqueuing -/

/-- Count a message that is enqueued, anew for the first one of a cycle. -/
def countMessage (currentTime : Tick) (b : MessageBuffer M) : MessageBuffer M :=
  let first := b.timeLastTimeEnqueue < currentTime
  { b with
    msgsThisCycle := (if first then 0 else b.msgsThisCycle) + 1
    timeLastTimeEnqueue := if first then currentTime else b.timeLastTimeEnqueue
    msgCounter := b.msgCounter + 1 }

/-- Whether the message arrives at random. -/
def isRandom (a : EnqueueArgs) : Bool :=
  !(p.randomization = .disabled || (p.randomization = .rubySystem && !a.rubyIsRandom))

/-- The time of the last arrival, which a strict buffer with random delays sets anew. -/
def baseArrivalTime (a : EnqueueArgs) (b : MessageBuffer M) : Tick :=
  if isRandom p a && p.strictFifo then max b.lastArrivalTime a.currentTime else b.lastArrivalTime

/-- The first cycle in which the message can be dequeued. -/
def arrivalTime (a : EnqueueArgs) (b : MessageBuffer M) : Tick :=
  if isRandom p a then
    if p.strictFifo then b.baseArrivalTime p a + a.randomTime
    else a.currentTime + a.randomTime
  else a.currentTime + a.delta

/-- Put a message into the heap, up to the check of the capacity. -/
def insert (m : Message M) (a : EnqueueArgs) (b : MessageBuffer M) :
    Except Fault (MessageBuffer M) := do
  let b := b.countMessage a.currentTime
  panicIf (a.delta == 0 && !p.allowZeroLatency)
    "Delta equals zero and allow_zero_latency is false during enqueue"
  let arrival := b.arrivalTime p a
  assert (arrival ≥ a.currentTime)
  panicIf (p.strictFifo && !(a.bypassStrictFIFO || b.lastMessageStrictFifoBypassed)
      && arrival < b.baseArrivalTime p a)
    ("FIFO ordering violated: %s name: %s current time: %d delta: %d arrival_time: %d "
      ++ "last arrival_time: %d\n")
  assert (a.currentTime ≥ m.lastEnqueueTime)
  let m ← m.updateDelayedTicks a.currentTime
  pure
    { b with
      lastArrivalTime := if a.rubyWarmup then b.baseArrivalTime p a else arrival
      lastMessageStrictFifoBypassed := a.bypassStrictFIFO
      prioHeap := H.pushHeap
        (b.prioHeap ++ [{ m with lastEnqueueTime := arrival, msgCounter := b.msgCounter }]) }

/-- The number of messages, also of those that are stalled. -/
def size (b : MessageBuffer M) : ℤ := b.prioHeap.length + b.stallMapSize

/-- The buffer has no more messages than it may have. -/
def fits (b : MessageBuffer M) : Bool := p.maxSize = 0 || b.size ≤ p.maxSize.toNat

def enqueue (m : Message M) (a : EnqueueArgs) (b : MessageBuffer M) :
    Except Fault (MessageBuffer M) := do
  let b ← b.insert H p m a
  assert (b.fits p)
  pure b

/-! ### Dequeuing -/

/-- Whether the first message can be dequeued. -/
def isReady (currentTime : Tick) (b : MessageBuffer M) : Except Fault Bool := do
  assert (b.timeLastTimePop ≤ currentTime)
  let canDequeue := p.maxDequeueRate = 0 || b.timeLastTimePop < currentTime
    || b.dequeuesThisCy < p.maxDequeueRate
  let isReady :=
    match b.prioHeap.head? with
    | none => false
    | some m => decide (m.lastEnqueueTime ≤ currentTime)
  pure (canDequeue && isReady)

/-- Count a message that is dequeued. The first one of a cycle records the size of the buffer. -/
def countDequeue (currentTime : Tick) (b : MessageBuffer M) : MessageBuffer M :=
  let first := b.timeLastTimePop < currentTime
  { b with
    sizeAtCycleStart := if first then BitVec.ofNat 32 b.prioHeap.length else b.sizeAtCycleStart
    stalledAtCycleStart :=
      if first then BitVec.ofInt 32 b.stallMapSize else b.stalledAtCycleStart
    timeLastTimePop := if first then currentTime else b.timeLastTimePop
    dequeuesThisCy := (if first then 0 else b.dequeuesThisCy) + 1 }

/-- Dequeue the first message. The result has this message, with its total delay. -/
def dequeue (currentTime : Tick) (b : MessageBuffer M) :
    Except Fault (Message M × MessageBuffer M) := do
  let ready ← b.isReady p currentTime
  assert ready
  let m ← deref b.prioHeap.head?
  let m ← m.updateDelayedTicks currentTime
  let b := b.countDequeue currentTime
  pure (m, { b with prioHeap := (H.popHeap b.prioHeap).dropLast })

/-- Put the first message at the end of the heap, with a later time. -/
def recycle (currentTime recycleLatency : Tick) (b : MessageBuffer M) :
    Except Fault (MessageBuffer M) := do
  let ready ← b.isReady p currentTime
  assert ready
  let node ← deref b.prioHeap.head?
  let node := { node with lastEnqueueTime := currentTime + recycleLatency }
  pure { b with prioHeap := H.pushHeap ((H.popHeap b.prioHeap).dropLast ++ [node]) }

/-! ### Stalling -/

/-- Dequeue the first message and put it aside. -/
def stallMessage (addr : Addr) (currentTime : Tick) (b : MessageBuffer M) :
    Except Fault (MessageBuffer M) := do
  let ready ← b.isReady p currentTime
  assert ready
  let (m, b) ← b.dequeue H p currentTime
  if b.stallMapSize = 2 ^ 31 - 1 then .error .overflow
  else
    pure
      { b with
        stallMsgMap := b.stallMsgMap.pushBack addr m
        stallMapSize := b.stallMapSize + 1 }

/-- Put messages back on the heap. -/
def reanalyzeList (schdTick : Tick) : List (Message M) → MessageBuffer M →
    Except Fault (MessageBuffer M)
  | [], b => .ok b
  | m :: lt, b => do
      assert (m.lastEnqueueTime ≤ schdTick)
      reanalyzeList schdTick lt { b with prioHeap := H.pushHeap (b.prioHeap ++ [m]) }

/-- Put the messages of one entry of the map back on the heap. -/
def reanalyzeEntry (currentTime : Tick) (lt : List (Message M)) (b : MessageBuffer M) :
    Except Fault (MessageBuffer M) := do
  let b := { b with stallMapSize := b.stallMapSize - lt.length }
  assert (b.stallMapSize ≥ 0)
  b.reanalyzeList H currentTime lt

/-- Put all stalled messages of an address back on the heap. -/
def reanalyzeMessages (addr : Addr) (currentTime : Tick) (b : MessageBuffer M) :
    Except Fault (MessageBuffer M) :=
  match b.stallMsgMap.find addr with
  | none => .error .assertion
  | some lt => do
      let b ← b.reanalyzeEntry H currentTime lt
      pure { b with stallMsgMap := b.stallMsgMap.erase addr }

/-- Put all stalled messages back on the heap. -/
def reanalyzeAllMessages (currentTime : Tick) (b : MessageBuffer M) :
    Except Fault (MessageBuffer M) := do
  let b ← b.stallMsgMap.foldlM (fun b entry => b.reanalyzeEntry H currentTime entry.2) b
  pure { b with stallMsgMap := [] }

/-! ### Calls -/

variable (M) in
/-- A call of a buffer. -/
inductive Op where
  | enqueue (m : Message M) (a : EnqueueArgs)
  | dequeue (currentTime : Tick)
  | recycle (currentTime recycleLatency : Tick)
  | stallMessage (addr : Addr) (currentTime : Tick)
  | reanalyzeMessages (addr : Addr) (currentTime : Tick)
  | reanalyzeAllMessages (currentTime : Tick)

/-- The time at which the call is made. -/
def Op.time : Op M → Tick
  | .enqueue _ a => a.currentTime
  | .dequeue currentTime => currentTime
  | .recycle currentTime _ => currentTime
  | .stallMessage _ currentTime => currentTime
  | .reanalyzeMessages _ currentTime => currentTime
  | .reanalyzeAllMessages currentTime => currentTime

def call : Op M → MessageBuffer M → Except Fault (MessageBuffer M)
  | .enqueue m a, b => b.enqueue H p m a
  | .dequeue currentTime, b => Prod.snd <$> b.dequeue H p currentTime
  | .recycle currentTime recycleLatency, b => b.recycle H p currentTime recycleLatency
  | .stallMessage addr currentTime, b => b.stallMessage H p addr currentTime
  | .reanalyzeMessages addr currentTime, b => b.reanalyzeMessages H addr currentTime
  | .reanalyzeAllMessages currentTime, b => b.reanalyzeAllMessages H currentTime

end MessageBuffer

end Gem5Arc
