import Gem5Arc.Basic

/-!
# Prefetchers with a queue

The class `Queued` of `mem/cache/prefetch/queued.cc`. A prefetch that stays on the page of its
access is queued with its physical address. One that crosses the page waits in another queue until
its address is translated. The translation calls back the object it was started for, by its address,
so the elements of the queues are objects with addresses. A swap of two elements exchanges the
contents of two objects.

The translations that were started and are not complete are those in flight. The unit that
translates can answer at once, while the translation is started, or later.

The prefetches of an access are what a subclass calculates, so a notification is a run of
insertions, after the queued prefetches of the block were dropped. Statistics are left out.
-/

namespace Gem5Arc.Queued

structure Config where
  queueSize : ℕ
  missingTranslationQueueSize : ℕ
  /-- The latency, in ticks. -/
  latency : Tick
  queueSquash : Bool
  queueFilter : Bool
  cacheSnoop : Bool
  useVirtualAddresses : Bool
  blkSize : Addr
  pageBytes : Addr

/-- What the prefetcher knows about a prefetch. -/
structure PrefetchInfo where
  addr : Addr
  isSecure : Bool
deriving DecidableEq

def PrefetchInfo.sameAddr (p q : PrefetchInfo) : Bool :=
  p.addr = q.addr && p.isSecure = q.isSecure

/-- The contents of a deferred packet, with the number of the prefetch. A translation request is its
virtual address, and a packet its physical address. -/
structure DeferredPacket where
  id : ℕ
  pfInfo : PrefetchInfo
  tick : Tick
  pkt : Option Addr
  priority : ℤ
  translationRequest : Option Addr
  ongoingTranslation : Bool

/-- An object in a queue. -/
structure Node where
  obj : ℕ
  dp : DeferredPacket

/-- A translation in flight: the object it calls back, and the prefetch it is for. -/
structure InFlight where
  obj : ℕ
  id : ℕ
deriving DecidableEq

structure State where
  pfq : List Node := []
  pfqMissingTranslation : List Node := []
  inFlight : List InFlight := []
  nextObj : ℕ := 0
  nextId : ℕ := 0

variable (cfg : Config)

def blockAddress (a : Addr) : Addr :=
  a &&& ~~~(cfg.blkSize - 1)

def pageAddress (a : Addr) : Addr :=
  a &&& ~~~(cfg.pageBytes - 1)

def samePage (a b : Addr) : Bool :=
  pageAddress cfg a = pageAddress cfg b

/-! ### Queues -/

/-- How many elements before the last one have its priority, counted from the end. The elements
before the last one are given in reverse. -/
def sameLevel (last : Node) (before : List Node) : ℕ :=
  (before.takeWhile fun n => n.dp.priority = last.dp.priority).length

/-- The position of the oldest element of the lowest priority, for a queue given in reverse. -/
def victim : List Node → Except Fault ℕ
  | [] => .error (.panic "Prefetch queue is both full and empty!")
  | [_] => .error (.panic "Prefetch queue is full with 1 element!")
  | last :: before => .ok (before.length - sameLevel last before)

/-- Drop an element of a full queue. -/
def makeRoom (queue : List Node) : Except Fault (List Node) :=
  if queue.length = cfg.queueSize then do
    let it ← victim queue.reverse
    pure (queue.eraseIdx it)
  else .ok queue

/-- The position to which the walk from the end goes, for a queue given in reverse. -/
def walk (priority : ℤ) : List Node → ℕ
  | [] => 0
  | n :: before =>
    if !before.isEmpty && priority > n.dp.priority then walk priority before else before.length

/-- The position before which a packet is inserted. -/
def insertPosition (priority : ℤ) (queue : List Node) : ℕ :=
  match queue.getLast? with
  | none => 0
  | some back =>
    if priority ≤ back.dp.priority then queue.length
    else
      let it := walk priority queue.reverse
      if it = 0 ∧ queue.head?.any (fun n => priority ≤ n.dp.priority) then 1 else it

/-- Insert a copy of the packet, in a new object. -/
def addToQueue (obj : ℕ) (dpp : DeferredPacket) (queue : List Node) : Except Fault (List Node) := do
  let queue ← makeRoom cfg queue
  let it := insertPosition dpp.priority queue
  pure (queue.take it ++ ⟨obj, dpp⟩ :: queue.drop it)

/-- The loop that swaps a packet with the packets of a lower priority before it, which are given in
reverse. The packet is now in the object `slot`. Returns what is there in the end, and the elements
before it. -/
def swapUp (slot : ℕ) (dp : DeferredPacket) : List Node → Node × List Node
  | [] => (⟨slot, dp⟩, [])
  | prev :: before =>
    if dp.priority > prev.dp.priority then
      let (there, before) := swapUp prev.obj dp before
      (⟨slot, prev.dp⟩, there :: before)
    else
      let (there, before) := swapUp slot dp before
      (there, prev :: before)

/-- Update the priority of the element after the first `before` ones. -/
def raisePriority (priority : ℤ) (before : List Node) : List Node → List Node
  | [] => before
  | it :: after =>
    if it.dp.priority < priority then
      let (there, before) := swapUp it.obj { it.dp with priority } before.reverse
      before.reverse ++ there :: after
    else before ++ it :: after

/-- Is the address already in the queue? The iterator is one past the element that was found, and it
is the element there whose priority is updated. -/
def alreadyInQueue (pfi : PrefetchInfo) (priority : ℤ) (queue : List Node) : Bool × List Node :=
  match queue.findIdx? fun n => n.dp.pfInfo.sameAddr pfi with
  | none => (false, queue)
  | some i => (true, raisePriority priority (queue.take (i + 1)) (queue.drop (i + 1)))

/-! ### Translations -/

/-- The answer to a translation: the physical address, unless it failed, and whether the block there
is in the cache or in a miss queue. -/
structure Answer where
  paddr : Option Addr
  redundant : Bool

def queueTranslated (answer : Answer) (curTick : Tick) (dp : DeferredPacket) (s : State) :
    Except Fault State :=
  match answer.paddr with
  | none => .ok s
  | some paddr =>
    if cfg.cacheSnoop && answer.redundant then .ok s
    else do
      let dp := { dp with pkt := some paddr, tick := curTick + cfg.latency }
      let pfq ← addToQueue cfg s.nextObj dp s.pfq
      pure { s with pfq, nextObj := s.nextObj + 1 }

def translationComplete (obj : ℕ) (answer : Answer) (curTick : Tick) (s : State) :
    Except Fault State :=
  match s.pfqMissingTranslation.find? fun n => n.obj = obj with
  | none => .error .assertion
  | some it => do
      let s ← queueTranslated cfg answer curTick it.dp s
      pure { s with
        pfqMissingTranslation := s.pfqMissingTranslation.filter fun n => n.obj ≠ obj }

def setOngoing (ongoing : Bool) (dp : DeferredPacket) : DeferredPacket :=
  { dp with ongoingTranslation := ongoing }

/-- Change the contents of an object. -/
def updateObject (obj : ℕ) (f : DeferredPacket → DeferredPacket) (queue : List Node) : List Node :=
  queue.map fun n => if n.obj = obj then { n with dp := f n.dp } else n

/-- The answer to a translation is delivered to its object. The object is read if it is still
there. -/
def finish (obj : ℕ) (answer : Answer) (curTick : Tick) (s : State) : Except Fault State := do
  assert ((s.pfqMissingTranslation.find? fun n => n.obj = obj).all fun n => n.dp.ongoingTranslation)
  translationComplete cfg obj answer curTick { s with
    inFlight := s.inFlight.filter fun f => f.obj ≠ obj
    pfqMissingTranslation := updateObject obj (setOngoing false) s.pfqMissingTranslation }

/-- Start the translation of an element. The answer is given if it comes at once. -/
def startTranslation (n : Node) (now : Option Answer) (curTick : Tick) (s : State) :
    Except Fault State := do
  assert n.dp.translationRequest.isSome
  if n.dp.ongoingTranslation then pure s
  else
    let started := { s with
      inFlight := ⟨n.obj, n.dp.id⟩ :: s.inFlight
      pfqMissingTranslation := updateObject n.obj (setOngoing true) s.pfqMissingTranslation }
    match now with
    | none => pure started
    | some answer => finish cfg n.obj answer curTick started

/-- The loop of `processMissingTranslations`. An element is erased only by its own translation. -/
def startAll (now : ℕ → Option Answer) (curTick : Tick) : List Node → State → Except Fault State
  | [], s => .ok s
  | n :: rest, s => do
      let s ← startTranslation cfg n (now n.obj) curTick s
      startAll now curTick rest s

def processMissingTranslations (max : ℕ) (now : ℕ → Option Answer) (curTick : Tick) (s : State) :
    Except Fault State :=
  startAll cfg now curTick (s.pfqMissingTranslation.take max) s

/-! ### Accesses -/

/-- The request of an access. -/
structure Access where
  paddr : Addr
  vaddr : Option Addr
  hasContextId : Bool

/-- Drop the queued prefetches of a block. -/
def squash (addr : Addr) (isSecure : Bool) (s : State) : State :=
  if cfg.queueSquash then
    { s with pfq := s.pfq.filter fun n =>
        !(blockAddress cfg n.dp.pfInfo.addr = blockAddress cfg addr
          && n.dp.pfInfo.isSecure = isSecure) }
  else s

inductive Destination where
  | dropped
  | physical (paddr : Addr)
  | translate (vaddr : Addr)

/-- The address `stride` after or before another one, where `addr` is the stride from `orig`. -/
def moved (orig addr base : Addr) : Addr :=
  if addr ≥ orig then base + (addr - orig) else base - (orig - addr)

/-- The address that the prefetcher is trained with. -/
def trainedAddr (access : Access) : Except Fault Addr :=
  if cfg.useVirtualAddresses then
    match access.vaddr with
    | some vaddr => .ok vaddr
    | none => .error .assertion
  else .ok access.paddr

/-- The computation of the physical address, or of the address to be translated. -/
def destination (access : Access) (pfi : PrefetchInfo) : Except Fault Destination := do
  let orig ← trainedAddr cfg access
  if samePage cfg orig pfi.addr then
    if cfg.useVirtualAddresses then pure (.physical (moved orig pfi.addr access.paddr))
    else pure (.physical pfi.addr)
  else if !access.hasContextId then pure .dropped
  else if cfg.useVirtualAddresses then pure (.translate pfi.addr)
  else
    match access.vaddr with
    | some vaddr => pure (.translate (moved orig pfi.addr vaddr))
    | none => pure .dropped

/-- Put a new prefetch into its queue. The argument `inCache` says which blocks are in the cache or
in a miss queue. -/
def enqueue (pfi : PrefetchInfo) (priority : ℤ) (inCache : Addr → Bool → Bool) (curTick : Tick)
    (s : State) : Destination → Except Fault State
  | .dropped => .ok s
  | .physical paddr =>
    if cfg.cacheSnoop && inCache paddr pfi.isSecure then .ok s
    else do
      let pfq ← addToQueue cfg s.nextObj
        ⟨s.nextId, pfi, curTick + cfg.latency, some paddr, priority, none, false⟩ s.pfq
      pure { s with pfq, nextObj := s.nextObj + 1, nextId := s.nextId + 1 }
  | .translate vaddr => do
      let pfqMissingTranslation ← addToQueue cfg s.nextObj
        ⟨s.nextId, pfi, 0, none, priority, some vaddr, false⟩ s.pfqMissingTranslation
      pure { s with pfqMissingTranslation, nextObj := s.nextObj + 1, nextId := s.nextId + 1 }

/-- Queue a prefetch that is not filtered out. -/
def insertNew (access : Access) (pfi : PrefetchInfo) (priority : ℤ)
    (inCache : Addr → Bool → Bool) (curTick : Tick) (s : State) : Except Fault State := do
  let destination ← destination cfg access pfi
  enqueue cfg pfi priority inCache curTick s destination

def insert (access : Access) (pfi : PrefetchInfo) (priority : ℤ) (inCache : Addr → Bool → Bool)
    (curTick : Tick) (s : State) : Except Fault State :=
  if cfg.queueFilter then
    match alreadyInQueue pfi priority s.pfq with
    | (true, pfq) => .ok { s with pfq }
    | (false, _) =>
      match alreadyInQueue pfi priority s.pfqMissingTranslation with
      | (true, pfqMissingTranslation) => .ok { s with pfqMissingTranslation }
      | (false, _) => insertNew cfg access pfi priority inCache curTick s
  else insertNew cfg access pfi priority inCache curTick s

def issue (now : ℕ → Option Answer) (curTick : Tick) (s : State) :
    Except Fault (Option Addr × State) :=
  match s.pfq with
  | [] => .ok (none, s)
  | n :: rest =>
    match n.dp.pkt with
    | none => .error .assertion
    | some paddr => do
        let s ← processMissingTranslations cfg (cfg.queueSize - rest.length) now curTick
          { s with pfq := rest }
        pure (some paddr, s)

def getPacket (now : ℕ → Option Answer) (curTick : Tick) (s : State) :
    Except Fault (Option Addr × State) :=
  if s.pfq.isEmpty then do
    let s ← processMissingTranslations cfg cfg.queueSize now curTick s
    issue cfg now curTick s
  else issue cfg now curTick s

end Gem5Arc.Queued
