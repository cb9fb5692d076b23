import Gem5Arc.Mem.Packet

/-!
# Miss status holding registers

The class `MSHR` of `mem/cache/mshr.cc`: the targets of an outstanding miss, and the targets that
are deferred until the response to it has been handled. A register is taken from and returned to its
queue as in `mem/cache/mshr_queue.cc`.

A target points to its packet, which has a number. A target marks the register of an upper cache
that its packet comes from, if there is one, and unmarks it later. The registers of other caches are
left out, and a packet says whether it comes from one.
-/

namespace Gem5Arc

namespace MSHR

/-- A packet as the register reads it. -/
structure Pkt extends Packet where
  id : ℕ
  isCacheClean : Bool := false
  isCacheInvalidate : Bool := false
  isUncacheable : Bool := false
  isSecure : Bool := false
  /-- The request has one of the flags that prevent the merging of writes. -/
  noMerge : Bool := false
  isExpressSnoop : Bool := false
  responderHadWritable : Bool := false
  satisfied : Bool := false
  /-- There is a register among the sender states of the packet. -/
  upstream : Bool := false

namespace Pkt

/-- `pkt->req->isCacheMaintenance()`. -/
def isCacheMaintenance (pkt : Pkt) : Bool :=
  pkt.isCacheClean || pkt.isCacheInvalidate

def needsWritable (pkt : Pkt) : Except Fault Bool := do
  assert (pkt.has .isRequest)
  pure (pkt.has .needsWritable)

def setCacheResponding (pkt : Pkt) : Except Fault Pkt := do
  assert (pkt.has .isRequest)
  assert (!pkt.cacheResponding)
  pure { pkt with cacheResponding := true }

def setResponderHadWritable (pkt : Pkt) : Except Fault Pkt := do
  assert pkt.cacheResponding
  assert (!pkt.responderHadWritable)
  pure { pkt with responderHadWritable := true }

def setSatisfied (pkt : Pkt) : Except Fault Pkt := do
  assert (pkt.has .isClean)
  assert (!pkt.satisfied)
  pure { pkt with satisfied := true }

def setHasSharers (pkt : Pkt) : Pkt :=
  { pkt with hasSharers := true }

/-- The command that replaces an upgrade. -/
def replacement : MemCmd → MemCmd
  | .upgradeReq => .readExReq
  | .scUpgradeReq => .scUpgradeFailReq
  | .storeCondReq => .storeCondFailReq
  | cmd => cmd

/-- The space for the data of the response is not modelled. -/
def replaceUpgrade (pkt : Pkt) : Except Fault Pkt := do
  let hasData := pkt.has .hasData || pkt.hasRespData
  let replaced : Pkt := { pkt with cmd := replacement pkt.cmd }
  assert (hasData || !replaced.has .hasData)
  pure replaced

/-- The copy of a snooped packet, with a number of its own. -/
def snoopCopy (willRespond : Bool) (id blkSize : ℕ) (pkt : Pkt) : Pkt :=
  { pkt with
    id
    req := if willRespond then pkt.req else { pkt.req with
      paddr := pkt.req.paddr &&& ~~~(BitVec.ofNat 64 (blkSize - 1)), size := blkSize }
    isExpressSnoop := false, responderHadWritable := false, satisfied := false
    hasSharers := false, cacheResponding := false
    upstream := willRespond && pkt.upstream }

end Pkt

inductive Source where
  | fromCPU | fromSnoop | fromPrefetcher
deriving DecidableEq

structure Target where
  pkt : Pkt
  readyTime : Tick
  order : ℕ
  source : Source
  markedPending : Bool
  allocOnFill : Bool

/-! ### Target lists -/

structure TargetList where
  list : List Target := []
  needsWritable : Bool := false
  hasUpgrade : Bool := false
  allocOnFill : Bool := false
  hasFromCache : Bool := false
  blkSize : ℕ := 0
  canMergeWrites : Bool := true
  writesBitmap : List Bool := []

namespace TargetList

def resetFlags (ts : TargetList) : TargetList :=
  { ts with
    canMergeWrites := true
    writesBitmap := List.replicate ts.writesBitmap.length false
    needsWritable := false, hasUpgrade := false, allocOnFill := false, hasFromCache := false }

def init (blkSize : ℕ) (ts : TargetList) : TargetList :=
  resetFlags { ts with blkSize, writesBitmap := List.replicate blkSize false }

def isReset (ts : TargetList) : Bool :=
  !ts.needsWritable && !ts.hasUpgrade && !ts.allocOnFill && !ts.hasFromCache && ts.canMergeWrites

def isWholeLineWrite (ts : TargetList) : Bool :=
  ts.writesBitmap.all id

/-- `std::fill` for the bytes of a write. -/
def fillWrites (offset size : ℕ) (bitmap : List Bool) : Except Fault (List Bool) :=
  if offset + size ≤ bitmap.length then
    .ok (bitmap.take offset ++ List.replicate size true ++ bitmap.drop (offset + size))
  else .error .outOfBounds

/-- The bytes that are written with those of the packet. Special writes are not merged. -/
def mergedWrites (pkt : Pkt) (ts : TargetList) : Except Fault (List Bool) :=
  if !pkt.isMaskedWrite && (ts.list.isEmpty || !pkt.noMerge) then
    fillWrites (pkt.getOffset ts.blkSize) pkt.req.size ts.writesBitmap
  else .ok ts.writesBitmap

def updateWriteFlags (pkt : Pkt) (ts : TargetList) : Except Fault TargetList :=
  if ts.isWholeLineWrite then .ok ts
  else if ts.canMergeWrites then
    if !pkt.has .isWrite then .ok { ts with canMergeWrites := false }
    else do
      let writesBitmap ← ts.mergedWrites pkt
      pure { ts with writesBitmap, canMergeWrites := ts.canMergeWrites && !pkt.noMerge }
  else .ok ts

def updateFlags (pkt : Pkt) (source : Source) (allocOnFill : Bool) (ts : TargetList) :
    Except Fault TargetList :=
  if source = .fromSnoop then .ok ts
  else do
    let needsWritable ← pkt.needsWritable
    let ts := { ts with
      needsWritable := ts.needsWritable || needsWritable
      hasUpgrade := ts.hasUpgrade || pkt.has .isUpgrade || pkt.cmd = .storeCondReq
      allocOnFill := ts.allocOnFill || allocOnFill }
    if source = .fromPrefetcher then pure ts
    else updateWriteFlags pkt { ts with hasFromCache := ts.hasFromCache || pkt.has .fromCache }

def populateFlags (ts : TargetList) : Except Fault TargetList :=
  ts.list.foldlM (fun ts t => updateFlags t.pkt t.source t.allocOnFill ts) ts.resetFlags

def add (pkt : Pkt) (readyTime : Tick) (order : ℕ) (source : Source)
    (markPending allocOnFill : Bool) (ts : TargetList) : Except Fault TargetList := do
  let ts ← updateFlags pkt source allocOnFill ts
  let markedPending := markPending && pkt.upstream
  pure { ts with list := ts.list ++ [⟨pkt, readyTime, order, source, markedPending, allocOnFill⟩] }

def replaceUpgrades (ts : TargetList) : Except Fault TargetList :=
  if !ts.hasUpgrade then .ok ts
  else do
    let list ← ts.list.mapM fun t => do
      let pkt ← t.pkt.replaceUpgrade
      pure { t with pkt }
    pure { ts with list, hasUpgrade := false }

/-- `clearDownstreamPending` for a range of targets. -/
def clearPending (targets : List Target) : List Target :=
  targets.map fun t => { t with markedPending := false }

def clearDownstreamPending (ts : TargetList) : TargetList :=
  { ts with list := clearPending ts.list }

/-- `front()`. -/
def front (ts : TargetList) : Except Fault Target :=
  deref ts.list.head?

end TargetList

end MSHR

structure MSHR where
  blkAddr : Addr := 0
  blkSize : ℕ := 0
  isSecure : Bool := false
  isUncacheable : Bool := false
  readyTime : Tick := 0
  order : ℕ := 0
  inService : Bool := false
  downstreamPending : Bool := false
  pendingModified : Bool := false
  postInvalidate : Bool := false
  postDowngrade : Bool := false
  wasWholeLineWrite : Bool := false
  isForward : Bool := false
  targets : MSHR.TargetList := {}
  deferredTargets : MSHR.TargetList := {}

namespace MSHR

variable (m : MSHR)

def hasPostInvalidate : Except Fault Bool := do
  assert m.inService
  pure m.postInvalidate

def hasPostDowngrade : Except Fault Bool := do
  assert m.inService
  pure m.postDowngrade

def getNumTargets : ℕ :=
  m.targets.list.length + m.deferredTargets.list.length

/-- A register of the free list is allocated. -/
def allocate (blkAddr : Addr) (blkSize : ℕ) (target : Pkt) (whenReady : Tick) (order : ℕ)
    (allocOnFill : Bool) : Except Fault MSHR := do
  assert (m.getNumTargets = 0)
  let source := if target.cmd = .hardPFReq then Source.fromPrefetcher else .fromCPU
  let targets ← (m.targets.init blkSize).add target whenReady order source true allocOnFill
  pure { m with
    blkAddr, blkSize, isSecure := target.isSecure, readyTime := whenReady, order
    isForward := false, wasWholeLineWrite := false, isUncacheable := target.isUncacheable
    inService := false, downstreamPending := false
    targets, deferredTargets := m.deferredTargets.init blkSize }

/-- The register is marked by the register of a lower cache that its packet is added to. -/
def markDownstreamPending : Except Fault MSHR := do
  assert (!m.downstreamPending)
  pure { m with downstreamPending := true }

def clearDownstreamPending : Except Fault MSHR := do
  assert m.downstreamPending
  pure { m with downstreamPending := false, targets := m.targets.clearDownstreamPending }

def markInService (pendingModifiedResp : Bool) : Except Fault MSHR := do
  assert (!m.inService)
  let targets := if m.downstreamPending then m.targets else m.targets.clearDownstreamPending
  pure { m with
    inService := true
    pendingModified := m.targets.needsWritable || pendingModifiedResp
    postInvalidate := false, postDowngrade := false
    targets, wasWholeLineWrite := targets.isWholeLineWrite }

/-- `MSHRQueue::markPending`. -/
def markPending : Except Fault MSHR := do
  assert m.inService
  pure { m with inService := false }

def deallocate : Except Fault MSHR := do
  assert m.targets.list.isEmpty
  assert m.deferredTargets.isReset
  pure { m with targets := m.targets.resetFlags, inService := false }

/-- Does a request in service defer a new target? -/
def inServiceDefers (pkt : Pkt) : Except Fault Bool :=
  if !m.inService then .ok false
  else if m.postInvalidate then .ok true
  else do
    let needsWritable ← pkt.needsWritable
    pure (needsWritable && (!m.pendingModified || m.postDowngrade || m.isForward))

/-- Does the new target have to be deferred? -/
def defers (pkt : Pkt) : Except Fault Bool := do
  let front ← m.targets.front
  if pkt.isCacheMaintenance || front.pkt.isCacheMaintenance
      || !m.deferredTargets.list.isEmpty then pure true
  else m.inServiceDefers pkt

/-- The packet to be deferred, after a snoop that invalidates. -/
def deferredPacket (pkt : Pkt) : Except Fault Pkt :=
  if m.inService && m.postInvalidate then pkt.replaceUpgrade else .ok pkt

/-- Add a target to the deferred ones. -/
def deferTarget (pkt : Pkt) (whenReady : Tick) (order : ℕ) (allocOnFill : Bool) :
    Except Fault MSHR := do
  let pkt ← m.deferredPacket pkt
  let deferredTargets ← m.deferredTargets.add pkt whenReady order .fromCPU true allocOnFill
  pure { m with deferredTargets }

/-- Add a target to the outstanding request. -/
def appendTarget (pkt : Pkt) (whenReady : Tick) (order : ℕ) (allocOnFill : Bool) :
    Except Fault MSHR := do
  let targets ← m.targets.add pkt whenReady order .fromCPU (!m.inService) allocOnFill
  pure { m with targets }

def allocateTarget (pkt : Pkt) (whenReady : Tick) (order : ℕ) (allocOnFill : Bool) :
    Except Fault MSHR := do
  assert (pkt.cmd ≠ .hardPFReq)
  if ← m.defers pkt then m.deferTarget pkt whenReady order allocOnFill
  else m.appendTarget pkt whenReady order allocOnFill

/-! ### Snoops -/

/-- A snoop that comes before the request of the register. -/
def snoopBefore (pkt : Pkt) : Except Fault MSHR := do
  let needsWritable ← pkt.needsWritable
  if needsWritable || pkt.isCacheInvalidate then do
    let targets ← m.targets.replaceUpgrades
    let deferredTargets ← m.deferredTargets.replaceUpgrades
    pure { m with targets, deferredTargets }
  else pure m

/-- A snoop that comes after the request replaces the upgrades that are deferred. -/
def snoopDeferred (pkt : Pkt) : Except Fault MSHR := do
  let needsWritable ← pkt.needsWritable
  if needsWritable || pkt.isCacheInvalidate then do
    let deferredTargets ← m.deferredTargets.replaceUpgrades
    pure { m with deferredTargets }
  else pure m

def snoopFlags (willRespond : Bool) (pkt : Pkt) : Except Fault Pkt :=
  if willRespond then do
    let pkt ← pkt.setCacheResponding
    pkt.setResponderHadWritable
  else if m.pendingModified && pkt.has .isClean then pkt.setSatisfied
  else .ok pkt

/-- Save a copy of the snooped packet, with the number `copyId`. -/
def snoopSave (willRespond : Bool) (pkt : Pkt) (order copyId : ℕ) (curTick : Tick) :
    Except Fault (Pkt × MSHR) := do
  let copy := pkt.snoopCopy willRespond copyId m.blkSize
  let pkt ← m.snoopFlags willRespond pkt
  let targets ← m.targets.add copy curTick order .fromSnoop
    (m.downstreamPending && m.targets.needsWritable) false
  let needsWritable ← pkt.needsWritable
  pure (pkt, { m with
    targets, postInvalidate := m.postInvalidate || needsWritable || pkt.has .isInvalidate })

/-- A packet that has to be handled again after the response is saved. -/
def snoopReplay (willRespond : Bool) (pkt : Pkt) (order copyId : ℕ) (curTick : Tick) :
    Except Fault (Pkt × MSHR) :=
  if m.pendingModified || pkt.has .isInvalidate then
    m.snoopSave willRespond pkt order copyId curTick
  else .ok (pkt, m)

/-- The last part of a snoop. -/
def snoopDowngrade (pkt : Pkt) : Except Fault (Pkt × MSHR) := do
  let needsWritable ← pkt.needsWritable
  if !needsWritable && !pkt.isUncacheable then
    pure (pkt.setHasSharers, { m with postDowngrade := true })
  else pure (pkt, m)

/-- A snoop that comes after the request of the register. -/
def snoopAfter (pkt : Pkt) (order copyId : ℕ) (curTick : Tick) :
    Except Fault (Bool × Pkt × MSHR) := do
  let m ← m.snoopDeferred pkt
  let front ← m.targets.front
  if m.postInvalidate || front.pkt.isCacheInvalidate then pure (true, pkt, m)
  else do
    let willRespond := m.pendingModified && pkt.has .needsResponse && !pkt.has .isClean
    let (pkt, m) ← m.snoopReplay willRespond pkt order copyId curTick
    let (pkt, m) ← m.snoopDowngrade pkt
    pure (willRespond, pkt, m)

/-- Returns whether the register will respond, and the snooped packet. -/
def handleSnoop (pkt : Pkt) (order copyId : ℕ) (curTick : Tick) :
    Except Fault (Bool × Pkt × MSHR) := do
  let needsWritable ← pkt.needsWritable
  panicIf (needsWritable != pkt.has .isInvalidate && !pkt.isCacheMaintenance)
    "%s got snoop %s where needsWritable, does not match isInvalidate"
  if !m.inService || (pkt.isExpressSnoop && m.downstreamPending) then do
    let m ← m.snoopBefore pkt
    pure (false, pkt, m)
  else m.snoopAfter pkt order copyId curTick

/-! ### Taking targets out -/

/-- The loop over the targets after the first one, for a response that invalidates. Returns those
that are ready and those that stay. -/
def extractSnoops : List Target → Except Fault (List Target × List Target)
  | [] => .ok ([], [])
  | t :: rest =>
    if t.source = .fromCPU then do
      let (ready, stay) ← extractSnoops rest
      pure (ready, t :: stay)
    else do
      assert (t.source = .fromSnoop)
      let (ready, stay) ← extractSnoops rest
      pure (t :: ready, stay)

/-- The first target, and all snoops. -/
def extractFirst : List Target → Except Fault (List Target × List Target)
  | [] => .error .nullPointer
  | t :: rest => do
      assert (t.source = .fromCPU || t.source = .fromPrefetcher)
      if t.pkt.cmd ≠ .lockedRMWReadReq then do
        let (ready, stay) ← extractSnoops rest
        pure (t :: ready, stay)
      else pure ([t], t :: rest)

/-- All targets, up to a locked read, which stays. -/
def extractAll : List Target → List Target × List Target
  | [] => ([], [])
  | t :: rest =>
    if t.pkt.cmd = .lockedRMWReadReq then ([t], t :: rest)
    else
      let (ready, stay) := extractAll rest
      (t :: ready, stay)

/-- The targets that a response with this command serves, and those that stay. -/
def serviceable (cmd : MemCmd) (targets : List Target) :
    Except Fault (List Target × List Target) :=
  if cmd = .readRespWithInvalidate then extractFirst targets else .ok (extractAll targets)

def extractServiceableTargets (cmd : MemCmd) : Except Fault (TargetList × MSHR) := do
  let (ready, stay) ← serviceable cmd m.targets.list
  let readyTargets ← TargetList.populateFlags { TargetList.init m.blkSize {} with list := ready }
  let targets ← TargetList.populateFlags { m.targets with list := stay }
  pure (readyTargets, { m with targets })

def popTarget : Except Fault MSHR :=
  match m.targets.list with
  | [] => .error .nullPointer
  | _ :: rest => .ok { m with targets := { m.targets with list := rest } }

/-! ### Promoting deferred targets -/

/-- The deferred targets that can be promoted, and those that stay deferred. -/
def promotable (targets deferred : List Target) : List Target × List Target :=
  match deferred with
  | [] => ([], [])
  | t :: rest =>
    if t.pkt.isCacheMaintenance then
      if targets.isEmpty then ([t], rest) else ([], t :: rest)
    else (t :: rest).span fun t => !t.pkt.isCacheMaintenance

def promoteDeferredTargets (curTick : Tick) : Except Fault (Bool × MSHR) :=
  if m.targets.list.isEmpty && m.deferredTargets.list.isEmpty then .ok (false, m)
  else do
    let (promoted, stay) := promotable m.targets.list m.deferredTargets.list
    let deferredTargets ← TargetList.populateFlags { m.deferredTargets with list := stay }
    let targets ← TargetList.populateFlags
      { m.targets with list := m.targets.list ++ promoted }
    let front ← targets.front
    pure (true, { m with
      targets, deferredTargets, order := front.order
      readyTime := max curTick front.readyTime })

/-- The targets up to the first one that fails the test, and the others. -/
def splitIf (pred : Target → Except Fault Bool) :
    List Target → Except Fault (List Target × List Target)
  | [] => .ok ([], [])
  | t :: rest => do
      if ← pred t then do
        let (promoted, stay) ← splitIf pred rest
        pure (t :: promoted, stay)
      else pure ([], t :: rest)

def promoteIf (pred : Target → Except Fault Bool) : Except Fault MSHR := do
  assert (!m.downstreamPending)
  let (promoted, stay) ← splitIf pred m.deferredTargets.list
  let deferredTargets ← TargetList.populateFlags { m.deferredTargets with list := stay }
  pure { m with
    deferredTargets
    targets := { m.targets with list := m.targets.list ++ TargetList.clearPending promoted } }

/-- The targets `promoteReadable` promotes. -/
def readable (t : Target) : Except Fault Bool := do
  assert (t.source = .fromCPU)
  if t.pkt.isCacheInvalidate then pure false
  else do
    let needsWritable ← t.pkt.needsWritable
    pure (!needsWritable)

/-- The targets `promoteWritable` promotes. -/
def writable (t : Target) : Except Fault Bool := do
  assert (t.source = .fromCPU)
  pure (!t.pkt.isCacheInvalidate)

def promoteReadable : Except Fault MSHR :=
  if m.deferredTargets.list.isEmpty then .ok m
  else do
    let postInvalidate ← m.hasPostInvalidate
    if !postInvalidate then m.promoteIf readable else pure m

/-- `!(hasPostInvalidate() || hasPostDowngrade())`. -/
def staysWritable : Except Fault Bool := do
  let postInvalidate ← m.hasPostInvalidate
  let postDowngrade ← m.hasPostDowngrade
  pure (!(postInvalidate || postDowngrade))

/-- The deferred targets are promoted for a writable response. -/
def promoteForWritable : Except Fault MSHR := do
  assert (!m.targets.needsWritable)
  promoteIf { m with targets := { m.targets with needsWritable := true } } writable

def promoteWritable : Except Fault MSHR :=
  if m.deferredTargets.list.isEmpty then .ok m
  else do
    let front ← m.deferredTargets.front
    if !m.deferredTargets.needsWritable then pure m
    else do
      let staysWritable ← m.staysWritable
      if staysWritable && !front.pkt.isCacheInvalidate then m.promoteForWritable else pure m

end MSHR

end Gem5Arc
