import Gem5Arc.Ruby.DataBlock

/-!
# The sequencer

The sequencer (`mem/ruby/system/Sequencer.cc`) sits between a CPU and the first-level cache
controller. `makeRequest` puts a packet at the end of the list of its line; only the first packet
of a line is issued to the controller, and the others wait to be served along with it. When the
controller answers with `readCallback`, `writeCallback` or `atomicCallback`, a loop takes packets
from the front of the list and calls `hitCallback` for each, until the list is empty or the packet
at the front has to be issued to the controller in its turn.

`hitCallback` may make the CPU send further packets at once, while the loop is still running. The
loop is therefore cut into steps: `Control` says whether no callback is running, a callback is about
to look at the front of its list, or it is inside a call of `hitCallback`.

`accepted` and `hits` record the packets that have been accepted and those that `hitCallback` has
been called for. The data of the packets, the load-linked monitors and the statistics are left out,
and so are requests without an address, flushes, and those of the TLB and of transactions.
-/

namespace Gem5Arc.Sequencer

/-- The types of requests that are issued for loads, stores and atomic operations. -/
inductive RequestType where
  | ld | st | ifetch | loadLinked | storeConditional | rmwRead
  | lockedRMWRead | lockedRMWWrite | atomicReturn | atomicNoReturn
deriving DecidableEq, Repr

/-- A load, a store or an atomic operation of the CPU. -/
structure Packet where
  id : ℕ
  addr : Addr
  isRead : Bool := false
  isWrite : Bool := false
  isLLSC : Bool := false
  isLockedRMW : Bool := false
  isAtomicOp : Bool := false
  isAtomicReturn : Bool := false
  isInstFetch : Bool := false
  isReadModifyWrite : Bool := false
  /-- A packet reads or writes. -/
  access : isRead || isWrite
deriving DecidableEq

/-- The protocol, the size of a line, and how many packets may be outstanding. -/
structure Params where
  lineBits : ℕ
  maxOutstandingRequests : ℤ
  useSecondaryLoadLinked : Bool := false
  useSecondaryStoreConditional : Bool := false
  protocolCHI : Bool := false

structure SequencerRequest where
  pkt : Packet
  type : RequestType
  secondType : RequestType

/-- A request to the cache controller. -/
structure RubyRequest where
  pkt : Packet
  type : RequestType
deriving DecidableEq

/-- The callback with which the controller answers a request. -/
inductive CallbackKind where
  | read | write | atomic
deriving DecidableEq, Repr

/-- A callback that is running. -/
structure Call where
  line : Addr
  kind : CallbackKind
  noCoales : Bool
  rubyRequest : Bool := true

inductive Control where
  | idle
  /-- The loop of a callback is about to look at the front of its list. -/
  | looping (c : Call)
  /-- The loop of a callback is in a call of `hitCallback`. -/
  | hitting (c : Call)

structure State where
  requestTable : Addr → Option (List SequencerRequest) := fun _ => none
  outstandingCount : ℤ := 0
  /-- The lines that are blocked for a locked read-modify-write. -/
  blocked : Addr → Bool := fun _ => false
  /-- The requests the controller has not answered. -/
  inFlight : List RubyRequest := []
  control : Control := .idle
  accepted : List Packet := []
  hits : List Packet := []

variable (P : Params)

def Packet.line (pkt : Packet) : Addr := makeLineAddress P.lineBits pkt.addr

/-! ### Requests -/

/-- The type of a request and the type it is issued with. -/
def requestTypes (pkt : Packet) : Except Fault (RequestType × RequestType) :=
  if pkt.isLLSC then
    if pkt.isWrite then
      .ok (.storeConditional, if P.useSecondaryStoreConditional then .storeConditional else .st)
    else do
      assert pkt.isRead
      .ok (.loadLinked, if P.useSecondaryLoadLinked then .loadLinked else .ld)
  else if pkt.isLockedRMW then
    if pkt.isWrite then .ok (.lockedRMWWrite, .st)
    else do
      assert pkt.isRead
      .ok (.lockedRMWRead, .st)
  else if P.protocolCHI && pkt.isAtomicOp then
    if pkt.isAtomicReturn then .ok (.atomicReturn, .atomicReturn)
    else .ok (.atomicNoReturn, .atomicNoReturn)
  else if pkt.isWrite then .ok (.st, .st)
  else if pkt.isRead then
    if pkt.isInstFetch then .ok (.ifetch, .ifetch)
    else if pkt.isReadModifyWrite then .ok (.rmwRead, .st)
    else .ok (.ld, .ld)
  else .error (.panic "Cannot convert packet to ruby request")

def State.issueRequest (pkt : Packet) (type : RequestType) (s : State) : State :=
  { s with inFlight := s.inFlight ++ [⟨pkt, type⟩] }

/-- The list of a line, which is empty if the line has no entry. -/
def State.list (s : State) (line : Addr) : List SequencerRequest :=
  (s.requestTable line).getD []

/-- `insertRequest`: the new state, and whether the packet is the first of its line. -/
def State.insertRequest (r : SequencerRequest) (s : State) : State × Bool :=
  let line := r.pkt.line P
  let l := s.list line ++ [r]
  ({ s with
      requestTable := Function.update s.requestTable line (some l)
      outstandingCount := s.outstandingCount + 1
      accepted := s.accepted ++ [r.pkt] },
    l.length ≤ 1)

def makeRequest (pkt : Packet) (s : State) : Except Fault State :=
  if P.maxOutstandingRequests ≤ s.outstandingCount then .ok s
  else do
    let (primary, secondary) ← requestTypes P pkt
    if s.blocked (pkt.line P) && primary ≠ .lockedRMWWrite then .ok s
    else
      match s.insertRequest P ⟨pkt, primary, secondary⟩ with
      | (s, true) => .ok (s.issueRequest pkt secondary)
      | (s, false) => .ok s

/-! ### Callbacks -/

def RequestType.isRead (t : RequestType) : Bool :=
  t = .ld || t = .loadLinked || t = .ifetch

def RequestType.isAtomic (t : RequestType) : Bool :=
  t = .atomicReturn || t = .atomicNoReturn

def RequestType.callbackKind (t : RequestType) : CallbackKind :=
  if t.isRead then .read else if t.isAtomic then .atomic else .write

/-- What the loop of a callback does with the request at the front of its list. -/
inductive Turn where
  /-- Issue it to the controller, and leave the loop. -/
  | reissue
  /-- Call `hitCallback`, and go on with this value of `ruby_request`. -/
  | hit (rubyRequest : Bool)

/-- A turn of the loop of `writeCallback`. -/
def writeTurn (noCoales rubyRequest : Bool) (t : RequestType) : Except Fault Turn :=
  if (noCoales || t.isAtomic) && !rubyRequest then .ok .reissue
  else do
    assert (!rubyRequest || !t.isRead && !t.isAtomic)
    if !t.isRead then .ok (.hit false)
    else do
      assert (!rubyRequest)
      .ok (.hit rubyRequest)

/-- A turn of the loop of `readCallback`. -/
def readTurn (rubyRequest : Bool) (t : RequestType) : Except Fault Turn := do
  assert (!rubyRequest || t.isRead)
  if !t.isRead then .ok .reissue else .ok (.hit false)

/-- A turn of the loop of `atomicCallback`. -/
def atomicTurn (rubyRequest : Bool) (t : RequestType) : Except Fault Turn :=
  if rubyRequest then do
    assert t.isAtomic
    .ok (.hit false)
  else .ok .reissue

def Call.turn (c : Call) (t : RequestType) : Except Fault Turn :=
  match c.kind with
  | .read => readTurn c.rubyRequest t
  | .write => writeTurn c.noCoales c.rubyRequest t
  | .atomic => atomicTurn c.rubyRequest t

/-- `writeCallback` blocks and unblocks the line of a locked read-modify-write. -/
def Call.block (c : Call) (t : RequestType) (blocked : Addr → Bool) : Addr → Bool :=
  if c.kind = .write then
    if t = .lockedRMWRead then Function.update blocked c.line true
    else if t = .lockedRMWWrite then Function.update blocked c.line false
    else blocked
  else blocked

/-- The controller answers a request. -/
def callback (r : RubyRequest) (noCoales : Bool) (s : State) : Except Fault State := do
  let line := r.pkt.line P
  assert (s.requestTable line).isSome
  .ok { s with
    inFlight := s.inFlight.erase r
    control := .looping ⟨line, r.type.callbackKind, noCoales, true⟩ }

/-- A turn of the loop of a callback, up to the call of `hitCallback`. -/
def loopTurn (c : Call) (s : State) : Except Fault State :=
  match s.requestTable c.line with
  | none => .error .nullPointer
  | some [] =>
    .ok { s with
      requestTable := Function.update s.requestTable c.line none
      control := .idle }
  | some (r :: _) => do
      match ← c.turn r.type with
      | .reissue => .ok { s.issueRequest r.pkt r.secondType with control := .idle }
      | .hit rubyRequest =>
        .ok { s with
          outstandingCount := s.outstandingCount - 1
          blocked := c.block r.type s.blocked
          hits := s.hits ++ [r.pkt]
          control := .hitting { c with rubyRequest := rubyRequest } }

/-- The return from `hitCallback`, after which the request is taken from the list. -/
def hitReturn (c : Call) (s : State) : Except Fault State :=
  match s.requestTable c.line with
  | some (_ :: l) =>
    .ok { s with
      requestTable := Function.update s.requestTable c.line (some l)
      control := .looping c }
  | _ => .error .nullPointer

/-! ### Runs -/

/-- What can happen to the sequencer. -/
inductive Label where
  /-- The CPU sends a packet. -/
  | request (pkt : Packet)
  /-- The controller answers a request, with `noCoales` if it is a `writeCallback`. -/
  | callback (r : RubyRequest) (noCoales : Bool)
  /-- The callback goes on with its loop. -/
  | turn
  /-- A call of `hitCallback` returns. -/
  | hitReturn

def Label.isRequest : Label → Bool
  | .request _ => true
  | _ => false

def step (l : Label) (s : State) : Except Fault State :=
  match l, s.control with
  | .request pkt, _ => makeRequest P pkt s
  | .callback r noCoales, _ => Sequencer.callback P r noCoales s
  | .turn, .looping c => loopTurn c s
  | .hitReturn, .hitting c => Sequencer.hitReturn c s
  | _, _ => .ok s

/-- Packets are sent between callbacks or from inside a call of `hitCallback`. The controller
answers a request that it has been issued and that it has not answered, and callbacks do not
overlap. -/
def Legal (l : Label) (s : State) : Prop :=
  match l with
  | .request _ => s.control = .idle ∨ ∃ c, s.control = .hitting c
  | .callback r _ => s.control = .idle ∧ r ∈ s.inFlight
  | .turn => ∃ c, s.control = .looping c
  | .hitReturn => ∃ c, s.control = .hitting c

end Gem5Arc.Sequencer
