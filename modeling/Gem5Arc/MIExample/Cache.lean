import Gem5Arc.MIExample.Messages

/-!
# The L1 cache controller

The state machine of `MI_example-cache.sm`, for one line. A line that is in use has an entry in the
cache, or a TBE (an entry for a transaction), or both, and the state is kept in both of them. What
the processor is told and what it has asked for is the sequencer's part: a request that misses is
outstanding until the data arrives.
-/

namespace Gem5Arc.MIExample

/-- The states of a line in a cache. -/
inductive L1State where
  | I | II | M | MI | MII | IS | IM
deriving DecidableEq

inductive L1Event where
  | Load | Ifetch | Store | Data | Fwd_GETX | Inv | Replacement | Writeback_Ack | Writeback_Nack
deriving DecidableEq

inductive L1Action where
  | a_issueRequest | b_issuePUT | e_sendData | ee_sendDataFromTBE | i_allocateL1CacheBlock
  | h_deallocateL1CacheBlock | m_popMandatoryQueue | n_popResponseQueue
  | o_popForwardedRequestQueue | p_profileMiss | p_profileHit | r_load_hit | rx_load_hit
  | s_store_hit | sx_store_hit | u_writeDataToCache | forward_eviction_to_cpu | v_allocateTBE
  | w_deallocateTBE | x_copyDataFromCacheToTBE | z_stall
deriving DecidableEq

namespace L1Cache

open L1State L1Event L1Action

/-- The transitions of `MI_example-cache.sm`. -/
def transitions : List (Slicc.Transition L1State L1Event L1Action) := [
  { states := [IS, IM, MI, II, MII], events := [Load, Ifetch, Store, Replacement],
    actions := [z_stall] },
  { states := [IS, IM], events := [Fwd_GETX, Inv],
    actions := [z_stall] },
  { states := [MI], events := [Inv],
    actions := [o_popForwardedRequestQueue] },
  { states := [M], events := [Store],
    actions := [s_store_hit, p_profileHit, m_popMandatoryQueue] },
  { states := [M], events := [Load, Ifetch],
    actions := [r_load_hit, p_profileHit, m_popMandatoryQueue] },
  { states := [I], events := [Inv],
    actions := [o_popForwardedRequestQueue] },
  { states := [I], events := [Store], next := some IM,
    actions := [v_allocateTBE, i_allocateL1CacheBlock, a_issueRequest, p_profileMiss,
      m_popMandatoryQueue] },
  { states := [I], events := [Load, Ifetch], next := some IS,
    actions := [v_allocateTBE, i_allocateL1CacheBlock, a_issueRequest, p_profileMiss,
      m_popMandatoryQueue] },
  { states := [IS], events := [Data], next := some M,
    actions := [u_writeDataToCache, rx_load_hit, w_deallocateTBE, n_popResponseQueue] },
  { states := [IM], events := [Data], next := some M,
    actions := [u_writeDataToCache, sx_store_hit, w_deallocateTBE, n_popResponseQueue] },
  { states := [M], events := [Fwd_GETX], next := some I,
    actions := [e_sendData, forward_eviction_to_cpu, o_popForwardedRequestQueue] },
  { states := [I], events := [Replacement],
    actions := [h_deallocateL1CacheBlock] },
  { states := [M], events := [Replacement, Inv], next := some MI,
    actions := [v_allocateTBE, b_issuePUT, x_copyDataFromCacheToTBE, forward_eviction_to_cpu,
      h_deallocateL1CacheBlock] },
  { states := [MI], events := [Writeback_Ack], next := some I,
    actions := [w_deallocateTBE, o_popForwardedRequestQueue] },
  { states := [MI], events := [Fwd_GETX], next := some II,
    actions := [ee_sendDataFromTBE, o_popForwardedRequestQueue] },
  { states := [MI], events := [Writeback_Nack], next := some MII,
    actions := [o_popForwardedRequestQueue] },
  { states := [MII], events := [Fwd_GETX], next := some I,
    actions := [ee_sendDataFromTBE, w_deallocateTBE, o_popForwardedRequestQueue] },
  { states := [II], events := [Writeback_Nack], next := some I,
    actions := [w_deallocateTBE, o_popForwardedRequestQueue] }]

end L1Cache

variable {C D : Type} {b : ℕ}

structure L1Entry (b : ℕ) where
  cacheState : L1State := .I
  dataBlk : DataBlock b := DataBlock.clear

/-- An entry for a transaction. -/
structure L1TBE (b : ℕ) where
  tbeState : L1State := .I
  dataBlk : DataBlock b := DataBlock.clear

/-- What the processor asks for, or the cache itself: the replacement of the line. -/
inductive ProcessorRequest (b : ℕ) where
  | load
  | ifetch
  | store (store : DataBlock b → DataBlock b)
  | replacement

/-- A line in a cache, with the request for it that is outstanding in the sequencer. -/
structure L1Cache (b : ℕ) where
  entry : Option (L1Entry b) := none
  tbe : Option (L1TBE b) := none
  outstanding : Option (ProcessorRequest b) := none

/-- What the controller works on during a transition: the line, the messages it peeks at, and what
it has sent and popped. -/
structure L1Work (C D : Type) (b : ℕ) extends L1Cache b where
  forwardIn : Option (RequestMsg C D b) := none
  responseIn : Option (ResponseMsg C D b) := none
  requestsOut : List (RequestMsg C D b) := []
  responsesOut : List (ResponseMsg C D b) := []
  popped : Bool := false
  told : List (LineEvent C D b) := []

namespace L1Cache

/-- The state of the line. -/
def getState (cache : L1Cache b) : L1State :=
  match cache.tbe, cache.entry with
  | some tbe, _ => tbe.tbeState
  | none, some entry => entry.cacheState
  | none, none => .I

def setState (state : L1State) (w : L1Work C D b) : Except Fault (L1Work C D b) :=
  .ok { w with
    tbe := w.tbe.map fun tbe => { tbe with tbeState := state }
    entry := w.entry.map fun entry => { entry with cacheState := state } }

/-- `Sequencer::readCallback`: the outstanding request is served with the data. -/
def readCallback (c : C) (data : DataBlock b) (w : L1Work C D b) : L1Work C D b :=
  { w with outstanding := none, told := w.told ++ [.read c data] }

/-- `Sequencer::writeCallback`: the outstanding store is carried out on the entry. -/
def writeCallback (c : C) (entry : L1Entry b) (w : L1Work C D b) : Except Fault (L1Work C D b) :=
  match w.outstanding with
  | some (.store store) =>
    .ok { w with
      entry := some { entry with dataBlk := store entry.dataBlk }
      outstanding := none
      told := w.told ++ [.write c store] }
  | _ => .error .assertion

/-- The actions of the controller of cache `c`. -/
def perform (c : C) : L1Action → L1Work C D b → Except Fault (L1Work C D b)
  | .a_issueRequest, w =>
    .ok { w with requestsOut := w.requestsOut ++ [{ type := .GETX, requestor := .L1Cache c }] }
  | .b_issuePUT, w => do
      let entry ← Slicc.valid w.entry
      .ok { w with
        requestsOut := w.requestsOut
          ++ [{ type := .PUTX, requestor := .L1Cache c, dataBlk := entry.dataBlk }] }
  | .e_sendData, w => do
      let msg ← Slicc.valid w.forwardIn
      let entry ← Slicc.valid w.entry
      .ok { w with
        responsesOut := w.responsesOut
          ++ [{ type := .DATA, sender := .L1Cache c, destination := msg.requestor,
                dataBlk := entry.dataBlk }] }
  | .ee_sendDataFromTBE, w => do
      let msg ← Slicc.valid w.forwardIn
      let tbe ← Slicc.valid w.tbe
      .ok { w with
        responsesOut := w.responsesOut
          ++ [{ type := .DATA, sender := .L1Cache c, destination := msg.requestor,
                dataBlk := tbe.dataBlk }] }
  | .i_allocateL1CacheBlock, w => .ok { w with entry := some (w.entry.getD {}) }
  | .h_deallocateL1CacheBlock, w => .ok { w with entry := none }
  | .m_popMandatoryQueue, w => .ok { w with popped := true }
  | .n_popResponseQueue, w => .ok { w with popped := true }
  | .o_popForwardedRequestQueue, w => .ok { w with popped := true }
  | .p_profileMiss, w => .ok w
  | .p_profileHit, w => .ok w
  | .r_load_hit, w => do
      let entry ← Slicc.valid w.entry
      .ok (readCallback c entry.dataBlk w)
  | .rx_load_hit, w => do
      let entry ← Slicc.valid w.entry
      .ok (readCallback c entry.dataBlk w)
  | .s_store_hit, w => do
      let entry ← Slicc.valid w.entry
      writeCallback c entry w
  | .sx_store_hit, w => do
      let entry ← Slicc.valid w.entry
      writeCallback c entry w
  | .u_writeDataToCache, w => do
      let msg ← Slicc.valid w.responseIn
      let entry ← Slicc.valid w.entry
      .ok { w with entry := some { entry with dataBlk := msg.dataBlk } }
  | .forward_eviction_to_cpu, w => .ok w
  | .v_allocateTBE, w => do
      assert w.tbe.isNone
      .ok { w with tbe := some {} }
  | .w_deallocateTBE, w => do
      assert w.tbe.isSome
      .ok { w with tbe := none }
  | .x_copyDataFromCacheToTBE, w => do
      let entry ← Slicc.valid w.entry
      let tbe ← Slicc.valid w.tbe
      .ok { w with tbe := some { tbe with dataBlk := entry.dataBlk } }
  | .z_stall, w => .ok w

/-- The controller of cache `c`. -/
def machine (c : C) : Slicc.Machine L1State L1Event L1Action (L1Work C D b) where
  transitions := transitions
  isStall action := action = .z_stall
  perform := perform c
  getState w := w.toL1Cache.getState
  setState := setState

/-- `mandatory_request_type_to_event`, or the replacement of the line. -/
def processorEvent : ProcessorRequest b → L1Event
  | .load => .Load
  | .ifetch => .Ifetch
  | .store _ => .Store
  | .replacement => .Replacement

/-- What a replacement of the line leaves of the outstanding request, and what another request makes
of it. -/
def request (cache : L1Cache b) : ProcessorRequest b → L1Cache b
  | .replacement => cache
  | r => { cache with outstanding := some r }

def onProcessor (c : C) (cache : L1Cache b) (r : ProcessorRequest b) :
    Except Fault (Option (L1Work C D b)) :=
  (machine c).doTransition (processorEvent r) { cache.request r with }

def onForward (c : C) (cache : L1Cache b) (msg : RequestMsg C D b) :
    Except Fault (Option (L1Work C D b)) :=
  match msg.type with
  | .GETX => (machine c).doTransition .Fwd_GETX { cache with forwardIn := some msg }
  | .WB_ACK => (machine c).doTransition .Writeback_Ack { cache with forwardIn := some msg }
  | .WB_NACK => (machine c).doTransition .Writeback_Nack { cache with forwardIn := some msg }
  | .INV => (machine c).doTransition .Inv { cache with forwardIn := some msg }
  | _ => .error (.panic "Unexpected message")

def onResponse (c : C) (cache : L1Cache b) (msg : ResponseMsg C D b) :
    Except Fault (Option (L1Work C D b)) :=
  match msg.type with
  | .DATA => (machine c).doTransition .Data { cache with responseIn := some msg }
  | _ => .error (.panic "Unexpected message")

end L1Cache

end Gem5Arc.MIExample
