import Gem5Arc.MIExample.Messages

/-!
# The directory controller

The state machine of `MI_example-dir.sm`, for one line. The directory has an entry with the state
and the owner of the line, and during a transaction a TBE. A request that cannot be served yet is
recycled: it goes back into its queue.
-/

namespace Gem5Arc.MIExample

inductive DirState where
  | I | M | M_DRD | M_DWR | M_DWRI | M_DRDI | IM | MI | ID | ID_W
deriving DecidableEq

inductive DirEvent where
  | GETX | GETS | PUTX | PUTX_NotOwner | DMA_READ | DMA_WRITE | Memory_Data | Memory_Ack
deriving DecidableEq

inductive DirAction where
  | l_sendWriteBackAck | b_sendWriteBackNack | c_clearOwner | d_sendData | dr_sendDMAData
  | drp_sendDMAData | da_sendDMAAck | e_ownerIsRequestor | f_forwardRequest
  | inv_sendCacheInvalidate | i_popIncomingRequestQueue | p_popIncomingDMARequestQueue
  | v_allocateTBE | r_allocateTbeForDmaRead | v_allocateTBEFromRequestNet | w_deallocateTBE
  | z_recycleRequestQueue | y_recycleDMARequestQueue | qf_queueMemoryFetchRequest
  | qf_queueMemoryFetchRequestDMA | qw_queueMemoryWBRequest_partial
  | qw_queueMemoryWBRequest_partialTBE | l_queueMemoryWBRequest | l_popMemQueue

namespace Directory

open DirState DirEvent DirAction

/-- The transitions of `MI_example-dir.sm`. -/
def transitions : List (Slicc.Transition DirState DirEvent DirAction) := [
  { states := [M_DRD, M_DWR, M_DWRI, M_DRDI], events := [GETX],
    actions := [z_recycleRequestQueue] },
  { states := [IM, MI, ID, ID_W], events := [GETX, GETS, PUTX, PUTX_NotOwner],
    actions := [z_recycleRequestQueue] },
  { states := [IM, MI, ID, ID_W, M_DRDI], events := [DMA_READ, DMA_WRITE],
    actions := [y_recycleDMARequestQueue] },
  { states := [I], events := [GETX], next := some IM,
    actions := [v_allocateTBEFromRequestNet, qf_queueMemoryFetchRequest, e_ownerIsRequestor,
      i_popIncomingRequestQueue] },
  { states := [IM], events := [Memory_Data], next := some M,
    actions := [d_sendData, w_deallocateTBE, l_popMemQueue] },
  { states := [I], events := [DMA_READ], next := some ID,
    actions := [r_allocateTbeForDmaRead, qf_queueMemoryFetchRequestDMA,
      p_popIncomingDMARequestQueue] },
  { states := [ID], events := [Memory_Data], next := some I,
    actions := [dr_sendDMAData, w_deallocateTBE, l_popMemQueue] },
  { states := [I], events := [DMA_WRITE], next := some ID_W,
    actions := [v_allocateTBE, qw_queueMemoryWBRequest_partial, p_popIncomingDMARequestQueue] },
  { states := [ID_W], events := [Memory_Ack], next := some I,
    actions := [da_sendDMAAck, w_deallocateTBE, l_popMemQueue] },
  { states := [M], events := [DMA_READ], next := some M_DRD,
    actions := [v_allocateTBE, inv_sendCacheInvalidate, p_popIncomingDMARequestQueue] },
  { states := [M_DRD], events := [PUTX], next := some M_DRDI,
    actions := [drp_sendDMAData, c_clearOwner, l_queueMemoryWBRequest, i_popIncomingRequestQueue] },
  { states := [M_DRDI], events := [Memory_Ack], next := some I,
    actions := [l_sendWriteBackAck, w_deallocateTBE, l_popMemQueue] },
  { states := [M], events := [DMA_WRITE], next := some M_DWR,
    actions := [v_allocateTBE, inv_sendCacheInvalidate, p_popIncomingDMARequestQueue] },
  { states := [M_DWR], events := [PUTX], next := some M_DWRI,
    actions := [qw_queueMemoryWBRequest_partialTBE, c_clearOwner, i_popIncomingRequestQueue] },
  { states := [M_DWRI], events := [Memory_Ack], next := some I,
    actions := [l_sendWriteBackAck, da_sendDMAAck, w_deallocateTBE, l_popMemQueue] },
  { states := [M], events := [GETX], next := some M,
    actions := [f_forwardRequest, e_ownerIsRequestor, i_popIncomingRequestQueue] },
  { states := [M], events := [PUTX], next := some MI,
    actions := [c_clearOwner, v_allocateTBEFromRequestNet, l_queueMemoryWBRequest,
      i_popIncomingRequestQueue] },
  { states := [MI], events := [Memory_Ack], next := some I,
    actions := [l_sendWriteBackAck, w_deallocateTBE, l_popMemQueue] },
  { states := [M], events := [PUTX_NotOwner], next := some M,
    actions := [b_sendWriteBackNack, i_popIncomingRequestQueue] },
  { states := [I], events := [PUTX_NotOwner], next := some I,
    actions := [b_sendWriteBackNack, i_popIncomingRequestQueue] },
  { states := [M_DWR, M_DRD, M_DRDI, M_DWRI], events := [PUTX_NotOwner],
    actions := [b_sendWriteBackNack, i_popIncomingRequestQueue] }]

end Directory

variable {C D : Type} {b : ℕ}

structure DirEntry (C D : Type) where
  directoryState : DirState := .I
  sharers : Finset (MachineID C D) := ∅
  owner : Finset (MachineID C D) := ∅

/-- An entry for a transaction. -/
structure DirTBE (C D : Type) (b : ℕ) where
  physicalAddress : Addr := 0#64
  tbeState : DirState := .I
  dataBlk : DataBlock b := DataBlock.clear
  len : ℕ := 0
  dmaRequestor : MachineID C D := .Directory

/-- The DMA write a TBE has been allocated for. -/
def DirTBE.request (tbe : DirTBE C D b) : DMARequestMsg C D b where
  type := .WRITE
  physicalAddress := tbe.physicalAddress
  requestor := tbe.dmaRequestor
  dataBlk := tbe.dataBlk
  len := tbe.len

/-- The line in the directory. -/
structure Directory (C D : Type) (b : ℕ) where
  entry : DirEntry C D := {}
  tbe : Option (DirTBE C D b) := none

/-- What the controller works on during a transition: the line, the messages it peeks at, and what
it has sent and popped. A forwarded message has a set of destinations. -/
structure DirWork (C D : Type) (b : ℕ) extends Directory C D b where
  requestIn : Option (RequestMsg C D b) := none
  dmaRequestIn : Option (DMARequestMsg C D b) := none
  memoryIn : Option (MemoryResponse (MachineID C D) b) := none
  forwardsOut : List (Finset (MachineID C D) × RequestMsg C D b) := []
  responsesOut : List (ResponseMsg C D b) := []
  dmaResponsesOut : List (DMAResponseMsg C D b) := []
  memoryOut : List (MemoryMsg (MachineID C D) b) := []
  popped : Bool := false
  told : List (LineEvent C D b) := []

namespace Directory

/-- The state of the line. -/
def getState (dir : Directory C D b) : DirState :=
  match dir.tbe with
  | some tbe => tbe.tbeState
  | none => dir.entry.directoryState

/-- The state is set in the TBE and in the entry. A modified line must have one owner, and one that
is in no cache must have none. -/
def setState (state : DirState) (w : DirWork C D b) : Except Fault (DirWork C D b) := do
  assert (state = .M → w.entry.owner.card = 1 ∧ w.entry.sharers.card = 0)
  assert (state = .I → w.entry.owner.card = 0 ∧ w.entry.sharers.card = 0)
  .ok { w with
    tbe := w.tbe.map fun tbe => { tbe with tbeState := state }
    entry := { w.entry with directoryState := state } }

/-- Send a message on the forward network. -/
def forward (destination : Finset (MachineID C D)) (msg : RequestMsg C D b) (w : DirWork C D b) :
    DirWork C D b :=
  { w with forwardsOut := w.forwardsOut ++ [(destination, msg)] }

/-- Send a message to a DMA controller. -/
def respondToDMA (msg : DMAResponseMsg C D b) (w : DirWork C D b) : DirWork C D b :=
  { w with dmaResponsesOut := w.dmaResponsesOut ++ [msg] }

/-- Send a message to memory. -/
def queueMemory (msg : MemoryMsg (MachineID C D) b) (w : DirWork C D b) : DirWork C D b :=
  { w with memoryOut := w.memoryOut ++ [msg] }

variable [DecidableEq C] [DecidableEq D]

open DirAction in
/-- The actions of the controller, for the line with the given address. -/
def perform (address : Addr) : DirAction → DirWork C D b → Except Fault (DirWork C D b)
  | .l_sendWriteBackAck, w => do
      let msg ← Slicc.valid w.memoryIn
      .ok (forward {msg.originalRequestorMachId}
        { type := .WB_ACK, requestor := msg.originalRequestorMachId } w)
  | .b_sendWriteBackNack, w => do
      let msg ← Slicc.valid w.requestIn
      .ok (forward {msg.requestor} { type := .WB_NACK, requestor := msg.requestor } w)
  | .c_clearOwner, w => .ok { w with entry := { w.entry with owner := ∅ } }
  | .d_sendData, w => do
      let msg ← Slicc.valid w.memoryIn
      .ok { w with
        responsesOut := w.responsesOut
          ++ [{ type := .DATA, sender := .Directory, destination := msg.originalRequestorMachId,
                dataBlk := msg.dataBlk }] }
  | .dr_sendDMAData, w => do
      let msg ← Slicc.valid w.memoryIn
      let tbe ← Slicc.valid w.tbe
      .ok (respondToDMA
        { type := .DATA, destination := tbe.dmaRequestor, dataBlk := msg.dataBlk } w)
  | .drp_sendDMAData, w => do
      let msg ← Slicc.valid w.requestIn
      let tbe ← Slicc.valid w.tbe
      .ok (respondToDMA
        { type := .DATA, destination := tbe.dmaRequestor, dataBlk := msg.dataBlk } w)
  | .da_sendDMAAck, w => do
      let tbe ← Slicc.valid w.tbe
      .ok (respondToDMA { type := .ACK, destination := tbe.dmaRequestor } w)
  | .e_ownerIsRequestor, w => do
      let msg ← Slicc.valid w.requestIn
      .ok { w with entry := { w.entry with owner := {msg.requestor} } }
  | .f_forwardRequest, w => do
      let msg ← Slicc.valid w.requestIn
      .ok (forward w.entry.owner { type := msg.type, requestor := msg.requestor } w)
  | .inv_sendCacheInvalidate, w =>
    .ok (forward w.entry.owner { type := .INV, requestor := .Directory } w)
  | .i_popIncomingRequestQueue, w => .ok { w with popped := true }
  | .p_popIncomingDMARequestQueue, w => .ok { w with popped := true }
  | .v_allocateTBE, w => do
      let msg ← Slicc.valid w.dmaRequestIn
      assert w.tbe.isNone
      .ok { w with
        tbe := some { dataBlk := msg.dataBlk, physicalAddress := msg.physicalAddress,
                      len := msg.len, dmaRequestor := msg.requestor } }
  | .r_allocateTbeForDmaRead, w => do
      let msg ← Slicc.valid w.dmaRequestIn
      assert w.tbe.isNone
      .ok { w with tbe := some { dmaRequestor := msg.requestor } }
  | .v_allocateTBEFromRequestNet, w => do
      let msg ← Slicc.valid w.requestIn
      assert w.tbe.isNone
      .ok { w with tbe := some { dataBlk := msg.dataBlk } }
  | .w_deallocateTBE, w => do
      assert w.tbe.isSome
      .ok { w with tbe := none }
  | .z_recycleRequestQueue, w => .ok w
  | .y_recycleDMARequestQueue, w => .ok w
  | .qf_queueMemoryFetchRequest, w => do
      let msg ← Slicc.valid w.requestIn
      .ok (queueMemory { addr := address, type := .MEMORY_READ, sender := msg.requestor } w)
  | .qf_queueMemoryFetchRequestDMA, w => do
      let msg ← Slicc.valid w.dmaRequestIn
      .ok (queueMemory { addr := address, type := .MEMORY_READ, sender := msg.requestor } w)
  | qw_queueMemoryWBRequest_partial, w => do
      let msg ← Slicc.valid w.dmaRequestIn
      .ok { queueMemory { addr := address, type := .MEMORY_WB, sender := msg.requestor,
                          dataBlk := msg.dataBlk, len := msg.len } w with
        told := w.told ++ [.dmaWrite msg.requestor msg] }
  | .qw_queueMemoryWBRequest_partialTBE, w => do
      let msg ← Slicc.valid w.requestIn
      let tbe ← deref w.tbe
      .ok { queueMemory { addr := address, type := .MEMORY_WB, sender := msg.requestor,
                          dataBlk := tbe.dataBlk, len := tbe.len } w with
        told := w.told ++ [.dmaWrite tbe.dmaRequestor tbe.request] }
  | .l_queueMemoryWBRequest, w => do
      let msg ← Slicc.valid w.requestIn
      .ok (queueMemory { addr := address, type := .MEMORY_WB, sender := msg.requestor,
                         dataBlk := msg.dataBlk } w)
  | .l_popMemQueue, w => .ok { w with popped := true }

/-- The controller, for the line with the given address. -/
def machine (address : Addr) : Slicc.Machine DirState DirEvent DirAction (DirWork C D b) where
  transitions := transitions
  isStall _ := false
  perform := perform address
  getState w := w.toDirectory.getState
  setState := setState

def onRequest (address : Addr) (dir : Directory C D b) (msg : RequestMsg C D b) :
    Except Fault (Option (DirWork C D b)) :=
  match msg.type with
  | .GETS => (machine address).doTransition .GETS { dir with requestIn := some msg }
  | .GETX => (machine address).doTransition .GETX { dir with requestIn := some msg }
  | .PUTX =>
    if msg.requestor ∈ dir.entry.owner then
      (machine address).doTransition .PUTX { dir with requestIn := some msg }
    else (machine address).doTransition .PUTX_NotOwner { dir with requestIn := some msg }
  | _ => .error (.panic "Invalid message")

/-- The directory handles a DMA request. -/
def onDMARequest (address : Addr) (dir : Directory C D b) (msg : DMARequestMsg C D b) :
    Except Fault (Option (DirWork C D b)) :=
  match msg.type with
  | .READ => (machine address).doTransition .DMA_READ { dir with dmaRequestIn := some msg }
  | .WRITE => (machine address).doTransition .DMA_WRITE { dir with dmaRequestIn := some msg }

/-- The directory handles a response from memory. -/
def onMemory (address : Addr) (dir : Directory C D b)
    (msg : MemoryResponse (MachineID C D) b) : Except Fault (Option (DirWork C D b)) :=
  match msg.type with
  | .MEMORY_READ => (machine address).doTransition .Memory_Data { dir with memoryIn := some msg }
  | .MEMORY_WB => (machine address).doTransition .Memory_Ack { dir with memoryIn := some msg }

end Directory

end Gem5Arc.MIExample
