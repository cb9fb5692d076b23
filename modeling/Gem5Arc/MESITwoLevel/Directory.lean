import Gem5Arc.Ruby.MemoryQueue
import Gem5Arc.Ruby.Slicc
import Gem5Arc.Ruby.TBETable

/-!
# The directory controller of `MESI_Two_Level`

The state machine of `MESI_Two_Level-dir.sm`. The directory has an entry for each line, with its
state and its owner, and a table of TBEs for the lines with a DMA request, which are kept under the
address of the line. The pointer to a TBE that a transition works with is the one that the table has
for the address of the event, so that it is looked up anew here.

The event of a message from the network has the address of its line, but the event of a response
from memory has the address of the response.
-/

namespace Gem5Arc.MESITwoLevel

inductive DirState where
  | I | ID | ID_W | M | IM | MI | M_DRD | M_DRDI | M_DWR | M_DWRI
deriving DecidableEq, Repr

inductive DirEvent where
  | Fetch | Data | Memory_Data | Memory_Ack | DMA_READ | DMA_WRITE | CleanReplacement
deriving DecidableEq, Repr

inductive DirAction where
  | a_sendAck | d_sendData | aa_sendAck | j_popIncomingRequestQueue | k_popIncomingResponseQueue
  | l_popMemQueue | kd_wakeUpDependents | qf_queueMemoryFetchRequest | qw_queueMemoryWBRequest
  | qf_queueMemoryFetchRequestDMA | dr_sendDMAData | qw_queueMemoryWBRequest_partial
  | da_sendDMAAck | z_stallAndWaitRequest | zz_recycleDMAQueue | inv_sendCacheInvalidate
  | drp_sendDMAData | v_allocateTBE | qw_queueMemoryWBRequest_partialTBE | w_deallocateTBE

inductive MachineID where
  | L1Cache (num : ℕ) | L2Cache (num : ℕ) | Directory | DMA (num : ℕ)
  /-- The default. -/
  | NUM
deriving DecidableEq, Repr

inductive CoherenceRequestType where
  | GETX | UPGRADE | GETS | GET_INSTR | INV | PUTX | WB_ACK | DMA_READ | DMA_WRITE

inductive CoherenceResponseType where
  | MEMORY_ACK | DATA | DATA_EXCLUSIVE | MEMORY_DATA | ACK | WB_ACK | UNBLOCK
  | EXCLUSIVE_UNBLOCK | INV
deriving DecidableEq, Repr

structure RequestMsg (b : ℕ) where
  addr : Addr
  type : CoherenceRequestType
  requestor : MachineID
  dataBlk : DataBlock b := DataBlock.clear
  len : ℕ := 0

structure ResponseMsg (b : ℕ) where
  addr : Addr
  type : CoherenceResponseType
  sender : MachineID := .NUM
  destination : MachineID
  dataBlk : DataBlock b := DataBlock.clear

structure Entry where
  directoryState : DirState := .I
  owner : MachineID := .NUM

structure TBE (b : ℕ) where
  physicalAddress : Addr := 0
  tbeState : DirState := .I
  dataBlk : DataBlock b := DataBlock.clear
  len : ℕ := 0
  requestor : MachineID := .NUM

namespace Directory

open DirState DirEvent DirAction

/-- The transitions of `MESI_Two_Level-dir.sm`. -/
def transitions : List (Slicc.Transition DirState DirEvent DirAction) := [
  { states := [I], events := [Fetch], next := some IM,
    actions := [qf_queueMemoryFetchRequest, j_popIncomingRequestQueue] },
  { states := [M], events := [Fetch],
    actions := [inv_sendCacheInvalidate, z_stallAndWaitRequest] },
  { states := [IM], events := [Memory_Data], next := some M,
    actions := [d_sendData, l_popMemQueue, kd_wakeUpDependents] },
  { states := [M], events := [CleanReplacement], next := some I,
    actions := [a_sendAck, k_popIncomingResponseQueue, kd_wakeUpDependents] },
  { states := [M], events := [Data], next := some MI,
    actions := [qw_queueMemoryWBRequest, k_popIncomingResponseQueue] },
  { states := [MI], events := [Memory_Ack], next := some I,
    actions := [aa_sendAck, l_popMemQueue, kd_wakeUpDependents] },
  { states := [I], events := [DMA_READ], next := some ID,
    actions := [v_allocateTBE, qf_queueMemoryFetchRequestDMA, j_popIncomingRequestQueue] },
  { states := [ID], events := [Memory_Data], next := some I,
    actions := [dr_sendDMAData, w_deallocateTBE, l_popMemQueue, kd_wakeUpDependents] },
  { states := [I], events := [DMA_WRITE], next := some ID_W,
    actions := [v_allocateTBE, qw_queueMemoryWBRequest_partial, j_popIncomingRequestQueue] },
  { states := [ID_W], events := [Memory_Ack], next := some I,
    actions := [da_sendDMAAck, w_deallocateTBE, l_popMemQueue, kd_wakeUpDependents] },
  { states := [ID, ID_W, M_DRDI, M_DWRI, IM, MI], events := [Fetch, Data],
    actions := [z_stallAndWaitRequest] },
  { states := [ID, ID_W, M_DRD, M_DRDI, M_DWR, M_DWRI, IM, MI], events := [DMA_WRITE, DMA_READ],
    actions := [zz_recycleDMAQueue] },
  { states := [M], events := [DMA_READ], next := some M_DRD,
    actions := [v_allocateTBE, inv_sendCacheInvalidate, j_popIncomingRequestQueue] },
  { states := [M_DRD], events := [Data], next := some M_DRDI,
    actions := [drp_sendDMAData, w_deallocateTBE, qw_queueMemoryWBRequest,
      k_popIncomingResponseQueue] },
  { states := [M_DRDI], events := [Memory_Ack], next := some I,
    actions := [aa_sendAck, l_popMemQueue, kd_wakeUpDependents] },
  { states := [M], events := [DMA_WRITE], next := some M_DWR,
    actions := [v_allocateTBE, inv_sendCacheInvalidate, j_popIncomingRequestQueue] },
  { states := [M_DWR], events := [Data], next := some M_DWRI,
    actions := [qw_queueMemoryWBRequest_partialTBE, k_popIncomingResponseQueue] },
  { states := [M_DWRI], events := [Memory_Ack], next := some I,
    actions := [aa_sendAck, da_sendDMAAck, w_deallocateTBE, l_popMemQueue, kd_wakeUpDependents] }]

end Directory

/-- What a transition does to the queues it reads from. -/
inductive QueueOp where
  | popRequest | popResponse | popMemory | stallRequest | recycleRequest | wakeUp

variable {b numberOfTBEs : ℕ}

structure Directory (b numberOfTBEs : ℕ) where
  entries : Addr → Entry := fun _ => {}
  tbes : TBETable (TBE b) b numberOfTBEs := .empty

/-- What the controller works on during a transition: the address of the event, the messages it
peeks at, what it has sent, and what it has done to its queues. -/
structure DirWork (b numberOfTBEs : ℕ) extends Directory b numberOfTBEs where
  address : Addr
  requestIn : Option (RequestMsg b) := none
  responseIn : Option (ResponseMsg b) := none
  memoryIn : Option (MemoryResponse MachineID b) := none
  responsesOut : List (ResponseMsg b) := []
  memoryOut : List (MemoryMsg MachineID b) := []
  queueOps : List QueueOp := []

namespace Directory

/-- `getDirectoryEntry`. -/
def entry (dir : Directory b numberOfTBEs) (addr : Addr) : Entry :=
  dir.entries (makeLineAddress b addr)

def setEntry (addr : Addr) (e : Entry) (dir : Directory b numberOfTBEs) :
    Directory b numberOfTBEs :=
  { dir with entries := Function.update dir.entries (makeLineAddress b addr) e }

def getState (dir : Directory b numberOfTBEs) (addr : Addr) : DirState :=
  match dir.tbes.lookup addr with
  | some tbe => tbe.tbeState
  | none => (dir.entry addr).directoryState

/-- The state is set in the TBE, if there is one, and in the entry. -/
def setState (addr : Addr) (state : DirState) (dir : Directory b numberOfTBEs) :
    Directory b numberOfTBEs :=
  { dir with tbes := dir.tbes.modify addr fun tbe => { tbe with tbeState := state } }.setEntry addr
    { dir.entry addr with directoryState := state }

end Directory

namespace DirWork

def respond (msg : ResponseMsg b) (w : DirWork b numberOfTBEs) : DirWork b numberOfTBEs :=
  { w with responsesOut := w.responsesOut ++ [msg] }

def queueMemory (msg : MemoryMsg MachineID b) (w : DirWork b numberOfTBEs) :
    DirWork b numberOfTBEs :=
  { w with memoryOut := w.memoryOut ++ [msg] }

def queueOp (op : QueueOp) (w : DirWork b numberOfTBEs) : DirWork b numberOfTBEs :=
  { w with queueOps := w.queueOps ++ [op] }

def tbe (w : DirWork b numberOfTBEs) : Option (TBE b) := w.tbes.lookup w.address

end DirWork

namespace Directory

open DirAction in
/-- The actions of the controller. -/
def perform : DirAction → DirWork b numberOfTBEs → Except Fault (DirWork b numberOfTBEs)
  | .a_sendAck, w => do
      let msg ← Slicc.valid w.responseIn
      .ok (w.respond
        { addr := w.address, type := .MEMORY_ACK, sender := .Directory,
          destination := msg.sender })
  | .d_sendData, w => do
      let msg ← Slicc.valid w.memoryIn
      let w := w.respond
        { addr := w.address, type := .MEMORY_DATA, sender := .Directory,
          destination := msg.originalRequestorMachId, dataBlk := msg.dataBlk }
      let e := { w.entry msg.addr with owner := msg.originalRequestorMachId }
      .ok { w with toDirectory := w.toDirectory.setEntry msg.addr e }
  | .aa_sendAck, w => do
      let msg ← Slicc.valid w.memoryIn
      .ok (w.respond
        { addr := w.address, type := .MEMORY_ACK, sender := .Directory,
          destination := msg.originalRequestorMachId })
  | .j_popIncomingRequestQueue, w => .ok (w.queueOp .popRequest)
  | .k_popIncomingResponseQueue, w => .ok (w.queueOp .popResponse)
  | .l_popMemQueue, w => .ok (w.queueOp .popMemory)
  | .kd_wakeUpDependents, w => .ok (w.queueOp .wakeUp)
  | .qf_queueMemoryFetchRequest, w => do
      let msg ← Slicc.valid w.requestIn
      .ok (w.queueMemory { addr := w.address, type := .MEMORY_READ, sender := msg.requestor })
  | .qw_queueMemoryWBRequest, w => do
      let msg ← Slicc.valid w.responseIn
      .ok (w.queueMemory
        { addr := w.address, type := .MEMORY_WB, sender := msg.sender, dataBlk := msg.dataBlk })
  | .qf_queueMemoryFetchRequestDMA, w => do
      let msg ← Slicc.valid w.requestIn
      .ok (w.queueMemory { addr := w.address, type := .MEMORY_READ, sender := msg.requestor })
  | .dr_sendDMAData, w => do
      let msg ← Slicc.valid w.memoryIn
      let tbe ← Slicc.valid w.tbe
      .ok (w.respond
        { addr := w.address, type := .DATA, destination := tbe.requestor,
          dataBlk := msg.dataBlk })
  | qw_queueMemoryWBRequest_partial, w => do
      let msg ← Slicc.valid w.requestIn
      .ok (w.queueMemory
        { addr := msg.addr, type := .MEMORY_WB, sender := .Directory, dataBlk := msg.dataBlk,
          len := msg.len })
  | .da_sendDMAAck, w => do
      let tbe ← Slicc.valid w.tbe
      .ok (w.respond { addr := w.address, type := .ACK, destination := tbe.requestor })
  | .z_stallAndWaitRequest, w => .ok (w.queueOp .stallRequest)
  | .zz_recycleDMAQueue, w => .ok (w.queueOp .recycleRequest)
  | .inv_sendCacheInvalidate, w => do
      let _ ← Slicc.valid w.requestIn
      .ok (w.respond
        { addr := w.address, type := .INV, sender := .Directory,
          destination := (w.entry w.address).owner })
  | .drp_sendDMAData, w => do
      let msg ← Slicc.valid w.responseIn
      let tbe ← Slicc.valid w.tbe
      .ok (w.respond
        { addr := w.address, type := .DATA, destination := tbe.requestor,
          dataBlk := msg.dataBlk })
  | .v_allocateTBE, w => do
      let msg ← Slicc.valid w.requestIn
      let tbes ← w.tbes.allocate w.address
        { dataBlk := msg.dataBlk, physicalAddress := msg.addr, len := msg.len,
          requestor := msg.requestor }
      .ok { w with tbes := tbes }
  | .qw_queueMemoryWBRequest_partialTBE, w => do
      let msg ← Slicc.valid w.responseIn
      let tbe ← deref w.tbe
      .ok (w.queueMemory
        { addr := tbe.physicalAddress, type := .MEMORY_WB, sender := msg.sender,
          dataBlk := tbe.dataBlk, len := tbe.len })
  | .w_deallocateTBE, w => do
      let tbes ← w.tbes.deallocate w.address
      .ok { w with tbes := tbes }

def machine : Slicc.Machine DirState DirEvent DirAction (DirWork b numberOfTBEs) where
  transitions := transitions
  isStall _ := false
  perform := perform
  getState w := w.toDirectory.getState w.address
  setState state w := .ok { w with toDirectory := w.toDirectory.setState w.address state }

/-- `requestNetwork_in`. -/
def onRequest (msg : RequestMsg b) (dir : Directory b numberOfTBEs) :
    Except Fault (Option (DirWork b numberOfTBEs)) :=
  match msg.type with
  | .GETS | .GET_INSTR | .GETX =>
    machine.doTransition .Fetch { dir with address := msg.addr, requestIn := some msg }
  | .DMA_READ =>
    machine.doTransition .DMA_READ
      { dir with address := makeLineAddress b msg.addr, requestIn := some msg }
  | .DMA_WRITE =>
    machine.doTransition .DMA_WRITE
      { dir with address := makeLineAddress b msg.addr, requestIn := some msg }
  | _ => .error (.panic "Invalid message")

/-- `responseNetwork_in`. -/
def onResponse (msg : ResponseMsg b) (dir : Directory b numberOfTBEs) :
    Except Fault (Option (DirWork b numberOfTBEs)) :=
  match msg.type with
  | .MEMORY_DATA =>
    machine.doTransition .Data { dir with address := msg.addr, responseIn := some msg }
  | .ACK =>
    machine.doTransition .CleanReplacement
      { dir with address := msg.addr, responseIn := some msg }
  | _ => .error (.panic "Invalid message")

/-- `memQueue_in`. -/
def onMemory (msg : MemoryResponse MachineID b) (dir : Directory b numberOfTBEs) :
    Except Fault (Option (DirWork b numberOfTBEs)) :=
  match msg.type with
  | .MEMORY_READ =>
    machine.doTransition .Memory_Data { dir with address := msg.addr, memoryIn := some msg }
  | .MEMORY_WB =>
    machine.doTransition .Memory_Ack { dir with address := msg.addr, memoryIn := some msg }

end Directory

/-! ### The directory and its memory -/

/-- The directory, its memory line by line, the requests memory has not served, its responses that
the directory has not handled, and the messages the directory has sent. -/
structure System (b numberOfTBEs : ℕ) where
  directory : Directory b numberOfTBEs := {}
  memory : Addr → DataBlock b := fun _ => DataBlock.clear
  memoryRequests : List (MemoryMsg MachineID b) := []
  memoryResponses : List (MemoryResponse MachineID b) := []
  responses : List (ResponseMsg b) := []

inductive Label (b : ℕ) where
  | request (msg : RequestMsg b)
  | response (msg : ResponseMsg b)
  /-- Memory serves the request at a position of its queue. -/
  | memory (i : ℕ)
  /-- The directory handles the response of memory at a position of the queue. -/
  | memoryResponse (i : ℕ)

def System.after (s : System b numberOfTBEs) (w : Option (DirWork b numberOfTBEs)) :
    System b numberOfTBEs :=
  match w with
  | none => s
  | some w =>
    { s with
      directory := w.toDirectory
      memoryRequests := s.memoryRequests ++ w.memoryOut
      responses := s.responses ++ w.responsesOut }

def step (l : Label b) (s : System b numberOfTBEs) : Except Fault (System b numberOfTBEs) :=
  match l with
  | .request msg => s.after <$> s.directory.onRequest msg
  | .response msg => s.after <$> s.directory.onResponse msg
  | .memory i =>
    match s.memoryRequests[i]? with
    | none => .ok s
    | some msg => do
        let line := makeLineAddress b msg.addr
        let (block, response) ← msg.service (s.memory line)
        .ok { s with
          memory := Function.update s.memory line block
          memoryRequests := s.memoryRequests.eraseIdx i
          memoryResponses := s.memoryResponses ++ [response] }
  | .memoryResponse i =>
    match s.memoryResponses[i]? with
    | none => .ok s
    | some msg =>
      let s' := { s with memoryResponses := s.memoryResponses.eraseIdx i }
      s'.after <$> s.directory.onMemory msg

end Gem5Arc.MESITwoLevel
