import Gem5Arc.MIExample.Messages

/-!
# The DMA controller

The state machine of `MI_example-dma.sm`, for one line. A request of the device that arrives during
a transaction is set aside until the transaction is over.
-/

namespace Gem5Arc.MIExample

/-- The states of a DMA controller. -/
inductive DMAState where
  | READY | BUSY_RD | BUSY_WR
deriving DecidableEq

inductive DMAEvent where
  | ReadRequest | WriteRequest | Data | Ack
deriving DecidableEq

inductive DMAAction where
  | s_sendReadRequest | s_sendWriteRequest | a_ackCallback | d_dataCallback | t_updateTBEData
  | v_allocateTBE | w_deallocateTBE | p_popRequestQueue | p_popResponseQueue
  | zz_stallAndWaitRequestQueue | wkad_wakeUpAllDependents

variable {C D : Type} {b : ℕ}

/-- An entry for a transaction. -/
structure DMATBE (b : ℕ) where
  tbeState : DMAState := .READY
  dataBlk : DataBlock b := DataBlock.clear

/-- The line in a DMA controller. -/
structure DMA (b : ℕ) where
  tbe : Option (DMATBE b) := none

/-- What the controller works on during a transition: the line, the messages it peeks at, and what
it has sent and popped. -/
structure DMAWork (C D : Type) (b : ℕ) extends DMA b where
  requestIn : Option (SequencerMsg b) := none
  responseIn : Option (DMAResponseMsg C D b) := none
  requestsOut : List (DMARequestMsg C D b) := []
  popped : Bool := false
  told : List (LineEvent C D b) := []

namespace DMA

section Transitions

open DMAState DMAEvent DMAAction

/-- The transitions of `MI_example-dma.sm`. -/
def transitions : List (Slicc.Transition DMAState DMAEvent DMAAction) := [
  { states := [READY], events := [ReadRequest], next := some BUSY_RD,
    actions := [v_allocateTBE, s_sendReadRequest, p_popRequestQueue] },
  { states := [READY], events := [WriteRequest], next := some BUSY_WR,
    actions := [v_allocateTBE, s_sendWriteRequest, p_popRequestQueue] },
  { states := [BUSY_RD], events := [Data], next := some READY,
    actions := [t_updateTBEData, d_dataCallback, w_deallocateTBE, p_popResponseQueue,
      wkad_wakeUpAllDependents] },
  { states := [BUSY_WR], events := [Ack], next := some READY,
    actions := [a_ackCallback, w_deallocateTBE, p_popResponseQueue, wkad_wakeUpAllDependents] },
  { states := [BUSY_RD, BUSY_WR], events := [ReadRequest, WriteRequest],
    actions := [zz_stallAndWaitRequestQueue] }]

end Transitions

/-- The state of the line. -/
def getState (dma : DMA b) : DMAState :=
  match dma.tbe with
  | some tbe => tbe.tbeState
  | none => .READY

def setState (state : DMAState) (w : DMAWork C D b) : Except Fault (DMAWork C D b) :=
  .ok { w with tbe := w.tbe.map fun tbe => { tbe with tbeState := state } }

/-- The request of the controller of `d` for a message of its sequencer. -/
def requestMsg (d : D) (type : DMARequestType) (msg : SequencerMsg b) : DMARequestMsg C D b where
  type := type
  physicalAddress := msg.physicalAddress
  requestor := .DMA d
  dataBlk := msg.dataBlk
  len := msg.len

/-- The actions of the controller of `d`. -/
def perform (d : D) : DMAAction → DMAWork C D b → Except Fault (DMAWork C D b)
  | .s_sendReadRequest, w => do
      let msg ← Slicc.valid w.requestIn
      .ok { w with requestsOut := w.requestsOut ++ [requestMsg d .READ msg] }
  | .s_sendWriteRequest, w => do
      let msg ← Slicc.valid w.requestIn
      .ok { w with
        requestsOut := w.requestsOut ++ [requestMsg d .WRITE msg]
        told := w.told ++ [.dmaIssue d (requestMsg d .WRITE msg)] }
  | .a_ackCallback, w => .ok { w with told := w.told ++ [.dmaAck d] }
  | .d_dataCallback, w => do
      let tbe ← deref w.tbe
      .ok { w with told := w.told ++ [.dmaData d tbe.dataBlk] }
  | .t_updateTBEData, w => do
      let tbe ← Slicc.valid w.tbe
      let msg ← Slicc.valid w.responseIn
      .ok { w with tbe := some { tbe with dataBlk := msg.dataBlk } }
  | .v_allocateTBE, w => do
      assert w.tbe.isNone
      .ok { w with tbe := some {} }
  | .w_deallocateTBE, w => do
      assert w.tbe.isSome
      .ok { w with tbe := none }
  | .p_popRequestQueue, w => .ok { w with popped := true }
  | .p_popResponseQueue, w => .ok { w with popped := true }
  | .zz_stallAndWaitRequestQueue, w => .ok w
  | .wkad_wakeUpAllDependents, w => .ok w

/-- The controller of `d`. -/
def machine (d : D) : Slicc.Machine DMAState DMAEvent DMAAction (DMAWork C D b) where
  transitions := transitions
  isStall _ := false
  perform := perform d
  getState w := w.toDMA.getState
  setState := setState

/-- The controller handles a request of its device. -/
def onRequest (d : D) (dma : DMA b) (msg : SequencerMsg b) :
    Except Fault (Option (DMAWork C D b)) :=
  match msg.type with
  | .LD => (machine d).doTransition .ReadRequest { dma with requestIn := some msg }
  | .ST => (machine d).doTransition .WriteRequest { dma with requestIn := some msg }

/-- The controller handles a response of the directory. -/
def onResponse (d : D) (dma : DMA b) (msg : DMAResponseMsg C D b) :
    Except Fault (Option (DMAWork C D b)) :=
  match msg.type with
  | .ACK => (machine d).doTransition .Ack { dma with responseIn := some msg }
  | .DATA => (machine d).doTransition .Data { dma with responseIn := some msg }

end DMA

end Gem5Arc.MIExample
