import Gem5Arc.Ruby.DMASequencer
import Gem5Arc.Ruby.MemoryQueue
import Gem5Arc.Ruby.Slicc

/-!
# Messages of the MI example protocol

The machines of the protocol are L1 caches, given by a type `C`, a directory, and DMA controllers,
given by a type `D`. All messages are for one line, so that their line address is left out.
-/

namespace Gem5Arc.MIExample

inductive MachineID (C D : Type) where
  | L1Cache (c : C)
  | Directory
  | DMA (d : D)
deriving DecidableEq

/-- The requests to the directory and those that the directory forwards. -/
inductive CoherenceRequestType where
  | GETX | GETS | PUTX | WB_ACK | WB_NACK | INV

/-- The responses to a cache. -/
inductive CoherenceResponseType where
  | ACK | DATA | DATA_EXCLUSIVE_CLEAN | DATA_EXCLUSIVE_DIRTY | UNBLOCK | UNBLOCK_EXCLUSIVE
  | WRITEBACK_CLEAN | WRITEBACK_DIRTY | WRITEBACK

/-- The requests of a DMA controller to the directory. -/
inductive DMARequestType where
  | READ | WRITE

/-- The responses of the directory to a DMA controller. -/
inductive DMAResponseType where
  | DATA | ACK

/-- The history of a line: what the processors and the DMA devices have been told, and when a DMA
write is sent to the directory and from the directory to memory. Its values are of type `V`, and the
DMA writes are of type `W`. -/
inductive Event (C D V W : Type) where
  /-- `Sequencer::readCallback`. -/
  | read (c : C) (data : V)
  /-- `Sequencer::writeCallback`: a store makes a new value of the one it finds. -/
  | write (c : C) (store : V → V)
  /-- A DMA controller sends a write to the directory. -/
  | dmaIssue (d : D) (w : W)
  /-- The directory sends a DMA write to memory. -/
  | dmaWrite (requestor : MachineID C D) (w : W)
  /-- `DMASequencer::dataCallback`. -/
  | dmaData (d : D) (data : V)
  /-- `DMASequencer::ackCallback`. -/
  | dmaAck (d : D)

variable (C D : Type) (b : ℕ)

structure RequestMsg where
  type : CoherenceRequestType
  requestor : MachineID C D
  dataBlk : DataBlock b := DataBlock.clear

structure ResponseMsg where
  type : CoherenceResponseType
  sender : MachineID C D
  destination : MachineID C D
  dataBlk : DataBlock b

structure DMARequestMsg where
  type : DMARequestType
  physicalAddress : Addr
  requestor : MachineID C D
  dataBlk : DataBlock b
  len : ℕ

structure DMAResponseMsg where
  type : DMAResponseType
  destination : MachineID C D
  dataBlk : DataBlock b := DataBlock.clear

/-- The history of a line of `2 ^ b` bytes. -/
abbrev LineEvent : Type := Event C D (DataBlock b) (DMARequestMsg C D b)

end Gem5Arc.MIExample
