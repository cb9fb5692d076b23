import Gem5Arc.Ruby.DataBlock

/-!
# The DMA sequencer

`DMASequencer::makeRequest` turns the packet of a device into a message for the DMA controller. The
message is for the line of the packet's address, and the data is put into a cleared block at the
offset of the address. The table of outstanding requests is left out.
-/

namespace Gem5Arc

/-- The requests of a DMA controller. -/
inductive SequencerRequestType where
  | LD | ST

/-- A message to a DMA controller. -/
structure SequencerMsg (b : ℕ) where
  physicalAddress : Addr
  lineAddress : Addr
  type : SequencerRequestType
  dataBlk : DataBlock b
  len : ℕ

/-- A packet of a device. -/
structure DMAPacket where
  addr : Addr
  size : ℕ
  isWrite : Bool
  data : ℕ → BitVec 8

/-- `DMASequencer::makeRequest`. The part of a packet that is past the end of the line is sent
later. -/
def DMASequencer.makeRequest (b : ℕ) (pkt : DMAPacket) : SequencerMsg b :=
  let offset := (pkt.addr &&& mask b).toNat
  let len := if offset + pkt.size ≤ 2 ^ b then pkt.size else 2 ^ b - offset
  { physicalAddress := pkt.addr
    lineAddress := makeLineAddress b pkt.addr
    type := if pkt.isWrite then .ST else .LD
    dataBlk := if pkt.isWrite then DataBlock.clear.setData pkt.data offset len else DataBlock.clear
    len := len }

end Gem5Arc
