import Gem5Arc.Ruby.DataBlock

/-!
# Requests to memory

A controller sends a `MemoryMsg` to memory. `AbstractController::serviceMemoryQueue` turns it into a
packet, memory reads or writes its line, and `AbstractController::recvTimingResp` turns the response
into a message for the controller. A write takes the bytes of the data block from the offset of its
address on, as many as its length says, or a whole line if the length is 0. Memory is modelled for
one line.
-/

namespace Gem5Arc

inductive MemoryRequestType where
  | MEMORY_READ | MEMORY_WB

/-- A request to memory, for machines of type `Machine`. -/
structure MemoryMsg (Machine : Type) (b : ℕ) where
  addr : Addr
  type : MemoryRequestType
  sender : Machine
  dataBlk : DataBlock b := DataBlock.clear
  /-- The length of a partial request, or 0. -/
  len : ℕ := 0

structure MemoryResponse (Machine : Type) (b : ℕ) where
  addr : Addr
  type : MemoryRequestType
  originalRequestorMachId : Machine
  dataBlk : DataBlock b := DataBlock.clear

namespace MemoryMsg

variable {Machine : Type} {b : ℕ}

/-- The size of the request in bytes. -/
def reqSize (msg : MemoryMsg Machine b) : ℕ := if msg.len > 0 then msg.len else 2 ^ b

/-- What a write leaves in memory. -/
def write (msg : MemoryMsg Machine b) (memory : DataBlock b) : DataBlock b :=
  memory.overlay (getOffset b msg.addr).toNat msg.reqSize msg.dataBlk

/-- Memory serves a request: what it holds then, and its response. `getData` asserts that the bytes
of a write are in the block. -/
def service (msg : MemoryMsg Machine b) (memory : DataBlock b) :
    Except Fault (DataBlock b × MemoryResponse Machine b) :=
  match msg.type with
  | .MEMORY_WB => do
      assert ((getOffset b msg.addr).toNat + msg.reqSize ≤ 2 ^ b)
      .ok (msg.write memory,
        { addr := msg.addr, type := .MEMORY_WB, originalRequestorMachId := msg.sender })
  | .MEMORY_READ =>
    .ok (memory,
      { addr := msg.addr, type := .MEMORY_READ, originalRequestorMachId := msg.sender,
        dataBlk := memory })

variable {msg : MemoryMsg Machine b} {memory dataBlk : DataBlock b} {addr : Addr} {sender : Machine}

/-- Memory serves a write exactly if its bytes are in the block. -/
theorem service_write (h : msg.type = .MEMORY_WB) :
  msg.service memory
    = if (getOffset b msg.addr).toNat + msg.reqSize ≤ 2 ^ b then
        .ok (msg.write memory,
          { addr := msg.addr, type := .MEMORY_WB, originalRequestorMachId := msg.sender })
      else .error .assertion
  := by
  rw [service, h]
  split_ifs with hfits
  · simp [assert, hfits]
  · simp [assert, hfits]

/-- The response has the address of the request. -/
theorem addr_of_service {block : DataBlock b} {response : MemoryResponse Machine b}
    (h : msg.service memory = .ok (block, response)) :
  response.addr = msg.addr
  := by
  rw [service] at h
  split at h
  · obtain ⟨-, h⟩ := assert_bind_eq_ok.mp h
    cases h
    rfl
  · cases h
    rfl

/-- A write to the address of a line takes the bytes from the start of the block. -/
theorem service_line {len : ℕ} (hlen : len ≤ 2 ^ b) :
  service
      { addr := makeLineAddress b addr, type := .MEMORY_WB, sender := sender, dataBlk := dataBlk,
        len := len } memory
    = .ok (memory.overlay 0 (if len > 0 then len else 2 ^ b) dataBlk,
        { addr := makeLineAddress b addr, type := .MEMORY_WB, originalRequestorMachId := sender })
  := by
  have hsize : (if len > 0 then len else 2 ^ b) ≤ 2 ^ b := by
    split_ifs
    · apply hlen
    · apply le_refl
  simp [service, write, reqSize, getOffset_makeLineAddress, assert, hsize]

/-- A write of a whole line. -/
theorem service_block :
  service
      { addr := makeLineAddress b addr, type := .MEMORY_WB, sender := sender, dataBlk := dataBlk }
      memory
    = .ok (dataBlk,
        { addr := makeLineAddress b addr, type := .MEMORY_WB, originalRequestorMachId := sender })
  := by
  rw [service_line (Nat.zero_le _), if_neg (lt_irrefl 0), DataBlock.overlay_all]

end MemoryMsg

end Gem5Arc
