import Gem5Arc.Basic

/-!
# Packets

The requests and packets of `mem/request.hh` and `mem/packet.hh`, as far as caches and memories read
them: the command with its attributes, the context, address and size of the request, its extra data,
and the data of the packet. The request of a packet has a context, and the packet has the address
and the size of its request. The commands of transactional memory, of fences and of errors are left
out.

The data of a packet, of a block and of a memory is a function from positions to bytes. An atomic
operation takes the bytes at its address to the bytes it leaves there, and leaves all other bytes
alone.
-/

namespace Gem5Arc

abbrev Byte : Type := BitVec 8

/-- Attributes of a command, `MemCmd::Attribute`. -/
inductive Attribute where
  | isRead | isWrite | isUpgrade | isInvalidate | isClean | needsWritable | isRequest | isResponse
  | needsResponse | isEviction | isSWPrefetch | isHWPrefetch | isLlsc | isLockedRMW | hasData
  | fromCache
deriving DecidableEq

inductive MemCmd where
  | invalidCmd | readReq | readResp | readRespWithInvalidate | writeReq | writeResp
  | writebackDirty | writebackClean | writeClean | cleanEvict | softPFReq | softPFExReq | hardPFReq
  | softPFResp | hardPFResp | writeLineReq | upgradeReq | scUpgradeReq | upgradeResp
  | scUpgradeFailReq | upgradeFailResp
  | readExReq | readExResp | readCleanReq | readSharedReq | loadLockedReq | storeCondReq
  | storeCondFailReq | storeCondResp | lockedRMWReadReq | lockedRMWReadResp | lockedRMWWriteReq
  | lockedRMWWriteResp | swapReq | swapResp | cleanSharedReq | cleanSharedResp | cleanInvalidReq
  | cleanInvalidResp | invalidateReq | invalidateResp
deriving DecidableEq

namespace MemCmd

/-- The table `MemCmd::commandInfo`. -/
def attributes : MemCmd → List Attribute
  | invalidCmd => []
  | readReq => [.isRead, .isRequest, .needsResponse]
  | readResp => [.isRead, .isResponse, .hasData]
  | readRespWithInvalidate => [.isRead, .isResponse, .hasData, .isInvalidate]
  | writeReq => [.isWrite, .needsWritable, .isRequest, .needsResponse, .hasData]
  | writeResp => [.isWrite, .isResponse]
  | writebackDirty => [.isWrite, .isRequest, .isEviction, .hasData, .fromCache]
  | writebackClean => [.isWrite, .isRequest, .isEviction, .hasData, .fromCache]
  | writeClean => [.isWrite, .isRequest, .hasData, .fromCache]
  | cleanEvict => [.isRequest, .isEviction, .fromCache]
  | softPFReq => [.isRead, .isRequest, .isSWPrefetch, .needsResponse]
  | softPFExReq =>
    [.isRead, .needsWritable, .isInvalidate, .isRequest, .isSWPrefetch, .needsResponse]
  | hardPFReq => [.isRead, .isRequest, .isHWPrefetch, .needsResponse, .fromCache]
  | softPFResp => [.isRead, .isResponse, .isSWPrefetch, .hasData]
  | hardPFResp => [.isRead, .isResponse, .isHWPrefetch, .hasData]
  | writeLineReq => [.isWrite, .needsWritable, .isRequest, .needsResponse, .hasData]
  | upgradeReq =>
    [.isInvalidate, .needsWritable, .isUpgrade, .isRequest, .needsResponse, .fromCache]
  | scUpgradeReq =>
    [.isInvalidate, .needsWritable, .isUpgrade, .isLlsc, .isRequest, .needsResponse, .fromCache]
  | upgradeResp => [.isUpgrade, .isResponse]
  | scUpgradeFailReq =>
    [.isRead, .needsWritable, .isInvalidate, .isLlsc, .isRequest, .needsResponse, .fromCache]
  | upgradeFailResp => [.isRead, .isResponse, .hasData]
  | readExReq => [.isRead, .needsWritable, .isInvalidate, .isRequest, .needsResponse, .fromCache]
  | readExResp => [.isRead, .isResponse, .hasData]
  | readCleanReq => [.isRead, .isRequest, .needsResponse, .fromCache]
  | readSharedReq => [.isRead, .isRequest, .needsResponse, .fromCache]
  | loadLockedReq => [.isRead, .isLlsc, .isRequest, .needsResponse]
  | storeCondReq => [.isWrite, .needsWritable, .isLlsc, .isRequest, .needsResponse, .hasData]
  | storeCondFailReq => [.isWrite, .needsWritable, .isLlsc, .isRequest, .needsResponse, .hasData]
  | storeCondResp => [.isWrite, .isLlsc, .isResponse]
  | lockedRMWReadReq => [.isRead, .isLockedRMW, .needsWritable, .isRequest, .needsResponse]
  | lockedRMWReadResp => [.isRead, .isLockedRMW, .needsWritable, .isResponse, .hasData]
  | lockedRMWWriteReq =>
    [.isWrite, .isLockedRMW, .needsWritable, .isRequest, .needsResponse, .hasData]
  | lockedRMWWriteResp => [.isWrite, .isLockedRMW, .needsWritable, .isResponse]
  | swapReq => [.isRead, .isWrite, .needsWritable, .isRequest, .hasData, .needsResponse]
  | swapResp => [.isRead, .isWrite, .isResponse, .hasData]
  | cleanSharedReq => [.isRequest, .isClean, .needsResponse, .fromCache]
  | cleanSharedResp => [.isResponse, .isClean]
  | cleanInvalidReq => [.isRequest, .isInvalidate, .isClean, .needsResponse, .fromCache]
  | cleanInvalidResp => [.isResponse, .isInvalidate, .isClean]
  | invalidateReq => [.isInvalidate, .isRequest, .needsWritable, .needsResponse, .fromCache]
  | invalidateResp => [.isInvalidate, .isResponse]

def responseCommand : MemCmd → MemCmd
  | readReq | readCleanReq | readSharedReq | loadLockedReq => readResp
  | writeReq | writeLineReq => writeResp
  | softPFReq | softPFExReq => softPFResp
  | hardPFReq => hardPFResp
  | upgradeReq | scUpgradeReq => upgradeResp
  | scUpgradeFailReq => upgradeFailResp
  | readExReq => readExResp
  | storeCondReq | storeCondFailReq => storeCondResp
  | lockedRMWReadReq => lockedRMWReadResp
  | lockedRMWWriteReq => lockedRMWWriteResp
  | swapReq => swapResp
  | cleanSharedReq => cleanSharedResp
  | cleanInvalidReq => cleanInvalidResp
  | invalidateReq => invalidateResp
  | _ => invalidCmd

/-- `testCmdAttrib`. -/
def has (cmd : MemCmd) (attr : Attribute) : Bool :=
  cmd.attributes.contains attr

end MemCmd

/-! ### Requests -/

structure Request where
  contextId : ℕ
  paddr : Addr
  size : ℕ
  extraData : BitVec 64 := 0
  isCondSwap : Bool := false
  byteEnable : List Bool := []

namespace Request

/-- Some byte is not enabled. -/
def isMasked (req : Request) : Bool :=
  req.byteEnable.contains false

/-- The request is for at least one byte, and its bytes do not wrap around the address space. -/
structure Proper (req : Request) : Prop where
  nonempty : 0 < req.size
  bounded : req.paddr.toNat + req.size ≤ 2 ^ 64

/-- The request is for the byte with this address. -/
def Touches (req : Request) (b : ℕ) : Prop :=
  req.paddr.toNat ≤ b ∧ b < req.paddr.toNat + req.size

instance (req : Request) (b : ℕ) : Decidable (req.Touches b) :=
  inferInstanceAs (Decidable (_ ∧ _))

/-- The bytes of the second request are among those of the first. -/
def Covers (r r' : Request) : Prop :=
  r.paddr.toNat ≤ r'.paddr.toNat ∧ r'.paddr.toNat + r'.size ≤ r.paddr.toNat + r.size

/-- The requests have a byte in common. -/
def Overlaps (r r' : Request) : Prop :=
  r.paddr.toNat < r'.paddr.toNat + r'.size ∧ r'.paddr.toNat < r.paddr.toNat + r.size

instance (r r' : Request) : Decidable (r.Covers r') :=
  inferInstanceAs (Decidable (_ ∧ _))

instance (r r' : Request) : Decidable (r.Overlaps r') :=
  inferInstanceAs (Decidable (_ ∧ _))

variable {r r' : Request} {b : ℕ}

theorem overlaps_of_touches (h : r.Touches b) (h' : r'.Touches b) :
  r.Overlaps r'
  := ⟨Nat.lt_of_le_of_lt h.1 h'.2, Nat.lt_of_le_of_lt h'.1 h.2⟩

theorem Covers.touches (h : r.Covers r') (hb : r'.Touches b) :
  r.Touches b
  := ⟨Nat.le_trans h.1 hb.1, Nat.lt_of_lt_of_le hb.2 h.2⟩

/-- A request that is not empty touches its first byte. -/
theorem Proper.touches (h : r.Proper) :
  r.Touches r.paddr.toNat
  := ⟨Nat.le_refl _, Nat.lt_add_of_pos_right h.nonempty⟩

end Request

/-! ### Packets -/

structure Packet where
  cmd : MemCmd
  req : Request
  data : ℕ → Byte := fun _ => 0
  atomicOp : Option ((ℕ → Byte) → ℕ → Byte) := none
  hasSharers : Bool := false
  cacheResponding : Bool := false

namespace Packet

def has (pkt : Packet) (attr : Attribute) : Bool :=
  pkt.cmd.has attr

def hasRespData (pkt : Packet) : Bool :=
  pkt.cmd.responseCommand.has .hasData

def isMaskedWrite (pkt : Packet) : Bool :=
  pkt.cmd = .writeReq && pkt.req.isMasked

/-- The position of the packet in a block. -/
def getOffset (pkt : Packet) (blkSize : ℕ) : ℕ :=
  (pkt.req.paddr &&& BitVec.ofNat 64 (blkSize - 1)).toNat

/-- Copy the bytes at position `base` into the packet. -/
def setData (pkt : Packet) (base : ℕ) (mem : ℕ → Byte) : Packet :=
  { pkt with data := fun i => if i < pkt.req.size then mem (base + i) else pkt.data i }

/-- `memcpy(mem + base, bytes, size)`. -/
def copyBytes (base size : ℕ) (bytes : ℕ → Byte) (mem : ℕ → Byte) : ℕ → Byte :=
  fun i => if base ≤ i ∧ i < base + size then bytes (i - base) else mem i

/-- Copy the data of the packet to position `base`, as far as its bytes are enabled. -/
def writeData (pkt : Packet) (base : ℕ) (mem : ℕ → Byte) : Except Fault (ℕ → Byte) :=
  if !pkt.isMaskedWrite then
    .ok (copyBytes base pkt.req.size pkt.data mem)
  else do
    assert (pkt.req.byteEnable.length = pkt.req.size)
    pure (copyBytes base pkt.req.size
      (fun i => if pkt.req.byteEnable.getD i false then pkt.data i else mem (base + i)) mem)

/-- Execute the atomic operation of the packet at position `base`. -/
def runAtomicOp (pkt : Packet) (op : (ℕ → Byte) → ℕ → Byte) (base : ℕ) (mem : ℕ → Byte) :
    ℕ → Byte :=
  copyBytes base pkt.req.size (op fun i => mem (base + i)) mem

/-- Byte `i` of a word of the host. -/
def hostByte (word : BitVec 64) (i : ℕ) : Byte :=
  (word >>> (8 * i)).setWidth 8

/-- Does a swap overwrite the memory? A conditional one compares the extra data of the request with
the bytes at position `base`. -/
def swapOverwrites (pkt : Packet) (base : ℕ) (mem : ℕ → Byte) : Except Fault Bool :=
  if pkt.req.isCondSwap then
    if pkt.req.size = 8 || pkt.req.size = 4 then
      .ok ((List.range pkt.req.size).all
        (fun i => hostByte pkt.req.extraData i = mem (base + i)))
    else
      .error (.panic "Invalid size for conditional read/write\n")
  else
    .ok true

/-! ### Which bytes are written -/

variable {pkt : Packet} {base size : ℕ} {bytes mem mem' : ℕ → Byte} {i : ℕ}

theorem copyBytes_of_outside (h : ¬ (base ≤ i ∧ i < base + size)) :
  copyBytes base size bytes mem i = mem i
  := by
  rw [copyBytes, if_neg h]

/-- A write changes only the bytes of its request. -/
theorem writeData_of_outside (h : pkt.writeData base mem = .ok mem')
    (hi : ¬ (base ≤ i ∧ i < base + pkt.req.size)) :
  mem' i = mem i
  := by
  unfold writeData at h
  split_ifs at h with hmask
  · cases h
    exact copyBytes_of_outside hi
  · obtain ⟨-, h⟩ := assert_bind_eq_ok.mp h
    cases h
    exact copyBytes_of_outside hi

/-- A masked write changes only the bytes that are enabled. -/
theorem writeData_of_disabled (h : pkt.writeData base mem = .ok mem')
    (hmask : pkt.isMaskedWrite = true) (hi : pkt.req.byteEnable.getD (i - base) false = false) :
  mem' i = mem i
  := by
  rw [writeData, hmask] at h
  obtain ⟨-, h⟩ := assert_bind_eq_ok.mp h
  cases h
  by_cases hinside : base ≤ i ∧ i < base + pkt.req.size
  · rw [copyBytes, if_pos hinside, hi, Nat.add_sub_cancel' hinside.1]
    rfl
  · exact copyBytes_of_outside hinside

theorem runAtomicOp_of_outside {op : (ℕ → Byte) → ℕ → Byte}
    (hi : ¬ (base ≤ i ∧ i < base + pkt.req.size)) :
  pkt.runAtomicOp op base mem i = mem i
  := copyBytes_of_outside hi

end Packet

end Gem5Arc
