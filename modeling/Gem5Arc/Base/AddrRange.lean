import Gem5Arc.Basic

/-!
# Address ranges

The class `AddrRange` of `base/addr_range.hh`. A range has a start and an end, which is not part of
it, and may be interleaved: for each bit of a selector there is a mask, and an address belongs to
the range if the parities of the masked address form the matching value.

A shift of a word by 64 bits or more is undefined, as an overflow is, and counts as that fault.
-/

namespace Gem5Arc

structure AddrRange where
  start : Addr
  «end» : Addr
  masks : List Addr
  intlvMatch : BitVec 8
deriving DecidableEq

namespace AddrRange

/-- The word with one bit. -/
def oneAt (bit : ℕ) : Addr :=
  (1 : Addr) <<< bit

/-- `1ULL << bit`. -/
def shiftOne (bit : ℕ) : Except Fault Addr :=
  if bit < 64 then .ok (oneAt bit) else .error .overflow

/-- The number of bits that are set. -/
def popCount (val : Addr) : ℕ :=
  ((Finset.range 64).filter fun i => val.getLsbD i).card

/-- The selector of an address: the bit at each position is the parity of the address under the mask
of this position. -/
def sel (a : Addr) : List Addr → ℕ → ℕ → ℕ
  | [], _, acc => acc
  | mask :: masks, i, acc =>
    sel a masks (i + 1) (acc ||| ((popCount (a &&& mask) % 2) <<< i))

def interleaved (r : AddrRange) : Bool :=
  0 < r.masks.length

def size (r : AddrRange) : Addr :=
  (r.end - r.start) >>> r.masks.length

/-- `ctz64`, which is 64 for 0. -/
def ctz64 (val : Addr) : ℕ :=
  ((List.range 64).find? fun i => val.getLsbD i).getD 64

/-- The size of the regions of an interleaved range. The masks are combined in a variable of type
`int`. -/
def granularity (r : AddrRange) : Except Fault Addr :=
  if r.interleaved then
    let combinedMask : BitVec 32 := r.masks.foldl (fun acc mask => acc ||| mask.setWidth 32) 0
    shiftOne (ctz64 (combinedMask.signExtend 64))
  else .ok r.size

def contains (r : AddrRange) (a : Addr) : Bool :=
  if a ≥ r.start && a < r.end then sel a r.masks 0 0 = r.intlvMatch.toNat else false

def mergesWith (r s : AddrRange) : Bool :=
  s.start = r.start && s.end = r.end && s.masks = r.masks

def intersects (r s : AddrRange) : Except Fault Bool :=
  if r.start ≥ s.end || r.end ≤ s.start then .ok false
  else if !r.interleaved && !s.interleaved then .ok true
  else if s.size = 1 then .ok (r.contains s.start)
  else if r.mergesWith s then .ok (r.intlvMatch = s.intlvMatch)
  else .error (.panic "Cannot test intersection of %s and %s\n")

def isSubset (r s : AddrRange) : Except Fault Bool :=
  if r.interleaved then .error (.panic "Cannot test subset of interleaved range %s\n")
  else if s.interleaved then do
    let granularity ← s.granularity
    pure (s.contains r.start && s.contains (r.end - 1) && r.size ≤ granularity)
  else if r.end ≤ r.start then .ok (r.start ≥ s.start && s.end = 0)
  else if s.end ≤ s.start then .ok (r.start ≥ s.start)
  else .ok (r.start ≥ s.start && r.end ≤ s.end)

/-- The order of the ranges in a map. -/
def lt (r s : AddrRange) : Bool :=
  if r.start ≠ s.start then r.start < s.start
  else if r.interleaved && s.interleaved then r.intlvMatch < s.intlvMatch
  else r.interleaved

/-- `AddrRange(start, end)`. -/
def plain (start «end» : Addr) : AddrRange where
  start := start
  «end» := «end»
  masks := []
  intlvMatch := 0

/-! ### The constructor for interleaved ranges -/

def checkMatch (intlvBits intlvMatch : BitVec 8) : Except Fault Unit :=
  if intlvBits = 0 then .ok ()
  else do
    let stripes ← shiftOne intlvBits.toNat
    fatalIf ((intlvMatch.setWidth 64 : Addr) ≥ stripes)
      "Match value %d does not fit in %d interleaving bits\n"

/-- The check of the XOR bits. The differences of the bits are of type `int`. -/
def checkXor (intlvHighBit xorHighBit intlvBits : BitVec 8) : Except Fault Unit :=
  if intlvBits = 0 || xorHighBit = 0 then .ok ()
  else if xorHighBit = intlvHighBit then
    .error (.fatal "XOR and interleave high bit must be different\n")
  else if xorHighBit > intlvHighBit then
    fatalIf (xorHighBit.toNat - intlvHighBit.toNat < intlvBits.toNat)
      "XOR and interleave high bit must be at least %d bits apart\n"
  else
    fatalIf (intlvHighBit.toNat - xorHighBit.toNat < intlvBits.toNat)
      "Interleave and XOR high bit must be at least %d bits apart\n"

/-- The checks of the constructor. -/
def sanityChecks (intlvHighBit xorHighBit intlvBits intlvMatch : BitVec 8) :
    Except Fault Unit := do
  checkMatch intlvBits intlvMatch
  checkXor intlvHighBit xorHighBit intlvBits

/-- The mask of the loop at `i`, with bit numbers of eight bits. -/
def loopMask (intlvHighBit xorHighBit : BitVec 8) (i : ℕ) : Except Fault Addr := do
  let mask ← shiftOne (intlvHighBit - BitVec.ofNat 8 i).toNat
  if xorHighBit ≠ 0 then do
    let xorMask ← shiftOne (xorHighBit - BitVec.ofNat 8 i).toNat
    pure (mask ||| xorMask)
  else pure mask

/-- The loop, which fills the masks from the last one to the first. -/
def fillMasks (intlvHighBit xorHighBit : BitVec 8) (intlvBits : ℕ) : Except Fault (List Addr) :=
  (List.range intlvBits).foldlM
    (fun masks i => do
      let mask ← loopMask intlvHighBit xorHighBit i
      pure (masks.set (intlvBits - i - 1) mask))
    (List.replicate intlvBits 0)

/-- The legacy constructor. -/
def legacy (start «end» : Addr) (intlvHighBit xorHighBit intlvBits intlvMatch : BitVec 8) :
    Except Fault AddrRange := do
  sanityChecks intlvHighBit xorHighBit intlvBits intlvMatch
  let masks ← fillMasks intlvHighBit xorHighBit intlvBits.toNat
  pure { start, «end», masks, intlvMatch }

/-! ### The constructor that merges ranges -/

def mergeLoop (first : AddrRange) : BitVec 8 → List AddrRange → Except Fault Unit
  | _, [] => .ok ()
  | «match», it :: rest => do
      fatalIf (!first.mergesWith it)
        ("Can only merge ranges with the same start, end " ++
          "and interleaving bits, %s %s.")
      fatalIf (it.intlvMatch ≠ «match»)
        "Expected interleave match %d but got %d when merging."
      mergeLoop first («match» + 1) rest

/-- Merge all ranges of an interleaving. Nothing is merged if there are fewer than two ranges. -/
def merge : List AddrRange → Except Fault AddrRange
  | [] => .ok { start := 1, «end» := 0, masks := [], intlvMatch := 0 }
  | [first] => .ok first
  | first :: second :: rest => do
      let ranges := first :: second :: rest
      let stripes ← shiftOne first.masks.length
      fatalIf ((BitVec.ofNat 64 ranges.length : Addr) ≠ stripes)
        "Got %d ranges spanning %d interleaving bits."
      mergeLoop first 0 ranges
      pure { first with masks := [], intlvMatch := 0 }

end AddrRange

end Gem5Arc
