import Gem5Arc.Base.Bits
import Gem5Arc.Lib.MixedRadix

/-!
# Decoding of DRAM addresses

`DRAMInterface::decodePacket` finds the rank, the bank and the row of an address. It takes the bits
of the address apart by successive divisions, in an order that the address mapping decides. The
number of rows of a bank is the capacity of the memory, divided by the bytes in one row of all
banks.

The sizes of the memory are 32-bit numbers, and so are their products, such as the divisor above. An
address is the offset in the range of the controller, which is what `getCtrlAddr` gives.
-/

namespace Gem5Arc

open Lib.MixedRadix List Nat

/-- The order of row, rank, bank, column and channel in an address. -/
inductive AddrMap where
  | RoRaBaChCo | RoRaBaCoCh | RoCoRaBaCh
deriving DecidableEq

/-- The rank, the bank and the row of a packet. -/
structure MemLocation where
  rank : BitVec 8
  bank : BitVec 8
  row : ℕ
deriving DecidableEq

/-- The parameters of a DRAM interface. -/
structure DRAMParams where
  addrMapping : AddrMap
  devicesPerRank : BitVec 32
  burstLength : BitVec 32
  deviceBusWidth : BitVec 32
  deviceRowBufferSize : BitVec 32
  ranksPerChannel : BitVec 32
  banksPerRank : BitVec 32
  /-- The granularity of the range, if it is interleaved. -/
  granularity : Option (BitVec 64)
  /-- The size of the range. -/
  size : BitVec 64

/-- The value of `Bank::NO_ROW`. -/
def noRow : ℕ := 2 ^ 32 - 1

/-- What is left over by a division, which stops the simulator when the divisor is 0. -/
def remainder (n d : ℕ) : Except Fault ℕ :=
  if d = 0 then .error .divisionByZero else .ok (n % d)

namespace DRAMParams

variable (p : DRAMParams) {product total n d : ℕ}

def burstSize : BitVec 32 := p.devicesPerRank * p.burstLength * p.deviceBusWidth / 8

def rowBufferSize : BitVec 32 := p.devicesPerRank * p.deviceRowBufferSize

def burstsPerRowBuffer : BitVec 32 := p.rowBufferSize / p.burstSize

def burstsPerStripe : BitVec 32 :=
  match p.granularity with
  | some granularity => (granularity / p.burstSize.setWidth 64).setWidth 32
  | none => 1

def capacity : BitVec 64 := 1#64 <<< ceilLog2 p.size.toNat

/-- The number of rows that the constructor computes. -/
def rowsPerBank : Except Fault (BitVec 32) := do
  let rows ← divide p.capacity.toNat
    (p.rowBufferSize * p.banksPerRank * p.ranksPerChannel).toNat
  pure (BitVec.ofNat 32 rows)

/-- The bank and the rank that the lowest bits denote, and the other bits. -/
def bankAndRank (addr : ℕ) : Except Fault (BitVec 8 × BitVec 8 × ℕ) := do
  let bank ← remainder addr p.banksPerRank.toNat
  let addr ← divide addr p.banksPerRank.toNat
  let rank ← remainder addr p.ranksPerChannel.toNat
  let addr ← divide addr p.ranksPerChannel.toNat
  pure (BitVec.ofNat 8 bank, BitVec.ofNat 8 rank, addr)

/-- The rank, the bank and the row of a burst, before they are checked. -/
def locate (rowsPerBank : BitVec 32) (addr : ℕ) : Except Fault MemLocation :=
  match p.addrMapping with
  | .RoRaBaChCo | .RoRaBaCoCh => do
      let addr ← divide addr p.burstsPerRowBuffer.toNat
      let (bank, rank, addr) ← p.bankAndRank addr
      let row ← remainder addr rowsPerBank.toNat
      pure ⟨rank, bank, row⟩
  | .RoCoRaBaCh => do
      let addr ←
        if p.burstsPerStripe > p.burstsPerRowBuffer then divide addr p.burstsPerRowBuffer.toNat
        else divide addr p.burstsPerStripe.toNat
      let (bank, rank, addr) ← p.bankAndRank addr
      let addr ←
        if p.burstsPerStripe < p.burstsPerRowBuffer then do
          let columns ← divide p.burstsPerRowBuffer.toNat p.burstsPerStripe.toNat
          divide addr columns
        else pure addr
      let row ← remainder addr rowsPerBank.toNat
      pure ⟨rank, bank, row⟩

/-- `DRAMInterface::decodePacket`. -/
def decodePacket (rowsPerBank : BitVec 32) (ctrlAddr : BitVec 64) : Except Fault MemLocation := do
  let addr ← divide ctrlAddr.toNat p.burstSize.toNat
  let x ← p.locate rowsPerBank addr
  assert (x.rank.toNat < p.ranksPerChannel.toNat)
  assert (x.bank.toNat < p.banksPerRank.toNat)
  assert (x.row < rowsPerBank.toNat)
  assert (x.row < noRow)
  pure x

/-! ### The specification -/

/-- The bursts of the memory that are in a row of a bank. -/
def bursts (rows : BitVec 32) (x : MemLocation) : Finset ℕ :=
  (Finset.range (p.capacity.toNat / p.burstSize.toNat)).filter fun n =>
    p.decodePacket rows (BitVec.ofNat 64 (n * p.burstSize.toNat)) = .ok x

/-- Every address of the memory is decoded, and every row of every bank has as many bursts as a row
buffer. -/
def Balanced : Prop :=
  ∃ rows, p.rowsPerBank = .ok rows
    ∧ (∀ addr < p.capacity, ∃ x, p.decodePacket rows addr = .ok x)
    ∧ ∀ x : MemLocation, x.rank.toNat < p.ranksPerChannel.toNat →
      x.bank.toNat < p.banksPerRank.toNat → x.row < rows.toNat →
      (p.bursts rows x).card = p.burstsPerRowBuffer.toNat

/-- The sizes are powers of two, with at most 256 banks and ranks. -/
structure PowersOfTwo (p : DRAMParams) (burst row stripe ranks banks total : ℕ) : Prop where
  burstSize : p.burstSize.toNat = 2 ^ burst
  rowBufferSize : p.rowBufferSize.toNat = 2 ^ row
  burstsPerStripe : p.burstsPerStripe.toNat = 2 ^ stripe
  ranksPerChannel : p.ranksPerChannel.toNat = 2 ^ ranks
  banksPerRank : p.banksPerRank.toNat = 2 ^ banks
  capacity : p.capacity.toNat = 2 ^ total
  ranks_le : ranks ≤ 8
  banks_le : banks ≤ 8

section

variable {p} {burst row columns stripe ranks banks : ℕ} {rows : BitVec 32}

theorem divide_of_pos (h : 0 < d) :
  divide n d = .ok (n / d)
  := if_neg (ne_of_gt h)

theorem remainder_of_pos (h : 0 < d) :
  remainder n d = .ok (n % d)
  := if_neg (ne_of_gt h)

namespace PowersOfTwo

section

variable (hp : PowersOfTwo p burst row stripe ranks banks total)
include hp

/-- The number of rows, which is cut off to 32 bits. -/
theorem rowsPerBank :
  p.rowsPerBank
    = if row + banks + ranks < 32 then
        .ok (BitVec.ofNat 32 (2 ^ total / 2 ^ (row + banks + ranks)))
      else .error .divisionByZero
  := by
  have hproduct : (p.rowBufferSize * p.banksPerRank * p.ranksPerChannel).toNat
      = 2 ^ (row + banks + ranks) % 2 ^ 32 := by
    rw [BitVec.toNat_mul, BitVec.toNat_mul, mod_mul_mod, hp.rowBufferSize, hp.banksPerRank,
      hp.ranksPerChannel, ← pow_add, ← pow_add]
  rw [DRAMParams.rowsPerBank, hproduct, hp.capacity]
  split_ifs with hlt
  · rw [Nat.mod_eq_of_lt (Nat.pow_lt_pow_right Nat.one_lt_two hlt),
      divide_of_pos (Nat.two_pow_pos _)]
    rfl
  · rw [mod_eq_zero_of_dvd (pow_dvd_pow 2 (not_lt.mp hlt))]
    rfl

theorem bankAndRank (addr : ℕ) :
  p.bankAndRank addr = .ok (BitVec.ofNat 8 (addr % 2 ^ banks),
    BitVec.ofNat 8 (addr / 2 ^ banks % 2 ^ ranks), addr / 2 ^ banks / 2 ^ ranks)
  := by
  rw [DRAMParams.bankAndRank, hp.banksPerRank, hp.ranksPerChannel,
    remainder_of_pos (Nat.two_pow_pos _), ok_bind, divide_of_pos (Nat.two_pow_pos _), ok_bind,
    remainder_of_pos (Nat.two_pow_pos _), ok_bind, divide_of_pos (Nat.two_pow_pos _), ok_bind]
  rfl

/-- No burst fits in a row buffer that is smaller, and every mapping divides by their number. -/
theorem decodePacket_of_row_lt (hrow : row < burst) (addr : BitVec 64) :
  p.decodePacket rows addr = .error .divisionByZero
  := by
  have hnone : p.burstsPerRowBuffer.toNat = 0 := by
    rw [DRAMParams.burstsPerRowBuffer, BitVec.toNat_udiv, hp.rowBufferSize, hp.burstSize]
    apply Nat.div_eq_of_lt (Nat.pow_lt_pow_right Nat.one_lt_two hrow)
  have hstripe : p.burstsPerStripe > p.burstsPerRowBuffer := by
    rw [gt_iff_lt, BitVec.lt_def, hnone, hp.burstsPerStripe]
    apply Nat.two_pow_pos
  rw [DRAMParams.decodePacket, hp.burstSize, divide_of_pos (Nat.two_pow_pos _), ok_bind,
    DRAMParams.locate, hnone, if_pos hstripe]
  cases p.addrMapping with
  | RoRaBaChCo | RoRaBaCoCh | RoCoRaBaCh => rfl

end

variable (hp : PowersOfTwo p burst (burst + columns) stripe ranks banks total)
include hp

theorem burstsPerRowBuffer :
  p.burstsPerRowBuffer.toNat = 2 ^ columns
  := by
  rw [DRAMParams.burstsPerRowBuffer, BitVec.toNat_udiv, hp.rowBufferSize, hp.burstSize,
    Nat.pow_add, Nat.mul_div_cancel_left _ (Nat.two_pow_pos burst)]

end PowersOfTwo

/-- The number of bits of the column below the bank. -/
def lowColumns (p : DRAMParams) (columns stripe : ℕ) : ℕ :=
  if p.addrMapping = .RoCoRaBaCh then min columns stripe else columns

theorem lowColumns_le (p : DRAMParams) (columns stripe : ℕ) :
  lowColumns p columns stripe ≤ columns
  := by
  rw [lowColumns]
  split_ifs
  · apply min_le_left
  · apply le_refl

/-- The bank and the rank of a burst, with `low` bits of the column below the bank. -/
def place (low banks ranks n row : ℕ) : MemLocation where
  rank := BitVec.ofNat 8 (n / 2 ^ low / 2 ^ banks % 2 ^ ranks)
  bank := BitVec.ofNat 8 (n / 2 ^ low % 2 ^ banks)
  row := row

/-- The upper bits of a burst, above `high` bits of the column. -/
def rowBits (low banks ranks high n : ℕ) : ℕ :=
  n / 2 ^ low / 2 ^ banks / 2 ^ ranks / 2 ^ high

namespace PowersOfTwo

variable (hp : PowersOfTwo p burst (burst + columns) stripe ranks banks total)
include hp

/-- The bits of a burst are the lower bits of the column, the bank, the rank, the upper bits of the
column, and the row. -/
theorem locate (n : ℕ) :
  p.locate rows n
    = place (lowColumns p columns stripe) banks ranks n
      <$> remainder (rowBits (lowColumns p columns stripe) banks ranks
        (columns - lowColumns p columns stripe) n) rows.toNat
  := by
  rw [DRAMParams.locate, lowColumns, hp.burstsPerRowBuffer, hp.burstsPerStripe]
  simp only [hp.bankAndRank, ok_bind]
  cases p.addrMapping with
  | RoRaBaChCo | RoRaBaCoCh =>
    dsimp only
    rw [divide_of_pos (Nat.two_pow_pos _), ok_bind, if_neg (by decide), rowBits, Nat.sub_self,
      Nat.pow_zero, Nat.div_one]
    rfl
  | RoCoRaBaCh =>
    have hlt : p.burstsPerStripe < p.burstsPerRowBuffer ↔ stripe < columns := by
      rw [BitVec.lt_def, hp.burstsPerStripe, hp.burstsPerRowBuffer,
        Nat.pow_lt_pow_iff_right Nat.one_lt_two]
    have hgt : p.burstsPerStripe > p.burstsPerRowBuffer ↔ columns < stripe := by
      rw [gt_iff_lt, BitVec.lt_def, hp.burstsPerStripe, hp.burstsPerRowBuffer,
        Nat.pow_lt_pow_iff_right Nat.one_lt_two]
    simp only [hlt, hgt, if_true]
    rcases lt_trichotomy stripe columns with hstripe | rfl | hstripe
    · rw [if_neg (by omega), divide_of_pos (Nat.two_pow_pos _), ok_bind, if_pos hstripe,
        divide_of_pos (Nat.two_pow_pos _), ok_bind, Nat.pow_div hstripe.le Nat.two_pos,
        divide_of_pos (Nat.two_pow_pos _), ok_bind, min_eq_right hstripe.le, rowBits]
      rfl
    · rw [if_neg (by omega), divide_of_pos (Nat.two_pow_pos _), ok_bind, if_neg (by omega),
        min_self, Nat.sub_self, rowBits, Nat.pow_zero, Nat.div_one]
      rfl
    · rw [if_pos hstripe, divide_of_pos (Nat.two_pow_pos _), ok_bind, if_neg (by omega),
        min_eq_left hstripe.le, Nat.sub_self, rowBits, Nat.pow_zero, Nat.div_one]
      rfl

theorem place_rank (low n row : ℕ) :
  (place low banks ranks n row).rank.toNat = n / 2 ^ low / 2 ^ banks % 2 ^ ranks
  := by
  have hranks := Nat.pow_le_pow_right Nat.two_pos hp.ranks_le
  have hlt := Nat.mod_lt (n / 2 ^ low / 2 ^ banks) (Nat.two_pow_pos ranks)
  apply Nat.mod_eq_of_lt (hlt.trans_le hranks)

theorem place_bank (low n row : ℕ) :
  (place low banks ranks n row).bank.toNat = n / 2 ^ low % 2 ^ banks
  := by
  have hbanks := Nat.pow_le_pow_right Nat.two_pos hp.banks_le
  have hlt := Nat.mod_lt (n / 2 ^ low) (Nat.two_pow_pos banks)
  apply Nat.mod_eq_of_lt (hlt.trans_le hbanks)

/-- If there are rows, the assertions hold. -/
theorem decodePacket (hrows : 0 < rows.toNat) (addr : BitVec 64) :
  p.decodePacket rows addr
    = .ok (place (lowColumns p columns stripe) banks ranks (addr.toNat / 2 ^ burst)
      (rowBits (lowColumns p columns stripe) banks ranks (columns - lowColumns p columns stripe)
        (addr.toNat / 2 ^ burst) % rows.toNat))
  := by
  have hrow := Nat.mod_lt (rowBits (lowColumns p columns stripe) banks ranks
    (columns - lowColumns p columns stripe) (addr.toNat / 2 ^ burst)) hrows
  have hmax : rows.toNat ≤ noRow := by
    rw [noRow]
    omega
  rw [DRAMParams.decodePacket, hp.burstSize, divide_of_pos (Nat.two_pow_pos _), ok_bind, hp.locate,
    remainder_of_pos hrows]
  apply assert_bind_eq_ok.mpr ⟨_, _⟩
  · rw [decide_eq_true_iff, hp.place_rank, hp.ranksPerChannel]
    apply Nat.mod_lt _ (Nat.two_pow_pos _)
  apply assert_bind_eq_ok.mpr ⟨_, _⟩
  · rw [decide_eq_true_iff, hp.place_bank, hp.banksPerRank]
    apply Nat.mod_lt _ (Nat.two_pow_pos _)
  apply assert_bind_eq_ok.mpr ⟨decide_eq_true hrow, _⟩
  exact assert_bind_eq_ok.mpr ⟨decide_eq_true (hrow.trans_le hmax), rfl⟩

/-- Without rows, no address can be decoded. -/
theorem decodePacket_ne_ok (hrows : rows.toNat = 0) (addr : BitVec 64) (x : MemLocation) :
  p.decodePacket rows addr ≠ .ok x
  := by
  rw [DRAMParams.decodePacket, hp.burstSize, divide_of_pos (Nat.two_pow_pos _), ok_bind, hp.locate,
    hrows]
  nofun

/-- The bits of the bursts in a row of a bank. -/
def pattern (p : DRAMParams) (columns stripe ranks banks rows : ℕ) (x : MemLocation) :
    DigitPattern :=
  [(2 ^ lowColumns p columns stripe, none), (2 ^ banks, some x.bank.toNat),
    (2 ^ ranks, some x.rank.toNat), (2 ^ (columns - lowColumns p columns stripe), none),
    (rows, some x.row)]

omit hp in
theorem choices_pattern (p : DRAMParams) (columns stripe ranks banks rows : ℕ) (x : MemLocation) :
  (pattern p columns stripe ranks banks rows x).choices = 2 ^ columns
  := by
  simp only [pattern, DigitPattern.choices, map_cons, map_nil, prod_cons,
    prod_nil, if_true, reduceCtorEq, if_false, Nat.one_mul, Nat.mul_one]
  rw [← Nat.pow_add, Nat.add_sub_cancel' (lowColumns_le p columns stripe)]

omit hp in
theorem size_pattern (rows : ℕ) (x : MemLocation) :
  (pattern p columns stripe ranks banks rows x).size = 2 ^ (columns + banks + ranks) * rows
  := by
  have hlow := lowColumns_le p columns stripe
  simp only [pattern, DigitPattern.size, map_cons, map_nil, prod_cons, prod_nil]
  have hsum : columns + banks + ranks = lowColumns p columns stripe + banks + ranks
      + (columns - lowColumns p columns stripe) := by
    omega
  rw [hsum, pow_add, pow_add, pow_add]
  ring

/-- A burst is in a row of a bank exactly when it has these bits. -/
theorem decodePacket_eq_iff (hrows : 0 < rows.toNat) (addr : BitVec 64) (x : MemLocation) :
  p.decodePacket rows addr = .ok x
    ↔ (pattern p columns stripe ranks banks rows.toNat x).Matches (addr.toNat / 2 ^ burst)
  := by
  rw [hp.decodePacket hrows, Except.ok.injEq]
  simp only [pattern, DigitPattern.Matches, Option.mem_def, Option.some.injEq, forall_eq',
    reduceCtorEq, false_imp_iff, forall_const, true_and, and_true]
  constructor
  · rintro rfl
    rw [hp.place_rank, hp.place_bank]
    exact ⟨rfl, rfl, rfl⟩
  · rintro ⟨hbank, hrank, hrow⟩
    have hb : (place (lowColumns p columns stripe) banks ranks (addr.toNat / 2 ^ burst)
        x.row).bank = x.bank := by
      apply BitVec.eq_of_toNat_eq
      rw [hp.place_bank, hbank]
    have hr : (place (lowColumns p columns stripe) banks ranks (addr.toNat / 2 ^ burst)
        x.row).rank = x.rank := by
      apply BitVec.eq_of_toNat_eq
      rw [hp.place_rank, hrank]
    rw [rowBits, hrow]
    cases x
    simp only [place, MemLocation.mk.injEq] at hb hr ⊢
    exact ⟨hr, hb, trivial⟩

/-- If the memory has rows of all banks and nothing else, every row has as many bursts as a row
buffer. -/
theorem card_bursts (hrows : 0 < rows.toNat)
    (htotal : 2 ^ total = 2 ^ (burst + columns + banks + ranks) * rows.toNat) {x : MemLocation}
    (hrank : x.rank.toNat < p.ranksPerChannel.toNat) (hbank : x.bank.toNat < p.banksPerRank.toNat)
    (hrow : x.row < rows.toNat) :
  (p.bursts rows x).card = p.burstsPerRowBuffer.toNat
  := by
  rw [hp.burstsPerRowBuffer, ← choices_pattern p columns stripe ranks banks rows.toNat x,
    ← DigitPattern.card_matches]
  · rw [bursts, hp.capacity, hp.burstSize, size_pattern]
    have hcount : 2 ^ total / 2 ^ burst = 2 ^ (columns + banks + ranks) * rows.toNat := by
      rw [htotal, add_assoc burst, add_assoc burst, pow_add 2 burst, mul_assoc,
        Nat.mul_div_cancel_left _ (Nat.two_pow_pos _)]
    rw [← hcount]
    congr 1
    apply Finset.filter_congr
    intro n hn
    have hn' : n * 2 ^ burst < 2 ^ 64 := by
      have hle := div_mul_le_self (2 ^ total) (2 ^ burst)
      have hcap := p.capacity.isLt
      rw [hp.capacity] at hcap
      have hlt := Nat.mul_lt_mul_of_pos_right (Finset.mem_range.mp hn) (Nat.two_pow_pos burst)
      omega
    rw [hp.decodePacket_eq_iff hrows, BitVec.toNat_ofNat, mod_eq_of_lt hn',
      Nat.mul_div_cancel _ (Nat.two_pow_pos _)]
  · rw [hp.ranksPerChannel] at hrank
    rw [hp.banksPerRank] at hbank
    intro y hy v hv
    simp only [pattern, mem_cons, not_mem_nil, or_false] at hy
    rcases hy with rfl | rfl | rfl | rfl | rfl
    · cases hv
    · cases hv
      apply hbank
    · cases hv
      apply hrank
    · cases hv
    · cases hv
      apply hrow

end PowersOfTwo

end

theorem toNat_rows (hle : product ≤ total) (hlt : total < product + 32) :
  (BitVec.ofNat 32 (2 ^ total / 2 ^ product)).toNat = 2 ^ (total - product)
  := by
  rw [BitVec.toNat_ofNat, Nat.pow_div hle Nat.two_pos]
  apply Nat.mod_eq_of_lt
  apply Nat.pow_lt_pow_right Nat.one_lt_two
  omega

theorem toNat_rows_eq_zero (h : total < product ∨ product + 32 ≤ total) :
  (BitVec.ofNat 32 (2 ^ total / 2 ^ product)).toNat = 0
  := by
  rw [BitVec.toNat_ofNat]
  rcases h with hlt | hle
  · rw [Nat.div_eq_of_lt (Nat.pow_lt_pow_right Nat.one_lt_two hlt)]
  · rw [Nat.pow_div (by omega) Nat.two_pos]
    apply mod_eq_zero_of_dvd
    apply pow_dvd_pow
    omega

/-- The decoding is balanced exactly when a burst fits in a row buffer, the bytes in one row of all
banks are below 2³² and not more than the capacity, and the number of rows is below 2³². -/
theorem balanced_iff {p : DRAMParams} {burst row stripe ranks banks total : ℕ}
    (hp : PowersOfTwo p burst row stripe ranks banks total) :
  p.Balanced
    ↔ burst ≤ row ∧ row + banks + ranks < 32 ∧ row + banks + ranks ≤ total
      ∧ total < row + banks + ranks + 32
  := by
  rw [Balanced, hp.rowsPerBank]
  by_cases hproduct : row + banks + ranks < 32
  · rw [if_pos hproduct]
    simp only [hproduct, true_and, Except.ok.injEq, exists_eq_left']
    constructor
    · rintro ⟨hdecoded, -⟩
      obtain ⟨x, hx⟩ := hdecoded 0#64 (by
        rw [BitVec.lt_def, hp.capacity]
        apply Nat.two_pow_pos)
      have hrow : burst ≤ row := by
        by_contra hrow
        rw [hp.decodePacket_of_row_lt (not_le.mp hrow)] at hx
        cases hx
      refine ⟨hrow, ?_⟩
      obtain ⟨columns, rfl⟩ := Nat.exists_eq_add_of_le hrow
      by_contra hrows
      apply hp.decodePacket_ne_ok _ 0#64 x hx
      apply toNat_rows_eq_zero
      omega
    · rintro ⟨hrow, hle, hlt⟩
      obtain ⟨columns, rfl⟩ := Nat.exists_eq_add_of_le hrow
      have hrows := toNat_rows hle hlt
      have hpos : 0 < (BitVec.ofNat 32
          (2 ^ total / 2 ^ (burst + columns + banks + ranks))).toNat := by
        rw [hrows]
        apply Nat.two_pow_pos
      constructor
      · intro addr _
        exact ⟨_, hp.decodePacket hpos addr⟩
      · intro x hrank hbank hrow
        apply hp.card_bursts hpos _ hrank hbank hrow
        rw [hrows, ← Nat.pow_add, Nat.add_sub_cancel' hle]
  · rw [if_neg hproduct]
    exact iff_of_false (fun ⟨_, hrows, _⟩ => nomatch hrows) fun h => hproduct h.2.1

/-- Eight devices with a row of 1 KiB, 8 banks and 2 ranks. -/
def ddr3 : DRAMParams where
  addrMapping := .RoRaBaCoCh
  devicesPerRank := 8
  burstLength := 8
  deviceBusWidth := 8
  deviceRowBufferSize := 2 ^ 10
  ranksPerChannel := 2
  banksPerRank := 8
  granularity := none
  size := 2 ^ 32

theorem balanced_iff_ddr3 :
  ddr3.Balanced
  := by
  have hp : PowersOfTwo ddr3 6 13 0 1 3 32 := by
    constructor <;> decide
  apply (balanced_iff hp).mpr
  decide

/-- The same devices with rows of 8 KiB, in 256 banks and 256 ranks. -/
def manyBanks : DRAMParams :=
  { ddr3 with
    deviceRowBufferSize := 2 ^ 13
    ranksPerChannel := 2 ^ 8
    banksPerRank := 2 ^ 8
    size := 2 ^ 40 }

/-- The sizes are powers of two, and the divisor wraps around to 0. In a range of 64 KiB there is no
row, and no address can be decoded. -/
theorem manyBanks_divisionByZero :
  PowersOfTwo manyBanks 6 16 0 8 8 40
    ∧ manyBanks.rowsPerBank = .error .divisionByZero
    ∧ PowersOfTwo { ddr3 with size := 2 ^ 16 } 6 13 0 1 3 16
    ∧ { ddr3 with size := 2 ^ 16 }.rowsPerBank = .ok 0
    ∧ { ddr3 with size := 2 ^ 16 }.decodePacket 0 0 = .error .divisionByZero
  := by
  refine ⟨?_, by decide, ?_, by decide, by decide⟩
  · constructor <;> decide
  · constructor <;> decide

end DRAMParams

end Gem5Arc
