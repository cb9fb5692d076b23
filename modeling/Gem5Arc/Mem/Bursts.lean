import Gem5Arc.Basic
import Mathlib.Data.Nat.Bitwise

/-!
# The bursts of a packet

The memory controller (`mem/mem_ctrl.cc`) serves a packet burst by burst. `MemCtrl::recvTimingReq`
computes the number of sub-requests a packet needs in 32-bit arithmetic; the loops of
`MemCtrl::addToReadQueue` and `MemCtrl::addToWriteQueue` then cut the packet at the burst
boundaries in 64-bit arithmetic. The burst size is `2 ^ b` bytes.

`Region.tiles_iff` says for which packets the pieces are what they should be.
-/

namespace Gem5Arc

open Nat

/-- The bytes a packet is about: not empty, of a 32-bit size, and within the 64-bit address
space. -/
structure Region where
  addr : ℕ
  size : ℕ
  size_pos : 0 < size
  size_lt : size < 2 ^ 32
  noWrap : addr + size ≤ 2 ^ 64

/-- A part of a packet: an address and a number of bytes. -/
structure Piece where
  addr : ℕ
  size : ℕ
deriving DecidableEq, Repr

/-! ### Cutting a packet -/

/-- The first address of the next burst, `(addr | (burst_size - 1)) + 1` in 64 bits. -/
def nextBurst (b addr : ℕ) : ℕ := ((addr ||| (2 ^ b - 1)) + 1) % 2 ^ 64

/-- The first address of the burst of an address, `addr & ~(burst_size - 1)` in 64 bits. -/
def burstAlign (b addr : ℕ) : ℕ := addr &&& (2 ^ 64 - 1 - (2 ^ b - 1))

namespace Region

variable (b : ℕ) (r : Region)

/-- The number of sub-requests of a packet, `divCeil(offset + size, burst_size)` in 32 bits. -/
def pktCount : ℕ :=
  let offset := r.addr &&& (2 ^ b - 1)
  (((offset + r.size) % 2 ^ 32 + 2 ^ b) - 1) % 2 ^ 32 / 2 ^ b

/-- The size of the sub-request at an address,
`min((addr | (burst_size - 1)) + 1, base_addr + size) - addr` in 64 bits, cut to 32 bits. -/
def pieceSize (addr : ℕ) : ℕ :=
  (min (nextBurst b addr) ((r.addr + r.size) % 2 ^ 64) + (2 ^ 64 - addr)) % 2 ^ 64 % 2 ^ 32

/-- The next `n` sub-requests of a packet, from an address on. -/
def pieces : ℕ → ℕ → List Piece
  | 0, _ => []
  | n + 1, addr => ⟨addr, r.pieceSize b addr⟩ :: pieces n (nextBurst b addr)

def subRequests : List Piece := r.pieces b (r.pktCount b) r.addr

end Region

/-- `Tiles b addr size l`: the pieces `l` follow one another from `addr` on, none of them is
empty, each lies within one burst, and together they have `size` bytes. -/
def Tiles (b : ℕ) : ℕ → ℕ → List Piece → Prop
  | _, size, [] => size = 0
  | addr, size, p :: l =>
    (p.addr = addr ∧ 0 < p.size ∧ p.addr % 2 ^ b + p.size ≤ 2 ^ b ∧ p.size ≤ size)
      ∧ Tiles b (addr + p.size) (size - p.size) l

instance Tiles.decidable (b : ℕ) : ∀ addr size l, Decidable (Tiles b addr size l)
  | _, size, [] => inferInstanceAs (Decidable (size = 0))
  | addr, size, p :: l =>
    have := Tiles.decidable b (addr + p.size) (size - p.size) l
    inferInstanceAs (Decidable ((_ ∧ _ ∧ _ ∧ _) ∧ _))

/-! ### The arithmetic of bursts -/

theorem burstAlign_eq {b addr : ℕ} (hb : b ≤ 31) (haddr : addr < 2 ^ 64) :
  burstAlign b addr = 2 ^ b * (addr / 2 ^ b)
  := by
  have hlt : 2 ^ b - 1 < 2 ^ 64 := by
    have := Nat.pow_le_pow_right (n := 2) (by decide) hb
    omega
  apply Nat.eq_of_testBit_eq
  intro i
  rw [burstAlign, Nat.sub_sub, Nat.add_comm 1, Nat.testBit_and, Nat.testBit_two_pow_sub_succ hlt,
    Nat.testBit_two_pow_sub_one, Nat.testBit_two_pow_mul]
  by_cases hi : b ≤ i
  · rw [Nat.testBit_div_two_pow, Nat.sub_add_cancel hi]
    by_cases hi' : i < 64
    · simp [hi, hi', Nat.not_lt.mpr hi]
    · have hpow := Nat.pow_le_pow_right (n := 2) (by decide) (Nat.le_of_not_lt hi')
      rw [Nat.testBit_lt_two_pow (Nat.lt_of_lt_of_le haddr hpow)]
      simp
  · simp [hi, Nat.lt_of_not_le hi]

theorem or_burstMask (b n : ℕ) :
  (n ||| (2 ^ b - 1)) + 1 = (n / 2 ^ b + 1) * 2 ^ b
  := by
  have hpos := Nat.two_pow_pos b
  have hor : n ||| (2 ^ b - 1) = 2 ^ b * (n / 2 ^ b) + (2 ^ b - 1) := by
    apply Nat.eq_of_testBit_eq
    intro i
    rw [Nat.testBit_two_pow_mul_add _ (by omega), Nat.testBit_or, Nat.testBit_two_pow_sub_one]
    by_cases hi : i < b
    · simp [hi]
    · rw [if_neg hi, Nat.testBit_div_two_pow, Nat.sub_add_cancel (Nat.le_of_not_lt hi)]
      simp [hi]
  rw [hor, Nat.add_assoc, Nat.sub_add_cancel hpos]
  ring

def burstEnd (b addr : ℕ) : ℕ := (addr / 2 ^ b + 1) * 2 ^ b

theorem nextBurst_eq (b addr : ℕ) :
  nextBurst b addr = burstEnd b addr % 2 ^ 64
  := by rw [nextBurst, or_burstMask, burstEnd]

theorem burstEnd_add_mod (b addr : ℕ) :
  burstEnd b addr + addr % 2 ^ b = addr + 2 ^ b
  := by
  have h := div_add_mod' addr (2 ^ b)
  rw [burstEnd, add_mul, one_mul]
  omega

/-- The end of a burst is at the end of the address space or a whole burst before it. -/
theorem burstEnd_le {b addr : ℕ} (hb : b ≤ 64) (haddr : addr < 2 ^ 64) :
  burstEnd b addr = 2 ^ 64 ∨ burstEnd b addr + 2 ^ b ≤ 2 ^ 64
  := by
  have hsplit : 2 ^ (64 - b) * 2 ^ b = 2 ^ 64 := by
    rw [← Nat.pow_add, Nat.sub_add_cancel hb]
  have hlt : addr / 2 ^ b < 2 ^ (64 - b) := by
    apply Nat.div_lt_of_lt_mul
    rwa [Nat.mul_comm, hsplit]
  rcases lt_or_eq_of_le (succ_le_of_lt hlt) with h | h
  · right
    have hmul := mul_le_mul_right (2 ^ b) (succ_le_of_lt h)
    rw [hsplit] at hmul
    rw [succ_eq_add_one, add_mul _ 1, one_mul] at hmul
    apply hmul
  · left
    rw [burstEnd, ← succ_eq_add_one, h, hsplit]

/-- Bytes that start in a burst and do not go past its end are followed by an address of the same
burst or by the first one of the next. -/
theorem add_mod_of_within {b addr n : ℕ} (h : addr % 2 ^ b + n ≤ 2 ^ b) :
  (addr + n) % 2 ^ b = if addr % 2 ^ b + n = 2 ^ b then 0 else addr % 2 ^ b + n
  := by
  rw [← mod_add_mod]
  split_ifs with heq
  · rw [heq, mod_self]
  · exact mod_eq_of_lt (by omega)

/-- Pieces that lie within bursts cover no more than as many bursts as there are pieces. -/
theorem Tiles.le_length {b addr size : ℕ} {l : List Piece} (h : Tiles b addr size l) (hl : l ≠ []) :
  addr % 2 ^ b + size ≤ l.length * 2 ^ b
  := by
  induction l generalizing addr size with
  | nil => contradiction
  | cons p l ih =>
    obtain ⟨⟨hp, -, hwithin, hsize⟩, hrest⟩ := h
    rw [hp] at hwithin
    rw [List.length_cons, add_mul, one_mul]
    cases l with
    | nil =>
      have hzero : size - p.size = 0 := hrest
      omega
    | cons q l =>
      have hle := ih hrest (List.cons_ne_nil q l)
      rw [add_mod_of_within hwithin] at hle
      split_ifs at hle <;> omega

/-- The pieces lie each within one burst, and within the bytes they tile. -/
theorem Tiles.mem {b addr size : ℕ} {l : List Piece} (h : Tiles b addr size l) {p : Piece}
    (hp : p ∈ l) :
  0 < p.size ∧ p.addr % 2 ^ b + p.size ≤ 2 ^ b ∧ p.addr + p.size ≤ addr + size
  := by
  induction l generalizing addr size with
  | nil => cases hp
  | cons q l ih =>
    obtain ⟨⟨hq, hpos, hwithin, hsize⟩, hrest⟩ := h
    rcases List.mem_cons.mp hp with rfl | hp
    · refine ⟨hpos, hwithin, ?_⟩
      omega
    · obtain ⟨hpos', hwithin', hle⟩ := ih hrest hp
      refine ⟨hpos', hwithin', ?_⟩
      omega

namespace Region

variable {b : ℕ} {r : Region} {n addr rest : ℕ}

/-! ### Counting the sub-requests -/

/-- The arithmetic of `pktCount` stays within 32 bits. -/
def CountFits (b : ℕ) (r : Region) : Prop := r.addr % 2 ^ b + r.size + 2 ^ b - 1 < 2 ^ 32

instance (b : ℕ) (r : Region) : Decidable (r.CountFits b) :=
  inferInstanceAs (Decidable (_ < _))

theorem pktCount_eq (b : ℕ) (r : Region) :
  r.pktCount b = (r.addr % 2 ^ b + r.size + 2 ^ b - 1) % 2 ^ 32 / 2 ^ b
  := by
  have hpos := Nat.two_pow_pos b
  simp only [pktCount, Nat.and_two_pow_sub_one_eq_mod]
  rw [Nat.add_sub_assoc hpos, Nat.add_sub_assoc hpos, Nat.mod_add_mod]

/-- If the count does not overflow, it is the number of bursts the packet touches. -/
theorem pktCount_bounds (hfit : r.CountFits b) :
  r.addr % 2 ^ b + r.size ≤ r.pktCount b * 2 ^ b
    ∧ r.pktCount b * 2 ^ b < r.addr % 2 ^ b + r.size + 2 ^ b
  := by
  have hpos := Nat.two_pow_pos b
  have hdiv := Nat.div_add_mod' (r.addr % 2 ^ b + r.size + 2 ^ b - 1) (2 ^ b)
  rw [pktCount_eq, Nat.mod_eq_of_lt hfit]
  omega

theorem pktCount_pos (hfit : r.CountFits b) :
  0 < r.pktCount b
  := by
  have hle := (pktCount_bounds hfit).1
  have hpos := r.size_pos
  apply pos_of_ne_zero
  intro hzero
  rw [hzero] at hle
  omega

/-- If the count overflows, there are too few sub-requests. -/
theorem pktCount_lt_of_overflow (hb : b ≤ 31) (hfit : ¬r.CountFits b) :
  r.pktCount b * 2 ^ b < r.addr % 2 ^ b + r.size
  := by
  have hpos := Nat.two_pow_pos b
  have hpow : 2 ^ b ≤ 2 ^ 31 := Nat.pow_le_pow_right (by decide) hb
  have hsize := r.size_lt
  rw [CountFits, Nat.not_lt] at hfit
  have hmod : (r.addr % 2 ^ b + r.size + 2 ^ b - 1) % 2 ^ 32
      = r.addr % 2 ^ b + r.size + 2 ^ b - 1 - 2 ^ 32 := by
    rw [Nat.mod_eq_sub_mod hfit]
    apply Nat.mod_eq_of_lt
    omega
  have hdiv := Nat.div_mul_le_self (r.addr % 2 ^ b + r.size + 2 ^ b - 1 - 2 ^ 32) (2 ^ b)
  rw [pktCount_eq, hmod]
  omega

theorem length_pieces (b : ℕ) (r : Region) (n addr : ℕ) :
  (r.pieces b n addr).length = n
  := by
  induction n generalizing addr with
  | zero => rfl
  | succ n ih => rw [pieces, List.length_cons, ih]

theorem length_subRequests (b : ℕ) (r : Region) :
  (r.subRequests b).length = r.pktCount b
  := length_pieces b r _ _

/-! ### Cutting below the last burst of the address space -/

/-- No byte of the packet is in the last burst of the address space. -/
def Below (b : ℕ) (r : Region) : Prop := r.addr + r.size + 2 ^ b ≤ 2 ^ 64

instance (b : ℕ) (r : Region) : Decidable (r.Below b) := inferInstanceAs (Decidable (_ ≤ _))

/-- The size of a piece below the last burst is what is left of the burst or of the packet. -/
theorem pieceSize_of_below (hbelow : r.Below b) (hle : r.addr ≤ addr)
    (hlt : addr < r.addr + r.size) :
  r.pieceSize b addr = min (burstEnd b addr) (r.addr + r.size) - addr
    ∧ nextBurst b addr = burstEnd b addr
  := by
  have hend := burstEnd_add_mod b addr
  have hsize := r.size_lt
  rw [Below] at hbelow
  have hburst : burstEnd b addr % 2 ^ 64 = burstEnd b addr := mod_eq_of_lt (by omega)
  have hregion : (r.addr + r.size) % 2 ^ 64 = r.addr + r.size := mod_eq_of_lt (by omega)
  constructor
  · rw [pieceSize, nextBurst_eq, hburst, hregion]
    have hm : addr < min (burstEnd b addr) (r.addr + r.size) := by omega
    have hm' : min (burstEnd b addr) (r.addr + r.size) ≤ r.addr + r.size := min_le_right _ _
    generalize min (burstEnd b addr) (r.addr + r.size) = m at hm hm' ⊢
    have hsum : m + (2 ^ 64 - addr) = (m - addr) + 2 ^ 64 := by omega
    rw [hsum, add_mod_right, mod_eq_of_lt (by omega), mod_eq_of_lt (by omega)]
  · rw [nextBurst_eq, hburst]

/-- From an address on, as many pieces as there are bursts left tile the rest of the packet. -/
theorem tiles_pieces (hbelow : r.Below b) (hle : r.addr ≤ addr)
    (hrest : addr + rest = r.addr + r.size) (hpos : 0 < rest) (hn : addr % 2 ^ b + rest ≤ n * 2 ^ b)
    (hn' : n * 2 ^ b < addr % 2 ^ b + rest + 2 ^ b) :
  Tiles b addr rest (r.pieces b n addr)
  := by
  induction n generalizing addr rest with
  | zero => omega
  | succ n ih =>
    obtain ⟨hsize, hnext⟩ := pieceSize_of_below hbelow hle (by omega)
    have hend := burstEnd_add_mod b addr
    rw [add_mul, one_mul] at hn hn'
    rw [pieces]
    by_cases hlast : addr % 2 ^ b + rest ≤ 2 ^ b
    · have hsz : r.pieceSize b addr = rest := by omega
      have hzero : n = 0 := by
        rcases Nat.eq_zero_or_pos n with h | h
        · apply h
        · have := Nat.le_mul_of_pos_left (2 ^ b) h
          omega
      rw [hsz, hzero]
      refine ⟨⟨rfl, hpos, hlast, le_refl rest⟩, ?_⟩
      rw [Nat.sub_self]
      rfl
    · have hsz : r.pieceSize b addr = 2 ^ b - addr % 2 ^ b := by omega
      have hspos : 0 < r.pieceSize b addr := by omega
      have hswithin : addr % 2 ^ b + r.pieceSize b addr ≤ 2 ^ b := by omega
      have hsle : r.pieceSize b addr ≤ rest := by omega
      refine ⟨⟨rfl, hspos, hswithin, hsle⟩, ?_⟩
      have haddr : addr + r.pieceSize b addr = burstEnd b addr := by omega
      simp only [haddr, hnext]
      have hzero : burstEnd b addr % 2 ^ b = 0 := mul_mod_left _ _
      apply ih
      · omega
      · omega
      · omega
      · rw [hzero]
        omega
      · rw [hzero]
        omega

/-! ### Cutting at the end of the address space -/

section

variable (hb : b ≤ 31)

include hb

/-- In the last burst of the address space the end of the burst is address 0, and a piece is
taken to go up to the end of the burst. -/
theorem pieceSize_of_last (haddr : addr < 2 ^ 64) (hlast : burstEnd b addr = 2 ^ 64) :
  r.pieceSize b addr = 2 ^ 64 - addr
  := by
  have hpow : 2 ^ b ≤ 2 ^ 31 := Nat.pow_le_pow_right (by decide) hb
  have hend := burstEnd_add_mod b addr
  rw [pieceSize, nextBurst_eq, hlast, mod_self, zero_min, zero_add,
    mod_eq_of_lt (by omega), mod_eq_of_lt (by omega)]

/-- If a packet ends inside the last burst of the address space, its pieces do not tile it. -/
theorem not_tiles_pieces (hinside : r.addr + r.size < 2 ^ 64) (habove : ¬r.Below b)
    (hrest : addr + rest = r.addr + r.size) (hpos : 0 < rest) :
  ¬Tiles b addr rest (r.pieces b n addr)
  := by
  rw [Below] at habove
  induction n generalizing addr rest with
  | zero =>
    intro h
    have hzero : rest = 0 := h
    omega
  | succ n ih =>
    rintro ⟨⟨-, -, hwithin, hsize⟩, htail⟩
    simp only at hwithin hsize htail
    have hend := burstEnd_add_mod b addr
    have hle : burstEnd b addr = 2 ^ 64 ∨ burstEnd b addr + 2 ^ b ≤ 2 ^ 64 :=
      burstEnd_le (by omega) (by omega)
    rcases hle with hlast | hlower
    · rw [pieceSize_of_last hb (by omega) hlast] at hsize
      omega
    · cases n with
      | zero =>
        have hzero : rest - r.pieceSize b addr = 0 := htail
        omega
      | succ n =>
        have hnext : nextBurst b addr = burstEnd b addr := by
          rw [nextBurst_eq]
          apply mod_eq_of_lt
          omega
        have hhead : nextBurst b addr = addr + r.pieceSize b addr := htail.1.1
        rw [← hhead, hnext] at htail
        apply ih _ _ htail
        · omega
        · omega

end

/-- If a packet ends with the address space, its first piece is the whole packet. -/
theorem pieceSize_of_end (hend : r.addr + r.size = 2 ^ 64) :
  r.pieceSize b r.addr = r.size
  := by
  have hsize := r.size_lt
  rw [pieceSize, hend, mod_self, min_zero, zero_add, mod_eq_of_lt (by omega),
    mod_eq_of_lt (by omega)]
  omega

/-! ### Which packets are cut right -/

/-- The packets that are cut right: the count does not overflow, and the packet has no byte in
the last burst of the address space, or else has exactly the last bytes of that burst. -/
def CutRight (b : ℕ) (r : Region) : Prop :=
  r.CountFits b
    ∧ (r.Below b ∨ r.addr + r.size = 2 ^ 64 ∧ r.addr % 2 ^ b + r.size ≤ 2 ^ b)

/-- The sub-requests are non-empty, lie each within one burst and partition the packet exactly if
the packet is cut right. -/
theorem tiles_subRequests_iff (hb : b ≤ 31) (r : Region) :
  Tiles b r.addr r.size (r.subRequests b) ↔ r.CutRight b
  := by
  have hsize := r.size_pos
  by_cases hfit : r.CountFits b
  · obtain ⟨hle, hlt⟩ := pktCount_bounds hfit
    by_cases hbelow : r.Below b
    · refine iff_of_true ?_ ⟨hfit, .inl hbelow⟩
      exact tiles_pieces hbelow (le_refl _) rfl hsize hle hlt
    · rcases lt_or_eq_of_le r.noWrap with hinside | hend
      · constructor
        · intro h
          exact absurd h (not_tiles_pieces hb hinside hbelow rfl hsize)
        · rintro ⟨-, h | ⟨h, -⟩⟩
          · contradiction
          · omega
      · have hcount := pktCount_pos hfit
        constructor
        · intro h
          rw [subRequests, ← succ_pred_eq_of_pos hcount] at h
          obtain ⟨⟨-, -, hwithin, -⟩, -⟩ := h
          rw [pieceSize_of_end hend] at hwithin
          exact ⟨hfit, .inr ⟨hend, hwithin⟩⟩
        · rintro ⟨-, h | ⟨-, hwithin⟩⟩
          · contradiction
          · have hone : r.pktCount b = 1 := by
              rcases lt_or_eq_of_le (succ_le_of_lt hcount) with h | h
              · have := mul_le_mul_right (2 ^ b) (succ_le_of_lt h)
                omega
              · exact h.symm
            rw [subRequests, hone, pieces, pieceSize_of_end hend]
            exact ⟨⟨rfl, hsize, hwithin, Nat.le_refl _⟩, Nat.sub_self _⟩
  · constructor
    · intro h
      have hlt := pktCount_lt_of_overflow hb hfit
      cases hsub : r.subRequests b with
      | nil =>
        rw [hsub] at h
        have hzero : r.size = 0 := h
        omega
      | cons p l =>
        have hle := h.le_length (by rw [hsub]; apply List.cons_ne_nil)
        rw [length_subRequests] at hle
        omega
    · rintro ⟨h, -⟩
      contradiction

end Region

end Gem5Arc
