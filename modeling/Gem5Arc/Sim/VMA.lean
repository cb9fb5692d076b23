import Gem5Arc.Base.PlainRange

/-!
# Virtual memory areas

The class `VMA` of `sim/vma.cc`: a range of virtual addresses, which may be backed by a file that is
mapped into the memory of the host. An area is sliced from either side and moved, and its host
buffer is adjusted.

A host pointer is a position in a mapped file, or is derived from a null pointer. The bytes of a
mapped file are those of the file from the offset of the mapping on. The source of a byte of an area
is the position in a mapped file from which it is filled, if there is one (`VMA.source`). Slices and
moves of an area keep the sources of its bytes (`VMA.at_sliceRegionRight`,
`VMA.at_sliceRegionLeft`, `VMA.at_remap`).
-/

namespace Gem5Arc

open BitVec

/-- A part of a file, mapped into the memory of the host. -/
structure MappedFileBuffer where
  fd : ℕ
  offset : ℕ
  length : ℕ
deriving DecidableEq

/-- A file descriptor with the size of its file, and an offset. -/
structure FileMapping where
  fd : ℕ
  size : ℕ
  offset : ℕ

namespace MappedFileBuffer

def offsetPanic : Fault :=
  .panic "Tried to mmap with offset greater than file size"

def emptyPanic : Fault :=
  .panic "Tried to mmap 0 bytes"

/-- The constructor of `MappedFileBuffer`. -/
def create (file : FileMapping) (length : ℕ) : Except Fault MappedFileBuffer := do
  panicIf (length = 0) "Tried to mmap file of length zero"
  if file.offset > file.size then .error offsetPanic
  else
    let length := min (file.size - file.offset) length
    if length ≠ 0 then pure { fd := file.fd, offset := file.offset, length }
    else .error emptyPanic

end MappedFileBuffer

/-- A pointer into a mapped file, or an offset from a null pointer. -/
structure HostPointer where
  buffer : Option MappedFileBuffer
  position : ℕ

structure VMA where
  addrRange : AddrRange
  name : String
  origHostBuf : Option MappedFileBuffer
  hostBuf : HostPointer
  hostBufLen : ℕ

namespace VMA

variable (pageBytes : Addr) (v : VMA)

def start : Addr :=
  v.addrRange.start

def «end» : Addr :=
  v.addrRange.end

def hasHostBuf : Bool :=
  v.origHostBuf.isSome

def sanityCheck : Except Fault Unit := do
  assert (v.start ≠ v.end)
  assert (v.start < v.end)
  assert (v.start % pageBytes = 0)
  assert (v.end % pageBytes = 0)

/-- The area after its check. -/
def checked : Except Fault VMA := do
  v.sanityCheck pageBytes
  pure v

/-- An area of anonymous memory. The constructor does not set the host pointer and the length, which
are not read. -/
def anonymous (r : AddrRange) (name : String) : VMA where
  addrRange := r
  name := name
  origHostBuf := none
  hostBuf := ⟨none, 0⟩
  hostBufLen := 0

/-- An area that is backed by a mapped file. -/
def backed (r : AddrRange) (name : String) (buffer : MappedFileBuffer) : VMA where
  addrRange := r
  name := name
  origHostBuf := some buffer
  hostBuf := ⟨some buffer, 0⟩
  hostBufLen := buffer.length

/-- The constructor. -/
def create (r : AddrRange) (name : String) (file : Option FileMapping) : Except Fault VMA :=
  match file with
  | none => (anonymous r name).checked pageBytes
  | some file => do
      let buffer ← MappedFileBuffer.create file r.size.toNat
      (backed r name buffer).checked pageBytes

def remap (newStart : Addr) : Except Fault VMA :=
  checked pageBytes { v with addrRange := AddrRange.plain newStart (newStart + v.addrRange.size) }

def isStrictSuperset (r : AddrRange) : Bool :=
  r.start > v.start && r.end < v.end

/-- The host buffer of the part before an address. -/
def hostBufBefore (sliceAddr : Addr) : ℕ :=
  if v.hasHostBuf then min v.hostBufLen (sliceAddr - v.start).toNat else v.hostBufLen

def sliceRegionRight (sliceAddr : Addr) : Except Fault VMA :=
  checked pageBytes { v with
    addrRange := AddrRange.plain v.start sliceAddr
    hostBufLen := v.hostBufBefore sliceAddr }

/-- The area with the host buffer of the part from an address on. -/
def dropHostBuf (sliceAddr : Addr) : VMA :=
  if v.hasHostBuf then
    let overlapLen := (sliceAddr - v.start).toNat
    if overlapLen ≥ v.hostBufLen then
      { v with origHostBuf := none, hostBuf := ⟨none, overlapLen⟩, hostBufLen := 0 }
    else
      { v with
        hostBuf := { v.hostBuf with position := v.hostBuf.position + overlapLen }
        hostBufLen := v.hostBufLen - overlapLen }
  else v

def sliceRegionLeft (sliceAddr : Addr) : Except Fault VMA :=
  checked pageBytes { v.dropHostBuf sliceAddr with addrRange := AddrRange.plain sliceAddr v.end }

/-- A copy of bytes from the memory of the host. -/
structure Blob where
  source : HostPointer
  size : ℕ

/-- The bytes that are written to the page at `start`. -/
def fillMemPages (start : Addr) : Option Blob :=
  let offset := (start - v.start).toNat
  if offset < v.hostBufLen then
    some { source := { v.hostBuf with position := v.hostBuf.position + offset }
           size := min (v.hostBufLen - offset) pageBytes.toNat }
  else none

/-! ### The bytes of an area -/

/-- The byte has an address of the area. -/
def Covers (a : Addr) : Prop :=
  v.start ≤ a ∧ a < v.end

instance (a : Addr) : Decidable (v.Covers a) :=
  inferInstanceAs (Decidable (v.start ≤ a ∧ a < v.end))

/-- Where the byte at an address is filled from: a mapped file and a position in it. -/
def source (a : Addr) : Option (MappedFileBuffer × ℕ) :=
  match v.origHostBuf with
  | none => none
  | some buffer =>
    if (a - v.start).toNat < v.hostBufLen then
      some (buffer, v.hostBuf.position + (a - v.start).toNat)
    else none

/-- What the area has at an address: the source of the byte there, if it is in the area. -/
def «at» (a : Addr) : List (Option (MappedFileBuffer × ℕ)) :=
  if v.Covers a then [v.source a] else []

/-- An area as it should be: its range is plain and consists of pages, and its host buffer is a part
of the mapped file. -/
structure Good : Prop where
  plain : v.addrRange.Plain
  «match» : v.addrRange.intlvMatch = 0
  alignedStart : v.start % pageBytes = 0
  alignedEnd : v.end % pageBytes = 0
  buffer : v.origHostBuf.isSome → v.hostBuf.buffer = v.origHostBuf
  bounded : ∀ b, v.origHostBuf = some b → v.hostBuf.position + v.hostBufLen ≤ b.length

variable {pageBytes v}

theorem checked_eq (hne : v.start < v.end) (hstart : v.start % pageBytes = 0)
    (hend : v.end % pageBytes = 0) :
  v.checked pageBytes = .ok v
  := by
  have hdiff : v.start ≠ v.end := fun h => BitVec.lt_irrefl _ (h ▸ hne)
  simp [checked, sanityCheck, hdiff, hne, hstart, hend]

theorem Good.checked (hv : v.Good pageBytes) :
  v.checked pageBytes = .ok v
  := checked_eq hv.plain.nonempty hv.alignedStart hv.alignedEnd

variable {a s : Addr}

theorem at_of_covers (h : v.Covers a) :
  v.at a = [v.source a]
  := if_pos h

theorem at_of_not_covers (h : ¬ v.Covers a) :
  v.at a = []
  := if_neg h

theorem at_ne_nil :
  v.at a ≠ [] ↔ v.Covers a
  := by
  unfold VMA.at
  split_ifs with h
  · simp [h]
  · simp [h]

/-- The bytes of an area are some bytes of another one. -/
theorem at_eq {w : VMA} {a' : Addr} {part : Prop} [Decidable part]
    (hcovers : w.Covers a ↔ part ∧ v.Covers a')
    (hsource : part → v.Covers a' → w.source a = v.source a') :
  w.at a = if part then v.at a' else []
  := by
  unfold VMA.at
  split_ifs with hw hpart hv hpart hv
  · rw [hsource hpart hv]
  · exact absurd (hcovers.mp hw).2 hv
  · exact absurd (hcovers.mp hw).1 hpart
  · exact absurd (hcovers.mpr ⟨hpart, hv⟩) hw
  · rfl
  · rfl

theorem source_hostBufBefore (hcovers : v.Covers a) (has : a < s) :
  source { v with addrRange := AddrRange.plain v.start s, hostBufLen := v.hostBufBefore s } a
    = v.source a
  := by
  have hlt : (a - v.start).toNat < (s - v.start).toNat := by
    obtain ⟨h₁, -⟩ := hcovers
    bv_omega
  unfold source hostBufBefore hasHostBuf
  cases v.origHostBuf with
  | none => rfl
  | some buffer =>
    have hiff : (a - v.start).toNat < min v.hostBufLen (s - v.start).toNat
        ↔ (a - v.start).toNat < v.hostBufLen := by
      rw [Nat.lt_min]
      exact and_iff_left hlt
    exact if_congr hiff rfl rfl

/-- The part before an address. -/
theorem Good.sliceRegionRight (hv : v.Good pageBytes) (h₁ : v.start < s) (h₂ : s ≤ v.end)
    (hs : s % pageBytes = 0) :
  ∃ w, v.sliceRegionRight pageBytes s = .ok w ∧ w.Good pageBytes ∧ w.start = v.start ∧ w.end = s
    ∧ ∀ a, w.at a = if a < s then v.at a else []
  := by
  refine ⟨_, checked_eq h₁ hv.alignedStart hs, ?_, rfl, rfl, ?_⟩
  · refine ⟨⟨rfl, h₁⟩, rfl, hv.alignedStart, hs, hv.buffer, ?_⟩
    intro b hb
    have hle : v.hostBufBefore s ≤ v.hostBufLen := by
      unfold hostBufBefore
      split_ifs
      · exact Nat.min_le_left _ _
      · exact Nat.le_refl _
    exact Nat.le_trans (Nat.add_le_add_left hle _) (hv.bounded b hb)
  · intro a
    apply at_eq
    · constructor
      · rintro ⟨hstart, hend⟩
        refine ⟨hend, hstart, ?_⟩
        change a < s at hend
        bv_omega
      · rintro ⟨has, hcovers⟩
        exact ⟨hcovers.1, has⟩
    · intro has hcovers
      exact source_hostBufBefore hcovers has

theorem source_dropHostBuf (h₁ : v.start ≤ s) (has : s ≤ a) :
  source { v.dropHostBuf s with addrRange := AddrRange.plain s v.end } a = v.source a
  := by
  have hsub : (a - v.start).toNat = (s - v.start).toNat + (a - s).toNat := by bv_omega
  unfold dropHostBuf hasHostBuf
  cases hbuf : v.origHostBuf with
  | none => simp [source, hbuf]
  | some buffer =>
    rw [Option.isSome_some, if_pos rfl]
    simp only
    split_ifs with hover
    · have hnot : ¬ (a - v.start).toNat < v.hostBufLen := by omega
      simp only [source, hbuf, if_neg hnot]
    · have hiff : (a - s).toNat < v.hostBufLen - (s - v.start).toNat
          ↔ (a - v.start).toNat < v.hostBufLen := by omega
      simp only [source, hbuf]
      apply if_congr hiff _ rfl
      rw [hsub, Nat.add_assoc]
      rfl

section

variable (hv : v.Good pageBytes)

include hv

theorem Good.dropHostBuf (s : Addr) :
  ((v.dropHostBuf s).origHostBuf.isSome →
      (v.dropHostBuf s).hostBuf.buffer = (v.dropHostBuf s).origHostBuf)
    ∧ ∀ b, (v.dropHostBuf s).origHostBuf = some b →
      (v.dropHostBuf s).hostBuf.position + (v.dropHostBuf s).hostBufLen ≤ b.length
  := by
  unfold VMA.dropHostBuf
  dsimp only
  split_ifs with hhas hover
  · exact ⟨by simp, by simp⟩
  · refine ⟨hv.buffer, ?_⟩
    intro b hb
    have hbound := hv.bounded b hb
    dsimp only
    omega
  · exact ⟨hv.buffer, hv.bounded⟩

/-- The part from an address on. -/
theorem Good.sliceRegionLeft (h₁ : v.start ≤ s) (h₂ : s < v.end) (hs : s % pageBytes = 0) :
  ∃ w, v.sliceRegionLeft pageBytes s = .ok w ∧ w.Good pageBytes ∧ w.start = s ∧ w.end = v.end
    ∧ ∀ a, w.at a = if s ≤ a then v.at a else []
  := by
  obtain ⟨hbuffer, hbounded⟩ := hv.dropHostBuf s
  refine ⟨_, checked_eq h₂ hs hv.alignedEnd, ?_, rfl, rfl, ?_⟩
  · exact ⟨⟨rfl, h₂⟩, rfl, hs, hv.alignedEnd, hbuffer, hbounded⟩
  · intro a
    apply at_eq
    · constructor
      · rintro ⟨hstart, hend⟩
        exact ⟨hstart, BitVec.le_trans h₁ hstart, hend⟩
      · rintro ⟨has, hcovers⟩
        exact ⟨has, hcovers.2⟩
    · intro has _
      exact source_dropHostBuf h₁ has

/-- The area at another address. -/
theorem Good.remap {n : Addr} (hn : n % pageBytes = 0)
    (hend : (n + (v.end - v.start)) % pageBytes = 0)
    (hfits : n.toNat + (v.end - v.start).toNat < 2 ^ 64) :
  ∃ w, v.remap pageBytes n = .ok w ∧ w.Good pageBytes ∧ w.start = n
    ∧ w.end = n + (v.end - v.start)
    ∧ ∀ a, w.at a
      = if n ≤ a ∧ a < n + (v.end - v.start) then v.at (a - n + v.start) else []
  := by
  have hne := hv.plain.nonempty
  have hsize : v.addrRange.size = v.end - v.start := by
    rw [AddrRange.size, hv.plain.masks, List.length_nil, ushiftRight_zero]
    rfl
  have hlt : n < n + (v.end - v.start) := by
    change v.start < v.end at hne
    bv_omega
  unfold VMA.remap
  rw [hsize]
  refine ⟨_, checked_eq hlt hn hend, ?_, rfl, rfl, ?_⟩
  · exact ⟨⟨rfl, hlt⟩, rfl, hn, hend, hv.buffer, hv.bounded⟩
  · intro a
    apply at_eq
    · change n ≤ a ∧ a < n + (v.end - v.start) ↔ _
      constructor
      · intro h
        refine ⟨h, ?_⟩
        change v.start < v.end at hne
        constructor
        · bv_omega
        · bv_omega
      · exact fun h => h.1
    · intro _ _
      have hdiff : a - n + v.start - v.start = a - n := by bv_omega
      unfold source
      rw [hdiff]
      rfl

end

/-! ### Filling a page -/

/-- The bytes that are written when the page at `p` is allocated. -/
def fillPage (pageBytes : Addr) (v : VMA) (p : Addr) : Option Blob :=
  if v.hasHostBuf then v.fillMemPages pageBytes p else none

/-- Where a byte of a copy comes from. -/
def Blob.byte (blob : Blob) (j : ℕ) : Option (MappedFileBuffer × ℕ) :=
  if j < blob.size then blob.source.buffer.map fun b => (b, blob.source.position + j) else none

theorem aligned_iff {pageBytes : Addr} :
  a % pageBytes = 0 ↔ pageBytes.toNat ∣ a.toNat
  := by
  rw [← toNat_inj, toNat_umod, Nat.dvd_iff_mod_eq_zero]
  rfl

section

variable (hv : v.Good pageBytes)

include hv

variable {p : Addr}

/-- A page of an area is inside of the area. -/
theorem Good.page_le (hp : p % pageBytes = 0) (hcovers : v.Covers p) :
  p.toNat + pageBytes.toNat ≤ v.end.toNat
  := by
  obtain ⟨k, hk⟩ := aligned_iff.mp hp
  obtain ⟨n, hn⟩ := aligned_iff.mp hv.alignedEnd
  have hlt := lt_def.mp hcovers.2
  rw [hk, hn] at hlt
  have hkn : k + 1 ≤ n := Nat.lt_of_mul_lt_mul_left hlt
  calc p.toNat + pageBytes.toNat
      = pageBytes.toNat * (k + 1) := by rw [hk, Nat.mul_succ]
    _ ≤ pageBytes.toNat * n := Nat.mul_le_mul_left _ hkn
    _ = v.end.toNat := hn.symm

/-- A page is filled byte by byte from the sources of its bytes. -/
theorem Good.fillPage_byte (hp : p % pageBytes = 0) (hcovers : v.Covers p) {j : ℕ}
    (hj : j < pageBytes.toNat) :
  (v.fillPage pageBytes p).bind (fun blob => blob.byte j) = v.source (p + BitVec.ofNat 64 j)
  := by
  have hpage := hv.page_le hp hcovers
  have hoffset : (p + BitVec.ofNat 64 j - v.start).toNat = (p - v.start).toNat + j := by
    have hj' : (BitVec.ofNat 64 j).toNat = j := by
      apply Nat.mod_eq_of_lt
      omega
    have hstart := le_def.mp hcovers.1
    rw [toNat_sub, toNat_add, toNat_sub, hj']
    omega
  unfold fillPage source hasHostBuf
  cases hbuf : v.origHostBuf with
  | none => rfl
  | some buffer =>
    have hpointer : v.hostBuf.buffer = some buffer := by
      rw [hv.buffer (by rw [hbuf]; rfl), hbuf]
    rw [Option.isSome_some, if_pos rfl, hoffset]
    unfold fillMemPages
    dsimp only
    split_ifs with hlen hbyte hbyte
    · have hsize : j < min (v.hostBufLen - (p - v.start).toNat) pageBytes.toNat := by omega
      rw [Option.bind_some, Blob.byte, if_pos hsize, hpointer]
      simp only [Option.map_some, Nat.add_assoc]
    · have hsize : ¬ j < min (v.hostBufLen - (p - v.start).toNat) pageBytes.toNat := by omega
      rw [Option.bind_some, Blob.byte, if_neg hsize]
    · omega
    · rfl

/-- A byte is filled from inside of the mapped file. -/
theorem Good.source_lt {b : MappedFileBuffer} {n : ℕ} (h : v.source a = some (b, n)) :
  n < b.length
  := by
  unfold source at h
  cases hbuf : v.origHostBuf with
  | none =>
    rw [hbuf] at h
    cases h
  | some buffer =>
    have hbounded := hv.bounded buffer hbuf
    rw [hbuf] at h
    split_ifs at h with hlen
    obtain ⟨rfl, rfl⟩ := Prod.mk.inj (Option.some.inj h)
    omega

end

end VMA

end Gem5Arc
