import Gem5Arc.Lib.Run
import Gem5Arc.Sim.MemState

/-!
# The memory a process sees

What a process sees of its memory regions is an image: for every address whether it is mapped, and
from which position of which mapped file it is filled, if it is backed by one. A call that maps,
unmaps or moves a region does to the image of the areas what it is meant to do (`call_eq`), and
leaves areas that are apart, not empty and made of pages. So this holds after every sequence of
calls (`memState_refines_image`).
-/

namespace Gem5Arc

open BitVec List MemState

namespace MemState

variable {pageBytes : Addr} {r : AddrRange} {v : VMA} {a : Addr} {l : List VMA} {m : MemState}

/-! ### Images -/

/-- What a process sees: whether an address is mapped, and where its byte is filled from. -/
abbrev Image : Type := Addr → Option (Option (MappedFileBuffer × ℕ))

namespace Image

def empty : Image := fun _ => none

/-- The part of a file that is mapped. -/
def buffer (file : FileMapping) (length : Addr) : MappedFileBuffer where
  fd := file.fd
  offset := file.offset
  length := min (file.size - file.offset) length.toNat

/-- Where the bytes of a new region are filled from: the file from its offset on, up to its end. -/
def fresh (start length : Addr) (file : Option FileMapping) (a : Addr) :
    Option (MappedFileBuffer × ℕ) :=
  match file with
  | none => none
  | some file =>
    if (a - start).toNat < (buffer file length).length then
      some (buffer file length, (a - start).toNat)
    else none

def map (r : AddrRange) (source : Addr → Option (MappedFileBuffer × ℕ)) (image : Image) : Image :=
  fun a => if Within r a then some (source a) else image a

def unmap (r : AddrRange) (image : Image) : Image :=
  fun a => if Within r a then none else image a

def move (r : AddrRange) (n : Addr) (image : Image) : Image :=
  fun a => if Target r n a then image (origin r n a) else unmap r image a

end Image

/-- The image of the areas. -/
def image (l : List VMA) : Image :=
  fun a => (views l a).head?

theorem perm_eq {α : Type} {l l' : List α} (h : l.Perm l') (hlen : l'.length ≤ 1) :
  l = l'
  := by
  cases l' with
  | nil => exact h.eq_nil
  | cons a l' =>
    cases l' with
    | nil => exact perm_singleton.mp h
    | cons b l' =>
      simp only [length_cons] at hlen
      omega

/-- Areas that are apart have no address in common. -/
theorem Valid.pairwise (hl : Valid pageBytes l) :
  l.Pairwise fun v w => ∀ a, ¬ (v.Covers a ∧ w.Covers a)
  := by
  induction l with
  | nil => exact .nil
  | cons v l ih =>
    refine pairwise_cons.mpr ⟨?_, ih hl.tail⟩
    rintro w hw a ⟨hv, hwa⟩
    have hnil := hl.views_tail hv
    have hw' := flatMap_eq_nil_iff.mp hnil w hw
    exact VMA.at_ne_nil.mpr hwa hw'

theorem image_of_covers (hl : Valid pageBytes l) (hv : v ∈ l) (ha : v.Covers a) :
  image l a = some (v.source a)
  := by
  obtain ⟨l₁, l₂, rfl⟩ := append_of_mem hv
  have hlen := hl.apart a
  have hviews : views (l₁ ++ v :: l₂) a = views l₁ a ++ ([v.source a] ++ views l₂ a) := by
    rw [views_append, views_cons, VMA.at_of_covers ha]
  rw [hviews, List.length_append, List.length_append, length_singleton] at hlen
  have hnil : views l₁ a = [] := eq_nil_of_length_eq_zero (by omega)
  rw [image, hviews, hnil]
  rfl

/-! ### Calls -/

inductive Call where
  | map (startAddr length : Addr) (regionName : String) (file : Option FileMapping)
  | unmap (startAddr length : Addr)
  | remap (startAddr newStartAddr length : Addr)

abbrev region (startAddr length : Addr) : AddrRange :=
  AddrRange.plain startAddr (startAddr + length)

section

variable (pageBytes)

def call : Call → MemState → Except Fault MemState
  | .map startAddr length regionName file, m =>
    m.mapRegion pageBytes startAddr length regionName file
  | .unmap startAddr length, m => m.unmapRegion pageBytes startAddr length
  | .remap startAddr newStartAddr length, m =>
    m.remapRegion pageBytes startAddr newStartAddr length

/-- The region consists of pages, is not empty and does not reach the end of the address space. -/
structure Regular (startAddr length : Addr) : Prop where
  alignedStart : startAddr % pageBytes = 0
  alignedLength : length % pageBytes = 0
  nonempty : length ≠ 0
  fits : startAddr.toNat + length.toNat < 2 ^ 64

/-- The calls that are made: regions are regular, and new ones are unmapped. -/
def Made : Call → MemState → Prop
  | .map startAddr length _ _, m =>
    Regular pageBytes startAddr length ∧ m.isUnmapped startAddr length = .ok true
  | .unmap startAddr length, _ => Regular pageBytes startAddr length
  | .remap startAddr newStartAddr length, m =>
    Regular pageBytes startAddr length ∧ Regular pageBytes newStartAddr length
      ∧ (startAddr.toNat + length.toNat ≤ newStartAddr.toNat
        ∨ newStartAddr.toNat + length.toNat ≤ startAddr.toNat)
      ∧ m.isUnmapped newStartAddr length = .ok true

end

/-- What a call is meant to do. -/
def Call.apply : Call → Image → Image
  | map startAddr length _ file =>
    Image.map (region startAddr length) (Image.fresh startAddr length file)
  | unmap startAddr length => Image.unmap (region startAddr length)
  | remap startAddr newStartAddr length => Image.move (region startAddr length) newStartAddr

section

variable {startAddr length : Addr}

theorem Regular.toNat_end (h : Regular pageBytes startAddr length) :
  (startAddr + length).toNat = startAddr.toNat + length.toNat
  := by
  rw [toNat_add, Nat.mod_eq_of_lt h.fits]

theorem Regular.region (h : Regular pageBytes startAddr length) :
  Region pageBytes (region startAddr length)
  where
  plain := by
    refine ⟨rfl, ?_⟩
    have hpos : length.toNat ≠ 0 := fun hzero => h.nonempty (eq_of_toNat_eq hzero)
    change startAddr < startAddr + length
    rw [lt_def, h.toNat_end]
    omega
  alignedStart := h.alignedStart
  alignedEnd := by
    change (startAddr + length) % pageBytes = 0
    rw [VMA.aligned_iff, h.toNat_end]
    exact Nat.dvd_add (VMA.aligned_iff.mp h.alignedStart) (VMA.aligned_iff.mp h.alignedLength)

theorem region_size (startAddr length : Addr) :
  (region startAddr length).end - (region startAddr length).start = length
  := add_sub_cancel_left startAddr length

/-- Nothing is at the addresses of an unmapped region. -/
theorem Valid.views_unmapped (hl : Valid pageBytes l) (hr : Region pageBytes r)
    (h : anyIntersects r l = .ok false) (ha : Within r a) :
  views l a = []
  := by
  induction l with
  | nil => rfl
  | cons v l ih =>
    rw [anyIntersects, hl.head.plain.intersects hr.plain, ok_bind] at h
    split_ifs at h with hmeet
    · cases h
    · rw [decide_eq_true_iff] at hmeet
      rw [views_cons, at_apart hmeet ha, ih hl.tail h]
      rfl

theorem Valid.views_isUnmapped (hm : Valid pageBytes m.vmaList)
    (hr : Regular pageBytes startAddr length) (h : m.isUnmapped startAddr length = .ok true)
    (ha : Within (region startAddr length) a) :
  views m.vmaList a = []
  := by
  obtain ⟨mapped, hok, h⟩ := bind_eq_ok.mp h
  cases mapped with
  | false => exact hm.views_unmapped hr.region hok ha
  | true => cases h

theorem mappedFileBuffer_create (file : FileMapping) (hlen : length ≠ 0) :
  MappedFileBuffer.create file length.toNat = .error MappedFileBuffer.offsetPanic
    ∨ MappedFileBuffer.create file length.toNat = .error MappedFileBuffer.emptyPanic
    ∨ MappedFileBuffer.create file length.toNat = .ok (Image.buffer file length)
  := by
  have hpos : length.toNat ≠ 0 := fun hzero => hlen (eq_of_toNat_eq hzero)
  unfold MappedFileBuffer.create
  rw [decide_eq_false hpos]
  change (if _ then _ else _) = _ ∨ (if _ then _ else _) = _ ∨ (if _ then _ else _) = _
  split_ifs
  · exact .inl rfl
  · exact .inr (.inr rfl)
  · exact .inr (.inl rfl)

/-- A new area has the bytes of the file from the offset on. -/
theorem create_eq (hr : Regular pageBytes startAddr length) (regionName : String)
    (file : Option FileMapping) :
  VMA.create pageBytes (region startAddr length) regionName file
      = .error MappedFileBuffer.offsetPanic
    ∨ VMA.create pageBytes (region startAddr length) regionName file
      = .error MappedFileBuffer.emptyPanic
    ∨ ∃ v, VMA.create pageBytes (region startAddr length) regionName file = .ok v
      ∧ v.Good pageBytes
      ∧ ∀ a, v.at a = if Within (region startAddr length) a
          then [Image.fresh startAddr length file a] else []
  := by
  have hregion := hr.region
  have hsize : (region startAddr length).size = length := by
    change (startAddr + length - startAddr) >>> 0 = length
    exact add_sub_cancel_left startAddr length
  cases file with
  | none =>
    have hgood : (VMA.anonymous (region startAddr length) regionName).Good pageBytes :=
      ⟨hregion.plain, rfl, hregion.alignedStart, hregion.alignedEnd, by simp [VMA.anonymous],
        by simp [VMA.anonymous]⟩
    right
    right
    exact ⟨_, hgood.checked, hgood, fun a => rfl⟩
  | some file =>
    rw [VMA.create, hsize]
    rcases mappedFileBuffer_create file hr.nonempty with h | h | h
    · left
      rw [h]
      rfl
    · right
      left
      rw [h]
      rfl
    · have hgood : (VMA.backed (region startAddr length) regionName
          (Image.buffer file length)).Good pageBytes := by
        refine ⟨hregion.plain, rfl, hregion.alignedStart, hregion.alignedEnd, fun _ => rfl, ?_⟩
        intro b hb
        cases hb
        exact (Nat.zero_add _).le
      right
      right
      rw [h]
      refine ⟨_, hgood.checked, hgood, ?_⟩
      intro a
      unfold VMA.at VMA.source Image.fresh
      simp only [VMA.backed, Nat.zero_add]
      rfl

theorem valid_of_perm {l' : List VMA} {f : Addr → List (Option (MappedFileBuffer × ℕ))}
    (hgood : ∀ v ∈ l', v.Good pageBytes) (hlen : ∀ a, (f a).length ≤ 1)
    (hviews : ∀ a, (views l' a).Perm (f a)) :
  Valid pageBytes l' ∧ ∀ a, views l' a = f a
  := by
  refine ⟨⟨hgood, ?_⟩, fun a => perm_eq (hviews a) (hlen a)⟩
  intro a
  rw [(hviews a).length_eq]
  exact hlen a

theorem mapRegion_eq (hm : Valid pageBytes m.vmaList) (hr : Regular pageBytes startAddr length)
    (hunmapped : m.isUnmapped startAddr length = .ok true) (regionName : String)
    (file : Option FileMapping) :
  m.mapRegion pageBytes startAddr length regionName file = .error MappedFileBuffer.offsetPanic
    ∨ m.mapRegion pageBytes startAddr length regionName file = .error MappedFileBuffer.emptyPanic
    ∨ ∃ m', m.mapRegion pageBytes startAddr length regionName file = .ok m'
      ∧ Valid pageBytes m'.vmaList
      ∧ image m'.vmaList
        = Call.apply (.map startAddr length regionName file) (image m.vmaList)
  := by
  unfold mapRegion
  rw [hunmapped, ok_bind, assert_true, ok_bind]
  rcases create_eq hr regionName file with h | h | ⟨v, hok, hgood, hat⟩
  · left
    rw [h]
    rfl
  · right
    left
    rw [h]
    rfl
  · right
    right
    have hviews : ∀ a, views (m.vmaList ++ [v]) a
        = if Within (region startAddr length) a
          then [Image.fresh startAddr length file a] else views m.vmaList a := by
      intro a
      rw [views_append, views_singleton, hat]
      split_ifs with ha
      · rw [hm.views_isUnmapped hr hunmapped ha]
        rfl
      · exact append_nil _
    rw [hok]
    refine ⟨_, rfl, ⟨?_, ?_⟩, ?_⟩
    · exact forall_mem_append.mpr ⟨hm.good, forall_mem_singleton.mpr hgood⟩
    · intro a
      rw [hviews]
      split_ifs
      · exact Nat.le_refl _
      · exact hm.apart a
    · funext a
      rw [image, hviews, apply_ite head?]
      rfl

theorem unmapRegion_eq (hm : Valid pageBytes m.vmaList) (hr : Regular pageBytes startAddr length) :
  ∃ m', m.unmapRegion pageBytes startAddr length = .ok m' ∧ Valid pageBytes m'.vmaList
    ∧ image m'.vmaList = Call.apply (.unmap startAddr length) (image m.vmaList)
  := by
  obtain ⟨l', hok, hgood, hperm⟩ := unmapLoop_eq hr.region hm
  have hlen : ∀ a, (outside (region startAddr length) (views m.vmaList) a).length ≤ 1 := by
    intro a
    unfold outside
    split_ifs
    · exact Nat.zero_le _
    · exact hm.apart a
  obtain ⟨hvalid, hviews⟩ := valid_of_perm hgood hlen hperm
  refine ⟨⟨l'⟩, ?_, hvalid, ?_⟩
  · unfold unmapRegion
    rw [hok]
    rfl
  · funext a
    rw [image, hviews, outside, apply_ite head?]
    rfl

section

variable {newStartAddr : Addr} (hr : Regular pageBytes startAddr length)
  (hn : Regular pageBytes newStartAddr length)
  (hapart : startAddr.toNat + length.toNat ≤ newStartAddr.toNat
    ∨ newStartAddr.toNat + length.toNat ≤ startAddr.toNat)

include hr hn hapart

theorem Regular.move :
  Move pageBytes (MemState.region startAddr length) newStartAddr
  where
  toRegion := hr.region
  alignedTarget := hn.alignedStart
  fits := by
    rw [region_size]
    exact hn.fits
  disjoint := by
    rintro a ⟨h₁, h₂⟩ ⟨h₃, h₄⟩
    rw [region_size] at h₂
    change startAddr ≤ a at h₃
    change a < startAddr + length at h₄
    rw [le_def] at h₁ h₃
    rw [lt_def, hn.toNat_end] at h₂
    rw [lt_def, hr.toNat_end] at h₄
    omega

theorem remapRegion_eq (hm : Valid pageBytes m.vmaList)
    (hunmapped : m.isUnmapped newStartAddr length = .ok true) :
  ∃ m', m.remapRegion pageBytes startAddr newStartAddr length = .ok m'
    ∧ Valid pageBytes m'.vmaList
    ∧ image m'.vmaList = Call.apply (.remap startAddr newStartAddr length) (image m.vmaList)
  := by
  have hmove := hr.move hn hapart
  have hfree : ∀ a, Target (MemState.region startAddr length) newStartAddr a →
      views m.vmaList a = [] := by
    rintro a ⟨h₁, h₂⟩
    rw [region_size] at h₂
    exact hm.views_isUnmapped hn hunmapped ⟨h₁, h₂⟩
  obtain ⟨l', hok, hgood, hperm⟩ := remapLoop_eq hmove hm hfree (turns_le _ m.vmaList)
  have hlen : ∀ a,
      (moved (MemState.region startAddr length) newStartAddr (views m.vmaList) a).length ≤ 1 := by
    intro a
    unfold moved outside
    split_ifs
    · exact hm.apart _
    · exact Nat.zero_le _
    · exact hm.apart a
  obtain ⟨hvalid, hviews⟩ := valid_of_perm hgood hlen hperm
  refine ⟨⟨l'⟩, ?_, hvalid, ?_⟩
  · unfold remapRegion
    rw [hok]
    rfl
  · funext a
    rw [image, hviews, moved, outside, apply_ite head?, apply_ite head?]
    rfl

end

/-- A call does to the image what it is meant to do, unless the file cannot be mapped. -/
theorem call_eq {c : Call} (hm : Valid pageBytes m.vmaList) (hmade : Made pageBytes c m) :
  call pageBytes c m = .error MappedFileBuffer.offsetPanic
    ∨ call pageBytes c m = .error MappedFileBuffer.emptyPanic
    ∨ ∃ m', call pageBytes c m = .ok m' ∧ Valid pageBytes m'.vmaList
      ∧ image m'.vmaList = c.apply (image m.vmaList)
  := by
  cases c with
  | map startAddr length regionName file => exact mapRegion_eq hm hmade.1 hmade.2 regionName file
  | unmap startAddr length => exact .inr (.inr (unmapRegion_eq hm hmade))
  | remap startAddr newStartAddr length =>
    obtain ⟨hr, hn, hapart, hunmapped⟩ := hmade
    exact .inr (.inr (remapRegion_eq hr hn hapart hm hunmapped))

end

/-! ### Runs -/

/-- The areas are not empty, made of pages, and apart, they have exactly the addresses that are
mapped in the image, and every page is filled as the image says, from inside of a mapped file. -/
structure Refines (pageBytes : Addr) (m : MemState) (image : Image) : Prop where
  areas : ∀ v ∈ m.vmaList, v.start < v.end ∧ v.start % pageBytes = 0 ∧ v.end % pageBytes = 0
  disjoint : m.vmaList.Pairwise fun v w => ∀ a, ¬ (v.Covers a ∧ w.Covers a)
  mapped : ∀ a, (∃ v ∈ m.vmaList, v.Covers a) ↔ image a ≠ none
  filled : ∀ v ∈ m.vmaList, ∀ p, p % pageBytes = 0 → v.Covers p → ∀ j < pageBytes.toNat,
    image (p + BitVec.ofNat 64 j)
      = some ((v.fillPage pageBytes p).bind fun blob => blob.byte j)
  inBuffer : ∀ a b k, image a = some (some (b, k)) → k < b.length

theorem exists_covers (h : image l a ≠ none) :
  ∃ v ∈ l, v.Covers a
  := by
  by_contra hnone
  apply h
  have hviews : views l a = [] := by
    apply flatMap_eq_nil_iff.mpr
    intro v hv
    apply VMA.at_of_not_covers
    intro hcovers
    exact hnone ⟨v, hv, hcovers⟩
  rw [image, hviews]
  rfl

theorem Valid.refines (hm : Valid pageBytes m.vmaList) :
  Refines pageBytes m (image m.vmaList)
  where
  areas := by
    intro v hv
    have hgood := hm.good v hv
    exact ⟨hgood.plain.nonempty, hgood.alignedStart, hgood.alignedEnd⟩
  disjoint := hm.pairwise
  mapped := by
    intro a
    constructor
    · rintro ⟨v, hv, ha⟩
      rw [image_of_covers hm hv ha]
      exact Option.some_ne_none _
    · exact exists_covers
  filled := by
    intro v hv p hp hcovers j hj
    have hgood := hm.good v hv
    have hcovers' : v.Covers (p + BitVec.ofNat 64 j) := by
      have hpage := hgood.page_le hp hcovers
      have hend := v.end.isLt
      have hto : (p + BitVec.ofNat 64 j).toNat = p.toNat + j := by
        rw [toNat_add, toNat_ofNat, Nat.mod_eq_of_lt (a := j) (by omega)]
        apply Nat.mod_eq_of_lt
        omega
      obtain ⟨h₁, -⟩ := hcovers
      rw [le_def] at h₁
      constructor
      · rw [le_def, hto]
        omega
      · rw [lt_def, hto]
        omega
    rw [image_of_covers hm hv hcovers', hgood.fillPage_byte hp hcovers hj]
  inBuffer := by
    intro a b k h
    obtain ⟨v, hv, ha⟩ := exists_covers (by rw [h]; exact Option.some_ne_none _)
    rw [image_of_covers hm hv ha] at h
    exact (hm.good v hv).source_lt (Option.some.inj h)

theorem exec_image {calls : List Call} (hm : Valid pageBytes m.vmaList)
    (hcalls : Lib.Meets (call pageBytes) (Made pageBytes) calls m) :
  (∀ m', Lib.exec (call pageBytes) calls m = .ok m' → Valid pageBytes m'.vmaList
      ∧ image m'.vmaList = calls.foldl (fun I c => c.apply I) (image m.vmaList))
    ∧ ∀ fault, Lib.exec (call pageBytes) calls m = .error fault →
      fault = MappedFileBuffer.offsetPanic ∨ fault = MappedFileBuffer.emptyPanic
  := by
  induction calls generalizing m with
  | nil =>
    refine ⟨?_, by rintro _ ⟨⟩⟩
    rintro _ ⟨⟩
    exact ⟨hm, rfl⟩
  | cons c calls ih =>
    rw [Lib.exec]
    rcases call_eq hm hcalls.1 with h | h | ⟨m₁, hok, hvalid, himage⟩
    · rw [h]
      refine ⟨by simp, ?_⟩
      rintro _ ⟨⟩
      exact .inl rfl
    · rw [h]
      refine ⟨by simp, ?_⟩
      rintro _ ⟨⟩
      exact .inr rfl
    · have hrest := ih hvalid (hcalls.2 m₁ hok)
      rw [hok, foldl_cons, ← himage]
      exact hrest

/-- After every sequence of calls the areas refine the image that the calls are meant to have, and a
call fails only for a file that cannot be mapped: its offset is past its end, or nothing of it is
left. -/
theorem memState_refines_image (pageBytes : Addr) (calls : List Call)
    (hcalls : Lib.Meets (call pageBytes) (Made pageBytes) calls {}) :
  (∀ m, Lib.exec (call pageBytes) calls {} = .ok m →
      Refines pageBytes m (calls.foldl (fun I c => c.apply I) Image.empty))
    ∧ ∀ fault, Lib.exec (call pageBytes) calls {} = .error fault →
      fault = MappedFileBuffer.offsetPanic ∨ fault = MappedFileBuffer.emptyPanic
  := by
  have hempty : Valid pageBytes ({} : MemState).vmaList := ⟨by simp, fun a => Nat.zero_le 1⟩
  obtain ⟨hrun, hfault⟩ := exec_image hempty hcalls
  refine ⟨?_, hfault⟩
  intro m hm
  obtain ⟨hvalid, himage⟩ := hrun m hm
  have hstart : image ({} : MemState).vmaList = Image.empty := rfl
  rw [← hstart, ← himage]
  exact hvalid.refines

/-- A file of six bytes is mapped to two pages of four bytes, its first page is moved, and its
second page is unmapped. -/
def sampleCalls : List Call :=
  [.map 8 8 "file" (some ⟨3, 6, 0⟩), .remap 8 32 4, .unmap 12 4]

theorem memState_refines_image_moved :
  ∃ m, Lib.exec (call 4) sampleCalls {} = .ok m
    ∧ Refines 4 m (sampleCalls.foldl (fun I c => c.apply I) Image.empty)
  := by
  refine ⟨_, rfl, (memState_refines_image 4 sampleCalls ?_).1 _ rfl⟩
  refine ⟨⟨⟨by decide, by decide, by decide, by decide⟩, rfl⟩, ?_⟩
  rintro _ ⟨⟩
  refine ⟨⟨⟨by decide, by decide, by decide, by decide⟩,
    ⟨by decide, by decide, by decide, by decide⟩, by decide, rfl⟩, ?_⟩
  rintro _ ⟨⟩
  exact ⟨⟨by decide, by decide, by decide, by decide⟩, fun _ _ => trivial⟩

end MemState

end Gem5Arc
