import Gem5Arc.Base.Bits
import Gem5Arc.Lib.Fields

/-!
# Patterns of the dictionary compressors

A dictionary compressor over words of `n` bytes cuts a cache line into words and replaces each
word by a pattern, which says how the word is obtained from an entry of the dictionary or from
bits the pattern stores itself. This module has the pattern classes of `dictionary_compressor.hh`:
for each class the test `isPattern`, the constructor, and `decompress`. A class whose test
succeeds gives back the word (`PatternClass.Sound`): either whatever dictionary entry it is given,
or from the entry it was matched against.
-/

namespace Gem5Arc

open BitVec Lib

/-- The bytes of a word of `n` bytes, the least significant one first. -/
abbrev DictionaryEntry (n : ℕ) : Type := { bytes : List (BitVec 8) // bytes.length = n }

variable {n N : ℕ}

/-- Turn a value into a dictionary entry. -/
def toDictionaryEntry (value : BitVec (8 * n)) : DictionaryEntry n :=
  ⟨split 8 n value, length_split n value⟩

/-- Turn a dictionary entry into a value. -/
def fromDictionaryEntry (entry : DictionaryEntry n) : BitVec (8 * n) :=
  join (8 * n) entry.1

@[simp]
theorem fromDictionaryEntry_toDictionaryEntry (value : BitVec (8 * n)) :
  fromDictionaryEntry (toDictionaryEntry value) = value
  := join_split (by decide) (by omega) value

/-! ### Patterns -/

/-- What a pattern stores of the word, for each class of patterns. -/
inductive PatternData (n : ℕ) where
  /-- `UncompressedPattern`: the word itself. -/
  | uncompressed (data : DictionaryEntry n)
  /-- `MaskedPattern<mask>`: the bits that are not in the mask. -/
  | masked (mask bits : BitVec (8 * n))
  /-- `MaskedValuePattern<value, mask>`: the bits that are not in the mask. -/
  | maskedValue (value mask bits : BitVec (8 * n))
  /-- `RepeatedValuePattern<RepT>`, for a type of `r` bytes: the repeated value. -/
  | repeatedValue (r : ℕ) (value : BitVec (8 * r))
  /-- `DeltaPattern`: the word itself. -/
  | delta (bytes : DictionaryEntry n)
  /-- `SignExtendedPattern<N>`: the low `N` bits. -/
  | signExtended (N : ℕ) (bits : BitVec N)
  /-- `FPC::SignExtendedTwoHalfwords`: the low bytes of the two halfwords. -/
  | signExtendedTwoHalfwords (extendedBytes : BitVec 8 × BitVec 8)

/-- The members `FPC::ZeroRun` adds to a pattern. -/
structure ZeroRun where
  runLength : ℕ
  realSize : ℕ

structure Pattern (n : ℕ) where
  patternNumber : ℕ
  code : ℕ
  /-- The number of bits of the code and the match location. -/
  length : ℕ
  numUnmatchedBits : ℕ
  matchLocation : ℤ
  /-- Whether the word is added to the dictionary. -/
  allocate : Bool
  data : PatternData n
  zeroRun : Option ZeroRun := none

namespace Pattern

/-- The constructor of the base class, whose sizes are kept in 8 bits. -/
def new (number code metadataLength numUnmatchedBits : ℕ) (matchLocation : ℤ) (allocate : Bool)
    (data : PatternData n) : Pattern n where
  patternNumber := number
  code := code % 2 ^ 8
  length := metadataLength % 2 ^ 8
  numUnmatchedBits := numUnmatchedBits % 2 ^ 8
  matchLocation := matchLocation
  allocate := allocate
  data := data

/-- The match location, which is returned as a number of 8 bits. -/
def getMatchLocation (pattern : Pattern n) : ℕ :=
  (pattern.matchLocation % 2 ^ 8).toNat

/-- The size of a pattern in bits. A zero run counts only in its first pattern. -/
def getSizeBits (pattern : Pattern n) : ℕ :=
  match pattern.zeroRun with
  | some run => run.realSize
  | none => pattern.numUnmatchedBits + pattern.length

end Pattern

/-- `MaskedPattern::decompress`. -/
def decompressMasked (mask bits : BitVec (8 * n)) (dictBytes : DictionaryEntry n) :
    DictionaryEntry n :=
  toDictionaryEntry (bits ||| (fromDictionaryEntry dictBytes &&& mask))

/-- A byte that is sign extended to a halfword. -/
def extendByte (byte : BitVec 8) : BitVec 16 :=
  (szext 8 (byte.signExtend 64)).setWidth 16

/-- The word a pattern stands for, given the dictionary entry at its match location. -/
def Pattern.decompress (pattern : Pattern n) (dictBytes : DictionaryEntry n) : DictionaryEntry n :=
  match pattern.data with
  | .uncompressed data => data
  | .masked mask bits => decompressMasked mask bits dictBytes
  | .maskedValue value mask bits => decompressMasked mask bits (toDictionaryEntry value)
  | .repeatedValue r value =>
    toDictionaryEntry (join (8 * n) (List.replicate (n / r) value))
  | .delta bytes => bytes
  | .signExtended N bits =>
    toDictionaryEntry ((sext N (bits.setWidth 64)).setWidth (8 * n))
  | .signExtendedTwoHalfwords extendedBytes =>
    let halfwords := (extendByte extendedBytes.1, extendByte extendedBytes.2)
    toDictionaryEntry
      ((halfwords.2.setWidth (8 * n) <<< 16) ||| halfwords.1.setWidth (8 * n))

/-! ### Classes of patterns -/

/-- A class of patterns: the test whether a word matches, and the constructor. -/
structure PatternClass (n : ℕ) where
  isPattern (bytes dictBytes : DictionaryEntry n) (matchLocation : ℤ) : Bool
  new (bytes : DictionaryEntry n) (matchLocation : ℤ) : Pattern n

/-- A class whose constructor ignores the match location. -/
def PatternClass.unlocated (cls : PatternClass n) : PatternClass n where
  isPattern := cls.isPattern
  new bytes _ := cls.new bytes (-1)

/-- `UncompressedPattern`. -/
def uncompressedPattern (number code metadataLength : ℕ) : PatternClass n where
  isPattern _ _ _ := true
  new bytes matchLocation :=
    .new number code metadataLength (8 * n) matchLocation true (.uncompressed bytes)

/-- The number of bits that are set in a word. -/
def popCount {w : ℕ} (val : BitVec w) : ℕ :=
  ((List.range w).filter fun i => val.getLsbD i).length

/-- `MaskedPattern<mask>`. -/
def maskedPattern (number code metadataLength : ℕ) (mask : BitVec (8 * n)) (allocate : Bool) :
    PatternClass n where
  isPattern bytes dictBytes matchLocation :=
    let maskedBytes := fromDictionaryEntry bytes &&& mask
    let maskedDictBytes := fromDictionaryEntry dictBytes &&& mask
    0 ≤ matchLocation && maskedBytes = maskedDictBytes
  new bytes matchLocation :=
    .new number code metadataLength (popCount (~~~mask)) matchLocation allocate
      (.masked mask (fromDictionaryEntry bytes &&& ~~~mask))

/-- `MaskedValuePattern<value, mask>`. -/
def maskedValuePattern (number code metadataLength : ℕ) (value mask : BitVec (8 * n))
    (allocate : Bool) : PatternClass n where
  isPattern bytes _ _ :=
    let maskedBytes := fromDictionaryEntry bytes &&& mask
    value &&& mask = maskedBytes
  new bytes matchLocation :=
    .new number code metadataLength (popCount (~~~mask)) matchLocation allocate
      (.maskedValue value mask (fromDictionaryEntry bytes &&& ~~~mask))

/-- `LocatedMaskedPattern<mask, location>`. -/
def locatedMaskedPattern (number code metadataLength : ℕ) (mask : BitVec (8 * n))
    (location : ℤ) (allocate : Bool) : PatternClass n where
  isPattern bytes dictBytes matchLocation :=
    matchLocation = location
      && (maskedPattern number code metadataLength mask allocate).isPattern bytes dictBytes
        matchLocation
  new := (maskedPattern number code metadataLength mask allocate).new

/-- `RepeatedValuePattern<RepT>`, for a type of `r` bytes. -/
def repeatedValuePattern (number code metadataLength r : ℕ) (allocate : Bool) :
    PatternClass n where
  isPattern bytes _ _ :=
    let bytesValue := fromDictionaryEntry bytes
    let repValue := bytesValue.setWidth (8 * r)
    (split (8 * r) (n / r) bytesValue).all fun curValue => curValue = repValue
  new bytes matchLocation :=
    .new number code metadataLength (8 * r) matchLocation allocate
      (.repeatedValue r ((fromDictionaryEntry bytes).setWidth (8 * r)))

/-- `DeltaPattern<DeltaSizeBits>::isValidDelta`: whether a value differs from a base by at most
what a signed number of `deltaSizeBits` bits holds. -/
def isValidDelta (deltaSizeBits : ℕ) (bytes baseBytes : DictionaryEntry n) : Bool :=
  let limit : BitVec (8 * n) :=
    if deltaSizeBits ≠ 0 then (mask (deltaSizeBits - 1)).setWidth (8 * n) else 0
  let value := fromDictionaryEntry bytes
  let base := fromDictionaryEntry baseBytes
  let delta := value - base
  delta.toInt ≥ -limit.toInt && delta.toInt ≤ limit.toInt

/-- `DeltaPattern<DeltaSizeBits>`. -/
def deltaPattern (number code metadataLength deltaSizeBits : ℕ) : PatternClass n where
  isPattern bytes dictBytes matchLocation :=
    0 ≤ matchLocation && isValidDelta deltaSizeBits bytes dictBytes
  new bytes matchLocation :=
    .new number code metadataLength deltaSizeBits matchLocation false (.delta bytes)

/-- `SignExtendedPattern<N>`. -/
def signExtendedPattern (number code metadataLength N : ℕ) (allocate : Bool) :
    PatternClass n where
  isPattern bytes _ _ :=
    let data := fromDictionaryEntry bytes
    data = (szext N (data.setWidth 64)).setWidth (8 * n)
  new bytes _ :=
    .new number code metadataLength N (-1) allocate
      (.signExtended N (((fromDictionaryEntry bytes).setWidth 64 &&& mask N).setWidth N))

/-- A signed halfword is the sign extension of its low byte. The comparison is one of `int`s, the
left one of which comes from a signed and the right one from an unsigned halfword. -/
def isExtendedByte (halfword : BitVec 16) : Bool :=
  halfword.signExtend 32 = ((szext 8 (halfword.signExtend 64)).setWidth 16).setWidth 32

/-- `FPC::SignExtendedTwoHalfwords`. -/
def signExtendedTwoHalfwords (number : ℕ) : PatternClass n where
  isPattern bytes _ _ :=
    let data := fromDictionaryEntry bytes
    isExtendedByte (data.setWidth 16) && isExtendedByte ((data >>> 16).setWidth 16)
  new bytes _ :=
    let data := fromDictionaryEntry bytes
    .new number number 3 16 (-1) false
      (.signExtendedTwoHalfwords (data.setWidth 8, (data >>> 16).setWidth 8))

/-- `Factory<Head, Tail...>::getPattern`: the pattern of the first class that matches, or of the
last class, whose test is not made. -/
def Factory.getPattern (last : PatternClass n) (bytes dictBytes : DictionaryEntry n)
    (matchLocation : ℤ) : List (PatternClass n) → Pattern n
  | [] => last.new bytes matchLocation
  | head :: tail =>
    if head.isPattern bytes dictBytes matchLocation then
      head.new bytes matchLocation
    else
      getPattern last bytes dictBytes matchLocation tail

/-! ### Patterns give back their words -/

/-- A pattern that was made at a match location gives back the bytes of a word, either from
whatever dictionary entry, or from the one at the match location. -/
def Pattern.Restores (pattern : Pattern n) (bytes dictBytes : DictionaryEntry n)
    (matchLocation : ℤ) : Prop :=
  (∀ entry, pattern.decompress entry = bytes)
    ∨ 0 ≤ matchLocation ∧ pattern.matchLocation = matchLocation
      ∧ pattern.decompress dictBytes = bytes

/-- The patterns of a class give back the words that match. -/
structure PatternClass.Sound (cls : PatternClass n) : Prop where
  restores : ∀ (value : BitVec (8 * n)) dictBytes matchLocation,
    cls.isPattern (toDictionaryEntry value) dictBytes matchLocation = true →
    (cls.new (toDictionaryEntry value) matchLocation).Restores (toDictionaryEntry value) dictBytes
      matchLocation

/-- The patterns of a class give back the words that match, whatever dictionary entry and match
location they are given. -/
structure PatternClass.SelfContained (cls : PatternClass n) : Prop where
  restores : ∀ (value : BitVec (8 * n)) dictBytes matchLocation,
    cls.isPattern (toDictionaryEntry value) dictBytes matchLocation = true →
    ∀ location entry,
      (cls.new (toDictionaryEntry value) location).decompress entry = toDictionaryEntry value

namespace PatternClass.SelfContained

variable {cls : PatternClass n}

theorem sound (h : cls.SelfContained) :
  cls.Sound
  := ⟨fun value dictBytes matchLocation hmatch =>
    .inl (h.restores value dictBytes matchLocation hmatch matchLocation)⟩

theorem unlocated (h : cls.SelfContained) :
  cls.unlocated.SelfContained
  := ⟨fun value dictBytes matchLocation hmatch _ =>
    h.restores value dictBytes matchLocation hmatch (-1)⟩

end PatternClass.SelfContained

theorem decompressMasked_of_eq {value mask : BitVec (8 * n)} {dictBytes : DictionaryEntry n}
    (h : value &&& mask = fromDictionaryEntry dictBytes &&& mask) :
  decompressMasked mask (value &&& ~~~mask) dictBytes = toDictionaryEntry value
  := by
  rw [decompressMasked, ← h, ← and_or_distrib_left, BitVec.or_comm]
  simp

section

variable (number code metadataLength : ℕ)

theorem maskedPattern_sound (mask : BitVec (8 * n)) (allocate : Bool) :
  (maskedPattern number code metadataLength mask allocate).Sound
  := by
  constructor
  intro value dictBytes matchLocation h
  simp only [maskedPattern, Bool.and_eq_true, decide_eq_true_eq,
    fromDictionaryEntry_toDictionaryEntry] at h
  obtain ⟨hlocation, hmasked⟩ := h
  right
  refine ⟨hlocation, rfl, ?_⟩
  simp only [maskedPattern, Pattern.decompress, Pattern.new, fromDictionaryEntry_toDictionaryEntry]
  apply decompressMasked_of_eq hmasked

theorem locatedMaskedPattern_sound (mask : BitVec (8 * n)) (location : ℤ) (allocate : Bool) :
  (locatedMaskedPattern number code metadataLength mask location allocate).Sound
  := by
  constructor
  intro value dictBytes matchLocation h
  rw [locatedMaskedPattern, Bool.and_eq_true] at h
  apply (maskedPattern_sound number code metadataLength mask allocate).restores _ _ _ h.2

theorem maskedValuePattern_selfContained (value mask : BitVec (8 * n)) (allocate : Bool) :
  (maskedValuePattern number code metadataLength value mask allocate).SelfContained
  := by
  constructor
  intro word dictBytes matchLocation h location entry
  simp only [maskedValuePattern, decide_eq_true_eq, fromDictionaryEntry_toDictionaryEntry] at h
  simp only [maskedValuePattern, Pattern.decompress, Pattern.new,
    fromDictionaryEntry_toDictionaryEntry]
  apply decompressMasked_of_eq
  rw [fromDictionaryEntry_toDictionaryEntry, h]

theorem repeatedValuePattern_selfContained {r : ℕ} (hr : 0 < r) (hdvd : r ∣ n) (allocate : Bool) :
  (repeatedValuePattern number code metadataLength r allocate : PatternClass n).SelfContained
  := by
  constructor
  intro value dictBytes matchLocation h location entry
  simp only [repeatedValuePattern, List.all_eq_true, decide_eq_true_eq,
    fromDictionaryEntry_toDictionaryEntry] at h
  simp only [repeatedValuePattern, Pattern.decompress, Pattern.new,
    fromDictionaryEntry_toDictionaryEntry]
  have hsize : 8 * n ≤ n / r * (8 * r) := by
    obtain ⟨k, rfl⟩ := hdvd
    rw [Nat.mul_div_cancel_left k hr]
    apply le_of_eq
    ring
  rw [join_replicate (by omega) hsize h]

end

/-- The low bits of a word, kept in as many bits. -/
theorem setWidth_setWidth_and_mask (value : Addr) :
  ((value &&& mask N).setWidth N).setWidth 64 = value &&& mask N
  := by
  apply eq_of_getLsbD_eq
  intro i hi
  rw [getLsbD_setWidth, getLsbD_setWidth, getLsbD_and, getLsbD_mask]
  by_cases hiN : i < N
  · simp [hiN, hi]
  · simp [hiN]

theorem signExtendedPattern_selfContained (number code metadataLength : ℕ) (hpos : 0 < N)
    (hN : N ≤ 64) (allocate : Bool) :
  (signExtendedPattern number code metadataLength N allocate : PatternClass n).SelfContained
  := by
  constructor
  intro value dictBytes matchLocation h location entry
  simp only [signExtendedPattern, decide_eq_true_eq, fromDictionaryEntry_toDictionaryEntry] at h
  simp only [signExtendedPattern, Pattern.decompress, Pattern.new,
    fromDictionaryEntry_toDictionaryEntry]
  have hlow : value.setWidth 64 &&& mask N &&& mask N = value.setWidth 64 &&& mask N := by
    rw [BitVec.and_assoc, BitVec.and_self]
  have hext : szext N (value.setWidth 64 &&& mask N) = szext N (value.setWidth 64) := by
    apply szext_congr hpos
    intro i hi
    rw [getLsbD_and, getLsbD_mask, decide_eq_true (by omega), Bool.and_true]
  rw [szext, hlow, ← sext] at hext
  rw [setWidth_setWidth_and_mask, hext, ← h]

/-- A halfword that is the sign extension of its low byte is given back by it. -/
theorem extendByte_setWidth {halfword : BitVec 16} (h : isExtendedByte halfword = true) :
  extendByte (halfword.setWidth 8) = halfword
  := by
  have hext : szext 8 ((halfword.setWidth 8).signExtend 64) = szext 8 (halfword.signExtend 64) := by
    apply szext_congr (by decide)
    intro i hi
    rw [getLsbD_signExtend, getLsbD_signExtend, getLsbD_setWidth, if_pos hi, if_pos (by omega)]
    simp [hi]
  rw [isExtendedByte, decide_eq_true_eq] at h
  rw [extendByte, hext]
  apply eq_of_getLsbD_eq
  intro i hi
  have hbit := congrArg (fun v : BitVec 32 => v.getLsbD i) h
  simp only [getLsbD_signExtend, if_pos hi, getLsbD_setWidth] at hbit
  simpa [hi, show i < 32 by omega] using hbit.symm

/-- A word of four bytes is put together again from its halfwords. -/
theorem halfwords_or (value : BitVec 32) :
  (((value >>> 16).setWidth 16).setWidth 32 <<< 16) ||| (value.setWidth 16).setWidth 32 = value
  := by
  apply eq_of_getLsbD_eq
  intro i hi
  rw [getLsbD_or, getLsbD_shiftLeft]
  by_cases hlow : i < 16
  · simp [hlow, hi]
  · simp [hlow, hi, show i - 16 < 16 by omega, show i - 16 < 32 by omega,
      show 16 + (i - 16) = i by omega]

theorem signExtendedTwoHalfwords_selfContained (number : ℕ) :
  (signExtendedTwoHalfwords number : PatternClass 4).SelfContained
  := by
  constructor
  intro value dictBytes matchLocation h location entry
  simp only [signExtendedTwoHalfwords, Bool.and_eq_true, fromDictionaryEntry_toDictionaryEntry] at h
  simp only [signExtendedTwoHalfwords, Pattern.decompress, Pattern.new,
    fromDictionaryEntry_toDictionaryEntry]
  have hlow : value.setWidth 8 = (value.setWidth 16).setWidth 8 := by
    rw [setWidth_setWidth_of_le _ (by decide)]
  have hhigh : (value >>> 16).setWidth 8 = ((value >>> 16).setWidth 16).setWidth 8 := by
    rw [setWidth_setWidth_of_le _ (by decide)]
  rw [hlow, hhigh, extendByte_setWidth h.1, extendByte_setWidth h.2]
  exact congrArg toDictionaryEntry (halfwords_or value)

/-- A word has the pattern of a class whose test it passes, or of the last one. -/
theorem Factory.exists_getPattern_eq (last : PatternClass n) (classes : List (PatternClass n))
    (bytes dictBytes : DictionaryEntry n) (matchLocation : ℤ) :
  ∃ cls ∈ last :: classes,
    getPattern last bytes dictBytes matchLocation classes = cls.new bytes matchLocation
    ∧ (cls = last ∨ cls ∈ classes ∧ cls.isPattern bytes dictBytes matchLocation = true)
  := by
  induction classes with
  | nil => exact ⟨last, List.mem_singleton_self _, rfl, .inl rfl⟩
  | cons head tail ih =>
    rw [getPattern]
    split_ifs with hmatch
    · exact ⟨head, by simp, rfl, .inr ⟨by simp, hmatch⟩⟩
    · grind

/-- A factory whose classes are sound makes patterns that give back the word. -/
theorem Factory.getPattern_restores {last : PatternClass n} {classes : List (PatternClass n)}
    (hlast : ∀ value location entry,
      (last.new (toDictionaryEntry value) location).decompress entry = toDictionaryEntry value)
    (hclasses : ∀ cls ∈ classes, cls.Sound) (value : BitVec (8 * n)) (dictBytes : DictionaryEntry n)
    (matchLocation : ℤ) :
  (Factory.getPattern last (toDictionaryEntry value) dictBytes matchLocation classes).Restores
    (toDictionaryEntry value) dictBytes matchLocation
  := by
  obtain ⟨cls, -, heq, rfl | ⟨hcls, hmatch⟩⟩ := exists_getPattern_eq last classes
    (toDictionaryEntry value) dictBytes matchLocation
  · rw [heq]
    left
    apply hlast
  · rw [heq]
    apply (hclasses cls hcls).restores _ _ _ hmatch

end Gem5Arc
