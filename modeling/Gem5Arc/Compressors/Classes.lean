import Gem5Arc.Compressors.Dictionary

/-!
# The dictionary compressors

CPack, FPC, FPCD, the repeated quadwords and zero compressors, and the base-delta compressors: for
each of them its pattern classes, in the order in which its factory tries them, its dictionary, and
its default parameters for a given size of a cache line.
-/

namespace Gem5Arc

open DictionaryM

/-! ### CPack -/

namespace CPack

inductive PatternNumber where
  | ZZZZ | XXXX | MMMM | MMXX | ZZZX | MMMX

open PatternNumber

def patternZZZZ : PatternClass 4 := maskedValuePattern ZZZZ.ctorIdx 0x0 2 0 0xFFFFFFFF false

def patternXXXX : PatternClass 4 := uncompressedPattern XXXX.ctorIdx 0x1 2

def patternMMMM : PatternClass 4 := maskedPattern MMMM.ctorIdx 0x2 6 0xFFFFFFFF true

def patternMMXX : PatternClass 4 := maskedPattern MMXX.ctorIdx 0xC 8 0xFFFF0000 true

def patternZZZX : PatternClass 4 := maskedValuePattern ZZZX.ctorIdx 0xD 4 0 0xFFFFFF00 false

def patternMMMX : PatternClass 4 := maskedPattern MMMX.ctorIdx 0xE 8 0xFFFFFF00 true

def patternFactory : List (PatternClass 4) :=
  [patternZZZZ, patternMMMM, patternZZZX, patternMMMX, patternMMXX]

def params (cacheLineSize : ℕ) : CompressorParams where
  blkSize := cacheLineSize
  chunkSizeBits := 32
  compChunksPerCycle := 2
  decompChunksPerCycle := 2
  dictionarySize := cacheLineSize

def compressor (cacheLineSize : ℕ) : DictionaryCompressor 4 where
  params := params cacheLineSize
  getPattern bytes dictBytes matchLocation :=
    Factory.getPattern patternXXXX bytes dictBytes matchLocation patternFactory
  resetDictionary := resetDictionary
  addToDictionary := appendEntry (params cacheLineSize).dictionarySize

end CPack

/-! ### FPC -/

namespace FPC

inductive PatternNumber where
  | ZERO_RUN | SIGN_EXTENDED_4_BITS | SIGN_EXTENDED_1_BYTE | SIGN_EXTENDED_HALFWORD
  | ZERO_PADDED_HALFWORD | SIGN_EXTENDED_TWO_HALFWORDS | REP_BYTES | UNCOMPRESSED

open PatternNumber

/-- A zero word, which belongs to a run of zero words. -/
def zeroRun : PatternClass 4 :=
  let base := (maskedValuePattern ZERO_RUN.ctorIdx ZERO_RUN.ctorIdx 3 0 0xFFFFFFFF false).unlocated
  { isPattern := base.isPattern
    new := fun bytes matchLocation =>
      { base.new bytes matchLocation with zeroRun := some { runLength := 0, realSize := 0 } } }

def signExtended4Bits : PatternClass 4 :=
  signExtendedPattern SIGN_EXTENDED_4_BITS.ctorIdx SIGN_EXTENDED_4_BITS.ctorIdx 3 4 false

def signExtended1Byte : PatternClass 4 :=
  signExtendedPattern SIGN_EXTENDED_1_BYTE.ctorIdx SIGN_EXTENDED_1_BYTE.ctorIdx 3 8 false

def signExtendedHalfword : PatternClass 4 :=
  signExtendedPattern SIGN_EXTENDED_HALFWORD.ctorIdx SIGN_EXTENDED_HALFWORD.ctorIdx 3 16 false

def zeroPaddedHalfword : PatternClass 4 :=
  (maskedValuePattern ZERO_PADDED_HALFWORD.ctorIdx ZERO_PADDED_HALFWORD.ctorIdx 3 0 0x0000FFFF
    false).unlocated

def signExtendedTwoHalfwords : PatternClass 4 :=
  Gem5Arc.signExtendedTwoHalfwords SIGN_EXTENDED_TWO_HALFWORDS.ctorIdx

def repBytes : PatternClass 4 :=
  (repeatedValuePattern REP_BYTES.ctorIdx REP_BYTES.ctorIdx 3 1 false).unlocated

def uncompressed : PatternClass 4 :=
  (uncompressedPattern UNCOMPRESSED.ctorIdx UNCOMPRESSED.ctorIdx 3).unlocated

def patternFactory : List (PatternClass 4) :=
  [zeroRun, signExtended4Bits, signExtended1Byte, signExtendedHalfword, zeroPaddedHalfword,
    signExtendedTwoHalfwords, repBytes]

/-- `ZeroRun::setRealSize`: this is the first pattern of a zero run. -/
def setRealSize (size : ℕ) (pattern : Pattern 4) : Pattern 4 :=
  { pattern with
    zeroRun := pattern.zeroRun.map fun run => { run with realSize := pattern.length + size } }

/-- `ZeroRun::setRunLength`. -/
def setRunLength (length : ℕ) (pattern : Pattern 4) : Pattern 4 :=
  { pattern with zeroRun := pattern.zeroRun.map fun run => { run with runLength := length } }

def getRunLength (pattern : Pattern 4) : ℕ :=
  (pattern.zeroRun.map fun run => run.runLength).getD 0

/-- A zero word either starts a zero run or makes the one before it longer, unless that has the
maximum length. -/
def extendZeroRun (zeroRunSizeBits : ℕ) (entries : List (Pattern 4)) (pattern : Pattern 4) :
    Pattern 4 :=
  if pattern.patternNumber = ZERO_RUN.ctorIdx then
    match entries.getLast? with
    | none => setRealSize zeroRunSizeBits pattern
    | some back =>
      if back.patternNumber ≠ ZERO_RUN.ctorIdx then setRealSize zeroRunSizeBits pattern
      else if getRunLength back = (mask zeroRunSizeBits).toNat then
        setRealSize zeroRunSizeBits pattern
      else setRunLength (getRunLength back + 1) pattern
  else pattern

/-- `FPCCompData::addEntry`. -/
def addEntry (zeroRunSizeBits : ℕ) (compData : CompData 4) (pattern : Pattern 4) : CompData 4 :=
  compData.addEntry (extendZeroRun zeroRunSizeBits compData.entries pattern)

def params (cacheLineSize : ℕ) : CompressorParams where
  blkSize := cacheLineSize
  chunkSizeBits := 32
  compChunksPerCycle := 8
  decompChunksPerCycle := 4
  dictionarySize := 1

def compressor (zeroRunSizeBits cacheLineSize : ℕ) : DictionaryCompressor 4 where
  params := params cacheLineSize
  getPattern bytes dictBytes matchLocation :=
    Factory.getPattern uncompressed bytes dictBytes matchLocation patternFactory
  resetDictionary := resetDictionary
  addToDictionary _ := pure ()
  addEntry := addEntry zeroRunSizeBits

end FPC

/-! ### FPCD -/

namespace FPCD

inductive PatternNumber where
  | ZZZZ | FFFF | MMMMPenultimate | MMMMPrevious | ZZZX | XZZZ | RRRR | MMMXPenultimate
  | MMMXPrevious | ZZXX | ZXZX | FFXX | XXZZ | MMXXPenultimate | MMXXPrevious | XXXX

open PatternNumber

/-- The number of bits of a pattern's code. -/
def prefixSize : ℕ := 4

/-- The index of the previous dictionary entry. -/
def previousIndex : ℕ := 1

/-- The index of the penultimate dictionary entry. -/
def penultimateIndex : ℕ := 0

def patternZZZZ : PatternClass 4 :=
  maskedValuePattern ZZZZ.ctorIdx 0x0 prefixSize 0 0xFFFFFFFF true

def patternFFFF : PatternClass 4 :=
  maskedValuePattern FFFF.ctorIdx 0x1 prefixSize 0xFFFFFFFF 0xFFFFFFFF true

def patternMMMMPrevious : PatternClass 4 :=
  locatedMaskedPattern MMMMPrevious.ctorIdx 0x2 prefixSize 0xFFFFFFFF previousIndex true

def patternMMMMPenultimate : PatternClass 4 :=
  locatedMaskedPattern MMMMPenultimate.ctorIdx 0x3 prefixSize 0xFFFFFFFF penultimateIndex true

def patternZZZX : PatternClass 4 :=
  maskedValuePattern ZZZX.ctorIdx 0x4 prefixSize 0 0xFFFFFF00 true

def patternXZZZ : PatternClass 4 :=
  maskedValuePattern XZZZ.ctorIdx 0x5 prefixSize 0 0x00FFFFFF true

def patternRRRR : PatternClass 4 := repeatedValuePattern RRRR.ctorIdx 0x6 prefixSize 1 true

def patternMMMXPrevious : PatternClass 4 :=
  locatedMaskedPattern MMMXPrevious.ctorIdx 0x7 prefixSize 0xFFFFFF00 previousIndex true

def patternMMMXPenultimate : PatternClass 4 :=
  locatedMaskedPattern MMMXPenultimate.ctorIdx 0x8 prefixSize 0xFFFFFF00 penultimateIndex true

def patternZZXX : PatternClass 4 :=
  maskedValuePattern ZZXX.ctorIdx 0x9 prefixSize 0 0xFFFF0000 true

def patternZXZX : PatternClass 4 :=
  maskedValuePattern ZXZX.ctorIdx 0xA prefixSize 0 0xFF00FF00 true

def patternFFXX : PatternClass 4 :=
  maskedValuePattern FFXX.ctorIdx 0xB prefixSize 0xFFFFFFFF 0xFFFF0000 true

def patternXXZZ : PatternClass 4 :=
  maskedValuePattern XXZZ.ctorIdx 0xC prefixSize 0 0x0000FFFF true

def patternMMXXPrevious : PatternClass 4 :=
  locatedMaskedPattern MMXXPrevious.ctorIdx 0xD prefixSize 0xFFFF0000 previousIndex true

def patternMMXXPenultimate : PatternClass 4 :=
  locatedMaskedPattern MMXXPenultimate.ctorIdx 0xE prefixSize 0xFFFF0000 penultimateIndex true

def patternXXXX : PatternClass 4 := uncompressedPattern XXXX.ctorIdx 0xF prefixSize

def patternFactory : List (PatternClass 4) :=
  [patternZZZZ, patternFFFF, patternMMMMPrevious, patternMMMMPenultimate, patternZZZX, patternXZZZ,
    patternRRRR, patternMMMXPrevious, patternMMMXPenultimate, patternZZXX, patternZXZX, patternFFXX,
    patternXXZZ, patternMMXXPrevious, patternMMXXPenultimate]

/-- The dictionary has the last two words. -/
def addToDictionary (data : DictionaryEntry 4) : DictionaryM 4 Unit := do
  let s ← get
  if s.numEntries = 2 then do
    setEntry penultimateIndex (s.dictionary.getD previousIndex data)
    setEntry previousIndex data
  else do
    setEntry s.numEntries data
    modify fun s => { s with numEntries := s.numEntries + 1 }

def params (cacheLineSize : ℕ) : CompressorParams where
  blkSize := cacheLineSize
  chunkSizeBits := 32
  compChunksPerCycle := 4
  decompChunksPerCycle := 4
  dictionarySize := 2

def compressor (cacheLineSize : ℕ) : DictionaryCompressor 4 where
  params := params cacheLineSize
  getPattern bytes dictBytes matchLocation :=
    Factory.getPattern patternXXXX bytes dictBytes matchLocation patternFactory
  resetDictionary := resetDictionary
  addToDictionary := addToDictionary

end FPCD

/-- The default parameters of a compressor that handles a line of words of `n` bytes in one
cycle. -/
def oneCycleParams (n cacheLineSize : ℕ) : CompressorParams where
  blkSize := cacheLineSize
  chunkSizeBits := 8 * n
  compChunksPerCycle := 8 * cacheLineSize / (8 * n)
  decompChunksPerCycle := 8 * cacheLineSize / (8 * n)
  dictionarySize := cacheLineSize

/-! ### Repeated quadwords -/

namespace RepeatedQwords

inductive PatternNumber where
  | X | M

open PatternNumber

def patternX : PatternClass 8 := uncompressedPattern X.ctorIdx 0 0

def patternM : PatternClass 8 :=
  locatedMaskedPattern M.ctorIdx 1 0 0xFFFFFFFFFFFFFFFF 0 false

/-- The compression has failed if there is more than one dictionary entry. -/
def adjust (blkSize : ℕ) (compData : CompData 8) : DictionaryM 8 (CompData 8) := do
  let s ← get
  check (1 ≤ s.numEntries)
  if s.numEntries > 1 then pure { compData with sizeBits := blkSize * 8 } else pure compData

def compressor (cacheLineSize : ℕ) : DictionaryCompressor 8 where
  params := oneCycleParams 8 cacheLineSize
  getPattern bytes dictBytes matchLocation :=
    Factory.getPattern patternX bytes dictBytes matchLocation [patternM]
  resetDictionary := resetDictionary
  addToDictionary := appendEntry (oneCycleParams 8 cacheLineSize).dictionarySize
  adjust := adjust cacheLineSize

end RepeatedQwords

/-! ### Zero lines -/

namespace Zero

inductive PatternNumber where
  | X | Z

open PatternNumber

def patternX : PatternClass 8 := uncompressedPattern X.ctorIdx 0 0

def patternZ : PatternClass 8 := maskedValuePattern Z.ctorIdx 1 0 0 0xFFFFFFFFFFFFFFFF false

/-- The compression has failed if there is a dictionary entry. -/
def adjust (blkSize : ℕ) (compData : CompData 8) : DictionaryM 8 (CompData 8) := do
  let s ← get
  if s.numEntries > 0 then pure { compData with sizeBits := blkSize * 8 } else pure compData

def compressor (cacheLineSize : ℕ) : DictionaryCompressor 8 where
  params := oneCycleParams 8 cacheLineSize
  getPattern bytes dictBytes matchLocation :=
    Factory.getPattern patternX bytes dictBytes matchLocation [patternZ]
  resetDictionary := resetDictionary
  addToDictionary := appendEntry (oneCycleParams 8 cacheLineSize).dictionarySize
  adjust := adjust cacheLineSize

end Zero

/-!
### Base-delta

`BaseDelta<BaseType, DeltaSizeBits>`, for a type of `n` bytes.
-/

namespace BaseDelta

inductive PatternNumber where
  | X | M

open PatternNumber

variable {n : ℕ}

def defaultMaxNumBases : ℕ := 2

def patternX (deltaSizeBits : ℕ) : PatternClass n :=
  uncompressedPattern X.ctorIdx 0 (Nat.clog 2 defaultMaxNumBases + deltaSizeBits)

def patternM (deltaSizeBits : ℕ) : PatternClass n :=
  deltaPattern M.ctorIdx 1 (Nat.clog 2 defaultMaxNumBases) deltaSizeBits

def addToDictionary (cacheLineSize : ℕ) : DictionaryEntry n → DictionaryM n Unit :=
  appendEntry (oneCycleParams n cacheLineSize).dictionarySize

/-- The dictionary starts with a zero base for immediate values. -/
def resetDictionary (cacheLineSize : ℕ) : DictionaryM n Unit := do
  DictionaryM.resetDictionary
  addToDictionary cacheLineSize (toDictionaryEntry 0#_)

/-- The compression has failed if there are too many bases. Otherwise the bases that are not used
count, too. -/
def adjust (blkSize : ℕ) (compData : CompData n) : DictionaryM n (CompData n) := do
  let s ← get
  if s.numEntries > defaultMaxNumBases then pure { compData with sizeBits := blkSize * 8 }
  else
    pure { compData with
      sizeBits := compData.sizeBits + 8 * n * (defaultMaxNumBases - s.numEntries) }

def compressor (n deltaSizeBits cacheLineSize : ℕ) : DictionaryCompressor n where
  params := oneCycleParams n cacheLineSize
  getPattern bytes dictBytes matchLocation :=
    Factory.getPattern (patternX deltaSizeBits) bytes dictBytes matchLocation
      [patternM deltaSizeBits]
  resetDictionary := resetDictionary cacheLineSize
  addToDictionary := addToDictionary cacheLineSize
  adjust := adjust cacheLineSize

end BaseDelta

/-! ### All of them -/

/-- A dictionary compressor. FPC has the number of bits of its zero run bit field as a
parameter. -/
inductive CompressorKind where
  | cpack | fpc (zeroRunBits : ℕ) | fpcd | repeatedQwords | zero
  | base64Delta8 | base64Delta16 | base64Delta32 | base32Delta8 | base32Delta16 | base16Delta8

namespace CompressorKind

/-- The number of bytes of a dictionary word. -/
def wordSize : CompressorKind → ℕ
  | cpack | fpc _ | fpcd | base32Delta8 | base32Delta16 => 4
  | repeatedQwords | zero | base64Delta8 | base64Delta16 | base64Delta32 => 8
  | base16Delta8 => 2

/-- The compressor for a size of a cache line. -/
def compressor : (kind : CompressorKind) → ℕ → DictionaryCompressor kind.wordSize
  | cpack => CPack.compressor
  | fpc zeroRunBits => FPC.compressor zeroRunBits
  | fpcd => FPCD.compressor
  | repeatedQwords => RepeatedQwords.compressor
  | zero => Zero.compressor
  | base64Delta8 => BaseDelta.compressor 8 8
  | base64Delta16 => BaseDelta.compressor 8 16
  | base64Delta32 => BaseDelta.compressor 8 32
  | base32Delta8 => BaseDelta.compressor 4 8
  | base32Delta16 => BaseDelta.compressor 4 16
  | base16Delta8 => BaseDelta.compressor 2 8

end CompressorKind

end Gem5Arc
