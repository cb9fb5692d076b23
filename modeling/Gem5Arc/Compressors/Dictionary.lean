import Gem5Arc.Compressors.Pattern
import Gem5Arc.Lib.Codec

/-!
# Dictionary compressors

`DictionaryCompressor` compresses a cache line word by word. Each word is matched against all
entries of the dictionary, the smallest pattern is kept, and the word may be added to the
dictionary. Decompression goes through the patterns in the same order and rebuilds the dictionary
on the way.

A compressor is given by its parameters and its virtual functions. Its state is the dictionary. A
cache line is an array of 64-bit words. A pattern that does not use the dictionary has the match
location -1, which is returned as 255, so that `decompressValue` reads past the end of a smaller
dictionary: what it reads there is a parameter, `beyond`. Statistics and latencies are left out.
-/

namespace Gem5Arc

open Lib

structure DictionaryState (n : ℕ) where
  dictionary : List (DictionaryEntry n)
  /-- The number of valid entries. -/
  numEntries : ℕ

variable {n : ℕ}

/-- A program of a dictionary compressor. -/
abbrev DictionaryM (n : ℕ) : Type → Type := EStateM Fault (DictionaryState n)

/-- The compressed line: its patterns and its size in bits. -/
structure CompData (n : ℕ) where
  entries : List (Pattern n) := []
  sizeBits : ℕ := 0

def CompData.addEntry (data : CompData n) (pattern : Pattern n) : CompData n where
  entries := data.entries ++ [pattern]
  sizeBits := data.sizeBits + pattern.getSizeBits

/-- The parameters of a dictionary compressor. -/
structure CompressorParams where
  blkSize : ℕ
  chunkSizeBits : ℕ
  sizeThresholdPercentage : ℕ := 50
  compChunksPerCycle : ℕ
  decompChunksPerCycle : ℕ
  dictionarySize : ℕ

namespace CompressorParams

variable (p : CompressorParams)

/-- The size in bytes beyond which a compression has failed. -/
def sizeThreshold : ℕ := p.blkSize * p.sizeThresholdPercentage / 100

/-- What the constructor of `Base` checks. -/
def construct : Except Fault Unit := do
  fatalIf (64 % p.chunkSizeBits ≠ 0) "64 must be a multiple of the chunk granularity."
  fatalIf (8 * p.blkSize / p.chunkSizeBits < p.compChunksPerCycle)
    "Compressor processes more chunks per cycle than the number of chunks in the input"
  fatalIf (8 * p.blkSize / p.chunkSizeBits < p.decompChunksPerCycle)
    "Decompressor processes more chunks per cycle than the number of chunks in the input"
  fatalIf (p.blkSize < p.sizeThreshold) "Compressed data must fit in a block"

/-- Split a cache line into chunks. -/
def toChunks (data : ℕ → BitVec 64) : List (BitVec 64) :=
  let numChunksPer64 := 64 / p.chunkSizeBits
  (List.range (p.blkSize * 8 / p.chunkSizeBits)).map fun i =>
    let start := i % numChunksPer64
    bits (data (i / numChunksPer64)) ((start + 1) * p.chunkSizeBits - 1) (start * p.chunkSizeBits)

end CompressorParams

/-- A dictionary compressor over words of `n` bytes: its parameters and its virtual functions. -/
structure DictionaryCompressor (n : ℕ) where
  params : CompressorParams
  getPattern (bytes dictBytes : DictionaryEntry n) (matchLocation : ℤ) : Pattern n
  resetDictionary : DictionaryM n Unit
  addToDictionary (data : DictionaryEntry n) : DictionaryM n Unit
  /-- `CompData::addEntry`, which a subclass can override. -/
  addEntry : CompData n → Pattern n → CompData n := CompData.addEntry
  /-- What the `compress` of a subclass does with the line that the base class has compressed. -/
  adjust : CompData n → DictionaryM n (CompData n) := pure

namespace DictionaryM

/-- `assert(cond)`. -/
def check (cond : Bool) : DictionaryM n Unit := if cond then pure () else throw .assertion

def setEntry (i : ℕ) (data : DictionaryEntry n) : DictionaryM n Unit := do
  let s ← get
  if i < s.dictionary.length then set { s with dictionary := s.dictionary.set i data }
  else throw .outOfBounds

/-- `DictionaryCompressor::resetDictionary`: clear all entries. -/
def resetDictionary : DictionaryM n Unit :=
  modify fun s =>
    { dictionary := List.replicate s.dictionary.length (toDictionaryEntry 0#_), numEntries := 0 }

/-- Add an entry after the valid ones, for which there must be room. -/
def appendEntry (dictionarySize : ℕ) (data : DictionaryEntry n) : DictionaryM n Unit := do
  let s ← get
  check (s.numEntries < dictionarySize)
  setEntry s.numEntries data
  modify fun s => { s with numEntries := s.numEntries + 1 }

end DictionaryM

namespace DictionaryCompressor

variable (c : DictionaryCompressor n)

/-- The loop of `compressValue`, which goes through the dictionary for a smaller pattern. -/
def searchDictionary (bytes : DictionaryEntry n) (pattern : Pattern n)
    (entries : List (DictionaryEntry n × ℕ)) : Pattern n :=
  entries.foldl
    (fun pattern entry =>
      let tempPattern := c.getPattern bytes entry.1 entry.2
      if tempPattern.getSizeBits < pattern.getSizeBits then tempPattern else pattern)
    pattern

/-- The pattern `compressValue` chooses. -/
def choosePattern (s : DictionaryState n) (bytes : DictionaryEntry n) : Pattern n :=
  c.searchDictionary bytes (c.getPattern bytes (toDictionaryEntry 0#_) (-1))
    (s.dictionary.take s.numEntries).zipIdx

/-- Add a word to the dictionary if its pattern says so. -/
def allocate (pattern : Pattern n) (data : DictionaryEntry n) : DictionaryM n Unit :=
  if pattern.allocate then c.addToDictionary data else pure ()

/-- Compress a word. -/
def compressValue (data : BitVec (8 * n)) : DictionaryM n (Pattern n) := do
  let bytes := toDictionaryEntry data
  let s ← get
  let pattern := c.choosePattern s bytes
  c.allocate pattern bytes
  pure pattern

/-- The loop of `compress`. -/
def compressLoop : List (BitVec 64) → CompData n → DictionaryM n (CompData n)
  | [], compData => pure compData
  | value :: chunks, compData => do
      let pattern ← c.compressValue (value.setWidth (8 * n))
      compressLoop chunks (c.addEntry compData pattern)

/-- `DictionaryCompressor::compress`, from an empty dictionary. -/
def compressChunks (chunks : List (BitVec 64)) : DictionaryM n (CompData n) := do
  c.resetDictionary
  c.compressLoop chunks {}

/-- `Base::compress`. A line that is larger than the threshold counts as uncompressed. -/
def compress (data : ℕ → BitVec 64) : DictionaryM n (CompData n) := do
  let compData ← c.compressChunks (c.params.toChunks data)
  let compData ← c.adjust compData
  if compData.sizeBits > c.params.sizeThreshold * 8 then
    pure { compData with sizeBits := c.params.blkSize * 8 }
  else pure compData

def decompressValue (beyond : ℕ → DictionaryEntry n) (pattern : Pattern n) :
    DictionaryM n (BitVec (8 * n)) := do
  let s ← get
  let location := pattern.getMatchLocation
  let data := pattern.decompress (s.dictionary.getD location (beyond location))
  c.allocate pattern data
  pure (fromDictionaryEntry data)

/-- The words of a compressed line, from an empty dictionary. -/
def decompressValues (beyond : ℕ → DictionaryEntry n) (entries : List (Pattern n)) :
    DictionaryM n (List (BitVec (8 * n))) := do
  c.resetDictionary
  entries.mapM (c.decompressValue beyond)

/-- A word of 64 bits of the decompressed line. -/
def concatenate (values : List (BitVec (8 * n))) (i : ℕ) : BitVec 64 :=
  let valuesPerEntry := 8 / n
  (List.range valuesPerEntry).reverse.foldl
    (fun data j => data ||| (values.getD (valuesPerEntry * i + j) 0#_).setWidth 64 <<< (j * 8 * n))
    0#64

/-- Decompress a line into an array. -/
def decompress (beyond : ℕ → DictionaryEntry n) (compData : CompData n) (data : ℕ → BitVec 64) :
    DictionaryM n (ℕ → BitVec 64) := do
  let values ← c.decompressValues beyond compData.entries
  pure fun i => if i < c.params.blkSize / 8 then concatenate values i else data i

end DictionaryCompressor

end Gem5Arc
