import Gem5Arc.Compressors.Classes

/-!
# The dictionary compressors are lossless

If the patterns of a compressor give back their words and its dictionary has room for them, then
compression and decompression run in lockstep: before each word the dictionary that is rebuilt is
the one the word was compressed with. So decompression gives back the words of the line. The words
are put together to the line in units of 64 bits, so that the line comes back as a whole exactly
when its size is a multiple of 8 bytes.
-/

namespace Gem5Arc

open BitVec Lib List

variable {n i : ℕ}

theorem CompressorParams.length_toChunks (p : CompressorParams) (data : ℕ → BitVec 64) :
  (p.toChunks data).length = p.blkSize * 8 / p.chunkSizeBits
  := by
  rw [toChunks, length_map, length_range]

/-! ### One word -/

namespace DictionaryCompressor

/-- A pattern gives back the bytes of a word from a dictionary, whatever is beyond its end. -/
def Recovers (s : DictionaryState n) (pattern : Pattern n) (bytes : DictionaryEntry n) : Prop :=
  ∀ beyond : ℕ → DictionaryEntry n, pattern.decompress
    (s.dictionary.getD pattern.getMatchLocation (beyond pattern.getMatchLocation)) = bytes

/-- What a compressor over lines of `words` words needs to be lossless. `I k` holds of the
dictionary after `k` words. -/
structure Sound (c : DictionaryCompressor n) (words : ℕ) (I : ℕ → DictionaryState n → Prop) :
    Prop where
  /-- The patterns give back their words. -/
  restores : ∀ (value : BitVec (8 * n)) dictBytes matchLocation,
    (c.getPattern (toDictionaryEntry value) dictBytes matchLocation).Restores
      (toDictionaryEntry value) dictBytes matchLocation
  /-- The dictionary is reset to the same state each time. -/
  reset : ∃ t, I 0 t ∧ ∀ s, s.dictionary.length = c.params.dictionarySize →
    c.resetDictionary s = .ok () t
  /-- There is room for each word. -/
  add : ∀ k < words, ∀ s, I k s → ∀ entry,
    ∃ t, c.addToDictionary entry s = .ok () t ∧ I (k + 1) t
  skip : ∀ k s, I k s → ∀ value : BitVec (8 * n),
    (c.choosePattern s (toDictionaryEntry value)).allocate = false → I (k + 1) s
  /-- The match locations fit in 8 bits. -/
  bounded : ∀ k < words, ∀ s, I k s → s.numEntries ≤ 2 ^ 8
  length : ∀ k s, I k s → s.dictionary.length = c.params.dictionarySize
  /-- A pattern that is added to the compressed line keeps what decompression looks at. -/
  addEntry : ∀ compData pattern, ∃ pattern',
    (c.addEntry compData pattern).entries = compData.entries ++ [pattern']
      ∧ ∀ beyond, c.decompressValue beyond pattern' = c.decompressValue beyond pattern
  adjust : ∀ s, I words s → ∀ compData,
    ∃ compData', c.adjust compData s = .ok compData' s ∧ compData'.entries = compData.entries

variable {c : DictionaryCompressor n} {words : ℕ} {I : ℕ → DictionaryState n → Prop}
  {pattern : Pattern n} {s : DictionaryState n}

theorem getMatchLocation_of_lt (h : pattern.matchLocation = i) (hi : i < 2 ^ 8) :
  pattern.getMatchLocation = i
  := by
  rw [Pattern.getMatchLocation, h]
  omega

/-- The search through the dictionary keeps to what holds of the patterns of the entries. -/
theorem searchDictionary_induction {P : Pattern n → Prop} {bytes : DictionaryEntry n}
    {entries : List (DictionaryEntry n × ℕ)} (hpattern : P pattern)
    (h : ∀ entry ∈ entries, P (c.getPattern bytes entry.1 entry.2)) :
  P (c.searchDictionary bytes pattern entries)
  := by
  induction entries generalizing pattern with
  | nil => apply hpattern
  | cons entry entries ih =>
    rw [forall_mem_cons] at h
    apply ih _ h.2
    dsimp only
    split_ifs
    · exact h.1
    · exact hpattern

theorem choosePattern_recovers {value : BitVec (8 * n)} (hrestores : ∀ dictBytes matchLocation,
      (c.getPattern (toDictionaryEntry value) dictBytes matchLocation).Restores
        (toDictionaryEntry value) dictBytes matchLocation) (hbounded : s.numEntries ≤ 2 ^ 8) :
  Recovers s (c.choosePattern s (toDictionaryEntry value)) (toDictionaryEntry value)
  := by
  apply searchDictionary_induction (P := fun pattern => Recovers s pattern _)
  · intro beyond
    rcases hrestores (toDictionaryEntry 0#_) (-1) with hall | ⟨hlocation, _⟩
    · apply hall
    · omega
  · rintro ⟨entry, i⟩ hmem beyond
    rw [mem_zipIdx_iff_getElem?, getElem?_take] at hmem
    split_ifs at hmem with hi
    rcases hrestores entry i with hall | ⟨_, hlocation, hdecompress⟩
    · apply hall
    · rw [getMatchLocation_of_lt hlocation (by omega), getD_eq_getElem?_getD, hmem]
      apply hdecompress

/-- Compression and decompression of one word undo each other and end with the same
dictionary. -/
theorem Sound.lockstep (h : c.Sound words I) (beyond : ℕ → DictionaryEntry n) :
  Lockstep c.compressValue (c.decompressValue beyond) I words
  := by
  constructor
  intro k hk s hs value
  have hrecovers := choosePattern_recovers (h.restores value) (h.bounded k hk s hs)
  have hallocate : ∃ t, c.allocate (c.choosePattern s (toDictionaryEntry value))
      (toDictionaryEntry value) s = .ok () t ∧ I (k + 1) t := by
    rw [allocate]
    split_ifs with hpattern
    · apply h.add k hk s hs
    · exact ⟨s, rfl, h.skip k s hs value (Bool.eq_false_iff.mpr hpattern)⟩
  obtain ⟨t, ht, hI⟩ := hallocate
  refine ⟨c.choosePattern s (toDictionaryEntry value), t, ?_, ?_, hI⟩
  · rw [compressValue, get_bind_apply, bind_of_ok ht]
    rfl
  · rw [decompressValue, get_bind_apply, hrecovers beyond, bind_of_ok ht,
      fromDictionaryEntry_toDictionaryEntry]
    rfl

/-! ### A line -/

/-- The loop of `compress` compresses the words one after another and collects the patterns. -/
theorem compressLoop_eq (chunks : List (BitVec 64)) (compData : CompData n) :
  c.compressLoop chunks compData
    = (fun patterns => patterns.foldl c.addEntry compData)
      <$> (chunks.map (BitVec.setWidth (8 * n))).mapM c.compressValue
  := by
  induction chunks generalizing compData with
  | nil => rfl
  | cons value chunks ih =>
    rw [compressLoop, map_cons, mapM_cons, map_bind]
    congr 1
    funext pattern
    rw [ih, map_bind, map_eq_pure_bind]
    rfl

/-- Decompression does not see the difference between the patterns that were made and those that
are in the compressed line. -/
theorem Sound.foldl_addEntry (h : c.Sound words I) (beyond : ℕ → DictionaryEntry n)
    (patterns : List (Pattern n)) (compData : CompData n) :
  (patterns.foldl c.addEntry compData).entries.map (c.decompressValue beyond)
    = (compData.entries ++ patterns).map (c.decompressValue beyond)
  := by
  induction patterns generalizing compData with
  | nil => rw [append_nil, foldl_nil]
  | cons pattern patterns ih =>
    obtain ⟨pattern', hentries, hsame⟩ := h.addEntry compData pattern
    rw [foldl_cons, ih, hentries]
    simp [hsame beyond]

/-- The words of a line. -/
def wordsOf (c : DictionaryCompressor n) (data : ℕ → BitVec 64) : List (BitVec (8 * n)) :=
  (c.params.toChunks data).map (BitVec.setWidth (8 * n))

/-- A line is compressed, and decompressed to the same words. Before each word the dictionaries
are the same. -/
theorem Sound.decompressValues_compress {data : ℕ → BitVec 64}
    (h : c.Sound (c.params.toChunks data).length I) (beyond : ℕ → DictionaryEntry n)
    {t : DictionaryState n} (hs : s.dictionary.length = c.params.dictionarySize)
    (ht : t.dictionary.length = c.params.dictionarySize) :
  ∃ compData s' t', c.compress data s = .ok compData s'
    ∧ c.decompressValues beyond compData.entries t = .ok (c.wordsOf data) t'
    ∧ ∀ i, final (c.compressChunks ((c.params.toChunks data).take i)) s
        = final (c.decompressValues beyond (compData.entries.take i)) t
  := by
  obtain ⟨u, hu, hreset⟩ := h.reset
  have hlength : 0 + (c.wordsOf data).length ≤ (c.params.toChunks data).length := by
    rw [wordsOf, length_map, Nat.zero_add]
  obtain ⟨patterns, v, hencode, hdecode, hv, hstates⟩ := (h.lockstep beyond).run hlength hu
  rw [Nat.zero_add, wordsOf, length_map] at hv
  have hmap := h.foldl_addEntry beyond patterns {}
  rw [nil_append] at hmap
  have hloop := map_of_ok hencode fun patterns => patterns.foldl c.addEntry {}
  rw [wordsOf, ← compressLoop_eq] at hloop
  obtain ⟨compData', hadjust, hentries⟩ := h.adjust v hv (patterns.foldl c.addEntry {})
  have hcompress : ∃ compData, c.compress data s = .ok compData v
      ∧ compData.entries = (patterns.foldl c.addEntry {}).entries := by
    rw [compress, compressChunks, bind_assoc, bind_of_ok (hreset s hs), bind_of_ok hloop,
      bind_of_ok hadjust]
    split_ifs
    · exact ⟨_, rfl, hentries⟩
    · exact ⟨_, rfl, hentries⟩
  obtain ⟨compData, hok, hsame⟩ := hcompress
  rw [← hsame] at hmap
  refine ⟨compData, v, v, hok, ?_, ?_⟩
  · rw [decompressValues, bind_of_ok (hreset t ht), mapM_eq_of_map_eq hmap, hdecode]
  · intro i
    have htake : (compData.entries.take i).map (c.decompressValue beyond)
        = (patterns.take i).map (c.decompressValue beyond) := by
      rw [map_take, hmap, map_take]
    rw [compressChunks, final_bind_of_ok (hreset s hs), compressLoop_eq, final_map, map_take,
      decompressValues, final_bind_of_ok (hreset t ht), mapM_eq_of_map_eq htake]
    apply hstates

end DictionaryCompressor

/-! ### From words to the line -/

def lineByte (data : ℕ → BitVec 64) (k : ℕ) : BitVec 8 :=
  (data (k / 8) >>> (k % 8 * 8)).setWidth 8

namespace DictionaryCompressor

/-- A compressor is lossless: each line can be compressed, and decompressed later into an array,
whatever that held and whatever the dictionary holds then, and the array has the bytes of the line.
Before each word the dictionary that decompression has rebuilt is the one the word was compressed
with. -/
def Lossless (c : DictionaryCompressor n) : Prop :=
  ∀ (data buffer : ℕ → BitVec 64) (beyond : ℕ → DictionaryEntry n) (s t : DictionaryState n),
    s.dictionary.length = c.params.dictionarySize →
    t.dictionary.length = c.params.dictionarySize →
    ∃ compData s' t' line, c.compress data s = .ok compData s'
      ∧ c.decompress beyond compData buffer t = .ok line t'
      ∧ (∀ k < c.params.blkSize, lineByte line k = lineByte data k)
      ∧ ∀ i, final (c.compressChunks ((c.params.toChunks data).take i)) s
          = final (c.decompressValues beyond (compData.entries.take i)) t

/-- The low bits of a bit field. -/
theorem setWidth_bits (val : Addr) (w start : ℕ) :
  (bits val ((start + 1) * w - 1) (start * w)).setWidth w = (val >>> (start * w)).setWidth w
  := by
  apply eq_of_getLsbD_eq
  intro i hi
  have hle : start * w + i ≤ (start + 1) * w - 1 := by
    rw [Nat.succ_mul]
    omega
  rw [getLsbD_setWidth, getLsbD_setWidth, getLsbD_bits val (by omega),
    getLsbD_ushiftRight, decide_eq_true hle, Bool.and_true]

variable {c : DictionaryCompressor n}

/-- The words of a line, put together again. -/
theorem concatenate_wordsOf (hn : n ∣ 8) (hchunk : c.params.chunkSizeBits = 8 * n)
    (data : ℕ → BitVec 64) (hi : i < c.params.blkSize / 8) :
  concatenate (c.wordsOf data) i = data i
  := by
  have hn0 := Nat.pos_of_dvd_of_pos hn (by decide)
  obtain ⟨m, hm⟩ := hn
  have hm0 := Nat.pos_of_dvd_of_pos (Dvd.intro_left n hm.symm) (by decide)
  have hdiv : 8 / n = m := by
    rw [hm, Nat.mul_div_cancel_left m hn0]
  have hdiv64 : 64 / (8 * n) = m := by
    rw [show 64 = 8 * n * m by rw [Nat.mul_assoc, ← hm], Nat.mul_div_cancel_left m (by omega)]
  have hfield (j : ℕ) (hj : j < m) :
      (c.wordsOf data).getD (m * i + j) 0#_ = (data i >>> (j * (8 * n))).setWidth (8 * n) := by
    have hlt : m * i + j < c.params.blkSize * 8 / (8 * n) := by
      have hle : m * (i + 1) ≤ c.params.blkSize / n := by
        rw [Nat.le_div_iff_mul_le hn0, Nat.mul_right_comm, Nat.mul_comm m, ← hm]
        omega
      rw [Nat.mul_comm _ 8, Nat.mul_div_mul_left _ _ (by decide)]
      rw [Nat.mul_succ] at hle
      omega
    rw [wordsOf, getD_eq_getElem?_getD, getElem?_map, CompressorParams.toChunks, getElem?_map,
      hchunk, hdiv64, getElem?_range hlt, Option.map_some, Option.map_some, Option.getD_some]
    rw [Nat.mul_add_mod, Nat.mod_eq_of_lt hj, Nat.mul_add_div hm0, Nat.div_eq_of_lt hj,
      Nat.add_zero, setWidth_bits]
  have hwidth : 64 ≤ m * (8 * n) := by
    rw [Nat.mul_left_comm, Nat.mul_comm m, ← hm]
  rw [concatenate, hdiv]
  simp only [Nat.mul_assoc]
  apply foldl_or_fields (by omega) hwidth hfield

/-- Decompression leaves the array as it was past the words of 64 bits that are in the line. -/
theorem line_of_decompress {beyond : ℕ → DictionaryEntry n} {compData : CompData n}
    {buffer line : ℕ → BitVec 64} {t t' : DictionaryState n}
    (h : c.decompress beyond compData buffer t = .ok line t') (hi : ¬ i < c.params.blkSize / 8) :
  line i = buffer i
  := by
  rw [decompress, bind_apply] at h
  cases hvalues : c.decompressValues beyond compData.entries t with
  | error e u =>
    rw [hvalues] at h
    cases h
  | ok values u =>
    rw [hvalues] at h
    cases h
    apply if_neg hi

/-- A compressor is lossless only if the size of a line is a multiple of 8 bytes: what is left of
the line after the last word of 64 bits is never written. -/
theorem dvd_of_lossless (hlossless : c.Lossless) :
  8 ∣ c.params.blkSize
  := by
  by_contra hdvd
  let s : DictionaryState n :=
    ⟨List.replicate c.params.dictionarySize (toDictionaryEntry 0#_), 0⟩
  obtain ⟨compData, s', t', line, -, hdecompress, hline, -⟩ :=
    hlossless (fun _ => 0#64) (fun _ => BitVec.allOnes 64) (fun _ => toDictionaryEntry 0#_) s s
      length_replicate length_replicate
  have hlast : ¬ (c.params.blkSize - 1) / 8 < c.params.blkSize / 8 := by omega
  have hbyte := hline (c.params.blkSize - 1) (by omega)
  rw [lineByte, lineByte, line_of_decompress hdecompress hlast] at hbyte
  have hbit := congrArg (fun v : BitVec 8 => v.getLsbD 0) hbyte
  simp only [getLsbD_setWidth, getLsbD_ushiftRight, getLsbD_allOnes,
    getLsbD_zero, Bool.and_false] at hbit
  simp [show (c.params.blkSize - 1) % 8 * 8 < 64 by omega] at hbit

/-- A sound compressor is lossless if the size of a line is a multiple of 8 bytes. -/
theorem Sound.lossless {I : ℕ → DictionaryState n → Prop}
    (hsound : c.Sound (c.params.blkSize * 8 / (8 * n)) I) (hn : n ∣ 8)
    (hchunk : c.params.chunkSizeBits = 8 * n) (hdvd : 8 ∣ c.params.blkSize) :
  c.Lossless
  := by
  intro data buffer beyond s t hs ht
  have hlength : (c.params.toChunks data).length = c.params.blkSize * 8 / (8 * n) := by
    rw [CompressorParams.length_toChunks, hchunk]
  rw [← hlength] at hsound
  obtain ⟨compData, s', t', hcompress, hvalues, hstates⟩ :=
    hsound.decompressValues_compress beyond hs ht
  refine ⟨compData, s', t', _, hcompress, bind_of_ok hvalues _, ?_, hstates⟩
  intro k hk
  have hword : k / 8 < c.params.blkSize / 8 := by omega
  rw [lineByte, lineByte, if_pos hword, concatenate_wordsOf hn hchunk data hword]

end DictionaryCompressor

end Gem5Arc
