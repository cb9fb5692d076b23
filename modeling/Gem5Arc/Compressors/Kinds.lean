import Gem5Arc.Compressors.Lossless

/-!
# Which dictionary compressors are lossless

Each of the compressors meets the conditions of `DictionaryCompressor.Sound`, for lines of at most
256 words: its pattern classes give back their words, and its dictionary has room for all words of
a line. FPC has no dictionary, and the one of FPCD has the last two words only.
-/

namespace Gem5Arc

open BaseDelta DictionaryCompressor DictionaryM Factory Lib List RepeatedQwords

variable {n : ℕ} {s : DictionaryState n} {size : ℕ}

/-! ### Dictionaries that grow -/

/-- An entry is added after the valid ones if there is room. -/
theorem appendEntry_eq (hlength : s.dictionary.length = size) (hlt : s.numEntries < size)
    (data : DictionaryEntry n) :
  appendEntry size data s
    = .ok () { dictionary := s.dictionary.set s.numEntries data, numEntries := s.numEntries + 1 }
  := by
  rw [appendEntry, get_bind_apply, check, if_pos (decide_eq_true hlt), pure_bind, setEntry,
    bind_assoc, get_bind_apply, if_pos (by rw [hlength]; exact hlt)]
  rfl

/-- A dictionary of a given size that has at most `first` entries to start with and one more for
each word. -/
structure Room (size first k : ℕ) (s : DictionaryState n) : Prop where
  le : s.numEntries ≤ k + first
  length : s.dictionary.length = size

namespace Room

variable {first k : ℕ}

theorem skip (h : Room size first k s) :
  Room size first (k + 1) s
  := ⟨by have := h.le; omega, h.length⟩

/-- There is room for an entry. -/
theorem append (h : Room size first k s) (hlt : k + first < size) (data : DictionaryEntry n) :
  ∃ t, appendEntry size data s = .ok () t ∧ Room size first (k + 1) t ∧ 0 < t.numEntries
  := by
  have hle := h.le
  refine ⟨_, appendEntry_eq h.length (by omega) data, ⟨?_, ?_⟩, ?_⟩
  · change s.numEntries + 1 ≤ k + 1 + first
    omega
  · rw [length_set, h.length]
  · apply Nat.succ_pos

end Room

/-- The state after `DictionaryCompressor::resetDictionary`. -/
def emptyDictionary (n size : ℕ) : DictionaryState n where
  dictionary := List.replicate size (toDictionaryEntry 0#_)
  numEntries := 0

theorem resetDictionary_eq (h : s.dictionary.length = size) :
  resetDictionary s = .ok () (emptyDictionary n size)
  := by
  rw [emptyDictionary, ← h]
  rfl

theorem emptyDictionary_room (n size first : ℕ) :
  Room size first 0 (emptyDictionary n size)
  := ⟨Nat.zero_le _, length_replicate⟩

variable {c : DictionaryCompressor n}

/-- A compressor that adds its patterns to the line as they are. -/
theorem addEntry_entries (hc : c.addEntry = CompData.addEntry) (compData : CompData n)
    (pattern : Pattern n) :
  ∃ pattern', (c.addEntry compData pattern).entries = compData.entries ++ [pattern']
    ∧ ∀ beyond, c.decompressValue beyond pattern' = c.decompressValue beyond pattern
  := by
  rw [hc]
  exact ⟨pattern, rfl, fun _ => rfl⟩

/-- A compressor whose dictionary grows is sound if it has room for the words of a line. -/
theorem sound_of_room {words first : ℕ}
    (hrestores : ∀ (value : BitVec (8 * n)) dictBytes matchLocation,
      (c.getPattern (toDictionaryEntry value) dictBytes matchLocation).Restores
        (toDictionaryEntry value) dictBytes matchLocation)
    (hreset : ∃ t, Room c.params.dictionarySize first 0 t
      ∧ ∀ s, s.dictionary.length = c.params.dictionarySize → c.resetDictionary s = .ok () t)
    (hadd : c.addToDictionary = appendEntry c.params.dictionarySize)
    (hroom : words + first ≤ c.params.dictionarySize) (hbound : words + first ≤ 257)
    (haddEntry : c.addEntry = CompData.addEntry)
    (hadjust : ∀ compData s, ∃ compData', c.adjust compData s = .ok compData' s
      ∧ compData'.entries = compData.entries) :
  c.Sound words (Room c.params.dictionarySize first)
  where
  restores := hrestores
  reset := hreset
  add k hk s hs entry := by
    obtain ⟨t, hok, ht, -⟩ := hs.append (by omega) entry
    rw [hadd]
    exact ⟨t, hok, ht⟩
  skip _ _ hs _ _ := hs.skip
  bounded k hk s hs := by
    have := hs.le
    omega
  length _ _ hs := hs.length
  addEntry := addEntry_entries haddEntry
  adjust s _ compData := hadjust compData s

/-- The number of words of a line. -/
theorem words_eq (n cacheLineSize : ℕ) :
  cacheLineSize * 8 / (8 * n) = cacheLineSize / n
  := by
  rw [Nat.mul_comm _ 8, Nat.mul_div_mul_left _ _ (by decide)]

/-! ### The compressors -/

variable {cacheLineSize : ℕ}

theorem CPack.sound (h : cacheLineSize / 4 ≤ 256) :
  (CPack.compressor cacheLineSize).Sound (cacheLineSize * 8 / (8 * 4)) (Room cacheLineSize 0)
  := by
  rw [words_eq]
  apply sound_of_room _ _ rfl _ (by omega) rfl
  · intro compData s
    exact ⟨compData, rfl, rfl⟩
  · apply getPattern_restores fun _ _ _ => rfl
    simp only [patternFactory, forall_mem_cons]
    exact ⟨(maskedValuePattern_selfContained ..).sound, maskedPattern_sound ..,
      (maskedValuePattern_selfContained ..).sound, maskedPattern_sound .., maskedPattern_sound ..,
      by simp⟩
  · exact ⟨_, emptyDictionary_room 4 _ 0, fun _ => resetDictionary_eq⟩
  · apply Nat.div_le_self

theorem FPC.zeroRun_selfContained :
  FPC.zeroRun.SelfContained
  := ⟨(maskedValuePattern_selfContained PatternNumber.ZERO_RUN.ctorIdx
    PatternNumber.ZERO_RUN.ctorIdx 3 0 0xFFFFFFFF false).unlocated.restores⟩

/-- What is done for zero runs is not seen by decompression. -/
theorem FPC.extendZeroRun_eq (zeroRunBits : ℕ) (entries : List (Pattern 4)) (pattern : Pattern 4) :
  ∃ run, FPC.extendZeroRun zeroRunBits entries pattern = { pattern with zeroRun := run }
  := by
  rw [FPC.extendZeroRun]
  split_ifs
  · cases entries.getLast? with
    | none => exact ⟨_, rfl⟩
    | some back =>
      dsimp only
      split_ifs
      · exact ⟨_, rfl⟩
      · exact ⟨_, rfl⟩
      · exact ⟨_, rfl⟩
  · exact ⟨_, rfl⟩

theorem FPC.sound (zeroRunBits cacheLineSize : ℕ) :
  (FPC.compressor zeroRunBits cacheLineSize).Sound (cacheLineSize * 8 / (8 * 4))
    (fun _ => Room 1 0 0)
  where
  restores := by
    apply getPattern_restores fun _ _ _ => rfl
    simp only [patternFactory, forall_mem_cons]
    exact ⟨zeroRun_selfContained.sound,
      (signExtendedPattern_selfContained _ _ _ (by decide) (by decide) _).sound,
      (signExtendedPattern_selfContained _ _ _ (by decide) (by decide) _).sound,
      (signExtendedPattern_selfContained _ _ _ (by decide) (by decide) _).sound,
      (maskedValuePattern_selfContained ..).unlocated.sound,
      (signExtendedTwoHalfwords_selfContained _).sound,
      (repeatedValuePattern_selfContained _ _ _ (by decide) (by decide) _).unlocated.sound,
      by simp⟩
  reset := ⟨_, emptyDictionary_room 4 _ 0, fun _ => resetDictionary_eq⟩
  add k _ s hs entry := ⟨s, rfl, hs⟩
  skip _ _ hs _ _ := hs
  bounded k _ s hs := by
    have := hs.le
    omega
  length _ _ hs := hs.length
  addEntry compData pattern := by
    obtain ⟨run, hrun⟩ := extendZeroRun_eq zeroRunBits compData.entries pattern
    exact ⟨_, congrArg (compData.entries ++ [·]) hrun, fun _ => rfl⟩
  adjust s _ compData := ⟨compData, rfl, rfl⟩

/-- The dictionary of FPCD has at most two entries. -/
structure FPCD.TwoEntries (s : DictionaryState 4) : Prop where
  le : s.numEntries ≤ 2
  length : s.dictionary.length = 2

theorem FPCD.addToDictionary_ok {s : DictionaryState 4} (h : FPCD.TwoEntries s)
    (data : DictionaryEntry 4) :
  ∃ t, FPCD.addToDictionary data s = .ok () t ∧ FPCD.TwoEntries t
  := by
  have hlength := h.length
  have hset {s : DictionaryState 4} (hs : s.dictionary.length = 2) {i : ℕ} (hi : i < 2)
      (data : DictionaryEntry 4) :
      setEntry i data s = .ok () { s with dictionary := s.dictionary.set i data } := by
    rw [setEntry, get_bind_apply, if_pos (by omega)]
    rfl
  rw [FPCD.addToDictionary, get_bind_apply]
  split_ifs with hfull
  · rw [bind_of_ok (hset hlength (by decide) _)]
    refine ⟨_, hset ?_ (by decide) _, ⟨h.le, ?_⟩⟩
    · rw [length_set, hlength]
    · rw [length_set, length_set, hlength]
  · have hle := h.le
    rw [bind_of_ok (hset hlength (by omega) _)]
    refine ⟨_, rfl, ⟨?_, ?_⟩⟩
    · change s.numEntries + 1 ≤ 2
      omega
    · rw [length_set, hlength]

theorem FPCD.sound (cacheLineSize : ℕ) :
  (FPCD.compressor cacheLineSize).Sound (cacheLineSize * 8 / (8 * 4)) (fun _ => FPCD.TwoEntries)
  where
  restores := by
    apply getPattern_restores fun _ _ _ => rfl
    simp only [patternFactory, forall_mem_cons]
    have hvalue a b c d e f := (maskedValuePattern_selfContained (n := 4) a b c d e f).sound
    have hlocated a b c d e f := locatedMaskedPattern_sound (n := 4) a b c d e f
    exact ⟨hvalue .., hvalue .., hlocated .., hlocated .., hvalue .., hvalue ..,
      (repeatedValuePattern_selfContained _ _ _ (by decide) (by decide) _).sound,
      hlocated .., hlocated .., hvalue .., hvalue .., hvalue .., hvalue .., hlocated ..,
      hlocated .., by simp⟩
  reset := ⟨_, ⟨Nat.zero_le _, length_replicate⟩, fun _ => resetDictionary_eq⟩
  add k _ s hs entry := addToDictionary_ok hs entry
  skip _ _ hs _ _ := hs
  bounded k _ s hs := by
    have := hs.le
    omega
  length _ _ hs := hs.length
  addEntry := addEntry_entries rfl
  adjust s _ compData := ⟨compData, rfl, rfl⟩

theorem RepeatedQwords.sound (h : cacheLineSize / 8 ≤ 256) (hpos : 0 < cacheLineSize / 8) :
  (compressor cacheLineSize).Sound (cacheLineSize * 8 / (8 * 8))
    (fun k s => Room cacheLineSize 0 k s ∧ (0 < k → 0 < s.numEntries))
  where
  restores := by
    apply getPattern_restores fun _ _ _ => rfl
    simp only [forall_mem_cons]
    exact ⟨locatedMaskedPattern_sound .., by simp⟩
  reset := ⟨_, ⟨emptyDictionary_room 8 _ 0, by omega⟩, fun _ => resetDictionary_eq⟩
  add k hk s hs entry := by
    rw [words_eq] at hk
    obtain ⟨t, hok, ht, hnonempty⟩ := hs.1.append (by omega) entry
    exact ⟨t, hok, ht, fun _ => hnonempty⟩
  skip k s hs value hallocate := by
    refine ⟨hs.1.skip, fun _ => ?_⟩
    rcases Nat.eq_zero_or_pos s.numEntries with hzero | hnonempty
    · rw [choosePattern, hzero, take_zero] at hallocate
      cases hallocate
    · apply hnonempty
  bounded k hk s hs := by
    rw [words_eq] at hk
    have := hs.1.le
    omega
  length _ _ hs := hs.1.length
  addEntry := addEntry_entries rfl
  adjust s hs compData := by
    rw [words_eq] at hs
    have hcheck : decide (1 ≤ s.numEntries) = true := decide_eq_true (hs.2 hpos)
    change ∃ compData', adjust cacheLineSize compData s = _ ∧ _
    rw [adjust, get_bind_apply, check, if_pos hcheck, pure_bind]
    split_ifs
    · exact ⟨_, rfl, rfl⟩
    · exact ⟨_, rfl, rfl⟩

theorem Zero.adjust_eq (blkSize : ℕ) (compData : CompData 8) (s : DictionaryState 8) :
  ∃ compData', Zero.adjust blkSize compData s = .ok compData' s
    ∧ compData'.entries = compData.entries
  := by
  rw [Zero.adjust, get_bind_apply]
  split_ifs
  · exact ⟨_, rfl, rfl⟩
  · exact ⟨_, rfl, rfl⟩

theorem Zero.sound (h : cacheLineSize / 8 ≤ 256) :
  (Zero.compressor cacheLineSize).Sound (cacheLineSize * 8 / (8 * 8)) (Room cacheLineSize 0)
  := by
  rw [words_eq]
  apply sound_of_room _ _ rfl _ (by omega) rfl (adjust_eq cacheLineSize)
  · apply getPattern_restores fun _ _ _ => rfl
    simp only [forall_mem_cons]
    exact ⟨(maskedValuePattern_selfContained ..).sound, by simp⟩
  · exact ⟨_, emptyDictionary_room 8 _ 0, fun _ => resetDictionary_eq⟩
  · apply Nat.div_le_self

theorem BaseDelta.adjust_eq (blkSize : ℕ) (compData : CompData n) (s : DictionaryState n) :
  ∃ compData', adjust blkSize compData s = .ok compData' s
    ∧ compData'.entries = compData.entries
  := by
  rw [adjust, get_bind_apply]
  split_ifs
  · exact ⟨_, rfl, rfl⟩
  · exact ⟨_, rfl, rfl⟩

/-- The dictionary of a base-delta compressor starts with a zero base. -/
theorem BaseDelta.resetDictionary_zero (hpos : 0 < size) (h : s.dictionary.length = size) :
  resetDictionary size s = .ok () { emptyDictionary n size with numEntries := 1 }
  := by
  have hset := set_replicate_self (n := size) (a := toDictionaryEntry 0#(8 * n)) (i := 0)
  rw [emptyDictionary, ← hset]
  exact (bind_of_ok (resetDictionary_eq h) _).trans (appendEntry_eq length_replicate hpos _)

theorem BaseDelta.sound {deltaSizeBits : ℕ} (hn : 2 ≤ n) (h : cacheLineSize / n ≤ 256)
    (hpos : 0 < cacheLineSize) :
  (compressor n deltaSizeBits cacheLineSize).Sound (cacheLineSize * 8 / (8 * n))
    (Room cacheLineSize 1)
  := by
  rw [words_eq]
  apply sound_of_room _ _ rfl _ (by omega) rfl (adjust_eq cacheLineSize)
  · apply getPattern_restores fun _ _ _ => rfl
    simp only [forall_mem_cons]
    exact ⟨(⟨fun _ _ _ _ _ _ => rfl⟩ : PatternClass.SelfContained _).sound, by simp⟩
  · exact ⟨_, ⟨Nat.le_refl 1, length_replicate⟩, fun _ => resetDictionary_zero hpos⟩
  · change cacheLineSize / n + 1 ≤ cacheLineSize
    apply Nat.div_lt_self hpos hn

/-! ### All of them -/

/-- The compressors are lossless for lines of at most 256 words whose size is a multiple of 8
bytes, and for no other lines. -/
theorem lossless_iff_dvd (kind : CompressorKind) {cacheLineSize : ℕ} (hpos : 0 < cacheLineSize)
    (hwords : cacheLineSize / kind.wordSize ≤ 256) :
  (kind.compressor cacheLineSize).Lossless ↔ 8 ∣ cacheLineSize
  := by
  constructor
  · intro hlossless
    have hdvd := dvd_of_lossless hlossless
    cases kind <;> exact hdvd
  · intro hdvd
    cases kind with
    | cpack => exact (CPack.sound hwords).lossless (by decide) rfl hdvd
    | fpc zeroRunBits => exact (FPC.sound zeroRunBits _).lossless (by decide) rfl hdvd
    | fpcd => exact (FPCD.sound _).lossless (by decide) rfl hdvd
    | repeatedQwords =>
      exact (sound hwords (by omega)).lossless (by decide) rfl hdvd
    | zero => exact (Zero.sound hwords).lossless (by decide) rfl hdvd
    | base64Delta8 | base64Delta16 | base64Delta32 | base32Delta8 | base32Delta16 | base16Delta8 =>
      exact (sound (by decide) hwords hpos).lossless (by decide) rfl hdvd

theorem lossless_iff_dvd_cpack :
  0 < 64 ∧ 64 / CompressorKind.cpack.wordSize ≤ 256
    ∧ ((CompressorKind.cpack.compressor 64).Lossless ↔ 8 ∣ 64)
  := ⟨by decide, by decide, lossless_iff_dvd .cpack (by decide) (by decide)⟩

/-- With cache lines of 4 bytes, which all constructors accept, a line of two 16-bit words is
compressed and decompressed, but nothing is written to the array. -/
theorem base16Delta8_loses_line :
  ((CompressorKind.base16Delta8.compressor 4).params.construct = .ok ())
    ∧ ∃ compData s t line,
      (CompressorKind.base16Delta8.compressor 4).compress (fun _ => 0x20001#64)
          (emptyDictionary 2 4) = .ok compData s
        ∧ (CompressorKind.base16Delta8.compressor 4).decompress (fun _ => toDictionaryEntry 0#_)
          compData (fun _ => 0#64) s = .ok line t
        ∧ lineByte line 0 ≠ lineByte (fun _ => 0x20001#64) 0
  := ⟨rfl, _, _, _, _, rfl, rfl, by decide⟩

end Gem5Arc
