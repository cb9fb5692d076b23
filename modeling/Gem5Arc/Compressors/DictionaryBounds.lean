import Gem5Arc.Compressors.Kinds

/-!
# Reads past the end of a dictionary

`decompressValue` reads the dictionary entry at the match location of each pattern, also of one that
does not use it. A pattern that was not found in the dictionary has the match location -1, which is
read as 255. So for a dictionary with less than 256 entries, the reads for a line are in bounds
exactly if all its words are found in the dictionary as it is after a reset. For the base-delta
compressors these are the words that differ little enough from 0, and for the other compressors no
word is found (`inBounds_iff`).
-/

namespace Gem5Arc

open BaseDelta DictionaryM Lib List Pattern

variable {n : ℕ}

namespace DictionaryCompressor

/-- The dictionary entries that are read for the patterns of a compressed line are ones of the
dictionary. -/
def InBounds (c : DictionaryCompressor n) (data : ℕ → BitVec 64) : Prop :=
  ∀ s compData s', s.dictionary.length = c.params.dictionarySize →
    c.compress data s = .ok compData s' →
    ∀ pattern ∈ compData.entries, pattern.getMatchLocation < c.params.dictionarySize

/-! ### The match locations of a compressed line -/

/-- The functions of a subclass change no match location. -/
structure KeepsLocations (c : DictionaryCompressor n) : Prop where
  addEntry : ∀ compData pattern, (c.addEntry compData pattern).entries.map Pattern.matchLocation
    = compData.entries.map Pattern.matchLocation ++ [pattern.matchLocation]
  adjust : ∀ compData s compData' s', c.adjust compData s = .ok compData' s' →
    compData'.entries = compData.entries

variable {c : DictionaryCompressor n} {data : ℕ → BitVec 64} {s s' u v : DictionaryState n}
  {compData : CompData n}

theorem KeepsLocations.foldl_addEntry (h : c.KeepsLocations) (patterns : List (Pattern n))
    (compData : CompData n) :
  (patterns.foldl c.addEntry compData).entries.map matchLocation
    = compData.entries.map matchLocation ++ patterns.map matchLocation
  := by
  induction patterns generalizing compData with
  | nil => simp
  | cons pattern patterns ih =>
    rw [foldl_cons, ih, h.addEntry, map_cons, append_assoc]
    rfl

/-- A compressed line has the match locations of the patterns that were found for its words. -/
theorem KeepsLocations.compress (h : c.KeepsLocations) (hok : c.compress data s = .ok compData s') :
  ∃ u patterns v, c.resetDictionary s = .ok () u
    ∧ (c.wordsOf data).mapM c.compressValue u = .ok patterns v
    ∧ compData.entries.map matchLocation = patterns.map matchLocation
  := by
  rw [DictionaryCompressor.compress, compressChunks, bind_assoc] at hok
  obtain ⟨⟨⟩, u, hreset, hok⟩ := ok_of_bind hok
  obtain ⟨compData₁, v, hloop, hok⟩ := ok_of_bind hok
  obtain ⟨compData₂, w, hadjust, hreturn⟩ := ok_of_bind hok
  rw [compressLoop_eq, map_eq_pure_bind] at hloop
  obtain ⟨patterns, v', hpatterns, hloop⟩ := ok_of_bind hloop
  cases hloop
  have hentries := h.adjust _ _ _ _ hadjust
  have hlocations := h.foldl_addEntry patterns {}
  rw [map_nil, nil_append, ← hentries] at hlocations
  refine ⟨u, patterns, v, hreset, hpatterns, ?_⟩
  split_ifs at hreturn
  · cases hreturn
    exact hlocations
  · cases hreturn
    exact hlocations

/-- `Finds c u Fits`: a word is found in the dictionary `u` after a reset, at location 0, exactly if
it fits. -/
structure Finds (c : DictionaryCompressor n) (u : DictionaryState n)
    (Fits : BitVec (8 * n) → Prop) : Prop where
  reset : ∀ s, s.dictionary.length = c.params.dictionarySize → c.resetDictionary s = .ok () u
  found : ∀ word, Fits word → (c.choosePattern u (toDictionaryEntry word)).matchLocation = 0
    ∧ (c.choosePattern u (toDictionaryEntry word)).allocate = false
  notFound : ∀ word, ¬ Fits word →
    (c.choosePattern u (toDictionaryEntry word)).matchLocation = -1

variable {Fits : BitVec (8 * n) → Prop}

/-- The words before the first one that does not fit leave the dictionary as it is. -/
theorem Finds.mapM_compressValue (h : c.Finds u Fits) {words : List (BitVec (8 * n))}
    {patterns : List (Pattern n)} (hok : words.mapM c.compressValue u = .ok patterns v) :
  ((∀ word ∈ words, Fits word) ∧ ∀ x ∈ patterns.map matchLocation, x = 0)
    ∨ (∃ word ∈ words, ¬ Fits word) ∧ -1 ∈ patterns.map matchLocation
  := by
  induction words generalizing patterns with
  | nil =>
    cases hok
    left
    simp
  | cons word words ih =>
    rw [mapM_cons] at hok
    obtain ⟨pattern, t, hpattern, hok⟩ := ok_of_bind hok
    obtain ⟨rest, t', hrest, hok⟩ := ok_of_bind hok
    cases hok
    rw [compressValue, get_bind_apply] at hpattern
    obtain ⟨⟨⟩, u', hallocate, hpattern⟩ := ok_of_bind hpattern
    cases hpattern
    rw [forall_mem_cons, exists_mem_cons_iff, map_cons, forall_mem_cons, mem_cons]
    by_cases hfits : Fits word
    · obtain ⟨hlocation, hnot⟩ := h.found word hfits
      rw [allocate, hnot] at hallocate
      cases hallocate
      rcases ih hrest with ⟨hall, hzero⟩ | ⟨hmiss, hmem⟩
      · exact .inl ⟨⟨hfits, hall⟩, hlocation, hzero⟩
      · exact .inr ⟨.inr hmiss, .inr hmem⟩
    · exact .inr ⟨.inl hfits, .inl (h.notFound word hfits).symm⟩

/-- The reads for a line are in bounds exactly if the dictionary has at least 256 entries or all
words fit. -/
theorem Finds.inBounds_iff_fits (h : c.Finds u Fits) (hkeeps : c.KeepsLocations)
    (hsound : c.params.dictionarySize < 256 →
      ∃ I, c.Sound (c.params.blkSize * 8 / c.params.chunkSizeBits) I)
    (hpos : 0 < c.params.dictionarySize) :
  c.InBounds data ↔ 256 ≤ c.params.dictionarySize ∨ ∀ word ∈ c.wordsOf data, Fits word
  := by
  have hlocations {s compData s'} (hs : s.dictionary.length = c.params.dictionarySize)
      (hok : c.compress data s = .ok compData s') :
      ((∀ word ∈ c.wordsOf data, Fits word) ∧ ∀ x ∈ compData.entries.map matchLocation, x = 0)
        ∨ (∃ word ∈ c.wordsOf data, ¬ Fits word) ∧ -1 ∈ compData.entries.map matchLocation := by
    obtain ⟨u', patterns, v, hreset, hpatterns, heq⟩ := hkeeps.compress hok
    cases (h.reset s hs).symm.trans hreset
    rw [heq]
    apply h.mapM_compressValue hpatterns
  constructor
  · intro hbounds
    by_contra hnot
    push Not at hnot
    obtain ⟨hsize, word, hword, hmiss⟩ := hnot
    have hs : (emptyDictionary n c.params.dictionarySize).dictionary.length = _ := length_replicate
    obtain ⟨I, hsound⟩ := hsound hsize
    rw [← CompressorParams.length_toChunks _ data] at hsound
    obtain ⟨compData, s', -, hok, -⟩ :=
      hsound.decompressValues_compress (fun _ => toDictionaryEntry 0#_) hs hs
    rcases hlocations hs hok with ⟨hall, -⟩ | ⟨-, hmem⟩
    · exact hmiss (hall word hword)
    · obtain ⟨pattern, hpattern, hlocation⟩ := mem_map.mp hmem
      have hlt := hbounds _ compData s' hs hok pattern hpattern
      rw [getMatchLocation, hlocation] at hlt
      omega
  · intro hcond s compData s' hs hok pattern hpattern
    rcases hlocations hs hok with ⟨-, hzero⟩ | ⟨⟨word, hword, hmiss⟩, -⟩
    · rw [getMatchLocation, hzero _ (mem_map_of_mem hpattern)]
      apply hpos
    · rcases hcond with hsize | hall
      · rw [getMatchLocation]
        omega
      · cases hmiss (hall word hword)

theorem KeepsLocations.inBounds_of_wordsOf_eq_nil (h : c.KeepsLocations)
    (hwords : c.wordsOf data = []) :
  c.InBounds data
  := by
  intro s compData s' _ hok pattern hpattern
  obtain ⟨u, patterns, v, -, hpatterns, hlocations⟩ := h.compress hok
  rw [hwords] at hpatterns
  cases hpatterns
  rw [reverse_nil, map_nil, map_eq_nil_iff] at hlocations
  rw [hlocations] at hpattern
  cases hpattern

/-- A compressor that adds patterns as they are, and adjusts the size only. -/
theorem keepsLocations_of_eq (haddEntry : c.addEntry = CompData.addEntry)
    (hadjust : ∀ compData s, ∃ compData', c.adjust compData s = .ok compData' s
      ∧ compData'.entries = compData.entries) :
  c.KeepsLocations
  := by
  constructor
  · intro compData pattern
    rw [haddEntry, CompData.addEntry, map_append]
    rfl
  · intro compData s compData' s' h
    obtain ⟨_, hok, hentries⟩ := hadjust compData s
    cases hok.symm.trans h
    exact hentries

/-- There is nothing to search in an empty dictionary. -/
theorem choosePattern_emptyDictionary (c : DictionaryCompressor n) (size : ℕ)
    (bytes : DictionaryEntry n) :
  c.choosePattern (emptyDictionary n size) bytes
    = c.getPattern bytes (toDictionaryEntry 0#_) (-1)
  := by
  rfl

/-- So no word is found. -/
theorem finds_of_empty (hreset : c.resetDictionary = DictionaryM.resetDictionary)
    {last : PatternClass n} {classes : List (PatternClass n)}
    (hpattern : c.getPattern = fun bytes dictBytes matchLocation =>
      Factory.getPattern last bytes dictBytes matchLocation classes)
    (hclasses : ∀ bytes, ∀ cls ∈ last :: classes, (cls.new bytes (-1)).matchLocation = -1) :
  c.Finds (emptyDictionary n c.params.dictionarySize) fun _ => False
  where
  reset s hs := by
    rw [hreset]
    apply resetDictionary_eq hs
  found _ := False.elim
  notFound word _ := by
    rw [choosePattern_emptyDictionary, hpattern]
    obtain ⟨cls, hcls, heq, -⟩ := Factory.exists_getPattern_eq last classes ..
    exact (congrArg _ heq).trans (hclasses _ cls hcls)

end DictionaryCompressor

open DictionaryCompressor

/-! ### The compressors -/

theorem FPC.keepsLocations (zeroRunBits cacheLineSize : ℕ) :
  (FPC.compressor zeroRunBits cacheLineSize).KeepsLocations
  := by
  constructor
  · intro compData pattern
    change (FPC.addEntry zeroRunBits compData pattern).entries.map _ = _
    obtain ⟨run, hrun⟩ := extendZeroRun_eq zeroRunBits compData.entries pattern
    rw [FPC.addEntry, CompData.addEntry, map_append, map_singleton, hrun]
  · intro compData s compData' s' h
    cases h
    rfl

theorem RepeatedQwords.keepsLocations (cacheLineSize : ℕ) :
  (RepeatedQwords.compressor cacheLineSize).KeepsLocations
  := by
  refine ⟨fun _ _ => map_append, ?_⟩
  intro compData s compData' s' h
  change RepeatedQwords.adjust cacheLineSize compData s = _ at h
  rw [RepeatedQwords.adjust, get_bind_apply] at h
  obtain ⟨⟨⟩, t, -, h⟩ := ok_of_bind h
  split_ifs at h
  · cases h
    rfl
  · cases h
    rfl

theorem BaseDelta.keepsLocations (deltaSizeBits cacheLineSize : ℕ) :
  (compressor n deltaSizeBits cacheLineSize).KeepsLocations
  := keepsLocations_of_eq rfl (adjust_eq cacheLineSize)

variable {D cacheLineSize : ℕ}

section

variable (hpos : 0 < n) (hn : n ≤ 8) (hD : D ≤ 8 * n)

include hpos hn hD

/-- A delta is smaller than a base with a delta. -/
theorem BaseDelta.getSizeBits_lt (bytes : DictionaryEntry n) (i j : ℤ) :
  ((patternM D).new bytes i).getSizeBits
    < ((patternX D).new bytes j).getSizeBits
  := by
  have hclog : Nat.clog 2 defaultMaxNumBases = 1 := by decide
  change D % 2 ^ 8 + Nat.clog 2 defaultMaxNumBases % 2 ^ 8
    < 8 * n % 2 ^ 8 + (Nat.clog 2 defaultMaxNumBases + D) % 2 ^ 8
  omega

/-- A word is stored as a delta from the first base that it differs little enough from, and as a
new base if there is none. -/
theorem BaseDelta.searchDictionary_eq (bytes : DictionaryEntry n) (bases : List (DictionaryEntry n))
    (k : ℕ) :
  (compressor n D cacheLineSize).searchDictionary bytes
      ((patternX D).new bytes (-1)) (bases.zipIdx k)
    = match bases.findIdx? (isValidDelta D bytes) with
      | some i => (patternM D).new bytes (k + i : ℕ)
      | none => (patternX D).new bytes (-1)
  := by
  have hpattern (base : DictionaryEntry n) (i : ℕ) :
      (compressor n D cacheLineSize).getPattern bytes base i
        = if isValidDelta D bytes base then (patternM D).new bytes i
          else (patternX D).new bytes i := by
    change Factory.getPattern _ _ _ _ [patternM D] = _
    simp [Factory.getPattern, patternM, deltaPattern]
  induction bases generalizing k with
  | nil => rfl
  | cons base bases ih =>
    rw [zipIdx_cons, searchDictionary, foldl_cons, findIdx?_cons, hpattern]
    by_cases hbase : isValidDelta D bytes base = true
    · simp only [if_pos hbase, if_pos (getSizeBits_lt hpos hn hD bytes k (-1))]
      apply foldl_fixed'
      rintro ⟨base', i⟩
      rw [hpattern, if_neg]
      split_ifs
      · apply lt_irrefl
      · apply (getSizeBits_lt hpos hn hD ..).le.not_gt
    · simp only [if_neg hbase]
      have hsame : ((patternX D).new bytes k).getSizeBits
          = ((patternX D).new bytes (-1)).getSizeBits := rfl
      rw [if_neg hsame.not_lt]
      refine (ih (k + 1)).trans ?_
      cases bases.findIdx? (isValidDelta D bytes) with
      | none => rfl
      | some i =>
        dsimp only [Option.map_some]
        rw [Nat.add_right_comm, Nat.add_assoc]

theorem BaseDelta.choosePattern_eq (s : DictionaryState n) (bytes : DictionaryEntry n) :
  (compressor n D cacheLineSize).choosePattern s bytes
    = match (s.dictionary.take s.numEntries).findIdx? (isValidDelta D bytes) with
      | some i => (patternM D).new bytes i
      | none => (patternX D).new bytes (-1)
  := by
  refine (searchDictionary_eq hpos hn hD bytes (s.dictionary.take s.numEntries) 0).trans ?_
  simp only [Nat.zero_add]

/-- A word is found if it differs little enough from 0, the only base after a reset. -/
theorem BaseDelta.finds (hsize : 0 < cacheLineSize) :
  (compressor n D cacheLineSize).Finds
    { emptyDictionary n cacheLineSize with numEntries := 1 }
    fun word => isValidDelta D (toDictionaryEntry word) (toDictionaryEntry 0#_)
  := by
  have hbase : (emptyDictionary n cacheLineSize).dictionary.take 1 = [toDictionaryEntry 0#_] := by
    obtain ⟨k, rfl⟩ := Nat.exists_eq_add_of_lt hsize
    rfl
  constructor
  · intro s hs
    apply resetDictionary_zero hsize hs
  · intro word hword
    rw [choosePattern_eq hpos hn hD, hbase, findIdx?_cons, hword]
    exact ⟨rfl, rfl⟩
  · intro word hword
    rw [choosePattern_eq hpos hn hD, hbase, findIdx?_cons, if_neg hword]
    rfl

end

/-! ### All of them -/

namespace CompressorKind

section

variable (kind : CompressorKind)

theorem keepsLocations (cacheLineSize : ℕ) :
  (kind.compressor cacheLineSize).KeepsLocations
  := by
  cases kind with
  | cpack | fpcd => exact keepsLocations_of_eq rfl fun compData _ => ⟨compData, rfl, rfl⟩
  | fpc zeroRunBits => apply FPC.keepsLocations
  | repeatedQwords => apply RepeatedQwords.keepsLocations
  | zero => exact keepsLocations_of_eq rfl (Zero.adjust_eq cacheLineSize)
  | _ => apply keepsLocations

theorem words_eq (cacheLineSize : ℕ) :
  (kind.compressor cacheLineSize).params.blkSize * 8
      / (kind.compressor cacheLineSize).params.chunkSizeBits
    = cacheLineSize / kind.wordSize
  := by
  have hblkSize : (kind.compressor cacheLineSize).params.blkSize = cacheLineSize := by
    cases kind <;> rfl
  have hchunkSize : (kind.compressor cacheLineSize).params.chunkSizeBits = 8 * kind.wordSize := by
    cases kind <;> rfl
  rw [hblkSize, hchunkSize, Gem5Arc.words_eq]

/-- The number of bits of a delta of a base-delta compressor. -/
def deltaSizeBits : CompressorKind → Option ℕ
  | base64Delta8 | base32Delta8 | base16Delta8 => some 8
  | base64Delta16 | base32Delta16 => some 16
  | base64Delta32 => some 32
  | _ => none

/-- A base-delta compressor can store the word as a delta from 0. -/
def Fits (word : BitVec (8 * kind.wordSize)) : Prop :=
  match kind.deltaSizeBits with
  | some D => isValidDelta D (toDictionaryEntry word) (toDictionaryEntry 0#_) = true
  | none => False

variable (hwords : 0 < cacheLineSize / kind.wordSize)

include hwords

theorem exists_finds :
  ∃ u, (kind.compressor cacheLineSize).Finds u kind.Fits
  := by
  cases kind with
  | cpack | fpc | fpcd | repeatedQwords | zero =>
    refine ⟨_, finds_of_empty rfl rfl ?_⟩
    intro bytes cls hcls
    fin_cases hcls <;> rfl
  | _ => exact ⟨_, finds (by decide) (by decide) (by decide) (Nat.pos_of_div_pos hwords)⟩

theorem exists_sound (hsize : (kind.compressor cacheLineSize).params.dictionarySize < 256) :
  ∃ I, (kind.compressor cacheLineSize).Sound ((kind.compressor cacheLineSize).params.blkSize * 8
    / (kind.compressor cacheLineSize).params.chunkSizeBits) I
  := by
  have hle : cacheLineSize / kind.wordSize ≤ cacheLineSize := Nat.div_le_self ..
  cases kind with
  | cpack => exact ⟨_, CPack.sound (hle.trans hsize.le)⟩
  | fpc zeroRunBits => exact ⟨_, FPC.sound zeroRunBits _⟩
  | fpcd => exact ⟨_, FPCD.sound _⟩
  | repeatedQwords => exact ⟨_, RepeatedQwords.sound (hle.trans hsize.le) hwords⟩
  | zero => exact ⟨_, Zero.sound (hle.trans hsize.le)⟩
  | _ => exact ⟨_, sound (by decide) (hle.trans hsize.le) (Nat.pos_of_div_pos hwords)⟩

end

end CompressorKind

/-- The reads of the dictionary for a line are in bounds exactly if it has at least 256 entries, or
all words are found in it as it is after a reset. -/
theorem inBounds_iff (kind : CompressorKind) (cacheLineSize : ℕ) (data : ℕ → BitVec 64) :
  (kind.compressor cacheLineSize).InBounds data
    ↔ 256 ≤ (kind.compressor cacheLineSize).params.dictionarySize
      ∨ ∀ word ∈ (kind.compressor cacheLineSize).wordsOf data, kind.Fits word
  := by
  have hkeeps := kind.keepsLocations cacheLineSize
  rcases Nat.eq_zero_or_pos (cacheLineSize / kind.wordSize) with hnone | hwords
  · have hnil : (kind.compressor cacheLineSize).wordsOf data = [] := by
      rw [wordsOf, CompressorParams.toChunks, kind.words_eq, hnone]
      rfl
    apply iff_of_true (hkeeps.inBounds_of_wordsOf_eq_nil hnil)
    right
    rw [hnil]
    apply forall_mem_nil
  · obtain ⟨u, hfinds⟩ := kind.exists_finds hwords
    apply hfinds.inBounds_iff_fits hkeeps (kind.exists_sound hwords)
    cases kind with
    | fpc => exact Nat.one_pos
    | fpcd => exact Nat.two_pos
    | _ => exact Nat.pos_of_div_pos hwords

/-- FPC has a dictionary of one entry. The entry that is read for a line of zeros is the one at
255. -/
theorem fpc_reads_beyond :
  ∃ compData s,
    ((CompressorKind.fpc 3).compressor 64).compress (fun _ => 0#64) (emptyDictionary 4 1)
      = .ok compData s
    ∧ (compData.entries.map Pattern.getMatchLocation).head? = some 255
    ∧ ((CompressorKind.fpc 3).compressor 64).params.dictionarySize = 1
  := ⟨_, _, rfl, by decide, rfl⟩

end Gem5Arc
