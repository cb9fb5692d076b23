import Gem5Arc.Compressors.DictionaryBounds

/-!
# The sizes of the base-delta compressors

Each word is a delta from one of the bases so far, or a new base with a delta. The bases are zero
and the words that differ too much from the bases before them. So the size of a line is known if all
words are deltas from zero or from the first word that is none from zero, and otherwise the line is
not compressed. A delta and its base give back the word (`size_and_delta`).
-/

namespace Gem5Arc

open DictionaryCompressor DictionaryM Lib List

namespace BaseDelta

variable {n D cacheLineSize : ℕ}

/-! ### The bases of a line -/

/-- One base at most is needed in addition to zero: every word after the first one that is no delta
from zero is a delta from zero or from that word. -/
def oneBase (D : ℕ) (words : List (DictionaryEntry n)) : Bool :=
  match words.dropWhile fun word => isValidDelta D word (toDictionaryEntry 0#_) with
  | [] => true
  | base :: rest => rest.all fun word =>
      isValidDelta D word (toDictionaryEntry 0#_) || isValidDelta D word base

/-- The bases after a word, which is a new one if it is no delta from the others. -/
def addBase (D : ℕ) (bases : List (DictionaryEntry n)) (word : DictionaryEntry n) :
    List (DictionaryEntry n) :=
  if bases.any (isValidDelta D word) then bases else bases ++ [word]

theorem length_le_foldl_addBase (words bases : List (DictionaryEntry n)) :
  bases.length ≤ (words.foldl (addBase D) bases).length
  := by
  induction words generalizing bases with
  | nil => apply le_refl
  | cons word words ih =>
    apply le_trans _ (ih _)
    rw [addBase]
    split_ifs
    · apply le_refl
    · rw [length_append]
      apply Nat.le_add_right

/-- No base is added if all words are deltas. -/
theorem foldl_addBase_length_le_iff (words bases : List (DictionaryEntry n)) :
  (words.foldl (addBase D) bases).length ≤ bases.length
    ↔ ∀ word ∈ words, bases.any (isValidDelta D word) = true
  := by
  induction words generalizing bases with
  | nil => simp
  | cons word words ih =>
    rw [foldl_cons, forall_mem_cons, addBase]
    split_ifs with hany
    · rw [ih, and_iff_right hany]
    · apply iff_of_false _ fun h => hany h.1
      have hle := length_le_foldl_addBase (D := D) words (bases ++ [word])
      rw [length_append, length_singleton] at hle
      omega

theorem foldl_addBase_length_le_two_iff (words : List (DictionaryEntry n)) :
  (words.foldl (addBase D) [toDictionaryEntry 0#_]).length ≤ 2 ↔ oneBase D words = true
  := by
  induction words with
  | nil => simp [oneBase]
  | cons word words ih =>
    rw [oneBase, dropWhile_cons, foldl_cons, addBase, any_cons, any_nil, Bool.or_false]
    split_ifs
    · rw [ih, oneBase]
    · refine (foldl_addBase_length_le_iff words [_, word]).trans ?_
      simp

section

variable (hpos : 0 < n) (hn : n ≤ 8) (hD : D ≤ 8 * n) {s : DictionaryState n}

include hpos hn hD

/-- The entries of the dictionary are the bases, and each new one adds to the size. -/
theorem exists_compressValue (value : BitVec (8 * n))
    (hlength : s.dictionary.length = cacheLineSize) (hroom : s.numEntries < cacheLineSize) :
  ∃ p t, (compressor n D cacheLineSize).compressValue value s = .ok p t
    ∧ p.getSizeBits + 8 * n * s.numEntries = 1 + D + 8 * n * t.numEntries
    ∧ t.dictionary.length = cacheLineSize ∧ t.numEntries ≤ s.numEntries + 1
    ∧ t.dictionary.take t.numEntries
      = addBase D (s.dictionary.take s.numEntries) (toDictionaryEntry value)
  := by
  have hclog : Nat.clog 2 defaultMaxNumBases = 1 := by decide
  rw [compressValue, get_bind_apply, choosePattern_eq hpos hn hD, addBase, ← findIdx?_isSome]
  cases (s.dictionary.take s.numEntries).findIdx? (isValidDelta D (toDictionaryEntry value)) with
  | some i =>
    refine ⟨_, s, rfl, ?_, hlength, Nat.le_succ _, rfl⟩
    change D % 2 ^ 8 + Nat.clog 2 defaultMaxNumBases % 2 ^ 8 + _ = _
    omega
  | none =>
    refine ⟨_, _, bind_of_ok (appendEntry_eq hlength hroom (toDictionaryEntry value)) _, ?_, ?_,
      le_refl _, ?_⟩
    · change 8 * n % 2 ^ 8 + (Nat.clog 2 defaultMaxNumBases + D) % 2 ^ 8 + _
        = 1 + D + 8 * n * (s.numEntries + 1)
      rw [Nat.mul_succ]
      omega
    · rw [length_set, hlength]
    · rw [← hlength] at hroom
      rw [take_add_one, take_set_of_le (le_refl _), getElem?_set_self hroom]
      rfl

/-- The words of a line are compressed from a dictionary with room for them. -/
theorem exists_compressLoop (chunks : List (BitVec 64)) (compData : CompData n)
    (hlength : s.dictionary.length = cacheLineSize)
    (hroom : s.numEntries + chunks.length ≤ cacheLineSize) :
  ∃ compData' t, (compressor n D cacheLineSize).compressLoop chunks compData s = .ok compData' t
    ∧ compData'.sizeBits + 8 * n * s.numEntries
      = compData.sizeBits + chunks.length * (1 + D) + 8 * n * t.numEntries
    ∧ t.numEntries ≤ t.dictionary.length
    ∧ t.dictionary.take t.numEntries
      = (chunks.map fun chunk => toDictionaryEntry (chunk.setWidth (8 * n))).foldl (addBase D)
        (s.dictionary.take s.numEntries)
  := by
  induction chunks generalizing compData s with
  | nil =>
    refine ⟨compData, s, rfl, ?_, ?_, rfl⟩
    · rw [length_nil, Nat.zero_mul, Nat.add_zero]
    · rw [hlength]
      apply hroom
  | cons chunk chunks ih =>
    rw [length_cons] at hroom
    obtain ⟨p, t, hvalue, hsize, ht, hle, hbases⟩ := exists_compressValue hpos hn hD
      (chunk.setWidth (8 * n)) hlength (by omega)
    obtain ⟨compData', u, hloop, hsizes, hu, hbases'⟩ := ih (compData.addEntry p) ht (by omega)
    rw [hbases] at hbases'
    refine ⟨compData', u, ?_, ?_, hu, hbases'⟩
    · rw [compressLoop, bind_of_ok hvalue]
      apply hloop
    · dsimp only [CompData.addEntry] at hsizes
      rw [length_cons, Nat.succ_mul chunks.length]
      omega

end

/-! ### Deltas -/

/-- A number that fits in some bits is the sign extension of them. -/
theorem signExtend_setWidth {w : ℕ} (hD : D ≤ w) {x : BitVec w}
    (hfits : x.toInt.bmod (2 ^ D) = x.toInt) :
  (x.setWidth D).signExtend w = x
  := by
  apply BitVec.eq_of_toInt_eq
  rw [BitVec.toInt_signExtend_of_le hD, BitVec.toInt_setWidth,
    ← Int.bmod_bmod_of_dvd (Nat.pow_dvd_pow 2 hD), ← BitVec.toInt_eq_toNat_bmod, hfits]

/-- The limit of a delta is a positive number. -/
theorem toInt_limit (hn : n ≤ 8) (hD : D + 1 ≤ 8 * n) :
  ((mask D).setWidth (8 * n)).toInt = ((2 ^ D - 1 : ℕ) : ℤ)
  := by
  have hle : 2 ^ (D + 1) ≤ 2 ^ (8 * n) := Nat.pow_le_pow_right (by decide) hD
  have hpos := Nat.two_pow_pos D
  have hnat : ((mask D).setWidth (8 * n)).toNat = 2 ^ D - 1 := by
    rw [BitVec.toNat_setWidth, mask_toNat (by omega), Nat.mod_eq_of_lt (by omega)]
  rw [BitVec.toInt_eq_toNat_of_lt (by omega), hnat]

/-- A delta and its base give back the value. -/
theorem add_signExtend {value base : BitVec (8 * n)} (hn : n ≤ 8) (hD : D ≤ 8 * n)
    (h : isValidDelta D (toDictionaryEntry value) (toDictionaryEntry base) = true) :
  base + ((value - base).setWidth D).signExtend (8 * n) = value
  := by
  simp only [isValidDelta, fromDictionaryEntry_toDictionaryEntry, Bool.and_eq_true,
    decide_eq_true_eq] at h
  rw [signExtend_setWidth hD, BitVec.add_comm, BitVec.sub_add_cancel]
  cases D with
  | zero =>
    rw [if_neg (not_not.mpr rfl)] at h
    have hlimit : (0 : BitVec (8 * n)).toInt = 0 := BitVec.toInt_zero
    have hzero : (value - base).toInt = 0 := by omega
    rw [hzero]
    rfl
  | succ D =>
    rw [if_pos (Nat.succ_ne_zero D), Nat.add_sub_cancel, toInt_limit hn hD] at h
    have hpos := Nat.two_pow_pos D
    have hpow : ((2 ^ (D + 1) : ℕ) : ℤ) = 2 * (2 ^ D : ℕ) := by
      rw [Nat.pow_succ']
      rfl
    apply Int.bmod_eq_of_le
    · rw [hpow]
      omega
    · rw [hpow]
      omega

/-- If at most one base is needed in addition to zero, the size of a line is that of its deltas and
one base, and otherwise that of a line. A word that matches a base is given back by its delta. -/
theorem size_and_delta (hn : 2 ≤ n) (hn' : n ≤ 8) (hD : D ≤ 8 * n) (hpos : 0 < cacheLineSize)
    (data : ℕ → BitVec 64) {s : DictionaryState n} (hs : s.dictionary.length = cacheLineSize) :
  (∃ compData t, ((compressor n D cacheLineSize).compressChunks
        ((compressor n D cacheLineSize).params.toChunks data)
      >>= (compressor n D cacheLineSize).adjust) s = .ok compData t
    ∧ compData.sizeBits
      = if oneBase D (((compressor n D cacheLineSize).wordsOf data).map toDictionaryEntry)
        then ((compressor n D cacheLineSize).wordsOf data).length * (1 + D) + 8 * n
        else cacheLineSize * 8)
  ∧ ∀ (value base : BitVec (8 * n)) (matchLocation : ℤ),
    (patternM D).isPattern (toDictionaryEntry value) (toDictionaryEntry base) matchLocation = true →
    base + ((value - base).setWidth D).signExtend (8 * n) = value
  := by
  constructor
  · have hreset : (compressor n D cacheLineSize).resetDictionary s = _ :=
      resetDictionary_zero hpos hs
    have hroom : 1 + ((compressor n D cacheLineSize).params.toChunks data).length
        ≤ cacheLineSize := by
      have hlt := Nat.div_lt_self hpos hn
      rw [← words_eq] at hlt
      rw [CompressorParams.length_toChunks, Nat.add_comm]
      exact hlt
    obtain ⟨compData, t, hloop, hsize, ht, hbases⟩ := exists_compressLoop
      (s := ⟨(emptyDictionary n _).1, 1⟩) (by omega) hn' hD
      ((compressor n D cacheLineSize).params.toChunks data) {} length_replicate hroom
    have hzero : (emptyDictionary n cacheLineSize).1.take 1 = [toDictionaryEntry 0#_] := by
      obtain ⟨k, rfl⟩ := Nat.exists_eq_add_of_lt hpos
      rfl
    have hcount := congrArg List.length hbases
    rw [length_take, Nat.min_eq_left ht, hzero] at hcount
    have hone := length_le_foldl_addBase (D := D) (((compressor n D cacheLineSize).params.toChunks
      data).map fun chunk => toDictionaryEntry (chunk.setWidth (8 * n))) [toDictionaryEntry 0#_]
    rw [← hcount, length_singleton] at hone
    have htwo : t.numEntries ≤ defaultMaxNumBases
        ↔ oneBase D (((compressor n D cacheLineSize).wordsOf data).map toDictionaryEntry) := by
      rw [hcount, defaultMaxNumBases, foldl_addBase_length_le_two_iff, wordsOf, map_map]
      rfl
    rw [compressChunks, bind_assoc, bind_of_ok hreset, bind_of_ok hloop]
    change ∃ compData' u, adjust cacheLineSize compData t = .ok compData' u ∧ _
    rw [adjust, get_bind_apply]
    by_cases hfew : t.numEntries ≤ defaultMaxNumBases
    · rw [if_neg (Nat.not_lt.mpr hfew), if_pos (htwo.mp hfew), wordsOf, length_map]
      refine ⟨_, t, rfl, ?_⟩
      dsimp only [defaultMaxNumBases] at hfew hsize ⊢
      obtain heq | heq : t.numEntries = 1 ∨ t.numEntries = 2 := by omega
      · rw [heq] at hsize ⊢
        omega
      · rw [heq] at hsize ⊢
        omega
    · rw [if_pos (Nat.not_le.mp hfew), if_neg (mt htwo.mpr hfew)]
      exact ⟨_, t, rfl, rfl⟩
  · intro value base matchLocation h
    exact add_signExtend hn' hD (Bool.and_eq_true_iff.mp h).2

/-- The words of a line are all 5, or 0, 1000, 2000 and so on. -/
theorem size_and_delta_lines :
  (∃ compData t, ((compressor 8 8 64).compressChunks
        ((compressor 8 8 64).params.toChunks fun _ => 5) >>= (compressor 8 8 64).adjust)
      (emptyDictionary 8 64) = .ok compData t ∧ compData.sizeBits = 8 * (1 + 8) + 8 * 8)
  ∧ (∃ compData t, ((compressor 8 8 64).compressChunks
        ((compressor 8 8 64).params.toChunks fun i => 1000 * BitVec.ofNat 64 i)
          >>= (compressor 8 8 64).adjust)
      (emptyDictionary 8 64) = .ok compData t ∧ compData.sizeBits = 64 * 8)
  ∧ (1000 : BitVec (8 * 8)) + ((999 - 1000 : BitVec (8 * 8)).setWidth 8).signExtend (8 * 8) = 999
  := by
  have h := size_and_delta (n := 8) (D := 8) (by decide) (by decide) (by decide)
    (by decide : 0 < 64) (s := emptyDictionary 8 64)
  obtain ⟨⟨compData, t, hok, hsize⟩, hdelta⟩ := h (fun _ => 5) length_replicate
  obtain ⟨⟨compData', t', hok', hsize'⟩, -⟩ := h (1000 * BitVec.ofNat 64 ·) length_replicate
  exact ⟨⟨compData, t, hok, hsize.trans (if_pos (by decide))⟩,
    ⟨compData', t', hok', hsize'.trans (if_neg (by decide))⟩, hdelta 999 1000 0 rfl⟩

end BaseDelta

end Gem5Arc
