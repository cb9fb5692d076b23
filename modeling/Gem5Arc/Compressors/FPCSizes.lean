import Gem5Arc.Compressors.DictionaryBounds

/-!
# The sizes of FPC

FPC takes the first pattern that matches a word. This is the smallest one whose condition the word
satisfies, except for words of two halfwords that are sign-extended bytes if one of these is
negative: the test compares a signed with an unsigned halfword (`smallest_iff`).

A run of zero words is counted in its first pattern, and again for each further group that its
length field can hold (`compressChunks_size`).
-/

namespace Gem5Arc.FPC

open BitVec DictionaryCompressor DictionaryM Lib List PatternNumber

variable {b k : ℕ} {entries : List (Pattern 4)}

/-- A word of a line. -/
abbrev Word : Type := BitVec (8 * 4)

def pattern (word : Word) : Pattern 4 :=
  Factory.getPattern uncompressed (toDictionaryEntry word) (toDictionaryEntry 0#_) (-1)
    patternFactory

/-! ### The smallest pattern -/

deriving instance DecidableEq for PatternNumber

def patternClass : PatternNumber → PatternClass 4
  | ZERO_RUN => zeroRun
  | SIGN_EXTENDED_4_BITS => signExtended4Bits
  | SIGN_EXTENDED_1_BYTE => signExtended1Byte
  | SIGN_EXTENDED_HALFWORD => signExtendedHalfword
  | ZERO_PADDED_HALFWORD => zeroPaddedHalfword
  | SIGN_EXTENDED_TWO_HALFWORDS => signExtendedTwoHalfwords
  | REP_BYTES => repBytes
  | UNCOMPRESSED => uncompressed

/-- A word is the sign extension of its low bits. -/
def signExtends (N : ℕ) {w : ℕ} (word : BitVec w) : Bool := word = (word.setWidth N).signExtend w

/-- What a pattern stands for. -/
def condition (word : Word) : PatternNumber → Bool
  | ZERO_RUN => word = 0
  | SIGN_EXTENDED_4_BITS => signExtends 4 word
  | SIGN_EXTENDED_1_BYTE => signExtends 8 word
  | SIGN_EXTENDED_HALFWORD => signExtends 16 word
  | ZERO_PADDED_HALFWORD => word.setWidth 16 = 0
  | SIGN_EXTENDED_TWO_HALFWORDS =>
      signExtends 8 (word.setWidth 16) && signExtends 8 ((word >>> 16).setWidth 16)
  | REP_BYTES => (range 4).all fun i => (word >>> (8 * i)).setWidth 8 = word.setWidth 8
  | UNCOMPRESSED => true

/-- A halfword is negative. -/
def negative (word : Word) : Bool := (word.setWidth 16).msb || ((word >>> 16).setWidth 16).msb

/-- What is tested for a pattern. -/
def tested (word : Word) : PatternNumber → Bool
  | SIGN_EXTENDED_TWO_HALFWORDS => condition word SIGN_EXTENDED_TWO_HALFWORDS && !negative word
  | number => condition word number

theorem setWidth_szext {w N : ℕ} (hpos : 0 < N) (hw : w ≤ 64) (hN : N ≤ w) {word : BitVec w}
    {word' : Addr} (hlow : ∀ i < N, word'.getLsbD i = word.getLsbD i) :
  (szext N word').setWidth w = (word.setWidth N).signExtend w
  := by
  apply eq_of_getLsbD_eq
  intro i hi
  rw [getLsbD_setWidth, getLsbD_szext _ _ (by omega), getLsbD_signExtend, msb_eq_getLsbD_last,
    getLsbD_setWidth, getLsbD_setWidth]
  split_ifs with hiN
  · simp [hi, hiN, hlow]
  · simp [hi, hlow, hpos]

theorem isExtendedByte_eq (halfword : BitVec 16) :
  isExtendedByte halfword = (signExtends 8 halfword && !halfword.msb)
  := by
  have hext : (szext 8 (halfword.signExtend 64)).setWidth 16
      = (halfword.setWidth 8).signExtend 16 := by
    apply setWidth_szext (by decide) (by decide) (by decide)
    intro i hi
    rw [getLsbD_signExtend, if_pos (by omega), decide_eq_true (by omega), Bool.true_and]
  rw [isExtendedByte, hext, signExtends, Bool.eq_iff_iff]
  cases hmsb : halfword.msb with
  | false =>
    rw [signExtend_eq_setWidth_of_msb_false hmsb]
    simp only [decide_eq_true_eq, Bool.not_false, Bool.and_true]
    constructor
    · intro h
      have hlow := congrArg (setWidth 16) h
      rwa [setWidth_setWidth_of_le _ (by decide), setWidth_eq,
        setWidth_setWidth_of_le _ (by decide), setWidth_eq] at hlow
    · intro h
      rw [← h]
  | true =>
    simp only [decide_eq_true_eq, Bool.not_true, Bool.and_false, Bool.false_eq_true, iff_false]
    intro h
    have hsign := congrArg (getLsbD · 31) h
    simp only [getLsbD_signExtend, getLsbD_setWidth, hmsb] at hsign
    simp at hsign

theorem signExtendedPattern_isPattern {N : ℕ} (hpos : 0 < N) (hN : N ≤ 32) (number : ℕ)
    (word : Word) (dictBytes : DictionaryEntry 4) (matchLocation : ℤ) :
  (signExtendedPattern number number 3 N false).isPattern (toDictionaryEntry word) dictBytes
    matchLocation = signExtends N word
  := by
  rw [signExtendedPattern, signExtends]
  dsimp only
  rw [fromDictionaryEntry_toDictionaryEntry]
  have hlow : ∀ i < N, (word.setWidth 64).getLsbD i = word.getLsbD i := by
    intro i hi
    rw [getLsbD_setWidth, decide_eq_true (by omega), Bool.true_and]
  apply Bool.decide_congr
  rw [setWidth_szext hpos (by decide) hN hlow]

theorem zero_and_eq_iff (hk : k ≤ 32) (word : Word) :
  0 &&& BitVec.ofNat _ (2 ^ k - 1) = word &&& BitVec.ofNat _ (2 ^ k - 1) ↔ word.setWidth k = 0
  := by
  have hlt : 2 ^ k - 1 < 2 ^ (8 * 4) := by
    have := Nat.pow_le_pow_right (by decide : 0 < 2) hk
    have := Nat.two_pow_pos k
    omega
  change 0#_ &&& _ = _ ↔ _
  rw [zero_and, eq_comm, toNat_eq, toNat_and, toNat_ofNat, Nat.mod_eq_of_lt hlt,
    Nat.and_two_pow_sub_one_eq_mod, toNat_eq, toNat_setWidth]
  rfl

theorem isPattern_eq (word : Word) (number : PatternNumber) (dictBytes : DictionaryEntry 4)
    (matchLocation : ℤ) :
  (patternClass number).isPattern (toDictionaryEntry word) dictBytes matchLocation
    = tested word number
  := by
  cases number with
  | ZERO_RUN =>
    simp only [patternClass, zeroRun, PatternClass.unlocated, maskedValuePattern, tested,
      condition, fromDictionaryEntry_toDictionaryEntry]
    apply Bool.decide_congr
    exact (zero_and_eq_iff le_rfl word).trans (by rw [setWidth_eq])
  | SIGN_EXTENDED_4_BITS | SIGN_EXTENDED_1_BYTE | SIGN_EXTENDED_HALFWORD =>
    exact signExtendedPattern_isPattern (by decide) (by decide) _ _ _ _
  | ZERO_PADDED_HALFWORD =>
    simp only [patternClass, zeroPaddedHalfword, PatternClass.unlocated, maskedValuePattern,
      tested, condition, fromDictionaryEntry_toDictionaryEntry]
    apply Bool.decide_congr
    exact zero_and_eq_iff (k := 16) (by decide) word
  | SIGN_EXTENDED_TWO_HALFWORDS =>
    simp only [patternClass, signExtendedTwoHalfwords, Gem5Arc.signExtendedTwoHalfwords, tested,
      condition, fromDictionaryEntry_toDictionaryEntry, isExtendedByte_eq, negative, Bool.not_or]
    rw [Bool.and_assoc, Bool.and_assoc, Bool.and_left_comm (!_)]
  | REP_BYTES =>
    simp only [patternClass, repBytes, PatternClass.unlocated, repeatedValuePattern, tested,
      condition, fromDictionaryEntry_toDictionaryEntry]
    rfl
  | UNCOMPRESSED => rfl

/-- The size of a pattern that is not in a zero run. -/
def sizeOf : PatternNumber → ℕ
  | ZERO_RUN => 0
  | SIGN_EXTENDED_4_BITS => 7
  | SIGN_EXTENDED_1_BYTE => 11
  | SIGN_EXTENDED_HALFWORD => 19
  | ZERO_PADDED_HALFWORD => 19
  | SIGN_EXTENDED_TWO_HALFWORDS => 19
  | REP_BYTES => 11
  | UNCOMPRESSED => 35

theorem getSizeBits_new (number : PatternNumber) (bytes : DictionaryEntry 4) (matchLocation : ℤ) :
  ((patternClass number).new bytes matchLocation).getSizeBits = sizeOf number
  := by
  cases number with
  | ZERO_PADDED_HALFWORD => exact (by decide : popCount (~~~(0x0000FFFF : Word)) % 2 ^ 8 + 3 = 19)
  | _ => rfl

/-- The patterns in the order of the factory, without the last one. -/
def numbers : List PatternNumber :=
  [ZERO_RUN, SIGN_EXTENDED_4_BITS, SIGN_EXTENDED_1_BYTE, SIGN_EXTENDED_HALFWORD,
    ZERO_PADDED_HALFWORD, SIGN_EXTENDED_TWO_HALFWORDS, REP_BYTES]

instance : Fintype PatternNumber where
  elems := (UNCOMPRESSED :: numbers).toFinset
  complete number := by
    cases number with
    | _ => decide

def firstTested (word : Word) : PatternNumber := (numbers.find? (tested word)).getD UNCOMPRESSED

theorem pattern_eq (word : Word) :
  pattern word = (patternClass (firstTested word)).new (toDictionaryEntry word) (-1)
  := by
  have hfactory : patternFactory = numbers.map patternClass := rfl
  rw [pattern, hfactory, firstTested]
  induction numbers with
  | nil => rfl
  | cons number numbers ih =>
    rw [map_cons, Factory.getPattern, isPattern_eq, find?_cons]
    cases tested word number with
    | true => rfl
    | false => exact ih

theorem condition_firstTested (word : Word) :
  condition word (firstTested word) = true
  := by
  rw [firstTested]
  cases hfind : numbers.find? (tested word) with
  | none => rfl
  | some number =>
    have htested := find?_some hfind
    cases number with
    | SIGN_EXTENDED_TWO_HALFWORDS => exact (Bool.and_eq_true_iff.mp htested).1
    | _ => exact htested

variable {word : Word}

/-- Words of four equal bytes that satisfy the condition of a longer pattern are small numbers. -/
theorem condition_of_repBytes (h : condition word REP_BYTES = true)
    (hlonger : (condition word SIGN_EXTENDED_HALFWORD || condition word ZERO_PADDED_HALFWORD
      || condition word SIGN_EXTENDED_TWO_HALFWORDS) = true) :
  condition word SIGN_EXTENDED_4_BITS = true
  := by
  have hbytes : ∀ b : BitVec 8,
      (condition (b.setWidth _ * 0x01010101) SIGN_EXTENDED_HALFWORD
        || condition (b.setWidth _ * 0x01010101) ZERO_PADDED_HALFWORD
        || condition (b.setWidth _ * 0x01010101) SIGN_EXTENDED_TWO_HALFWORDS) = true
      → condition (b.setWidth _ * 0x01010101) SIGN_EXTENDED_4_BITS = true := by
    decide
  have hword : word = (word.setWidth 8).setWidth _ * 0x01010101 := by
    have hlt := word.isLt
    simp only [condition, range_succ, range_zero, nil_append, all_append, all_cons, all_nil,
      Bool.and_true, Bool.and_eq_true, decide_eq_true_eq, toNat_eq, toNat_setWidth,
      toNat_ushiftRight, Nat.shiftRight_eq_div_pow] at h
    apply eq_of_toNat_eq
    rw [toNat_mul, toNat_setWidth, toNat_setWidth,
      Nat.mod_eq_of_lt (by omega : word.toNat % 2 ^ 8 < 2 ^ (8 * 4))]
    change _ = word.toNat % 2 ^ 8 * 0x01010101 % 2 ^ 32
    have hsecond : word.toNat / 2 ^ (8 * 2) = word.toNat / 2 ^ (8 * 1) / 2 ^ 8 := by omega
    have hthird : word.toNat / 2 ^ (8 * 3) = word.toNat / 2 ^ (8 * 2) / 2 ^ 8 := by omega
    have hequal : word.toNat = word.toNat % 2 ^ 8 * 0x01010101 := by omega
    omega
  rw [hword] at hlonger ⊢
  exact hbytes _ hlonger

/-- The word satisfies the condition of its pattern. And it is the smallest such pattern, unless the
first condition is that of two halfwords and one of these is negative. -/
theorem smallest_iff (word : Word) :
  (∃ number, condition word number = true
      ∧ pattern word = (patternClass number).new (toDictionaryEntry word) (-1))
    ∧ ((∀ number, condition word number = true → (pattern word).getSizeBits
        ≤ ((patternClass number).new (toDictionaryEntry word) (-1)).getSizeBits)
      ↔ ¬ (numbers.find? (condition word) = some SIGN_EXTENDED_TWO_HALFWORDS
        ∧ negative word = true))
  := by
  refine ⟨⟨firstTested word, condition_firstTested word, pattern_eq word⟩, ?_⟩
  have hrep := @condition_of_repBytes word
  simp only [pattern_eq, getSizeBits_new, firstTested, numbers, find?_cons, find?_nil, tested]
  generalize condition word = c at hrep ⊢
  generalize negative word = sign
  revert c sign
  decide +kernel

/-- Both halfwords are negative bytes. -/
theorem negative_halfwords_uncompressed :
  condition 0xFF80FF80 SIGN_EXTENDED_TWO_HALFWORDS = true
    ∧ (signExtendedTwoHalfwords.new (toDictionaryEntry 0xFF80FF80) (-1)).getSizeBits = 19
    ∧ (pattern 0xFF80FF80).getSizeBits = 35
  := by
  exact ⟨rfl, rfl, rfl⟩

/-! ### Zero runs -/

theorem pattern_zero :
  pattern 0 = zeroRun.new (toDictionaryEntry 0) (-1)
  := rfl

theorem pattern_patternNumber (hword : word ≠ 0) :
  (pattern word).patternNumber ≠ ZERO_RUN.ctorIdx
  := by
  rw [pattern_eq, firstTested]
  cases hfind : numbers.find? (tested word) with
  | none => nofun
  | some number =>
    cases number with
    | ZERO_RUN =>
      have hzero := find?_some hfind
      exact absurd (of_decide_eq_true hzero) hword
    | _ => nofun

/-- The size of a run of zero words. -/
def runSize (b length : ℕ) : ℕ := (length + 2 ^ b - 1) / 2 ^ b * (3 + b)

theorem runSize_zero :
  runSize b 0 = 0
  := by
  have hpos := Nat.two_pow_pos b
  rw [runSize, Nat.div_eq_of_lt (by omega), Nat.zero_mul]

theorem runSize_succ (length : ℕ) :
  runSize b (length + 1) = runSize b length + if length % 2 ^ b = 0 then 3 + b else 0
  := by
  have hpos := Nat.two_pow_pos b
  have hsucc : length + 1 + 2 ^ b - 1 = length + 2 ^ b - 1 + 1 := by omega
  have hdvd : 2 ^ b ∣ length + 2 ^ b - 1 + 1 ↔ length % 2 ^ b = 0 := by
    rw [Nat.sub_add_cancel (by omega), Nat.dvd_add_self_right, Nat.dvd_iff_mod_eq_zero]
  rw [runSize, runSize, hsucc, Nat.succ_div]
  simp only [hdvd]
  split_ifs
  · rw [Nat.succ_mul]
  · rw [Nat.add_zero, Nat.add_zero]

/-- After `k` zero words, another one starts a group or makes the last one longer. -/
def EndsWith (b k : ℕ) (entries : List (Pattern 4)) : Prop :=
  extendZeroRun b entries (pattern 0)
    = if k % 2 ^ b = 0 then setRealSize b (pattern 0) else setRunLength (k % 2 ^ b) (pattern 0)

theorem succ_mod {G : ℕ} (hG : 0 < G) (m : ℕ) :
  (m + 1) % G = if m % G = G - 1 then 0 else m % G + 1
  := by
  have hlt := Nat.mod_lt m hG
  rw [← Nat.mod_add_mod]
  split_ifs with hlast
  · rw [hlast, Nat.sub_add_cancel hG, Nat.mod_self]
  · exact Nat.mod_eq_of_lt (by omega)

/-- A group is full when its length is the mask. -/
theorem mod_eq_mask_iff {m : ℕ} (hm : m + 1 < 2 ^ 64) :
  m % 2 ^ b = (mask b).toNat ↔ m % 2 ^ b = 2 ^ b - 1
  := by
  rcases Nat.lt_or_ge b 64 with hbits | hbits
  · rw [mask_toNat hbits]
  · have hle : 2 ^ 64 ≤ 2 ^ b := Nat.pow_le_pow_right (by decide) hbits
    rw [mask, if_pos hbits, Nat.mod_eq_of_lt (by omega)]
    change m = 2 ^ 64 - 1 ↔ _
    omega

theorem EndsWith.zero (h : EndsWith b k entries) (hk : k + 1 < 2 ^ 64) :
  (extendZeroRun b entries (pattern 0)).getSizeBits = (if k % 2 ^ b = 0 then 3 + b else 0)
    ∧ EndsWith b (k + 1) (entries ++ [extendZeroRun b entries (pattern 0)])
  := by
  have hends (back : Pattern 4) (hnumber : back.patternNumber = ZERO_RUN.ctorIdx)
      (hrun : getRunLength back = k % 2 ^ b) : EndsWith b (k + 1) (entries ++ [back]) := by
    have hzero : (pattern 0).patternNumber = ZERO_RUN.ctorIdx := rfl
    rw [EndsWith, extendZeroRun, if_pos hzero, getLast?_concat, succ_mod (Nat.two_pow_pos _)]
    dsimp only
    rw [if_neg (not_not.mpr hnumber), hrun]
    simp only [mod_eq_mask_iff hk]
    by_cases hfull : k % 2 ^ b = 2 ^ b - 1
    · rw [if_pos hfull, if_pos hfull, if_pos rfl]
    · rw [if_neg hfull, if_neg hfull, if_neg (Nat.succ_ne_zero _)]
  rw [h, pattern_zero]
  split_ifs with hstart
  · exact ⟨rfl, hends _ rfl hstart.symm⟩
  · exact ⟨rfl, hends _ rfl rfl⟩

/-- The pattern of another word is not changed. -/
theorem EndsWith.nonzero (hword : word ≠ 0) (entries : List (Pattern 4)) :
  extendZeroRun b entries (pattern word) = pattern word
    ∧ EndsWith b 0 (entries ++ [pattern word])
  := by
  have hnumber := pattern_patternNumber hword
  refine ⟨if_neg hnumber, ?_⟩
  rw [EndsWith, extendZeroRun, getLast?_concat, Nat.zero_mod]
  exact if_pos hnumber

def wordSize (word : Word) : ℕ := if word = 0 then 0 else (pattern word).getSizeBits

/-- The patterns of a line are added after a run of `k` zero words. -/
theorem foldl_addEntry_size {words : List Word} {c : CompData 4} (h : EndsWith b k c.entries)
    (hk : k + words.length < 2 ^ 64) {run : List Word} {runs : List (List Word)}
    (hruns : words.splitOnP (· ≠ 0) = run :: runs) :
  ((words.map pattern).foldl (addEntry b) c).sizeBits + runSize b k
    = c.sizeBits + runSize b (k + run.length)
      + (runs.map fun run => runSize b run.length).sum + (words.map wordSize).sum
  := by
  induction words generalizing k c run runs with
  | nil =>
    cases hruns
    rfl
  | cons word words ih =>
    rw [splitOnP_cons_eq_if_modifyHead] at hruns
    rw [length_cons] at hk
    obtain ⟨run', runs', hsplit⟩ := exists_cons_of_ne_nil
      (splitOnP_ne_nil (fun word : Word => decide (word ≠ 0)) words)
    rw [hsplit] at hruns
    rw [map_cons, foldl_cons, addEntry, map_cons, sum_cons, wordSize]
    by_cases hword : word = 0
    · subst hword
      cases hruns
      obtain ⟨hsize, hends⟩ := h.zero (by omega)
      have hrest := ih (c := c.addEntry (extendZeroRun b c.entries (pattern 0))) hends (by omega)
        hsplit
      rw [runSize_succ, Nat.add_right_comm k] at hrest
      rw [if_pos rfl, length_cons, ← Nat.add_assoc k]
      dsimp only [CompData.addEntry] at hrest ⊢
      omega
    · rw [if_pos (decide_eq_true hword)] at hruns
      cases hruns
      obtain ⟨hsame, hends⟩ := EndsWith.nonzero hword c.entries
      have hrest := ih (c := c.addEntry (pattern word)) hends (by omega) hsplit
      rw [runSize_zero, Nat.zero_add] at hrest
      rw [hsame, if_neg hword, map_cons, sum_cons, length_nil, Nat.add_zero]
      dsimp only [CompData.addEntry] at hrest ⊢
      omega

/-- FPC compresses each word by itself. -/
theorem compressLoop_eq_ok (cacheLineSize : ℕ) (chunks : List (BitVec 64)) (compData : CompData 4) :
  (compressor b cacheLineSize).compressLoop chunks compData (emptyDictionary 4 1)
    = .ok (((chunks.map (BitVec.setWidth (8 * 4))).map pattern).foldl (addEntry b) compData)
      (emptyDictionary 4 1)
  := by
  induction chunks generalizing compData with
  | nil => rfl
  | cons chunk chunks ih =>
    have hvalue : (compressor b cacheLineSize).compressValue (chunk.setWidth (8 * 4))
        (emptyDictionary 4 1) = .ok (pattern (chunk.setWidth (8 * 4))) (emptyDictionary 4 1) := by
      rw [compressValue, get_bind_apply, choosePattern_emptyDictionary, allocate]
      split_ifs
      · rfl
      · rfl
    rw [compressLoop, bind_of_ok hvalue, ih]
    rfl

/-- The size of a line is that of its maximal runs of zero words and of its other words. -/
theorem compressChunks_size (b cacheLineSize : ℕ) (chunks : List (BitVec 64))
    (hlength : chunks.length < 2 ^ 64) {s : DictionaryState 4} (hs : s.dictionary.length = 1) :
  ∃ compData t, (compressor b cacheLineSize).compressChunks chunks s = .ok compData t
    ∧ compData.sizeBits
      = (((chunks.map (BitVec.setWidth (8 * 4))).splitOnP (· ≠ 0)).map fun run =>
          runSize b run.length).sum
        + ((chunks.map (BitVec.setWidth (8 * 4))).map wordSize).sum
  := by
  refine ⟨_, _, (bind_of_ok (resetDictionary_eq hs) _).trans (compressLoop_eq_ok ..), ?_⟩
  obtain ⟨run, runs, hsplit⟩ := exists_cons_of_ne_nil
    (splitOnP_ne_nil (fun word : Word => decide (word ≠ 0)) (chunks.map (setWidth (8 * 4))))
  have hempty : EndsWith b 0 [] := by
    rw [EndsWith, Nat.zero_mod]
    rfl
  have hsize := foldl_addEntry_size (c := {}) hempty (by rwa [length_map, Nat.zero_add]) hsplit
  rw [hsplit, map_cons, sum_cons]
  rw [runSize_zero, Nat.zero_add, Nat.zero_add] at hsize
  exact hsize

/-- Five zero words in groups of four, a word of seven bits, and another zero word. -/
theorem compressChunks_size_seven :
  ∃ compData t, (compressor 2 64).compressChunks [0, 0, 0, 0, 0, 7, 0] (emptyDictionary 4 1)
      = .ok compData t
    ∧ compData.sizeBits = 2 * 5 + 7 + 5
  := by
  obtain ⟨compData, t, hok, hsize⟩ := compressChunks_size 2 64 [0, 0, 0, 0, 0, 7, 0]
    (by decide) (s := emptyDictionary 4 1) rfl
  exact ⟨compData, t, hok, hsize.trans (by rfl)⟩

end Gem5Arc.FPC
