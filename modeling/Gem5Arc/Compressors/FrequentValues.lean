import Gem5Arc.Base.Bits
import Gem5Arc.Compressors.Huffman

/-!
# The frequent values compressor

The compressor of `mem/cache/compressors/frequent_values.cc`. A table, the VFT, counts how often
values occur. When enough values have been sampled, codes are generated for the values of the table,
and one for a pseudo value that stands for all others. It is sampled with the highest frequency
there is, so that it is merged last into the tree (`EscapeLast`) and its code has at most one bit.

The table is the list of its entries, any of which can be invalid. An entry is found by its value.
How the table chooses victims, the sampling and the events between the phases are left out.

Both the constructor of the table and the loop that searches the pseudo value count with an `int`.
The loop takes one turn more. So codes are generated for all tables but the largest
(`supports_iff`).
-/

namespace Gem5Arc

open Huffman Lib List Node

/-- An entry of the VFT. -/
structure VFTEntry where
  valid : Bool := false
  value : BitVec 64 := 0
  counter : BitVec 32 := 0

/-- The phases of the compressor. -/
inductive FrequentValues.Phase where
  | SAMPLING | CODE_GENERATION | COMPRESSING
deriving DecidableEq

/-- The compressor. -/
structure FrequentValues where
  chunkSizeBits : ℕ
  useHuffmanEncoding : Bool
  indexEncoder : Huffman
  counterBits : ℕ
  numVFTEntries : BitVec 32
  phase : FrequentValues.Phase
  VFT : List VFTEntry
  uncompressedValue : BitVec 64 := 0

namespace FrequentValues

open Phase

/-- The constructor of the table. Entries are counted with an `int`. -/
def makeTable (numEntries associativity : BitVec 64) : Except Fault (List VFTEntry) :=
  if associativity = 0 then .error .divisionByZero
  else do
    fatalIf (numEntries % associativity ≠ 0)
      "The number of entries of an AssociativeCache<> must be a multiple of its associativity"
    if numEntries.toNat < 2 ^ 31 then pure (List.replicate numEntries.toNat {})
    else .error .overflow

/-- The constructor. The number of entries is kept in 32 bits. -/
def make (chunkSizeBits : ℕ) (maxCodeLength : BitVec 32) (counterBits : ℕ)
    (vftEntries vftAssoc : BitVec 64) : Except Fault FrequentValues := do
  let indexEncoder ← Huffman.make (maxCodeLength.setWidth 64)
  let numVFTEntries := vftEntries.setWidth 32
  let table ← makeTable vftEntries vftAssoc
  fatalIf ((numVFTEntries - 1).toNat > (mask chunkSizeBits).toNat)
    "There are more VFT entries than possible values."
  pure
    { chunkSizeBits := chunkSizeBits
      useHuffmanEncoding := maxCodeLength ≠ 0
      indexEncoder := indexEncoder
      counterBits := counterBits
      numVFTEntries := numVFTEntries
      phase := SAMPLING
      VFT := table }

def findEntry (value : BitVec 64) (f : FrequentValues) : Option VFTEntry :=
  f.VFT.find? fun entry => entry.valid && entry.value == value

/-! ### Code generation -/

/-- `++i` for an `int` that is not negative. -/
def increment (i : ℕ) : Except Fault ℕ :=
  if i < 2 ^ 31 - 1 then .ok (i + 1) else .error .overflow

/-- The values from 0 on, in the order of the set. -/
def pseudoValues (bound : ℕ) : Except Fault (List (BitVec 64)) :=
  (List.range bound).foldlM
    (fun values i => do
      let values := values ++ [BitVec.ofNat 64 i]
      let _ ← increment i
      pure values)
    []

/-- Sample the entries of the VFT, and the pseudo value with the highest frequency. -/
def sampleEntries (H : HeapOps Node.comparator) (f : FrequentValues) : Huffman :=
  let indexEncoder := f.VFT.foldl
    (fun h entry => h.sample H entry.value (entry.counter.setWidth 64)) f.indexEncoder
  indexEncoder.sample H f.uncompressedValue (BitVec.allOnes 64)

/-- End the sampling phase and start the code generation. -/
def generateCodes (H : HeapOps Node.comparator) (f : FrequentValues) :
    Except Fault FrequentValues := do
  let uncompressedValues ← pseudoValues (f.numVFTEntries + 1).toNat
  let uncompressedValues := f.VFT.foldl
    (fun values entry => values.filter fun value => value ≠ entry.value) uncompressedValues
  match uncompressedValues with
  | [] => .error .assertion
  | uncompressedValue :: _ =>
    let f := { f with uncompressedValue := uncompressedValue }
    assert (f.findEntry uncompressedValue).isNone
    if f.useHuffmanEncoding then do
      let indexEncoder ← (f.sampleEntries H).generateCodeMaps H
      pure { f with indexEncoder := indexEncoder, phase := CODE_GENERATION }
    else pure { f with phase := CODE_GENERATION }

/-! ### Compression -/

structure CompressedValue where
  code : Code
  value : BitVec 64

/-- The code of a chunk. Indices are numbers of 32 bits. -/
def compressChunk (chunk : BitVec 64) (f : FrequentValues) : Except Fault Code :=
  if f.phase = COMPRESSING then
    let entry := f.findEntry chunk
    let uncompressedIndex := f.uncompressedValue.setWidth 32
    let index := if entry.isSome then chunk.setWidth 32 else uncompressedIndex
    if f.useHuffmanEncoding then
      let code := f.indexEncoder.encode (index.setWidth 64)
      if index = uncompressedIndex then
        .ok { code with length := code.length + f.chunkSizeBits }
      else if code.length > 64 then do
        let code := f.indexEncoder.encode (uncompressedIndex.setWidth 64)
        assert (code.length ≤ 64)
        pure { code with length := code.length + f.chunkSizeBits }
      else .ok code
    else
      let codeSize := Nat.log 2 f.numVFTEntries.toNat
      if entry.isSome then .ok { code := index.setWidth 64, length := codeSize }
      else
        .ok { code := uncompressedIndex.setWidth 64, length := codeSize + f.chunkSizeBits }
  else .ok { code := chunk, length := f.chunkSizeBits }

/-- Compress the chunks of a line: their codes, and the size in bits. -/
def compress (chunks : List (BitVec 64)) (f : FrequentValues) :
    Except Fault (List CompressedValue × ℕ) :=
  chunks.foldlM
    (fun compData chunk => do
      let code ← f.compressChunk chunk
      pure (compData.1 ++ [⟨code, chunk⟩], compData.2 + code.length))
    ([], 0)

/-! ### The pseudo value -/

theorem pseudoValues_succ (bound : ℕ) :
  pseudoValues (bound + 1)
    = pseudoValues bound >>= fun values =>
      increment bound >>= fun _ => .ok (values ++ [BitVec.ofNat 64 bound])
  := by
  rw [pseudoValues, range_succ, foldlM_append]
  simp only [foldlM_cons, foldlM_nil, bind_pure]
  rfl

variable {bound counterBits maxCodeLength : ℕ} {others : List Node} {left right : Node}
  {entries : List VFTEntry}

/-- The loop counts up to any `int`. -/
theorem pseudoValues_of_lt (h : bound < 2 ^ 31) :
  pseudoValues bound = .ok ((List.range bound).map (BitVec.ofNat 64))
  := by
  induction bound with
  | zero => rfl
  | succ bound ih =>
    rw [pseudoValues_succ, ih (by omega), ok_bind, increment, if_pos (by omega), ok_bind,
      range_succ, map_append]
    rfl

theorem pseudoValues_of_ge (h : 2 ^ 31 ≤ bound) :
  pseudoValues bound = .error .overflow
  := by
  induction bound, h using Nat.le_induction with
  | base =>
    rw [show 2 ^ 31 = 2147483647 + 1 from rfl, pseudoValues_succ,
      pseudoValues_of_lt (by decide), ok_bind, increment, if_neg (by decide)]
    rfl
  | succ bound _ ih =>
    rw [pseudoValues_succ, ih]
    rfl

theorem mem_foldl_filter {u : BitVec 64} {values : List (BitVec 64)} :
  u ∈ entries.foldl (fun values entry => values.filter fun value => value ≠ entry.value) values
    ↔ u ∈ values ∧ ∀ entry ∈ entries, entry.value ≠ u
  := by
  induction entries generalizing values with
  | nil => simp
  | cons entry entries ih =>
    rw [foldl_cons, ih, mem_filter, decide_eq_true_eq, ne_comm, forall_mem_cons, and_assoc]

/-- There are more pseudo values than entries. So one of them is in no entry. -/
theorem exists_pseudoValue (entries : List VFTEntry) :
  ∃ i ≤ entries.length, ∀ entry ∈ entries, entry.value.toNat ≠ i
  := by
  by_contra hall
  push Not at hall
  have hsubset : List.range (entries.length + 1) ⊆ entries.map fun entry => entry.value.toNat := by
    intro i hi
    obtain ⟨entry, hentry, rfl⟩ := hall i (Nat.le_of_lt_succ (mem_range.mp hi))
    exact mem_map_of_mem hentry
  have hle := (List.Nodup.subperm nodup_range hsubset).length_le
  rw [length_range, length_map] at hle
  omega

/-! ### The code of the pseudo value -/

variable {u : BitVec 64} {f : FrequentValues}

/-- The leaf of the pseudo value. -/
def escape (u : BitVec 64) : Node := .leaf ⟨u, BitVec.allOnes 64⟩

/-- Trees without the pseudo value, the sum of whose frequencies does not wrap around. -/
structure Others (u : BitVec 64) (others : List Node) : Prop where
  pos : ∀ t ∈ others, 0 < t.getFrequency.toNat
  ne : ∀ t ∈ others, ∀ s ∈ t.leaves, s.value ≠ u
  sum_lt : (others.map fun t => t.getFrequency.toNat).sum < 2 ^ 64

theorem Others.perm {others' : List Node} (h : Others u others) (hperm : others.Perm others') :
  Others u others'
  where
  pos t ht := h.pos t (hperm.mem_iff.mpr ht)
  ne t ht := h.ne t (hperm.mem_iff.mpr ht)
  sum_lt := by
    rw [← (hperm.map fun t : Node => t.getFrequency.toNat).sum_nat]
    exact h.sum_lt

/-- If there are two other trees, each has a frequency below that of the pseudo value. -/
theorem Others.lt_escape {t t' : Node} (h : Others u (t :: t' :: others)) :
  t.getFrequency.toNat < (escape u).getFrequency.toNat
  := by
  have hsum := h.sum_lt
  have hpos := h.pos t' (by simp)
  change _ < 2 ^ 64 - 1
  simp only [map_cons, sum_cons] at hsum
  omega

theorem Others.merge (h : Others u (left :: right :: others)) :
  Others u (.node left right :: others)
  := by
  have hsum := h.sum_lt
  have hleft := h.pos left (by simp)
  simp only [map_cons, sum_cons] at hsum
  have hnode : (getFrequency (.node left right)).toNat
      = left.getFrequency.toNat + right.getFrequency.toNat := by
    rw [getFrequency, BitVec.toNat_add, Nat.mod_eq_of_lt (by omega)]
  constructor
  · intro t ht
    rcases mem_cons.mp ht with rfl | ht
    · rw [hnode]
      omega
    · exact h.pos t (by simp [ht])
  · intro t ht s hs
    rcases mem_cons.mp ht with rfl | ht
    · rw [CodeTree.leaves, mem_append] at hs
      rcases hs with hs | hs
      · exact h.ne right (by simp) s hs
      · exact h.ne left (by simp) s hs
    · exact h.ne t (by simp [ht]) s hs
  · rw [map_cons, sum_cons, hnode]
    omega

/-- The pseudo value is in a tree of its own, or it has been merged with the last other tree. -/
def EscapeLast (u : BitVec 64) (trees : List Node) : Prop :=
  (∃ others, trees.Perm (escape u :: others) ∧ Others u others)
    ∨ ∃ t, Others u [t] ∧ (trees = [.node t (escape u)] ∨ trees = [.node (escape u) t])

theorem EscapeLast.perm {trees trees' : List Node} (hperm : trees.Perm trees')
    (h : EscapeLast u trees) :
  EscapeLast u trees'
  := by
  rcases h with ⟨others, htrees, hothers⟩ | ⟨t, ht, rfl | rfl⟩
  · exact .inl ⟨others, hperm.symm.trans htrees, hothers⟩
  · exact .inr ⟨t, ht, .inl (singleton_perm.mp hperm).symm⟩
  · exact .inr ⟨t, ht, .inr (singleton_perm.mp hperm).symm⟩

/-- Of two trees of lowest frequency neither is that of the pseudo value, unless there is no third
one. -/
theorem EscapeLast.merge {rest : List Node}
    (hleft : ∀ t ∈ right :: rest, left.getFrequency.toNat ≤ t.getFrequency.toNat)
    (hright : ∀ t ∈ rest, right.getFrequency.toNat ≤ t.getFrequency.toNat)
    (h : EscapeLast u (left :: right :: rest)) :
  EscapeLast u (.node left right :: rest)
  := by
  rcases h with ⟨others, htrees, hothers⟩ | ⟨t, -, htrees | htrees⟩
  · have hmem := htrees.mem_iff.mpr mem_cons_self
    rcases mem_cons.mp hmem with rfl | hmem
    · -- the pseudo value is the first of the two
      have hothers' := hothers.perm htrees.cons_inv.symm
      cases rest with
      | nil => exact .inr ⟨right, hothers', .inr rfl⟩
      | cons t rest => exact absurd hothers'.lt_escape (Nat.not_lt.mpr (hleft right (by simp)))
    · rcases mem_cons.mp hmem with rfl | hmem
      · -- the pseudo value is the second of the two
        have hothers' := hothers.perm ((List.Perm.swap _ _ _).trans htrees).cons_inv.symm
        cases rest with
        | nil => exact .inr ⟨left, hothers', .inl rfl⟩
        | cons t rest =>
          have hlt := (hothers'.perm (List.Perm.swap _ _ _)).lt_escape
          exact absurd hlt (Nat.not_lt.mpr (hright t (by simp)))
      · obtain ⟨before, after, rfl⟩ := append_of_mem hmem
        have hmove := @List.perm_middle _ (escape u) (left :: right :: before) after
        have hmove' := @List.perm_middle _ (escape u) (.node left right :: before) after
        exact .inl ⟨_, hmove', (hothers.perm (hmove.symm.trans htrees).cons_inv.symm).merge⟩
  · cases htrees
  · cases htrees

/-- The code of the pseudo value has at most one bit. -/
theorem EscapeLast.word_length {root : Node} (h : EscapeLast u [root]) :
  (∃ p ∈ root.words, p.2.value = u) ∧ ∀ p ∈ root.words, p.2.value = u → p.1.length ≤ 1
  := by
  rcases h with ⟨others, hroot, -⟩ | ⟨t, ht, hroot⟩
  · cases others with
    | nil =>
      cases singleton_perm.mp hroot
      simp [escape, CodeTree.words]
    | cons t others => simpa using hroot.length_eq
  · have hmem : ∃ b, ∀ p, p ∈ root.words
        ↔ p = ([b], ⟨u, BitVec.allOnes 64⟩) ∨ ∃ q ∈ t.words, p = ((!b) :: q.1, q.2) := by
      rcases hroot with hroot | hroot
      · cases hroot
        exact ⟨true, by simp [escape, CodeTree.words, eq_comm]⟩
      · cases hroot
        exact ⟨false, by simp [escape, CodeTree.words, eq_comm, or_comm]⟩
    obtain ⟨b, hmem⟩ := hmem
    refine ⟨⟨_, (hmem _).mpr (.inl rfl), rfl⟩, ?_⟩
    intro p hp hu
    rcases (hmem p).mp hp with rfl | ⟨q, hq, rfl⟩
    · exact le_refl 1
    · refine absurd hu (ht.ne t (by simp) q.2 ?_)
      rw [← CodeTree.map_snd_words]
      exact mem_map_of_mem hq

/-- The value of an entry and its frequency, as they are sampled. -/
def symbol (entry : VFTEntry) : Symbol := ⟨entry.value, entry.counter.setWidth 64⟩

theorem sum_sampled_le (hcounter : ∀ entry ∈ entries, entry.counter.toNat < 2 ^ counterBits) :
  ((sampled (entries.map symbol)).map fun s => s.frequency.toNat).sum
    ≤ entries.length * (2 ^ counterBits - 1)
  := by
  have hlength : (sampled (entries.map symbol)).length ≤ entries.length := by
    rw [← length_map symbol]
    apply length_filter_le
  have hle : ∀ n ∈ (sampled (entries.map symbol)).map fun s => s.frequency.toNat,
      n ≤ 2 ^ counterBits - 1 := by
    intro n hn
    obtain ⟨s, hs, rfl⟩ := mem_map.mp hn
    obtain ⟨entry, hentry, rfl⟩ := mem_map.mp (mem_filter.mp hs).1
    apply Nat.le_sub_one_of_lt (Nat.lt_of_le_of_lt _ (hcounter entry hentry))
    rw [symbol, BitVec.toNat_setWidth]
    apply Nat.mod_le
  have hsum := sum_le_card_nsmul _ _ hle
  rw [length_map] at hsum
  exact hsum.trans (Nat.mul_le_mul_right _ hlength)

/-- The entries and the pseudo value are in trees of their own to start with. -/
theorem escapeLast_sampled (hne : ∀ entry ∈ entries, entry.value ≠ u)
    (hcounter : ∀ entry ∈ entries, entry.counter.toNat < 2 ^ counterBits)
    (hsum : entries.length * (2 ^ counterBits - 1) < 2 ^ 64) :
  EscapeLast u ((sampled (entries.map symbol ++ [⟨u, BitVec.allOnes 64⟩])).map .leaf)
  := by
  have hsampled : sampled (entries.map symbol ++ [⟨u, BitVec.allOnes 64⟩])
      = sampled (entries.map symbol) ++ [⟨u, BitVec.allOnes 64⟩] := by
    rw [sampled, filter_append]
    rfl
  refine .inl ⟨(sampled (entries.map symbol)).map .leaf, ?_, ?_, ?_, ?_⟩
  · rw [hsampled, map_append]
    exact perm_append_singleton _ _
  · intro t ht
    obtain ⟨s, hs, rfl⟩ := mem_map.mp ht
    have hzero : s.frequency ≠ 0 := by simpa using (mem_filter.mp hs).2
    exact Nat.pos_of_ne_zero fun h => hzero (BitVec.eq_of_toNat_eq h)
  · intro t ht s hs
    obtain ⟨s', hs', rfl⟩ := mem_map.mp ht
    cases mem_singleton.mp hs
    obtain ⟨entry, hentry, rfl⟩ := mem_map.mp (mem_filter.mp hs').1
    exact hne entry hentry
  · rw [map_map]
    change ((sampled (entries.map symbol)).map fun s => s.frequency.toNat).sum < 2 ^ 64
    exact Nat.lt_of_le_of_lt (sum_sampled_le hcounter) hsum

theorem sampleEntries_eq (H : HeapOps comparator) (f : FrequentValues) :
  f.sampleEntries H
    = f.indexEncoder.sampleAll H
      (f.VFT.map symbol ++ [⟨f.uncompressedValue, BitVec.allOnes 64⟩])
  := by
  rw [sampleAll, foldl_append, foldl_map]
  rfl

/-! ### The escape code is supported -/

/-- Some codes are generated. The pseudo value is in no entry, its code has at most one bit, and in
the compression phase the assertion of `compress` holds for all chunks. -/
def Supports (H : HeapOps Node.comparator) (f : FrequentValues) : Prop :=
  ∃ f', f.generateCodes H = .ok f'
    ∧ (∀ entry ∈ f.VFT, entry.value ≠ f'.uncompressedValue)
    ∧ (f'.indexEncoder.encode f'.uncompressedValue).length ≤ 1
    ∧ ∀ chunks, ∃ compData, compress chunks { f' with phase := COMPRESSING } = .ok compData

theorem setWidth_setWidth_of_lt {x : BitVec 64} (h : x.toNat < 2 ^ 32) :
  (x.setWidth 32).setWidth 64 = x
  := by
  apply BitVec.eq_of_toNat_eq
  rw [BitVec.toNat_setWidth, BitVec.toNat_setWidth, Nat.mod_eq_of_lt h, Nat.mod_eq_of_lt x.isLt]

theorem exists_compressChunk (hsmall : f.uncompressedValue.toNat < 2 ^ 32)
    (hcode : (f.indexEncoder.encode f.uncompressedValue).length ≤ 1) (chunk : BitVec 64) :
  ∃ code, f.compressChunk chunk = .ok code
  := by
  rw [compressChunk]
  dsimp only
  rw [setWidth_setWidth_of_lt hsmall, decide_eq_true (hcode.trans (by decide)), assert_true,
    ok_bind]
  split_ifs <;> exact ⟨_, rfl⟩

theorem exists_compress (h : ∀ chunk, ∃ code, f.compressChunk chunk = .ok code)
    (chunks : List (BitVec 64)) :
  ∃ compData, f.compress chunks = .ok compData
  := by
  rw [compress]
  generalize (([], 0) : List CompressedValue × ℕ) = compData
  induction chunks generalizing compData with
  | nil => exact ⟨compData, rfl⟩
  | cons chunk chunks ih =>
    obtain ⟨code, hcode⟩ := h chunk
    rw [foldlM_cons, hcode, ok_bind, pure_eq_ok, ok_bind]
    apply ih

theorem toNat_lt_of_mem (hbound : bound ≤ 2 ^ 32)
    (hu : u ∈ (List.range bound).map (BitVec.ofNat 64)) :
  u.toNat < 2 ^ 32
  := by
  obtain ⟨i, hi, rfl⟩ := mem_map.mp hu
  have hi := mem_range.mp hi
  rw [BitVec.toNat_ofNat]
  omega

/-- The pseudo value that is chosen. -/
theorem exists_uncompressedValue (hlength : f.VFT.length < 2 ^ 31) :
  ∃ u rest, f.VFT.foldl (fun values entry => values.filter fun value => value ≠ entry.value)
      ((List.range (f.VFT.length + 1)).map (BitVec.ofNat 64)) = u :: rest
    ∧ u.toNat < 2 ^ 32 ∧ ∀ entry ∈ f.VFT, entry.value ≠ u
  := by
  obtain ⟨i, hi, hnone⟩ := exists_pseudoValue f.VFT
  have hne : ∀ entry ∈ f.VFT, entry.value ≠ BitVec.ofNat 64 i := by
    intro entry hentry heq
    apply hnone entry hentry
    rw [heq, BitVec.toNat_ofNat, Nat.mod_eq_of_lt (by omega)]
  have hrange := mem_map_of_mem (f := BitVec.ofNat 64) (mem_range.mpr (Nat.lt_succ_of_le hi))
  obtain ⟨u, rest, hvalues⟩ :=
    exists_cons_of_ne_nil (ne_nil_of_mem (mem_foldl_filter.mpr ⟨hrange, hne⟩))
  have hmem : u ∈ u :: rest := mem_cons_self
  rw [← hvalues, mem_foldl_filter] at hmem
  exact ⟨u, rest, hvalues, toNat_lt_of_mem (by omega) hmem.1, hmem.2⟩

theorem findEntry_eq_none (h : ∀ entry ∈ f.VFT, entry.value ≠ u) :
  f.findEntry u = none
  := by
  rw [findEntry, find?_eq_none]
  intro entry hentry
  simp [h entry hentry]

section

variable (H : HeapOps comparator) (hencoder : f.indexEncoder = { maxCodeLength := maxCodeLength })
  (hpos : 1 ≤ maxCodeLength) (hmax : maxCodeLength ≤ 64)
  (hcounter : ∀ entry ∈ f.VFT, entry.counter.toNat < 2 ^ f.counterBits)
  (hsum : f.VFT.length * (2 ^ f.counterBits - 1) < 2 ^ 64)

include hencoder hpos hmax hcounter hsum

/-- The codes of a table that the pseudo value is not in. -/
theorem exists_generateCodeMaps (hne : ∀ entry ∈ f.VFT, entry.value ≠ f.uncompressedValue) :
  ∃ h, (f.sampleEntries H).generateCodeMaps H = .ok h ∧ (h.encode f.uncompressedValue).length ≤ 1
  := by
  have hsampled : sampled
      (f.VFT.map symbol ++ [⟨f.uncompressedValue, BitVec.allOnes 64⟩]) ≠ [] := by
    rw [sampled, filter_append]
    exact append_ne_nil_of_right_ne_nil _ (cons_ne_nil _ _)
  obtain ⟨root, h, hok, hlength, hcoded, hroot⟩ := generateCodeMaps_induction (H := H)
    ⟨fun _ _ => EscapeLast.perm, fun _ _ _ => EscapeLast.merge⟩ hmax hsampled
    (escapeLast_sampled hne hcounter hsum)
  obtain ⟨⟨p, hp, hpu⟩, hall⟩ := hroot.word_length
  have hkept := hcoded.kept p hp (by rw [hlength]; exact (hall p hp hpu).trans hpos)
  rw [hpu] at hkept
  obtain ⟨q, hq, -, hqu, hencode⟩ := hcoded.encode _ hkept
  refine ⟨h, by rw [sampleEntries_eq, hencoder, hok], ?_⟩
  rw [hencode, Code.length_append, Nat.zero_add]
  exact hall q hq hqu

/-- The pseudo value is supported if the loop that searches it does not overflow. -/
theorem supports_of_lt (huse : f.useHuffmanEncoding = true)
    (hlength : f.VFT.length = f.numVFTEntries.toNat)
    (hsmall : f.numVFTEntries.toNat + 1 < 2 ^ 31) :
  Supports H f
  := by
  have hbound : (f.numVFTEntries + 1).toNat = f.VFT.length + 1 := by
    change (f.numVFTEntries.toNat + 1) % 2 ^ 32 = _
    omega
  obtain ⟨u, rest, hvalues, hu, hne⟩ := exists_uncompressedValue (f := f) (by omega)
  obtain ⟨h, hmaps, hcode⟩ := exists_generateCodeMaps H
    (f := { f with uncompressedValue := u }) hencoder hpos hmax hcounter hsum hne
  refine ⟨{ f with uncompressedValue := u, indexEncoder := h, phase := CODE_GENERATION }, ?_, hne,
    hcode, ?_⟩
  · rw [generateCodes, hbound, pseudoValues_of_lt (by omega), ok_bind]
    rw [hvalues]
    dsimp only
    rw [findEntry_eq_none (f := { f with uncompressedValue := u }) hne, Option.isNone_none,
      assert_true, ok_bind, if_pos huse, hmaps, ok_bind]
    rfl
  · apply exists_compress
    exact exists_compressChunk hu hcode

end

/-- The loop that searches the pseudo value overflows. -/
theorem generateCodes_of_ge (H : HeapOps comparator)
    (hlarge : 2 ^ 31 ≤ (f.numVFTEntries + 1).toNat) :
  f.generateCodes H = .error .overflow
  := by
  rw [generateCodes, pseudoValues_of_ge hlarge]
  rfl

/-- For all contents of the VFT, the escape code is supported exactly if the number of entries plus
one is an `int`. -/
theorem supports_iff (H : HeapOps Node.comparator) {chunkSizeBits counterBits : ℕ}
    {maxCodeLength : BitVec 32} {vftEntries vftAssoc : BitVec 64} {f : FrequentValues}
    (hmake : make chunkSizeBits maxCodeLength counterBits vftEntries vftAssoc = .ok f)
    (hpos : 1 ≤ maxCodeLength.toNat) {entries : List VFTEntry}
    (hlength : entries.length = vftEntries.toNat)
    (hcounter : ∀ entry ∈ entries, entry.counter.toNat < 2 ^ counterBits)
    (hsum : vftEntries.toNat * (2 ^ counterBits - 1) < 2 ^ 64) :
  Supports H { f with VFT := entries } ↔ vftEntries.toNat + 1 < 2 ^ 31
  := by
  obtain ⟨indexEncoder, hencoder, hmake⟩ := bind_eq_ok.mp hmake
  obtain ⟨table, htable, hmake⟩ := bind_eq_ok.mp hmake
  obtain ⟨-, -, hmake⟩ := bind_eq_ok.mp hmake
  cases hmake
  have hlt : vftEntries.toNat < 2 ^ 31 := by
    rw [makeTable] at htable
    split_ifs at htable with _ hlt
    · exact hlt
    · obtain ⟨-, -, h⟩ := bind_eq_ok.mp htable
      cases h
  have hentries : (vftEntries.setWidth 32).toNat = vftEntries.toNat := by
    rw [BitVec.toNat_setWidth]
    omega
  constructor
  · rintro ⟨f', hok, -⟩
    by_contra hlarge
    rw [generateCodes_of_ge] at hok
    · cases hok
    · rw [BitVec.toNat_add]
      change 2 ^ 31 ≤ ((vftEntries.setWidth 32).toNat + 1) % 2 ^ 32
      omega
  · intro hsmall
    obtain ⟨hmax, rfl⟩ := make_eq_ok hencoder
    have hwidth : ((maxCodeLength.setWidth 64).setWidth 32).toNat = maxCodeLength.toNat := by
      rw [BitVec.setWidth_setWidth_of_le _ (by decide), BitVec.setWidth_eq]
    have huse : decide (maxCodeLength ≠ 0) = true := by
      rw [decide_eq_true_eq]
      rintro rfl
      exact absurd hpos (by decide)
    rw [hwidth] at hmax
    refine supports_of_lt H ?_ hpos hmax hcounter ?_ huse (hlength.trans hentries.symm) ?_
    · dsimp only
      rw [hwidth]
    · dsimp only
      rw [hlength]
      exact hsum
    · dsimp only
      rw [hentries]
      exact hsmall

/-- A table with two entries, one of them invalid. -/
theorem supports_iff_two :
  ∃ f, make 32 18 18 2 1 = .ok f
    ∧ Supports Huffman.binaryHeap
      { f with VFT := [{ valid := true, value := 7, counter := 3 }, {}] }
  := by
  have hmake : ∃ f, make 32 18 18 2 1 = .ok f := ⟨_, rfl⟩
  obtain ⟨f, hmake⟩ := hmake
  refine ⟨f, hmake, (supports_iff binaryHeap hmake (by decide) rfl ?_ (by decide)).mpr (by decide)⟩
  decide

/-- A table with 2 ^ 31 - 1 entries. -/
def fullTable : List VFTEntry :=
  (List.range 0x7FFFFFFF).map fun i => { valid := true, value := BitVec.ofNat 64 i, counter := 1 }

theorem fullTable_nodup :
  (fullTable.map VFTEntry.value).Nodup
  := by
  rw [fullTable, map_map]
  refine List.Nodup.map_on ?_ nodup_range
  intro i hi j hj heq
  have hi := mem_range.mp hi
  have hj := mem_range.mp hj
  have hnat := congrArg BitVec.toNat heq
  simp only [Function.comp_apply, BitVec.toNat_ofNat] at hnat
  omega

/-- With 2 ^ 31 - 1 entries, the loop that searches the pseudo value overflows. -/
theorem search_overflows :
  ∃ f, make 32 18 18 0x7FFFFFFF 0x7FFFFFFF = .ok f
    ∧ fullTable.length = 0x7FFFFFFF ∧ (fullTable.map VFTEntry.value).Nodup
    ∧ (∀ entry ∈ fullTable, entry.counter.toNat < 2 ^ 18) ∧ 0x7FFFFFFF * (2 ^ 18 - 1) < 2 ^ 64
    ∧ generateCodes Huffman.binaryHeap { f with VFT := fullTable } = .error .overflow
  := by
  refine ⟨_, rfl, ?_, fullTable_nodup, ?_, by decide, ?_⟩
  · rw [fullTable, length_map, length_range]
  · intro entry hentry
    obtain ⟨i, -, rfl⟩ := mem_map.mp hentry
    exact (by decide : 1 < 2 ^ 18)
  · exact generateCodes_of_ge _ (by decide)

/-! ### The assertions of the decompression -/

/-- The assertion on a compressed value. -/
def verifies (c : CompressedValue) (f : FrequentValues) : Bool :=
  if f.phase = COMPRESSING then
    if f.useHuffmanEncoding then
      let code := f.indexEncoder.encode c.value
      (code.length ≤ 64 && code.code == c.code.code)
        || c.code.code == (f.indexEncoder.encode f.uncompressedValue).code
    else c.code.code == f.uncompressedValue || (f.findEntry c.value).isSome
  else true

/-- The chunks of a compressed line. -/
def decompress (compData : List CompressedValue) (f : FrequentValues) :
    Except Fault (List (BitVec 64)) :=
  compData.foldlM
    (fun chunks c => do
      assert (f.verifies c)
      pure (chunks ++ [c.value]))
    []

/-- Decompression accepts the code of a chunk that is in the VFT. The code is the one of the lower
half of the chunk. -/
def Accepts (chunk : BitVec 64) (f : FrequentValues) : Prop :=
  let code := f.indexEncoder.encode ((chunk.setWidth 32).setWidth 64)
  code.length ≤ 64 → code.code = (f.indexEncoder.encode f.uncompressedValue).code
    ∨ (f.indexEncoder.encode chunk).length ≤ 64
      ∧ (f.indexEncoder.encode chunk).code = code.code

/-- When the code of a chunk passes the assertion. -/
theorem verifies_compressChunk_iff {chunk : BitVec 64} {code : Code}
    (hphase : f.phase = COMPRESSING) (hsmall : f.uncompressedValue.toNat < 2 ^ 32)
    (h : f.compressChunk chunk = .ok code) :
  f.verifies ⟨code, chunk⟩ = true
    ↔ (f.useHuffmanEncoding = true → (f.findEntry chunk).isSome = true → f.Accepts chunk)
  := by
  rw [compressChunk, if_pos hphase] at h
  rw [verifies, if_pos hphase]
  dsimp only at h ⊢
  by_cases huse : f.useHuffmanEncoding = true
  · rw [if_pos huse] at h ⊢
    by_cases hfound : (f.findEntry chunk).isSome = true
    · rw [if_pos hfound] at h
      simp only [huse, hfound, forall_const, Accepts, Bool.or_eq_true, Bool.and_eq_true,
        decide_eq_true_eq, beq_iff_eq]
      split_ifs at h with hescape hlong
      · cases h
        simp [hescape, setWidth_setWidth_of_lt hsmall]
      · obtain ⟨-, h⟩ := assert_bind_eq_ok.mp h
        cases h
        simp [setWidth_setWidth_of_lt hsmall, Nat.not_le.mpr hlong]
      · cases h
        rw [imp_iff_right (Nat.not_lt.mp hlong), or_comm]
    · -- the chunk is stored with the code of the pseudo value
      rw [if_neg hfound, if_pos rfl, setWidth_setWidth_of_lt hsmall] at h
      cases h
      simp [hfound]
  · rw [if_neg huse] at h ⊢
    simp only [huse, false_imp_iff, iff_true, Bool.false_eq_true]
    split_ifs at h with hfound
    · rw [hfound, Bool.or_true]
    · cases h
      rw [setWidth_setWidth_of_lt hsmall, beq_self_eq_true, Bool.true_or]

/-- The line that is compressed, as it is kept. -/
theorem compress_values {chunks : List (BitVec 64)} {compData : List CompressedValue × ℕ}
    (h : f.compress chunks = .ok compData) :
  compData.1.map CompressedValue.value = chunks
    ∧ ∀ c ∈ compData.1, f.compressChunk c.value = .ok c.code
  := by
  induction chunks using List.reverseRecOn generalizing compData with
  | nil =>
    cases h
    exact ⟨rfl, fun c hc => nomatch hc⟩
  | append_singleton chunks chunk ih =>
    rw [compress, foldlM_append, ← compress] at h
    obtain ⟨before, hbefore, h⟩ := bind_eq_ok.mp h
    obtain ⟨next, hnext, h⟩ := bind_eq_ok.mp h
    obtain ⟨code, hcode, hnext⟩ := bind_eq_ok.mp hnext
    cases hnext
    cases h
    obtain ⟨hvalues, hcodes⟩ := ih hbefore
    refine ⟨by rw [map_append, hvalues]; rfl, ?_⟩
    exact forall_mem_append.mpr ⟨hcodes, forall_mem_singleton.mpr hcode⟩

theorem decompress_eq_ok_iff {compData : List CompressedValue} {chunks : List (BitVec 64)} :
  f.decompress compData = .ok chunks
    ↔ compData.map CompressedValue.value = chunks ∧ ∀ c ∈ compData, f.verifies c = true
  := by
  induction compData using List.reverseRecOn generalizing chunks with
  | nil => simp [decompress]
  | append_singleton compData c ih =>
    rw [decompress, foldlM_append, ← decompress, bind_eq_ok, map_append, forall_mem_append,
      forall_mem_singleton]
    simp only [ih, foldlM_cons, foldlM_nil, bind_pure, assert_bind_eq_ok]
    constructor
    · rintro ⟨before, ⟨rfl, hbefore⟩, hc, ⟨⟩⟩
      exact ⟨rfl, hbefore, hc⟩
    · rintro ⟨rfl, hbefore, hc⟩
      exact ⟨_, ⟨rfl, hbefore⟩, hc, rfl⟩

/-- The pseudo value is one of the numbers of the loop. -/
theorem generateCodes_eq_ok {H : HeapOps comparator} {f' : FrequentValues}
    (h : f.generateCodes H = .ok f') :
  f'.uncompressedValue.toNat < 2 ^ 32
  := by
  have hbound : (f.numVFTEntries + 1).toNat < 2 ^ 31 := by
    by_contra hlarge
    rw [generateCodes_of_ge H (Nat.not_lt.mp hlarge)] at h
    cases h
  rw [generateCodes, pseudoValues_of_lt hbound, ok_bind] at h
  dsimp only at h
  split at h
  · cases h
  · rename_i u rest hvalues
    have hmem : u ∈ u :: rest := mem_cons_self
    rw [← hvalues, mem_foldl_filter] at hmem
    have hlt := toNat_lt_of_mem (by omega) hmem.1
    obtain ⟨-, h⟩ := assert_bind_eq_ok.mp h
    split_ifs at h
    · obtain ⟨indexEncoder, -, h⟩ := bind_eq_ok.mp h
      cases h
      exact hlt
    · cases h
      exact hlt

/-- With the codes of any table, no assertion fails for a line exactly if for every chunk of the
line that is in the table and has a Huffman code, the code of its lower half is accepted. -/
theorem decompress_compress_iff {H : HeapOps Node.comparator} {f f' : FrequentValues}
    (hcodes : f.generateCodes H = .ok f') {chunks : List (BitVec 64)}
    {compData : List CompressedValue × ℕ}
    (hcompress : compress chunks { f' with phase := COMPRESSING } = .ok compData) :
  decompress compData.1 { f' with phase := COMPRESSING } = .ok chunks
    ↔ (f'.useHuffmanEncoding = true →
      ∀ chunk ∈ chunks, (f'.findEntry chunk).isSome = true → f'.Accepts chunk)
  := by
  have hsmall := generateCodes_eq_ok hcodes
  obtain ⟨hchunks, hcode⟩ := compress_values hcompress
  rw [decompress_eq_ok_iff, and_iff_right hchunks]
  have hverifies c hc := verifies_compressChunk_iff (f := { f' with phase := COMPRESSING }) rfl
    hsmall (hcode c hc)
  rw [forall₂_congr hverifies, ← hchunks, forall_mem_map]
  constructor
  · intro h huse c hc hfound
    exact h c hc huse hfound
  · intro h c hc huse hfound
    exact h huse c hc hfound

/-- The lower half of a value of the table is 5, which has no code. -/
theorem decompress_compress_iff_two :
  ∃ f f' compData, make 64 18 18 2 2 = .ok f
    ∧ generateCodes Huffman.binaryHeap { f with VFT := [⟨true, 0x100000005, 5⟩, ⟨true, 1, 3⟩] }
      = .ok f'
    ∧ compress [0x100000005, 9] { f' with phase := COMPRESSING } = .ok compData
    ∧ decompress compData.1 { f' with phase := COMPRESSING } = .ok [0x100000005, 9]
  := by
  obtain ⟨f, hf⟩ : ∃ f, make 64 18 18 2 2 = .ok f := ⟨_, rfl⟩
  have hrun : ∃ f', generateCodes binaryHeap
        { f with VFT := [⟨true, 0x100000005, 5⟩, ⟨true, 1, 3⟩] } = .ok f'
      ∧ (f'.findEntry 9).isSome = false ∧ 64 < (f'.indexEncoder.encode 5).length
      ∧ ∃ compData, compress [0x100000005, 9] { f' with phase := COMPRESSING } = .ok compData := by
    cases hf
    exact ⟨_, rfl, rfl, by decide, _, rfl⟩
  obtain ⟨f', hcodes, hnone, hlong, compData, hcompress⟩ := hrun
  refine ⟨f, f', compData, hf, hcodes, hcompress, (decompress_compress_iff hcodes hcompress).mpr ?_⟩
  intro _
  simp only [forall_mem_cons, hnone]
  exact ⟨fun _ h => absurd h (Nat.not_le.mpr hlong), by simp⟩

/-- The values 2 ^ 32 + 1 and 1 of a table have the same index. The first one is compressed to the
code of the second one, which is neither its own nor that of the pseudo value. -/
theorem decompress_asserts :
  ∃ f f' compData, make 64 18 18 2 2 = .ok f
    ∧ generateCodes Huffman.binaryHeap { f with VFT := [⟨true, 0x100000001, 5⟩, ⟨true, 1, 3⟩] }
      = .ok f'
    ∧ compress [0x100000001] { f' with phase := COMPRESSING } = .ok compData
    ∧ decompress compData.1 { f' with phase := COMPRESSING } = .error .assertion
  := ⟨_, _, _, rfl, rfl, rfl, rfl⟩

end FrequentValues

end Gem5Arc
