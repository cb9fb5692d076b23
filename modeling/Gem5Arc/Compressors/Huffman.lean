import Gem5Arc.Basic
import Gem5Arc.Lib.CodeTree
import Gem5Arc.Lib.Heap

/-!
# Huffman codes

The encoder of `mem/cache/compressors/encoders/huffman.cc`. Values are sampled with their
frequencies, and a tree is built from them by merging the two trees of lowest frequency until one is
left. Which of several trees of the same frequency is merged first depends on the priority queue,
whose operations are a parameter here. The path to a value is its code, and the codes that are too
long are dropped.

What the loop of `buildTree` does is said once (`buildTree_induction`). No code that is kept is the
start of another one. But the table for decoding goes by the number of a code only. So decoding
inverts encoding exactly if no code that is kept is another one with zeros in front
(`decode_encode_iff`).
-/

namespace Gem5Arc

open BitVec Function Lib List

/-! ### The encoder -/

/-- A code: the lowest `length` bits of a number. -/
structure Code where
  code : BitVec 64 := 0
  length : ℕ := 0

namespace Code

def bits (c : Code) : List Bool := bitsOf c.code.toNat c.length

def left (c : Code) : Code where
  code := c.code <<< 1
  length := c.length + 1

def right (c : Code) : Code where
  code := (c.code <<< 1) + 1
  length := c.length + 1

/-- The code of a node that is reached by a path. -/
def append (c : Code) (path : List Bool) : Code :=
  path.foldl (fun c b => if b then c.right else c.left) c

end Code

/-- A value and its frequency. -/
structure Symbol where
  value : BitVec 64
  frequency : BitVec 64

abbrev Node : Type := CodeTree Symbol

namespace Node

/-- The frequency of a node. The sum wraps around. -/
def getFrequency : Node → BitVec 64
  | .leaf symbol => symbol.frequency
  | .node left right => getFrequency left + getFrequency right

/-- `NodeComparator`. -/
def comparator (lhs rhs : Node) : Bool :=
  rhs.getFrequency.toNat < lhs.getFrequency.toNat

theorem comparator_eq_true (lhs rhs : Node) :
  comparator lhs rhs = true ↔ rhs.getFrequency.toNat < lhs.getFrequency.toNat
  := decide_eq_true_iff

end Node

/-- The encoder. -/
structure Huffman where
  maxCodeLength : ℕ
  valueToCode : BitVec 64 → Option Code := fun _ => none
  codeToValue : BitVec 64 → Option (BitVec 64) := fun _ => none
  /-- The vector of the priority queue. -/
  trees : List Node := []

namespace Huffman

/-- The constructor. The maximum code length is kept in 32 bits. -/
def make (maxCodeLength : BitVec 64) : Except Fault Huffman := do
  let h : Huffman := { maxCodeLength := (maxCodeLength.setWidth 32).toNat }
  fatalIf (h.maxCodeLength > 64) "Code length cannot surpass its underlying container"
  pure h

variable (H : HeapOps Node.comparator)

/-- Put a tree into the queue. -/
def push (tree : Node) (h : Huffman) : Huffman :=
  { h with trees := H.pushHeap (h.trees ++ [tree]) }

/-- Insert a value and its frequency. -/
def sample (value frequency : BitVec 64) (h : Huffman) : Huffman :=
  if frequency ≠ 0 then h.push H (.leaf ⟨value, frequency⟩) else h

/-- Take the top of the queue, which must not be empty. -/
def pop (h : Huffman) : Except Fault (Node × Huffman) :=
  match h.trees with
  | [] => .error .outOfBounds
  | top :: _ => .ok (top, { h with trees := (H.popHeap h.trees).dropLast })

/-- The loop of `buildTree`. -/
def mergeTrees : ℕ → Huffman → Except Fault Huffman
  | 0, _ => .error .outOfFuel
  | fuel + 1, h =>
    if 1 < h.trees.length then do
      let (left, h) ← h.pop H
      let (right, h) ← h.pop H
      mergeTrees fuel (h.push H (.node left right))
    else .ok h

/-- Build the tree. Each turn of the loop leaves one tree less. -/
def buildTree (h : Huffman) : Except Fault (Node × Huffman) := do
  let h ← h.mergeTrees H (h.trees.length + 1)
  h.pop H

/-- Enter a code into both tables. -/
def setCode (value : BitVec 64) (code : Code) (h : Huffman) : Huffman :=
  { h with
    valueToCode := Function.update h.valueToCode value (some code)
    codeToValue := Function.update h.codeToValue code.code (some value) }

/-- Enter the codes of a tree. -/
def generateCodes : Node → Code → Huffman → Huffman
  | .leaf symbol, currentCode, h =>
    if currentCode.length > h.maxCodeLength then h else h.setCode symbol.value currentCode
  | .node left right, currentCode, h =>
    if currentCode.length > h.maxCodeLength then h
    else generateCodes left currentCode.left (generateCodes right currentCode.right h)

def generateCodeMaps (h : Huffman) : Except Fault Huffman := do
  let h : Huffman := { h with valueToCode := fun _ => none, codeToValue := fun _ => none }
  let (root, h) ← h.buildTree H
  pure (generateCodes root {} h)

/-- The code of a value. It has an invalid length if the value is unknown. -/
def encode (val : BitVec 64) (h : Huffman) : Code :=
  match h.valueToCode val with
  | none => { code := 0, length := 65 }
  | some code => code

/-- The value of a code, which must exist. -/
def decode (code : BitVec 64) (h : Huffman) : Except Fault (BitVec 64) :=
  match h.codeToValue code with
  | none => .error .assertion
  | some value => .ok value

/-- Insert the values of a list. -/
def sampleAll (samples : List Symbol) (h : Huffman) : Huffman :=
  samples.foldl (fun h s => h.sample H s.value s.frequency) h

/-! ### Building the tree -/

variable {H} {h : Huffman}

/-- The samples that are put into the queue. -/
def sampled (samples : List Symbol) : List Symbol := samples.filter fun s => s.frequency ≠ 0

section

variable (hheap : IsHeap Node.comparator h.trees)

include hheap

theorem push_trees (tree : Node) :
  IsHeap Node.comparator (h.push H tree).trees ∧ (h.push H tree).trees.Perm (tree :: h.trees)
  := ⟨H.isHeap_pushHeap hheap tree, H.pushHeap_perm hheap tree⟩

/-- A tree of lowest frequency is taken from the queue. -/
theorem pop_spec (hne : h.trees ≠ []) :
  ∃ top rest, h.pop H = .ok (top, { h with trees := rest }) ∧ IsHeap Node.comparator rest
    ∧ h.trees.Perm (top :: rest)
    ∧ ∀ t ∈ rest, top.getFrequency.toNat ≤ t.getFrequency.toNat
  := by
  rw [pop]
  cases htrees : h.trees with
  | nil => exact absurd htrees hne
  | cons top trees =>
    rw [htrees] at hheap
    obtain ⟨hrest, hperm⟩ := H.popHeap_spec hheap rfl
    refine ⟨top, _, rfl, hrest, hperm, ?_⟩
    intro t ht
    apply IsHeap.le_of_mem Node.comparator_eq_true hheap
    exact hperm.mem_iff.mpr (mem_cons_of_mem _ ht)

/-- A turn of the loop merges two trees of lowest frequency. -/
theorem mergeTrees_step (hlength : 1 < h.trees.length) (fuel : ℕ) :
  ∃ left right rest trees, h.mergeTrees H (fuel + 1) = mergeTrees H fuel { h with trees }
    ∧ IsHeap Node.comparator trees
    ∧ h.trees.Perm (left :: right :: rest) ∧ trees.Perm (.node left right :: rest)
    ∧ (∀ t ∈ right :: rest, left.getFrequency.toNat ≤ t.getFrequency.toNat)
    ∧ ∀ t ∈ rest, right.getFrequency.toNat ≤ t.getFrequency.toNat
  := by
  obtain ⟨left, trees, hpop, hheap, hleft, hle⟩ :=
    pop_spec (H := H) hheap (ne_nil_of_length_pos (by omega))
  rw [hleft.length_eq, length_cons] at hlength
  obtain ⟨right, rest, hpop', hheap', hright, hle'⟩ :=
    pop_spec (H := H) (h := { h with trees }) hheap
      (ne_nil_of_length_pos (by dsimp only; omega))
  obtain ⟨hheap'', hpush⟩ :=
    push_trees (H := H) (h := { h with trees := rest }) hheap' (.node left right)
  refine ⟨left, right, rest, _, ?_, hheap'', hleft.trans (hright.cons left), hpush, ?_, hle'⟩
  · rw [mergeTrees, if_pos (by rw [hleft.length_eq, length_cons]; exact hlength), hpop, ok_bind]
    dsimp only
    rw [hpop', ok_bind]
    rfl
  · intro t ht
    exact hle t (hright.mem_iff.mpr ht)

end

/-- What holds of the trees in the queue in any order, and still does when two trees of lowest
frequency are merged. -/
structure Mergeable (I : List Node → Prop) : Prop where
  perm : ∀ l l', l.Perm l' → I l → I l'
  merge : ∀ left right rest,
    (∀ t ∈ right :: rest, left.getFrequency.toNat ≤ t.getFrequency.toNat) →
    (∀ t ∈ rest, right.getFrequency.toNat ≤ t.getFrequency.toNat) →
    I (left :: right :: rest) → I (.node left right :: rest)

variable {I : List Node → Prop}

theorem mergeTrees_induction (hmergeable : Mergeable I) {fuel : ℕ} (hfuel : h.trees.length < fuel)
    (hheap : IsHeap Node.comparator h.trees) (hne : h.trees ≠ []) (hI : I h.trees) :
  ∃ root, h.mergeTrees H fuel = .ok { h with trees := [root] } ∧ I [root]
  := by
  induction fuel generalizing h with
  | zero => exact absurd hfuel (Nat.not_lt_zero _)
  | succ fuel ih =>
    by_cases hlength : 1 < h.trees.length
    · obtain ⟨left, right, rest, trees, hstep, hheap', htrees, htrees', hle, hle'⟩ :=
        mergeTrees_step (H := H) hheap hlength fuel
      have hI' : I trees :=
        hmergeable.perm _ _ htrees'.symm
          (hmergeable.merge left right rest hle hle' (hmergeable.perm _ _ htrees hI))
      have hshorter := htrees'.length_eq
      rw [htrees.length_eq] at hfuel
      simp only [length_cons] at hshorter hfuel
      rw [hstep]
      exact ih (by dsimp only; omega) hheap'
        (ne_nil_of_length_pos (by dsimp only; omega)) hI'
    · have hpos := length_pos_of_ne_nil hne
      obtain ⟨root, hroot⟩ := length_eq_one_iff.mp (by omega : h.trees.length = 1)
      refine ⟨root, ?_, ?_⟩
      · rw [mergeTrees, if_neg hlength, ← hroot]
      · rw [← hroot]
        exact hI

/-- What holds of the trees in the queue holds of the tree that is built. -/
theorem buildTree_induction (hmergeable : Mergeable I) (hheap : IsHeap Node.comparator h.trees)
    (hne : h.trees ≠ []) (hI : I h.trees) :
  ∃ root trees, h.buildTree H = .ok (root, { h with trees }) ∧ I [root]
  := by
  obtain ⟨root, hok, hroot⟩ :=
    mergeTrees_induction (H := H) hmergeable (Nat.lt_succ_self _) hheap hne hI
  exact ⟨root, _, by rw [buildTree, hok, ok_bind, pop], hroot⟩

/-! ### Code words -/

end Huffman

namespace Code

variable (c : Code) (path : List Bool)

theorem append_cons (b : Bool) :
  c.append (b :: path) = (if b then c.right else c.left).append path
  := rfl

theorem append_concat (b : Bool) :
  c.append (path ++ [b]) = if b then (c.append path).right else (c.append path).left
  := by
  rw [append, foldl_concat]
  rfl

theorem length_append :
  (c.append path).length = c.length + path.length
  := by
  induction path generalizing c with
  | nil => rfl
  | cons b path ih =>
    rw [append_cons, ih, length_cons]
    cases b
    · simp only [left, Bool.false_eq_true, if_false]
      omega
    · simp only [right, if_true]
      omega

theorem code_append :
  (({} : Code).append path).code = BitVec.ofNat 64 (wordValue path)
  := by
  induction path using reverseRecOn with
  | nil => rfl
  | append_singleton path b ih =>
    rw [wordValue_concat, append_concat]
    apply eq_of_toNat_eq
    cases b
    · rw [if_neg (by decide), left, ih, toNat_shiftLeft, toNat_ofNat,
        toNat_ofNat, Nat.shiftLeft_eq, Bool.toNat_false]
      omega
    · rw [if_pos rfl, right, ih, toNat_add, toNat_shiftLeft, toNat_ofNat, toNat_ofNat,
        Nat.shiftLeft_eq, Bool.toNat_true, show BitVec.toNat (1 : BitVec 64) = 1 from rfl]
      omega

variable {path}

theorem toNat_code_append (h : path.length ≤ 64) :
  (({} : Code).append path).code.toNat = wordValue path
  := by
  rw [code_append, toNat_ofNat, Nat.mod_eq_of_lt]
  exact Nat.lt_of_lt_of_le (wordValue_lt path) (Nat.pow_le_pow_right (by decide) h)

/-- The bits of the code of a node are the path to it. -/
theorem bits_append (h : path.length ≤ 64) :
  (({} : Code).append path).bits = path
  := by
  rw [bits, toNat_code_append h, length_append, Nat.zero_add, bitsOf_wordValue]

end Code

namespace Huffman

variable {H : HeapOps Node.comparator} {h : Huffman}

/-- The codes of a tree that are kept, with their values, in the order in which they are
entered. -/
def keptCodes (maxCodeLength : ℕ) (node : Node) (currentCode : Code) : List (Code × BitVec 64) :=
  (node.words.map fun p => (currentCode.append p.1, p.2.value)).filter
    fun e => e.1.length ≤ maxCodeLength

open CodeTree

variable {maxCodeLength : ℕ}

theorem keptCodes_eq_nil {currentCode : Code} (hlength : currentCode.length > maxCodeLength)
    (node : Node) :
  keptCodes maxCodeLength node currentCode = []
  := by
  rw [keptCodes, filter_eq_nil_iff]
  intro e he
  obtain ⟨p, -, rfl⟩ := mem_map.mp he
  rw [Code.length_append, decide_eq_true_eq]
  omega

theorem maxCodeLength_foldl_setCode (entries : List (Code × BitVec 64)) (h : Huffman) :
  (entries.foldl (fun h e => h.setCode e.2 e.1) h).maxCodeLength = h.maxCodeLength
  := by
  induction entries generalizing h with
  | nil => rfl
  | cons e entries ih =>
    rw [foldl_cons, ih]
    rfl

/-- The recursion enters the codes that are kept one after another. -/
theorem generateCodes_eq (node : Node) (currentCode : Code) (h : Huffman) :
  generateCodes node currentCode h
    = (keptCodes h.maxCodeLength node currentCode).foldl (fun h e => h.setCode e.2 e.1) h
  := by
  induction node generalizing currentCode h with
  | leaf symbol =>
    rw [generateCodes]
    split_ifs with hlength
    · rw [keptCodes_eq_nil hlength]
      rfl
    · have hkept : keptCodes h.maxCodeLength (.leaf symbol) currentCode
          = [(currentCode, symbol.value)] := by
        simp [keptCodes, words, Code.append, Nat.le_of_not_lt hlength]
      rw [hkept]
      rfl
  | node left right ihleft ihright =>
    rw [generateCodes]
    split_ifs with hlength
    · rw [keptCodes_eq_nil hlength]
      rfl
    · rw [ihleft, ihright, maxCodeLength_foldl_setCode, ← foldl_append, keptCodes, keptCodes,
        keptCodes, words, map_append, filter_append, map_map, map_map]
      rfl

theorem valueToCode_foldl_setCode (entries : List (Code × BitVec 64)) (h : Huffman) :
  (entries.foldl (fun h e => h.setCode e.2 e.1) h).valueToCode
    = entries.foldl (fun (f : BitVec 64 → Option Code) e => update f e.2 (some e.1))
      h.valueToCode
  := (foldl_hom valueToCode fun _ _ => rfl).symm

theorem codeToValue_foldl_setCode (entries : List (Code × BitVec 64)) (h : Huffman) :
  (entries.foldl (fun h e => h.setCode e.2 e.1) h).codeToValue
    = entries.foldl
      (fun (f : BitVec 64 → Option (BitVec 64)) e => update f e.1.code (some e.2))
      h.codeToValue
  := (foldl_hom codeToValue fun _ _ => rfl).symm

/-! ### The code maps -/

/-- The code of a value has been kept. -/
def Kept (h : Huffman) (v : BitVec 64) : Prop := (h.encode v).length ≤ h.maxCodeLength

/-- The tables have the codes of a tree whose length is at most the maximum. -/
structure Coded (root : Node) (h : Huffman) : Prop where
  maxCodeLength_le : h.maxCodeLength ≤ 64
  encode : ∀ v, h.Kept v → ∃ p ∈ root.words, p.1.length ≤ h.maxCodeLength ∧ p.2.value = v
    ∧ h.encode v = ({} : Code).append p.1
  kept : ∀ p ∈ root.words, p.1.length ≤ h.maxCodeLength → h.Kept p.2.value
  decode : ∀ p ∈ root.words, p.1.length ≤ h.maxCodeLength →
    ∃ q ∈ root.words, q.1.length ≤ h.maxCodeLength
      ∧ (({} : Code).append q.1).code = (({} : Code).append p.1).code
      ∧ h.decode (({} : Code).append p.1).code = .ok q.2.value

theorem mem_keptCodes {root : Node} {e : Code × BitVec 64} :
  e ∈ keptCodes maxCodeLength root {}
    ↔ ∃ p ∈ root.words, p.1.length ≤ maxCodeLength ∧ e = (({} : Code).append p.1, p.2.value)
  := by
  rw [keptCodes, mem_filter, mem_map]
  constructor
  · rintro ⟨⟨p, hp, rfl⟩, hlength⟩
    rw [Code.length_append, Nat.zero_add, decide_eq_true_eq] at hlength
    exact ⟨p, hp, hlength, rfl⟩
  · rintro ⟨p, hp, hlength, rfl⟩
    refine ⟨⟨p, hp, rfl⟩, ?_⟩
    rw [Code.length_append, Nat.zero_add, decide_eq_true_eq]
    exact hlength

theorem generateCodes_coded (root : Node) (hmax : h.maxCodeLength ≤ 64)
    (hvalues : h.valueToCode = fun _ => none) (hcodes : h.codeToValue = fun _ => none) :
  Coded root (generateCodes root {} h)
  := by
  rw [generateCodes_eq]
  generalize hentries : keptCodes h.maxCodeLength root {} = entries
  have hmem (e : Code × BitVec 64) : e ∈ entries ↔ ∃ p ∈ root.words,
      p.1.length ≤ h.maxCodeLength ∧ e = (({} : Code).append p.1, p.2.value) := by
    rw [← hentries]
    exact mem_keptCodes
  have hvalue := foldl_update_cases Prod.snd Prod.fst entries h.valueToCode
  have hcode := foldl_update_cases (fun e : Code × BitVec 64 => e.1.code) Prod.snd entries
    h.codeToValue
  rw [← valueToCode_foldl_setCode, hvalues] at hvalue
  rw [← codeToValue_foldl_setCode, hcodes] at hcode
  have hmax' := maxCodeLength_foldl_setCode entries h
  generalize entries.foldl (fun h e => h.setCode e.2 e.1) h = h' at *
  rw [← hmax'] at hmax hmem
  refine ⟨hmax, ?_, ?_, ?_⟩
  · intro v hkept
    rcases hvalue v with ⟨e, he, rfl, hv⟩ | ⟨-, hv⟩
    · obtain ⟨p, hp, hlength, rfl⟩ := (hmem e).mp he
      exact ⟨p, hp, hlength, rfl, by rw [encode, hv]⟩
    · rw [Kept, encode, hv] at hkept
      exact absurd hkept (by dsimp only; omega)
  · intro p hp hlength
    rcases hvalue p.2.value with ⟨e, he, -, hv⟩ | ⟨hnone, -⟩
    · obtain ⟨q, -, hlength', rfl⟩ := (hmem e).mp he
      rw [Kept, encode, hv]
      rw [Code.length_append, Nat.zero_add]
      exact hlength'
    · exact absurd rfl (hnone _ ((hmem _).mpr ⟨p, hp, hlength, rfl⟩))
  · intro p hp hlength
    rcases hcode (({} : Code).append p.1).code with ⟨e, he, hkey, hv⟩ | ⟨hnone, -⟩
    · obtain ⟨q, hq, hlength', rfl⟩ := (hmem e).mp he
      exact ⟨q, hq, hlength', hkey, by rw [decode, hv]⟩
    · exact absurd rfl (hnone _ ((hmem _).mpr ⟨p, hp, hlength, rfl⟩))

/-- The samples are put into the queue. -/
theorem sampleAll_spec (samples : List Symbol) (hheap : IsHeap Node.comparator h.trees) :
  ∃ trees, h.sampleAll H samples = { h with trees } ∧ IsHeap Node.comparator trees
    ∧ trees.Perm ((sampled samples).map .leaf ++ h.trees)
  := by
  induction samples generalizing h with
  | nil => exact ⟨h.trees, rfl, hheap, List.Perm.refl _⟩
  | cons s samples ih =>
    rw [sampleAll, foldl_cons, sample, sampled]
    by_cases hzero : s.frequency = 0
    · rw [if_neg (not_not.mpr hzero), filter_cons_of_neg (by simpa using hzero)]
      exact ih hheap
    · rw [if_pos hzero, filter_cons_of_pos (by simpa using hzero)]
      obtain ⟨hheap', hpush⟩ := push_trees (H := H) hheap (.leaf ⟨s.value, s.frequency⟩)
      obtain ⟨trees, hsamples, htrees, hperm⟩ := ih hheap'
      refine ⟨trees, hsamples, htrees, hperm.trans ?_⟩
      exact (hpush.append_left _).trans perm_middle

variable {samples : List Symbol}

/-- After some values have been sampled, with a frequency other than 0 for one of them at least, the
code maps are those of a tree for which the invariant of the queue holds. -/
theorem generateCodeMaps_induction {I : List Node → Prop} (hmergeable : Mergeable I)
    (hmax : maxCodeLength ≤ 64) (hne : sampled samples ≠ [])
    (hI : I ((sampled samples).map .leaf)) :
  ∃ root h, (sampleAll H samples { maxCodeLength := maxCodeLength }).generateCodeMaps H = .ok h
    ∧ h.maxCodeLength = maxCodeLength ∧ Coded root h ∧ I [root]
  := by
  obtain ⟨trees, hsamples, hheap, hsampled⟩ := sampleAll_spec (H := H)
    (h := { maxCodeLength := maxCodeLength }) samples isHeap_nil
  rw [append_nil] at hsampled
  have htrees : trees ≠ [] := by
    rintro rfl
    exact hne (map_eq_nil_iff.mp (nil_perm.mp hsampled))
  obtain ⟨root, rest, hbuild, hroot⟩ := buildTree_induction (H := H)
    (h := { maxCodeLength := maxCodeLength, trees := trees }) hmergeable hheap htrees
    (hmergeable.perm _ _ hsampled.symm hI)
  refine ⟨root, _, ?_, ?_, generateCodes_coded root
    (h := { maxCodeLength := maxCodeLength, trees := rest }) hmax rfl rfl, hroot⟩
  · rw [hsamples, generateCodeMaps]
    rw [hbuild, ok_bind]
    rfl
  · rw [generateCodes_eq, maxCodeLength_foldl_setCode]

/-- The tree that is built has the samples at its leaves. -/
theorem generateCodeMaps_spec (hmax : maxCodeLength ≤ 64) (hne : sampled samples ≠ []) :
  ∃ root h, (sampleAll H samples { maxCodeLength := maxCodeLength }).generateCodeMaps H = .ok h
    ∧ h.maxCodeLength = maxCodeLength ∧ Coded root h ∧ root.leaves.Perm (sampled samples)
  := by
  have hmergeable : Mergeable fun l => (l.flatMap leaves).Perm (sampled samples) := by
    constructor
    · intro l l' hl h
      exact (hl.flatMap_right _).symm.trans h
    · intro left right rest _ _ h
      rw [List.flatMap_cons, List.flatMap_cons, ← List.append_assoc] at h
      exact (List.perm_append_comm.append_right _).trans h
  have hinit : (((sampled samples).map leaf).flatMap leaves).Perm
      (sampled samples) := by
    rw [List.flatMap_map]
    simp [leaves]
  obtain ⟨root, h, hok, hlength, hcoded, hroot⟩ :=
    generateCodeMaps_induction (H := H) hmergeable hmax hne hinit
  rw [List.flatMap_cons, List.flatMap_nil, List.append_nil] at hroot
  exact ⟨root, h, hok, hlength, hcoded, hroot⟩

/-! ### Decoding -/

/-- No code that is kept is the start of another one. -/
def PrefixFree (h : Huffman) : Prop :=
  ∀ v w, h.Kept v → h.Kept w → (h.encode v).bits <+: (h.encode w).bits → v = w

/-- Decoding inverts encoding for the codes that are kept, and none of them is the start of another
one. -/
structure Inverts (h : Huffman) : Prop where
  decode_encode : ∀ v, h.Kept v → h.decode (h.encode v).code = .ok v
  prefixFree : h.PrefixFree

/-- No code that is kept is another one with zeros in front. -/
def Separated (h : Huffman) : Prop :=
  ∀ v w, h.Kept v → h.Kept w → ∀ k,
    (h.encode w).bits = List.replicate k false ++ (h.encode v).bits → v = w

variable {root : Node}

section

variable (hcoded : Coded root h)

include hcoded

variable {v w : BitVec 64}

/-- The code word of a value that is kept. -/
theorem Coded.exists_word (hkept : h.Kept v) :
  ∃ p ∈ root.words, p.1.length ≤ h.maxCodeLength ∧ p.2.value = v ∧ (h.encode v).bits = p.1
    ∧ (h.encode v).code = (({} : Code).append p.1).code
  := by
  obtain ⟨p, hp, hlength, hv, hencode⟩ := hcoded.encode v hkept
  rw [hencode]
  exact ⟨p, hp, hlength, hv, Code.bits_append (hlength.trans hcoded.maxCodeLength_le), rfl⟩

/-- Two codes with one number differ in the zeros in front. -/
theorem Coded.bits_of_code_eq (hv : h.Kept v) (hw : h.Kept w)
    (hcode : (h.encode v).code = (h.encode w).code) :
  ∃ k, (h.encode w).bits = replicate k false ++ (h.encode v).bits
    ∨ (h.encode v).bits = replicate k false ++ (h.encode w).bits
  := by
  obtain ⟨p, -, hp, -, hpbits, hpcode⟩ := hcoded.exists_word hv
  obtain ⟨q, -, hq, -, hqbits, hqcode⟩ := hcoded.exists_word hw
  have hvalue : wordValue p.1 = wordValue q.1 := by
    rw [← Code.toNat_code_append (hp.trans hcoded.maxCodeLength_le),
      ← Code.toNat_code_append (hq.trans hcoded.maxCodeLength_le), ← hpcode, ← hqcode, hcode]
  rw [hpbits, hqbits]
  rcases Nat.le_total p.1.length q.1.length with hle | hle
  · exact ⟨_, .inl (eq_of_wordValue hvalue hle)⟩
  · exact ⟨_, .inr (eq_of_wordValue hvalue.symm hle)⟩

/-- Zeros in front of a code do not change its number. -/
theorem Coded.code_of_bits_eq (hv : h.Kept v) (hw : h.Kept w) {k : ℕ}
    (hbits : (h.encode w).bits = replicate k false ++ (h.encode v).bits) :
  (h.encode v).code = (h.encode w).code
  := by
  obtain ⟨p, -, -, -, hpbits, hpcode⟩ := hcoded.exists_word hv
  obtain ⟨q, -, -, -, hqbits, hqcode⟩ := hcoded.exists_word hw
  rw [hpcode, hqcode, Code.code_append, Code.code_append, ← hqbits, hbits,
    wordValue_replicate_append, hpbits]

theorem Coded.prefixFree :
  h.PrefixFree
  := by
  intro v w hv hw hstart
  obtain ⟨p, hp, -, rfl, hpbits, -⟩ := hcoded.exists_word hv
  obtain ⟨q, hq, -, rfl, hqbits, -⟩ := hcoded.exists_word hw
  rw [hpbits, hqbits] at hstart
  rw [eq_of_isPrefix hp hq hstart]

/-- The code maps invert each other exactly if no code that is kept is another one with zeros in
front. -/
theorem Coded.inverts_iff (hnodup : (root.leaves.map Symbol.value).Nodup) :
  h.Inverts ↔ h.Separated
  := by
  rw [← map_snd_words, map_map] at hnodup
  have hunique {p q : List Bool × Symbol} (hp : p ∈ root.words) (hq : q ∈ root.words)
      (hvalue : p.2.value = q.2.value) : p = q := inj_on_of_nodup_map hnodup hp hq hvalue
  constructor
  · intro hinverts v w hv hw k hbits
    have hdecode := hinverts.decode_encode v hv
    rw [hcoded.code_of_bits_eq hv hw hbits, hinverts.decode_encode w hw] at hdecode
    exact (Except.ok.inj hdecode).symm
  · intro hzeros
    refine ⟨?_, hcoded.prefixFree⟩
    intro v hv
    obtain ⟨p, hp, hlength, -, -, hpcode⟩ := hcoded.exists_word hv
    obtain ⟨q, hq, hlength', hcode, hdecode⟩ := hcoded.decode p hp hlength
    have hw := hcoded.kept q hq hlength'
    obtain ⟨q', hq', -, hvalue, -, hqcode⟩ := hcoded.exists_word hw
    rw [hunique hq' hq hvalue] at hqcode
    have hcode' : (h.encode v).code = (h.encode q.2.value).code := by
      rw [hpcode, hqcode, hcode]
    rw [hpcode, hdecode]
    rcases hcoded.bits_of_code_eq hv hw hcode' with ⟨k, hbits | hbits⟩
    · rw [hzeros v _ hv hw k hbits]
    · rw [hzeros _ v hw hv k hbits]

end

/-- Without a sample the top of an empty queue is read. -/
theorem generateCodeMaps_of_nil (hnil : sampled samples = []) :
  (sampleAll H samples { maxCodeLength := maxCodeLength }).generateCodeMaps H = .error .outOfBounds
  := by
  obtain ⟨trees, hsamples, -, hperm⟩ := sampleAll_spec (H := H)
    (h := { maxCodeLength := maxCodeLength }) samples isHeap_nil
  rw [hnil] at hperm
  rw [hsamples, perm_nil.mp hperm]
  rfl

theorem make_eq_ok {maxCodeLength : BitVec 64} (hmake : make maxCodeLength = .ok h) :
  (maxCodeLength.setWidth 32).toNat ≤ 64
    ∧ h = { maxCodeLength := (maxCodeLength.setWidth 32).toNat }
  := by
  rw [make, fatalIf] at hmake
  split_ifs at hmake with hlength
  · cases hmake
  · cases hmake
    exact ⟨by simpa using hlength, rfl⟩

/-- After values have been sampled, all of them different, code maps are generated that invert each
other exactly if some value has a frequency other than 0, and no code that is kept is another one
with zeros in front. In any case no code that is kept is the start of another one. -/
theorem decode_encode_iff (H : HeapOps Node.comparator) {maxCodeLength : BitVec 64}
    (hmake : make maxCodeLength = .ok h) {samples : List Symbol}
    (hdistinct : (samples.map Symbol.value).Nodup) :
  (∀ h', (h.sampleAll H samples).generateCodeMaps H = .ok h' → h'.PrefixFree)
    ∧ ((∃ h', (h.sampleAll H samples).generateCodeMaps H = .ok h' ∧ h'.Inverts)
      ↔ (∃ s ∈ samples, s.frequency ≠ 0)
        ∧ ∀ h', (h.sampleAll H samples).generateCodeMaps H = .ok h' → h'.Separated)
  := by
  obtain ⟨hmax, rfl⟩ := make_eq_ok hmake
  by_cases hnil : sampled samples = []
  · rw [generateCodeMaps_of_nil hnil]
    refine ⟨?_, ?_, ?_⟩
    · rintro h' ⟨⟩
    · rintro ⟨h', hok, -⟩
      cases hok
    · rintro ⟨⟨s, hs, hfrequency⟩, -⟩
      have hmem : s ∈ sampled samples := mem_filter.mpr ⟨hs, by simpa using hfrequency⟩
      rw [hnil] at hmem
      cases hmem
  · obtain ⟨root, h', hok, -, hcoded, hleaves⟩ := generateCodeMaps_spec (H := H) hmax hnil
    have hnodup : (root.leaves.map Symbol.value).Nodup := by
      rw [(hleaves.map Symbol.value).nodup_iff]
      exact hdistinct.sublist (filter_sublist.map Symbol.value)
    have hiff := hcoded.inverts_iff hnodup
    rw [hok]
    refine ⟨?_, ?_, ?_⟩
    · rintro h'' ⟨⟩
      exact hcoded.prefixFree
    · rintro ⟨h'', hok', hinverts⟩
      cases hok'
      obtain ⟨s, hs⟩ := exists_mem_of_ne_nil _ hnil
      obtain ⟨hs, hfrequency⟩ := mem_filter.mp hs
      refine ⟨⟨s, hs, by simpa using hfrequency⟩, ?_⟩
      intro h'' hok'
      cases hok'
      exact hiff.mp hinverts
    · rintro ⟨-, hseparated⟩
      exact ⟨h', rfl, hiff.mpr (hseparated h' rfl)⟩

/-- The queue that sifts. -/
def binaryHeap : HeapOps Node.comparator := Lib.binaryHeap Node.comparator_eq_true

/-- Two values, whose codes are 1 and 0. -/
theorem decode_encode_iff_two :
  ∃ h, make 8 = .ok h
    ∧ ∃ h', (h.sampleAll binaryHeap [⟨10, 1⟩, ⟨20, 2⟩]).generateCodeMaps binaryHeap = .ok h'
      ∧ h'.Inverts
  := by
  have hmake : make 8 = .ok { maxCodeLength := 8 } := rfl
  refine ⟨_, hmake, (decode_encode_iff binaryHeap hmake (by decide)).2.mpr
    ⟨⟨⟨10, 1⟩, by simp, by decide⟩, ?_⟩⟩
  intro h' hok
  have hcodes : ∃ h', (sampleAll binaryHeap [⟨10, 1⟩, ⟨20, 2⟩]
      { maxCodeLength := 8 }).generateCodeMaps binaryHeap = .ok h' ∧ h'.maxCodeLength = 8
        ∧ h'.encode 10 = { code := 0, length := 1 } ∧ h'.encode 20 = { code := 1, length := 1 }
        ∧ h'.valueToCode = update (update (fun _ => none) 20
          (some { code := 1, length := 1 })) 10 (some { code := 0, length := 1 }) :=
    ⟨_, rfl, rfl, rfl, rfl, rfl⟩
  obtain ⟨h'', hok', hmax, h10, h20, hvalues⟩ := hcodes
  rw [hok] at hok'
  cases hok'
  have hkept (v : BitVec 64) (hv : h'.Kept v) : v = 10 ∨ v = 20 := by
    by_contra hother
    push Not at hother
    rw [Kept, encode, hvalues, update_of_ne hother.1, update_of_ne hother.2, hmax] at hv
    exact absurd hv (by decide)
  intro v w hv hw k hbits
  have hlast := congrArg getLast? hbits
  rcases hkept v hv with rfl | rfl <;> rcases hkept w hw with rfl | rfl
  · rfl
  · rw [h10, h20] at hlast
    simp [Code.bits, bitsOf] at hlast
  · rw [h10, h20] at hlast
    simp [Code.bits, bitsOf] at hlast
  · rfl

/-- Three values, of which the last has the code 1. The code of the second one is 01, and it is the
one that 1 is decoded to. -/
theorem decodes_other_value :
  ∃ h h', make 8 = .ok h
    ∧ (h.sampleAll binaryHeap [⟨10, 1⟩, ⟨20, 1⟩, ⟨30, 3⟩]).generateCodeMaps binaryHeap = .ok h'
    ∧ h'.encode 30 = { code := 1, length := 1 } ∧ h'.encode 20 = { code := 1, length := 2 }
    ∧ h'.decode 1 = .ok 20
  := ⟨_, _, rfl, rfl, rfl, rfl, rfl⟩

end Huffman

end Gem5Arc
