import Gem5Arc.Cache.MSHRTargets

/-!
# The flags of a target list

The flags of a list of targets are updated by `add` and computed again by `populateFlags`
(`mem/cache/mshr.cc`). A write with special flags is recorded if it comes first, which is tested as
`empty()`. While the flags are computed again the list is not empty.
-/

namespace Gem5Arc.MSHR.TargetList

open List

/-- Calls of `add` with the data of targets. -/
def addAll (adds : List Target) (ts : TargetList) : Except Fault TargetList :=
  adds.foldlM
    (fun ts t => ts.add t.pkt t.readyTime t.order t.source t.markedPending t.allocOnFill) ts

/-- The packet writes bytes of the block that are only recorded while the list is empty. -/
def Special (blkSize : ℕ) (pkt : Pkt) : Prop :=
  pkt.has .isWrite = true ∧ pkt.isMaskedWrite = false ∧ pkt.noMerge = true ∧ 0 < pkt.req.size
    ∧ 0 < blkSize

variable {ts ts' : TargetList} {adds full : List Target} {a : Target}

theorem updateWriteFlags_relist {pkt : Pkt} (hfull : full ≠ [])
    (hrec : ts.list ≠ [] ∨ ¬Special ts.writesBitmap.length pkt)
    (h : ts.updateWriteFlags pkt = .ok ts') :
  updateWriteFlags pkt { ts with list := full } = .ok { ts' with list := full }
  := by
  unfold updateWriteFlags at h ⊢
  split_ifs at h with hwhole hmerge hwrite
  · cases h
    exact if_pos hwhole
  · cases h
    exact (if_neg hwhole).trans ((if_pos hmerge).trans (if_pos hwrite))
  · obtain ⟨bitmap, hbitmap, h⟩ := bind_eq_ok.mp h
    cases h
    have hmerged : mergedWrites pkt { ts with list := full } = .ok bitmap := by
      unfold mergedWrites fillWrites at hbitmap ⊢
      rcases hrec with hne | hrec
      · simp only [isEmpty_eq_false_iff.mpr hne] at hbitmap
        simp only [isEmpty_eq_false_iff.mpr hfull]
        exact hbitmap
      · have hpos : 0 < ts.writesBitmap.length := by
          rw [length_pos_iff]
          intro hnil
          rw [isWholeLineWrite, hnil] at hwhole
          exact hwhole rfl
        have hzero (hmasked : pkt.isMaskedWrite = false) (hflags : pkt.noMerge = true) :
            pkt.req.size = 0 := by
          by_contra hsize
          exact hrec ⟨by simpa using hwrite, hmasked, hflags, Nat.pos_of_ne_zero hsize, hpos⟩
        cases hmasked : pkt.isMaskedWrite with
        | true => simpa [hmasked] using hbitmap
        | false =>
          cases hflags : pkt.noMerge with
          | true =>
            simp [hmasked, hflags, hzero] at hbitmap
            split_ifs at hbitmap <;> simpa [hmasked, hflags, hfull] using hbitmap
          | false => simpa [hmasked, hflags] using hbitmap
    refine (if_neg hwhole).trans ((if_pos hmerge).trans ((if_neg hwrite).trans ?_))
    rw [hmerged]
    rfl
  · cases h
    exact (if_neg hwhole).trans (if_neg hmerge)

/-- An update reads the list only to see whether it is empty, which matters to a special write. -/
theorem updateFlags_relist (hfull : full ≠ [])
    (hrec : ts.list ≠ [] ∨ (a.source = .fromCPU → ¬Special ts.writesBitmap.length a.pkt))
    (h : ts.updateFlags a.pkt a.source a.allocOnFill = .ok ts') :
  updateFlags a.pkt a.source a.allocOnFill { ts with list := full }
    = .ok { ts' with list := full }
  := by
  unfold updateFlags at h ⊢
  split_ifs at h ⊢ with hsnoop hprefetch
  · cases h
    rfl
  · obtain ⟨writable, hwritable, h⟩ := bind_eq_ok.mp h
    cases h
    rw [hwritable]
    rfl
  · obtain ⟨writable, hwritable, h⟩ := bind_eq_ok.mp h
    rw [hwritable, ok_bind]
    refine updateWriteFlags_relist hfull ?_ h
    refine hrec.imp_right fun hspecial => hspecial ?_
    cases hsource : a.source with
    | fromCPU => rfl
    | fromSnoop => exact absurd hsource hsnoop
    | fromPrefetcher => exact absurd hsource hprefetch

/-- Additions to a list that is not empty update the flags as the new targets do in any such
list. -/
theorem addAll_relist (hne : ts.list ≠ []) (h : addAll adds ts = .ok ts') :
  ∃ l, ts'.list = ts.list ++ l ∧ ∀ full : List Target, full ≠ [] →
    l.foldlM (fun ts t => updateFlags t.pkt t.source t.allocOnFill ts) { ts with list := full }
      = .ok { ts' with list := full }
  := by
  induction adds generalizing ts with
  | nil =>
    cases h
    exact ⟨[], by simp, fun _ _ => rfl⟩
  | cons a adds ih =>
    obtain ⟨ts₁, hadd, h⟩ := bind_eq_ok.mp h
    obtain ⟨ts₂, hupdate, hadd⟩ := bind_eq_ok.mp hadd
    cases hadd
    obtain ⟨l, hlist, hfold⟩ := ih (by simp) h
    rw [(updateFlags_updated hupdate).list, append_assoc] at hlist
    refine ⟨_, hlist, fun full hfull => ?_⟩
    rw [singleton_append, foldlM_cons, updateFlags_relist hfull (.inl hne) hupdate]
    exact hfold full hfull

theorem updateWriteFlags_of_unmerged {pkt : Pkt} (hmerge : ts.canMergeWrites = false) :
  ts.updateWriteFlags pkt = .ok ts
  := by
  rw [updateWriteFlags, hmerge]
  simp

/-- Once writes cannot be merged, an update does not read which bytes are written. -/
theorem updateFlags_rewritten (hmerge : ts.canMergeWrites = false) (bitmap : List Bool)
    (h : ts.updateFlags a.pkt a.source a.allocOnFill = .ok ts') :
  updateFlags a.pkt a.source a.allocOnFill { ts with writesBitmap := bitmap }
    = .ok { ts' with writesBitmap := bitmap }
  := by
  unfold updateFlags at h ⊢
  split_ifs at h ⊢
  · cases h
    rfl
  · obtain ⟨writable, hwritable, h⟩ := bind_eq_ok.mp h
    cases h
    rw [hwritable]
    rfl
  · obtain ⟨writable, hwritable, h⟩ := bind_eq_ok.mp h
    cases (updateWriteFlags_of_unmerged (by exact hmerge)).symm.trans h
    rw [hwritable]
    exact updateWriteFlags_of_unmerged hmerge

theorem foldlM_rewritten {l : List Target} (hmerge : ts.canMergeWrites = false) (bitmap : List Bool)
    (h : l.foldlM (fun ts t => updateFlags t.pkt t.source t.allocOnFill ts) ts = .ok ts') :
  l.foldlM (fun ts t => updateFlags t.pkt t.source t.allocOnFill ts)
      { ts with writesBitmap := bitmap }
    = .ok { ts' with writesBitmap := bitmap }
  := by
  induction l generalizing ts with
  | nil =>
    cases h
    rfl
  | cons a l ih =>
    obtain ⟨ts₁, hupdate, h⟩ := bind_eq_ok.mp h
    have hmerge₁ := ((updateFlags_updated hupdate).unmerged hmerge).1
    exact bind_eq_ok.mpr ⟨_, updateFlags_rewritten hmerge bitmap hupdate, ih hmerge₁ h⟩

/-- The bytes of a special write are recorded when the list is empty, and only then. -/
theorem updateFlags_special {blkSize : ℕ} (hsource : a.source = .fromCPU)
    (ha : Special blkSize a.pkt)
    (h : updateFlags a.pkt a.source a.allocOnFill (init blkSize {}) = .ok ts) :
  ts.canMergeWrites = false ∧ true ∈ ts.writesBitmap ∧ ∀ full : List Target, full ≠ [] →
    updateFlags a.pkt a.source a.allocOnFill { init blkSize {} with list := full }
      = .ok { ts with list := full, writesBitmap := replicate blkSize false }
  := by
  obtain ⟨hwrite, hmasked, hflags, hsize, hpos⟩ := ha
  have hwhole : (replicate blkSize false).all id = false := by
    simp
    omega
  unfold updateFlags updateWriteFlags isWholeLineWrite mergedWrites fillWrites at h ⊢
  simp only [hsource, hwrite, hmasked, hflags, init, resetFlags, length_replicate, hwhole,
    reduceCtorEq, if_false] at h ⊢
  obtain ⟨writable, hwritable, h⟩ := bind_eq_ok.mp h
  obtain ⟨bitmap, hbitmap, h⟩ := bind_eq_ok.mp h
  cases h
  simp only [isEmpty_nil, Bool.not_false, Bool.true_or, Bool.and_self, if_true] at hbitmap
  split_ifs at hbitmap
  cases hbitmap
  refine ⟨rfl, ?_, ?_⟩
  · simp
    omega
  · intro full hfull
    simp [hwritable, hfull]

/-- Computing the flags again leaves all but the written bytes as the additions did. And it leaves
these exactly when the first target is not a special write. -/
theorem populateFlags_iff (blkSize : ℕ) (adds : List Target) (ts : TargetList)
    (h : addAll adds (init blkSize {}) = .ok ts) :
  (∃ bitmap, ts.populateFlags = .ok { ts with writesBitmap := bitmap })
    ∧ (ts.populateFlags = .ok ts
      ↔ ∀ a ∈ adds.head?, a.source = .fromCPU → ¬Special blkSize a.pkt)
  := by
  cases adds with
  | nil =>
    cases h
    simp [populateFlags, init, resetFlags]
  | cons a adds =>
    obtain ⟨ts₁, hadd, h⟩ := bind_eq_ok.mp h
    obtain ⟨ts₀, hupdate, hadd⟩ := bind_eq_ok.mp hadd
    cases hadd
    obtain ⟨l, hlist, hfold⟩ := addAll_relist (by simp) h
    have hfull : ts.list ≠ [] := by simp [hlist]
    have hrest := hfold ts.list hfull
    have hkept := foldlM_updated hrest
    have hfirst := updateFlags_updated hupdate
    have hreset : ts.resetFlags = { init blkSize {} with list := ts.list } := by
      have hsize : ts.blkSize = blkSize := hkept.blkSize.trans hfirst.blkSize
      have hlength : ts.writesBitmap.length = blkSize := by
        rw [hkept.length, hfirst.length]
        simp [init, resetFlags]
      simp [resetFlags, init, hsize, hlength]
    rw [hfirst.list] at hlist
    have hpopulate : ts.populateFlags
        = updateFlags a.pkt a.source a.allocOnFill ts.resetFlags >>= fun u =>
          l.foldlM (fun ts t => updateFlags t.pkt t.source t.allocOnFill ts) u := by
      rw [populateFlags, hlist]
      rfl
    simp only [hpopulate, hreset, head?_cons, Option.mem_some_iff, forall_eq']
    by_cases hspecial : a.source = .fromCPU ∧ Special blkSize a.pkt
    · obtain ⟨hsource, ha⟩ := hspecial
      obtain ⟨hmerge, hrecorded, hagain⟩ := updateFlags_special hsource ha hupdate
      rw [bind_eq_ok.mpr ⟨_, hagain ts.list hfull, foldlM_rewritten (by exact hmerge) _ hrest⟩]
      refine ⟨⟨_, rfl⟩, iff_of_false ?_ fun hnot => hnot hsource ha⟩
      intro hsame
      have hbitmap := congrArg writesBitmap (Except.ok.inj hsame)
      rw [← (hkept.unmerged hmerge).2, ← hbitmap] at hrecorded
      simp at hrecorded
    · have hlength : (init blkSize {}).writesBitmap.length = blkSize := by
        simp [init, resetFlags]
      rw [not_and] at hspecial
      rw [updateFlags_relist hfull (.inr (by rwa [hlength])) hupdate]
      exact ⟨⟨_, hrest⟩, iff_of_true hrest hspecial⟩

/-- A write to four bytes, with flags that prevent the merging of writes or without. -/
def sampleWrite (noMerge : Bool) : Target :=
  ⟨{ samplePkt 0 .writeReq with noMerge }, 0, 0, .fromCPU, false, true⟩

theorem populateFlags_iff_later :
  ∃ ts, addAll [sampleWrite false, sampleWrite true] (init 8 {}) = .ok ts
    ∧ ts.populateFlags = .ok ts
  := by
  have hadd : addAll [sampleWrite false, sampleWrite true] (init 8 {}) = .ok _ := rfl
  refine ⟨_, hadd, (populateFlags_iff 8 _ _ hadd).2.mpr ?_⟩
  rintro a ⟨⟩ - ⟨-, -, hflags, -⟩
  cases hflags

theorem populateFlags_forgets :
  ∃ ts ts', addAll [sampleWrite true] (init 4 {}) = .ok ts ∧ ts.populateFlags = .ok ts'
    ∧ ts.isWholeLineWrite = true ∧ ts'.isWholeLineWrite = false
  := ⟨_, _, rfl, rfl, rfl, rfl⟩

end Gem5Arc.MSHR.TargetList
