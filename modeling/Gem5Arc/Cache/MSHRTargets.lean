import Gem5Arc.Cache.MSHR
import Gem5Arc.Lib.Run

/-!
# The order of targets

The operations on a miss status holding register move its targets between two lists and out of
them. What one operation does to them is said once (`MSHR.Serves`): it takes some targets out and
adds some, and the requests of the CPU side keep their order. So in every run those that were taken
out, those in the targets, and the deferred ones are, in this order, all that were added
(`MSHR.targets_in_order`).
-/

namespace Gem5Arc

open List

namespace MSHR

/-! ### Runs -/

/-- What a target is from the moment it is added: its packet, times and order. -/
abbrev Entry : Type := ℕ × Tick × ℕ × Bool

def Target.entry (t : Target) : Entry :=
  (t.pkt.id, t.readyTime, t.order, t.allocOnFill)

/-- The targets from the CPU side, in order. -/
def entries (l : List Target) : List Entry :=
  (l.filter fun t => t.source = .fromCPU).map Target.entry

/-- A register, with the targets that were taken out of it. -/
structure History where
  mshr : MSHR := {}
  extracted : List Target := []

/-- The targets that were taken out, those of the register, and the deferred ones. -/
def History.all (s : History) : List Target :=
  s.extracted ++ s.mshr.targets.list ++ s.mshr.deferredTargets.list

inductive Op where
  | allocate (blkAddr : Addr) (blkSize : ℕ) (pkt : Pkt) (whenReady : Tick) (order : ℕ)
      (allocOnFill : Bool)
  | allocateTarget (pkt : Pkt) (whenReady : Tick) (order : ℕ) (allocOnFill : Bool)
  | handleSnoop (pkt : Pkt) (order copyId : ℕ) (curTick : Tick)
  | markInService (pendingModifiedResp : Bool)
  | markPending
  | setForward (isForward : Bool)
  | markDownstreamPending
  | clearDownstreamPending
  | extractServiceableTargets (cmd : MemCmd)
  | promoteDeferredTargets (curTick : Tick)
  | promoteReadable
  | promoteWritable
  | popTarget
  | deallocate

/-- The entry that an operation adds for the CPU side. -/
def Op.adds : Op → List Entry
  | allocate _ _ pkt whenReady order allocOnFill =>
    if pkt.cmd = .hardPFReq then [] else [(pkt.id, whenReady, order, allocOnFill)]
  | allocateTarget pkt whenReady order allocOnFill => [(pkt.id, whenReady, order, allocOnFill)]
  | _ => []

/-- The operation on the register, and the targets it takes out. -/
def Op.run : Op → MSHR → Except Fault (List Target × MSHR)
  | allocate blkAddr blkSize pkt whenReady order allocOnFill, m =>
    Prod.mk [] <$> m.allocate blkAddr blkSize pkt whenReady order allocOnFill
  | allocateTarget pkt whenReady order allocOnFill, m =>
    Prod.mk [] <$> m.allocateTarget pkt whenReady order allocOnFill
  | handleSnoop pkt order copyId curTick, m =>
    (fun out => ([], out.2.2)) <$> m.handleSnoop pkt order copyId curTick
  | markInService pendingModifiedResp, m => Prod.mk [] <$> m.markInService pendingModifiedResp
  | markPending, m => Prod.mk [] <$> m.markPending
  | setForward isForward, m => .ok ([], { m with isForward })
  | markDownstreamPending, m => Prod.mk [] <$> m.markDownstreamPending
  | clearDownstreamPending, m => Prod.mk [] <$> m.clearDownstreamPending
  | extractServiceableTargets cmd, m =>
    (fun out => (out.1.list, out.2)) <$> m.extractServiceableTargets cmd
  | promoteDeferredTargets curTick, m =>
    (fun out => ([], out.2)) <$> m.promoteDeferredTargets curTick
  | promoteReadable, m => Prod.mk [] <$> m.promoteReadable
  | promoteWritable, m => Prod.mk [] <$> m.promoteWritable
  | popTarget, m => Prod.mk (m.targets.list.take 1) <$> m.popTarget
  | deallocate, m => Prod.mk [] <$> m.deallocate

def step (op : Op) (s : History) : Except Fault History := do
  let (ready, mshr) ← op.run s.mshr
  pure { mshr, extracted := s.extracted ++ ready }

/-- The operation adds no locked read. -/
def Op.Unlocked : Op → Prop
  | allocate _ _ pkt _ _ _ => pkt.cmd ≠ .lockedRMWReadReq
  | allocateTarget pkt _ _ _ => pkt.cmd ≠ .lockedRMWReadReq
  | handleSnoop pkt _ _ _ => pkt.cmd ≠ .lockedRMWReadReq
  | _ => True

/-! ### Lists of targets -/

/-- No target is a locked read. -/
def Unlocked (l : List Target) : Prop :=
  ∀ t ∈ l, t.pkt.cmd ≠ .lockedRMWReadReq

theorem entries_append (l l' : List Target) :
  entries (l ++ l') = entries l ++ entries l'
  := by
  unfold entries
  rw [filter_append, map_append]

variable {l l' ready stay promoted : List Target} {t : Target} {order copyId : ℕ} {curTick : Tick}
  {cmd : MemCmd} {pred : Target → Except Fault Bool} {op : Op} {s s' : History} {pkt pkt' : Pkt}
  {allocOnFill willRespond : Bool} {new : List Entry} {whenReady : Tick}

theorem unlocked_append :
  Unlocked (l ++ l') ↔ Unlocked l ∧ Unlocked l'
  := by
  unfold Unlocked
  simp only [mem_append, or_imp, forall_and]

theorem entries_cons (t : Target) (l : List Target) :
  entries (t :: l) = entries [t] ++ entries l
  := entries_append [t] l

/-- Requests of the CPU side have an entry. -/
theorem entries_fromCPU (h : t.source = .fromCPU) :
  entries [t] = [t.entry]
  := by
  simp [entries, h]

/-- Prefetches and snoops have none. -/
theorem entries_other (h : t.source ≠ .fromCPU) :
  entries [t] = []
  := by
  simp [entries, h]

/-- Two lists of targets that differ in the state of the targets only. -/
structure Same (l l' : List Target) : Prop where
  entries : entries l' = entries l
  unlocked : Unlocked l → Unlocked l'

theorem Same.refl (l : List Target) :
  Same l l
  := ⟨rfl, id⟩

/-- The first targets may differ in what no entry shows. -/
theorem Same.cons {t' : Target} (hentry : t'.entry = t.entry) (hsource : t'.source = t.source)
    (hcmd : t.pkt.cmd ≠ .lockedRMWReadReq → t'.pkt.cmd ≠ .lockedRMWReadReq) (h : Same l l') :
  Same (t :: l) (t' :: l')
  where
  entries := by
    rw [entries_cons t, entries_cons t', h.entries]
    congr 1
    by_cases hcpu : t.source = .fromCPU
    · rw [entries_fromCPU hcpu, entries_fromCPU (hsource.trans hcpu), hentry]
    · rw [entries_other hcpu, entries_other (by rwa [hsource])]
  unlocked := by
    intro hl
    obtain ⟨ht, hl⟩ := forall_mem_cons.mp hl
    exact forall_mem_cons.mpr ⟨hcmd ht, h.unlocked hl⟩

open TargetList

/-- Which targets are marked as pending is not in the entries. -/
theorem same_clearPending (l : List Target) :
  Same l (clearPending l)
  := by
  induction l with
  | nil => exact .refl _
  | cons t l ih => exact .cons rfl rfl id ih

namespace Pkt

theorem replaceUpgrade_eq (h : pkt.replaceUpgrade = .ok pkt') :
  pkt' = { pkt with cmd := replacement pkt.cmd }
  := by
  exact (Except.ok.inj (assert_bind_eq_ok.mp h).2).symm

/-- No upgrade is replaced by a locked read. -/
theorem replacement_ne_lockedRMWReadReq (h : cmd ≠ .lockedRMWReadReq) :
  replacement cmd ≠ .lockedRMWReadReq
  := by
  unfold replacement
  split
  · simp
  · simp
  · simp
  · exact h

end Pkt

namespace TargetList

variable {ts ts' : TargetList}

/-- What an update of the flags leaves as it is. Once writes cannot be merged, it leaves the written
bytes. -/
structure Updated (ts ts' : TargetList) : Prop where
  list : ts'.list = ts.list
  blkSize : ts'.blkSize = ts.blkSize
  length : ts'.writesBitmap.length = ts.writesBitmap.length
  unmerged : ts.canMergeWrites = false →
    ts'.canMergeWrites = false ∧ ts'.writesBitmap = ts.writesBitmap

/-- Merging a write marks bytes and adds none. -/
theorem mergedWrites_length {bitmap : List Bool} (h : ts.mergedWrites pkt = .ok bitmap) :
  bitmap.length = ts.writesBitmap.length
  := by
  unfold mergedWrites fillWrites at h
  split_ifs at h
  all_goals
    cases h
    try simp only [length_append, length_take, length_replicate, length_drop]
    try omega

theorem updateWriteFlags_updated (h : ts.updateWriteFlags pkt = .ok ts') :
  Updated ts ts'
  := by
  unfold updateWriteFlags at h
  split_ifs at h with hwhole hmerge hwrite
  · cases h
    exact ⟨rfl, rfl, rfl, fun hm => ⟨hm, rfl⟩⟩
  · cases h
    exact ⟨rfl, rfl, rfl, fun _ => ⟨rfl, rfl⟩⟩
  · obtain ⟨bitmap, hbitmap, h⟩ := bind_eq_ok.mp h
    cases h
    refine ⟨rfl, rfl, mergedWrites_length hbitmap, fun hm => ?_⟩
    rw [hm] at hmerge
    cases hmerge
  · cases h
    exact ⟨rfl, rfl, rfl, fun hm => ⟨hm, rfl⟩⟩

variable {source : Source}

/-- The flags are updated without a change of the targets. -/
theorem updateFlags_updated (h : ts.updateFlags pkt source allocOnFill = .ok ts') :
  Updated ts ts'
  := by
  unfold updateFlags at h
  split_ifs at h
  · cases h
    exact ⟨rfl, rfl, rfl, fun hm => ⟨hm, rfl⟩⟩
  · obtain ⟨_, -, h⟩ := bind_eq_ok.mp h
    cases h
    exact ⟨rfl, rfl, rfl, fun hm => ⟨hm, rfl⟩⟩
  · obtain ⟨_, -, h⟩ := bind_eq_ok.mp h
    obtain ⟨hlist, hsize, hlength, hunmerged⟩ := updateWriteFlags_updated h
    exact ⟨hlist, hsize, hlength, hunmerged⟩

/-- So are they by any number of targets. -/
theorem foldlM_updated
    (h : l.foldlM (fun ts t => updateFlags t.pkt t.source t.allocOnFill ts) ts = .ok ts') :
  Updated ts ts'
  := by
  induction l generalizing ts with
  | nil =>
    cases h
    exact ⟨rfl, rfl, rfl, fun hm => ⟨hm, rfl⟩⟩
  | cons t l ih =>
    obtain ⟨ts₁, h₁, h⟩ := bind_eq_ok.mp h
    have hfirst := updateFlags_updated h₁
    have hrest := ih h
    refine ⟨hrest.list.trans hfirst.list, hrest.blkSize.trans hfirst.blkSize,
      hrest.length.trans hfirst.length, fun hm => ?_⟩
    obtain ⟨hm₁, hbitmap⟩ := hfirst.unmerged hm
    rw [← hbitmap]
    exact hrest.unmerged hm₁

theorem populateFlags_list (h : ts.populateFlags = .ok ts') :
  ts'.list = ts.list
  := (foldlM_updated h).list

/-- A target is added at the end of the list. -/
theorem add_list {readyTime : Tick} {markPending : Bool}
    (h : ts.add pkt readyTime order source markPending allocOnFill = .ok ts') :
  ∃ marked, ts'.list = ts.list ++ [⟨pkt, readyTime, order, source, marked, allocOnFill⟩]
  := by
  obtain ⟨ts₁, h₁, h⟩ := bind_eq_ok.mp h
  cases h
  rw [← (updateFlags_updated h₁).list]
  exact ⟨_, rfl⟩

theorem same_mapM (h : (l.mapM fun t => do
      let pkt ← t.pkt.replaceUpgrade
      pure { t with pkt }) = Except.ok l') :
  Same l l'
  := by
  induction l generalizing l' with
  | nil =>
    cases h
    exact .refl _
  | cons t l ih =>
    rw [mapM_cons] at h
    obtain ⟨t', ht, h⟩ := bind_eq_ok.mp h
    obtain ⟨l₁, hl, h⟩ := bind_eq_ok.mp h
    obtain ⟨pkt, hpkt, ht⟩ := bind_eq_ok.mp ht
    cases h
    cases ht
    cases Pkt.replaceUpgrade_eq hpkt
    exact .cons rfl rfl Pkt.replacement_ne_lockedRMWReadReq (ih hl)

/-- Replacing upgrades changes no more than the commands. -/
theorem same_replaceUpgrades (h : ts.replaceUpgrades = .ok ts') :
  Same ts.list ts'.list
  := by
  unfold replaceUpgrades at h
  split_ifs at h
  · cases h
    exact .refl _
  · obtain ⟨l, hl, h⟩ := bind_eq_ok.mp h
    cases h
    exact same_mapM hl

end TargetList

/-! ### What an operation does to the targets -/

/-- An operation takes the targets `ready` out and adds the entries `new`. -/
structure Serves (m : MSHR) (ready : List Target) (m' : MSHR) (new : List Entry) : Prop where
  entries : entries (ready ++ (m'.targets.list ++ m'.deferredTargets.list))
    = entries (m.targets.list ++ m.deferredTargets.list) ++ new
  unlocked : Unlocked (m'.targets.list ++ m'.deferredTargets.list)

variable {m m' : MSHR}

/-- All targets of the register. -/
abbrev Free (m : MSHR) : Prop :=
  Unlocked (m.targets.list ++ m.deferredTargets.list)

/-- One part of an operation after another. -/
theorem Serves.trans {m₁ m₂ m₃ : MSHR} (h : Serves m₁ [] m₂ []) (h' : Serves m₂ [] m₃ []) :
  Serves m₁ [] m₃ []
  where
  entries := by
    have h₁ := h.entries
    have h₂ := h'.entries
    rw [nil_append, append_nil] at h₁ h₂ ⊢
    exact h₂.trans h₁
  unlocked := h'.unlocked

section

variable (hm : m.Free)

include hm

/-- Both lists stay the same up to the state of their targets. -/
theorem serves_of_same (htargets : Same m.targets.list m'.targets.list)
    (hdeferred : Same m.deferredTargets.list m'.deferredTargets.list) :
  Serves m [] m' []
  where
  entries := by
    rw [nil_append, append_nil, entries_append, entries_append, htargets.entries, hdeferred.entries]
  unlocked := by
    rw [Free, unlocked_append] at hm
    exact unlocked_append.mpr ⟨htargets.unlocked hm.1, hdeferred.unlocked hm.2⟩

theorem serves_of_eq (htargets : m'.targets.list = m.targets.list)
    (hdeferred : m'.deferredTargets.list = m.deferredTargets.list) :
  Serves m [] m' []
  := by
  apply serves_of_same hm
  · rw [htargets]
    exact .refl _
  · rw [hdeferred]
    exact .refl _

/-- A target is added after all others from the CPU side. -/
theorem serves_append (ht : t.pkt.cmd ≠ .lockedRMWReadReq) (hnew : entries [t] = new)
    (hlast : new = [] ∨ m.deferredTargets.list = [])
    (htargets : m'.targets.list = m.targets.list ++ [t])
    (hdeferred : m'.deferredTargets.list = m.deferredTargets.list) :
  Serves m [] m' new
  where
  entries := by
    rw [nil_append, htargets, hdeferred, entries_append, entries_append, entries_append, hnew]
    rcases hlast with h | h
    · rw [h, append_nil, append_nil]
    · rw [h]
      simp [MSHR.entries]
  unlocked := by
    rw [Free, unlocked_append] at hm
    rw [htargets, hdeferred, unlocked_append, unlocked_append]
    exact ⟨⟨hm.1, forall_mem_singleton.mpr ht⟩, hm.2⟩

/-- A target is added to the deferred ones. -/
theorem serves_defer (ht : t.pkt.cmd ≠ .lockedRMWReadReq) (hnew : entries [t] = new)
    (htargets : m'.targets.list = m.targets.list)
    (hdeferred : m'.deferredTargets.list = m.deferredTargets.list ++ [t]) :
  Serves m [] m' new
  where
  entries := by
    rw [nil_append, htargets, hdeferred, entries_append, entries_append, entries_append,
      append_assoc, hnew]
  unlocked := by
    rw [Free, unlocked_append] at hm
    rw [htargets, hdeferred, unlocked_append, unlocked_append]
    exact ⟨hm.1, hm.2, forall_mem_singleton.mpr ht⟩

/-- Deferred targets are moved to the end of the targets. -/
theorem serves_promote {promoted' : List Target}
    (hsplit : m.deferredTargets.list = promoted ++ stay) (hsame : Same promoted promoted')
    (htargets : m'.targets.list = m.targets.list ++ promoted')
    (hdeferred : m'.deferredTargets.list = stay) :
  Serves m [] m' []
  where
  entries := by
    rw [nil_append, append_nil, htargets, hdeferred, hsplit, entries_append,
      entries_append, entries_append, entries_append, hsame.entries, append_assoc]
  unlocked := by
    rw [Free, hsplit, unlocked_append, unlocked_append] at hm
    rw [htargets, hdeferred, unlocked_append, unlocked_append]
    exact ⟨⟨hm.1, hsame.unlocked hm.2.1⟩, hm.2.2⟩

/-! ### Adding targets -/

/-- The first target is added to a register that has none. -/
theorem serves_allocate {blkAddr : Addr} {blkSize : ℕ} (hpkt : pkt.cmd ≠ .lockedRMWReadReq)
    (h : m.allocate blkAddr blkSize pkt whenReady order allocOnFill = .ok m') :
  Serves m [] m' (Op.adds (.allocate blkAddr blkSize pkt whenReady order allocOnFill))
  := by
  obtain ⟨hempty, h⟩ := assert_bind_eq_ok.mp h
  obtain ⟨targets, hadd, h⟩ := bind_eq_ok.mp h
  cases h
  obtain ⟨marked, hlist⟩ := add_list hadd
  have hdeferred : m.deferredTargets.list = [] := by
    rw [decide_eq_true_iff, getNumTargets, Nat.add_eq_zero_iff] at hempty
    exact eq_nil_of_length_eq_zero hempty.2
  refine serves_append hm ?_ ?_ (.inr hdeferred) hlist rfl
  · exact hpkt
  · rw [Op.adds]
    split_ifs
    · exact entries_other (by simp)
    · exact entries_fromCPU rfl

/-- A target joins the others only if none is deferred. -/
theorem serves_allocateTarget (hpkt : pkt.cmd ≠ .lockedRMWReadReq)
    (h : m.allocateTarget pkt whenReady order allocOnFill = .ok m') :
  Serves m [] m' (Op.adds (.allocateTarget pkt whenReady order allocOnFill))
  := by
  obtain ⟨-, h⟩ := assert_bind_eq_ok.mp h
  obtain ⟨defers, hdefers, h⟩ := bind_eq_ok.mp h
  cases defers with
  | true =>
    obtain ⟨pkt', hpkt', h⟩ := bind_eq_ok.mp h
    obtain ⟨deferred, hadd, h⟩ := bind_eq_ok.mp h
    cases h
    obtain ⟨marked, hlist⟩ := add_list hadd
    unfold deferredPacket at hpkt'
    split_ifs at hpkt'
    · cases Pkt.replaceUpgrade_eq hpkt'
      refine serves_defer hm ?_ (entries_fromCPU rfl) rfl hlist
      exact Pkt.replacement_ne_lockedRMWReadReq hpkt
    · cases hpkt'
      refine serves_defer hm ?_ (entries_fromCPU rfl) rfl hlist
      exact hpkt
  | false =>
    obtain ⟨targets, hadd, h⟩ := bind_eq_ok.mp h
    cases h
    obtain ⟨marked, hlist⟩ := add_list hadd
    have hempty : m.deferredTargets.list = [] := by
      obtain ⟨front, -, hdefers⟩ := bind_eq_ok.mp hdefers
      by_contra hne
      rw [if_pos (by simp [hne])] at hdefers
      cases hdefers
    refine serves_append hm ?_ (entries_fromCPU rfl) (.inr hempty) hlist rfl
    exact hpkt

/-! ### Snoops -/

/-- A snoop ordered before the miss at most replaces upgrades. -/
theorem serves_snoopBefore (h : m.snoopBefore pkt = .ok m') :
  Serves m [] m' []
  := by
  obtain ⟨needsWritable, -, h⟩ := bind_eq_ok.mp h
  split_ifs at h
  · obtain ⟨targets, ht, h⟩ := bind_eq_ok.mp h
    obtain ⟨deferred, hd, h⟩ := bind_eq_ok.mp h
    cases h
    exact serves_of_same hm (same_replaceUpgrades ht)
      (same_replaceUpgrades hd)
  · cases h
    exact serves_of_eq hm rfl rfl

theorem serves_snoopDeferred (h : m.snoopDeferred pkt = .ok m') :
  Serves m [] m' []
  := by
  obtain ⟨needsWritable, -, h⟩ := bind_eq_ok.mp h
  split_ifs at h
  · obtain ⟨deferred, hd, h⟩ := bind_eq_ok.mp h
    cases h
    exact serves_of_same hm (.refl _) (same_replaceUpgrades hd)
  · cases h
    exact serves_of_eq hm rfl rfl

/-- A snoop to be replayed is added as a target, which has no entry. -/
theorem serves_snoopReplay (hpkt : pkt.cmd ≠ .lockedRMWReadReq)
    (h : m.snoopReplay willRespond pkt order copyId curTick = .ok (pkt', m')) :
  Serves m [] m' []
  := by
  unfold snoopReplay at h
  split_ifs at h
  · obtain ⟨pkt₁, -, h⟩ := bind_eq_ok.mp h
    obtain ⟨targets, hadd, h⟩ := bind_eq_ok.mp h
    obtain ⟨needsWritable, -, h⟩ := bind_eq_ok.mp h
    cases h
    obtain ⟨marked, hlist⟩ := add_list hadd
    refine serves_append hm ?_ (entries_other (by simp)) (.inl rfl) hlist rfl
    exact hpkt
  · cases h
    exact serves_of_eq hm rfl rfl

theorem serves_snoopDowngrade (h : m.snoopDowngrade pkt = .ok (pkt', m')) :
  Serves m [] m' []
  := by
  obtain ⟨needsWritable, -, h⟩ := bind_eq_ok.mp h
  split_ifs at h
  · cases h
    exact serves_of_eq hm rfl rfl
  · cases h
    exact serves_of_eq hm rfl rfl

/-- A snoop ordered after the miss, part by part. -/
theorem serves_snoopAfter (hpkt : pkt.cmd ≠ .lockedRMWReadReq)
    (h : m.snoopAfter pkt order copyId curTick = .ok (willRespond, pkt', m')) :
  Serves m [] m' []
  := by
  obtain ⟨m₁, h₁, h⟩ := bind_eq_ok.mp h
  have hs₁ := serves_snoopDeferred hm h₁
  obtain ⟨front, -, h⟩ := bind_eq_ok.mp h
  split_ifs at h
  · cases h
    exact hs₁
  · obtain ⟨⟨pkt₂, m₂⟩, h₂, h⟩ := bind_eq_ok.mp h
    obtain ⟨⟨pkt₃, m₃⟩, h₃, h⟩ := bind_eq_ok.mp h
    cases h
    have hs₂ := hs₁.trans (serves_snoopReplay hs₁.unlocked hpkt h₂)
    exact hs₂.trans (serves_snoopDowngrade hs₂.unlocked h₃)

/-- A snoop adds no entry. -/
theorem serves_handleSnoop {out : Bool × Pkt × MSHR} (hpkt : pkt.cmd ≠ .lockedRMWReadReq)
    (h : m.handleSnoop pkt order copyId curTick = .ok out) :
  Serves m [] out.2.2 []
  := by
  obtain ⟨needsWritable, -, h⟩ := bind_eq_ok.mp h
  obtain ⟨-, h⟩ := panicIf_bind_eq_ok.mp h
  split_ifs at h
  · obtain ⟨m₁, h₁, h⟩ := bind_eq_ok.mp h
    cases h
    exact serves_snoopBefore hm h₁
  · exact serves_snoopAfter hm hpkt h

end

/-! ### Taking targets out -/

/-- A list is split into two without changing the order of the targets from the CPU side. -/
structure Splits (l ready stay : List Target) : Prop where
  entries : MSHR.entries (ready ++ stay) = MSHR.entries l
  unlocked : Unlocked stay

section

variable (hl : Unlocked l)

include hl

/-- Of the targets after the first, only snoops are taken out. -/
theorem extractSnoops_splits (h : extractSnoops l = .ok (ready, stay)) :
  entries ready = [] ∧ entries stay = entries l ∧ Unlocked stay
  := by
  induction l generalizing ready stay with
  | nil =>
    cases h
    exact ⟨rfl, rfl, hl⟩
  | cons t l ih =>
    have hrest : Unlocked l := (forall_mem_cons.mp hl).2
    rw [extractSnoops] at h
    split_ifs at h with hsource
    · obtain ⟨⟨ready', stay'⟩, hok, h⟩ := bind_eq_ok.mp h
      cases h
      obtain ⟨hready, hstay, hunlocked⟩ := ih hrest hok
      refine ⟨hready, ?_, ?_⟩
      · rw [entries_cons, entries_cons t l, hstay]
      · exact forall_mem_cons.mpr ⟨hl _ mem_cons_self, hunlocked⟩
    · obtain ⟨-, h⟩ := assert_bind_eq_ok.mp h
      obtain ⟨⟨ready', stay'⟩, hok, h⟩ := bind_eq_ok.mp h
      cases h
      obtain ⟨hready, hstay, hunlocked⟩ := ih hrest hok
      rw [entries_cons t l, entries_cons t ready', entries_other hsource, hready]
      exact ⟨rfl, hstay, hunlocked⟩

/-- The first target is taken out, and the snoops with it. -/
theorem extractFirst_splits (h : extractFirst l = .ok (ready, stay)) :
  Splits l ready stay
  := by
  cases l with
  | nil => cases h
  | cons t l =>
    obtain ⟨-, h⟩ := assert_bind_eq_ok.mp h
    rw [if_pos (hl t mem_cons_self)] at h
    obtain ⟨⟨ready', stay'⟩, hok, h⟩ := bind_eq_ok.mp h
    cases h
    obtain ⟨hready, hstay, hunlocked⟩ :=
      extractSnoops_splits (forall_mem_cons.mp hl).2 hok
    refine ⟨?_, hunlocked⟩
    rw [entries_append, entries_cons t l, entries_cons t ready', hready, hstay, append_nil]

/-- Without a locked read, all targets are taken out. -/
theorem extractAll_eq :
  extractAll l = (l, [])
  := by
  induction l with
  | nil => rfl
  | cons t l ih =>
    rw [extractAll, if_neg (hl t mem_cons_self), ih (forall_mem_cons.mp hl).2]

/-- Serviceable targets are taken out in order. -/
theorem serviceable_splits (h : serviceable cmd l = .ok (ready, stay)) :
  Splits l ready stay
  := by
  unfold serviceable at h
  split_ifs at h
  · exact extractFirst_splits hl h
  · rw [extractAll_eq hl] at h
    cases h
    exact ⟨by rw [append_nil], forall_mem_nil _⟩

end

/-- The response serves the targets that are taken out. -/
theorem serves_extract {ready : TargetList} (hm : m.Free)
    (h : m.extractServiceableTargets cmd = .ok (ready, m')) :
  Serves m ready.list m' []
  := by
  have hm' := unlocked_append.mp hm
  obtain ⟨⟨list, stay⟩, hok, h⟩ := bind_eq_ok.mp h
  obtain ⟨ready', hready, h⟩ := bind_eq_ok.mp h
  obtain ⟨targets, htargets, h⟩ := bind_eq_ok.mp h
  cases h
  have hsplits := serviceable_splits hm'.1 hok
  have hlist := populateFlags_list hready
  have hstay := populateFlags_list htargets
  constructor
  · rw [append_nil, hlist, hstay, ← append_assoc, entries_append, hsplits.entries, ← entries_append]
  · rw [hstay]
    exact unlocked_append.mpr ⟨hsplits.unlocked, hm'.2⟩

theorem serves_popTarget (hm : m.Free) (h : m.popTarget = .ok m') :
  Serves m (m.targets.list.take 1) m' []
  := by
  unfold popTarget at h
  split at h
  · cases h
  · rename_i t rest hlist
    cases h
    rw [Free, hlist] at hm
    constructor
    · rw [hlist, append_nil]
      rfl
    · exact (forall_mem_cons.mp hm).2

/-! ### Promoting targets -/

/-- The promoted targets are the first of the deferred ones. -/
theorem promotable_eq {targets deferred : List Target}
    (h : promotable targets deferred = (promoted, stay)) :
  deferred = promoted ++ stay
  := by
  unfold promotable at h
  split at h
  · cases h
    rfl
  · split_ifs at h
    · cases h
      rfl
    · cases h
      rfl
    · rw [span_eq_takeWhile_dropWhile] at h
      cases h
      exact takeWhile_append_dropWhile.symm

theorem serves_promoteDeferredTargets {out : Bool × MSHR} (hm : m.Free)
    (h : m.promoteDeferredTargets curTick = .ok out) :
  Serves m [] out.2 []
  := by
  unfold promoteDeferredTargets at h
  split_ifs at h
  · cases h
    exact serves_of_eq hm rfl rfl
  · obtain ⟨deferred, hd, h⟩ := bind_eq_ok.mp h
    obtain ⟨targets, ht, h⟩ := bind_eq_ok.mp h
    obtain ⟨front, -, h⟩ := bind_eq_ok.mp h
    cases h
    exact serves_promote hm (promotable_eq rfl) (.refl _) (populateFlags_list ht)
      (populateFlags_list hd)

/-- The list is split, not reordered. -/
theorem splitIf_eq (h : splitIf pred l = .ok (promoted, stay)) :
  l = promoted ++ stay
  := by
  induction l generalizing promoted with
  | nil =>
    cases h
    rfl
  | cons t l ih =>
    obtain ⟨b, -, h⟩ := bind_eq_ok.mp h
    cases b with
    | true =>
      obtain ⟨⟨promoted', stay'⟩, hok, h⟩ := bind_eq_ok.mp h
      cases h
      rw [ih hok]
      rfl
    | false =>
      cases h
      rfl

/-- Promoted targets are not pending any more. -/
theorem serves_promoteIf (hm : m.Free) (h : m.promoteIf pred = .ok m') :
  Serves m [] m' []
  := by
  obtain ⟨-, h⟩ := assert_bind_eq_ok.mp h
  obtain ⟨⟨promoted, stay⟩, hsplit, h⟩ := bind_eq_ok.mp h
  obtain ⟨deferred, hd, h⟩ := bind_eq_ok.mp h
  cases h
  exact serves_promote hm (splitIf_eq hsplit) (same_clearPending promoted) rfl
    (populateFlags_list hd)

theorem serves_promoteReadable (hm : m.Free) (h : m.promoteReadable = .ok m') :
  Serves m [] m' []
  := by
  unfold promoteReadable at h
  split_ifs at h
  · cases h
    exact serves_of_eq hm rfl rfl
  · obtain ⟨postInvalidate, -, h⟩ := bind_eq_ok.mp h
    split_ifs at h
    · exact serves_promoteIf hm h
    · cases h
      exact serves_of_eq hm rfl rfl

theorem serves_promoteWritable (hm : m.Free) (h : m.promoteWritable = .ok m') :
  Serves m [] m' []
  := by
  unfold promoteWritable at h
  split_ifs at h
  · cases h
    exact serves_of_eq hm rfl rfl
  · obtain ⟨front, -, h⟩ := bind_eq_ok.mp h
    cases h
    exact serves_of_eq hm rfl rfl
  · obtain ⟨front, -, h⟩ := bind_eq_ok.mp h
    obtain ⟨stays, -, h⟩ := bind_eq_ok.mp h
    split_ifs at h
    · obtain ⟨-, h⟩ := assert_bind_eq_ok.mp h
      have hserves := serves_promoteIf (by exact hm) h
      exact ⟨hserves.entries, hserves.unlocked⟩
    · cases h
      exact serves_of_eq hm rfl rfl

/-! ### Steps and runs -/

theorem serves_map {α : Type} {x : Except Fault α} {f : α → List Target × MSHR}
    (h : f <$> x = .ok (ready, m')) (hx : ∀ a, x = .ok a → Serves m (f a).1 (f a).2 new) :
  Serves m ready m' new
  := by
  obtain ⟨a, hok, hout⟩ := map_eq_ok.mp h
  have hserves := hx a hok
  rw [hout] at hserves
  exact hserves

/-- Every operation serves the targets in order. -/
theorem serves_run (hm : m.Free) (hop : op.Unlocked) (h : op.run m = .ok (ready, m')) :
  Serves m ready m' op.adds
  := by
  cases op with
  | allocate => exact serves_map h fun _ => serves_allocate hm hop
  | allocateTarget => exact serves_map h fun _ => serves_allocateTarget hm hop
  | handleSnoop => exact serves_map h fun _ => serves_handleSnoop hm hop
  | markInService =>
    refine serves_map h fun m₁ hok => ?_
    obtain ⟨-, hok⟩ := assert_bind_eq_ok.mp hok
    cases hok
    refine serves_of_same hm ?_ (.refl _)
    split_ifs
    · exact .refl _
    · exact same_clearPending _
  | markPending | markDownstreamPending =>
    refine serves_map h fun m₁ hok => ?_
    obtain ⟨-, hok⟩ := assert_bind_eq_ok.mp hok
    cases hok
    exact serves_of_eq hm rfl rfl
  | setForward =>
    cases h
    exact serves_of_eq hm rfl rfl
  | clearDownstreamPending =>
    refine serves_map h fun m₁ hok => ?_
    obtain ⟨-, hok⟩ := assert_bind_eq_ok.mp hok
    cases hok
    exact serves_of_same hm (same_clearPending _) (.refl _)
  | extractServiceableTargets => exact serves_map h fun _ => serves_extract hm
  | promoteDeferredTargets => exact serves_map h fun _ => serves_promoteDeferredTargets hm
  | promoteReadable => exact serves_map h fun _ => serves_promoteReadable hm
  | promoteWritable => exact serves_map h fun _ => serves_promoteWritable hm
  | popTarget => exact serves_map h fun _ => serves_popTarget hm
  | deallocate =>
    refine serves_map h fun m₁ hok => ?_
    obtain ⟨-, hok⟩ := assert_bind_eq_ok.mp hok
    obtain ⟨-, hok⟩ := assert_bind_eq_ok.mp hok
    cases hok
    exact serves_of_eq hm rfl rfl

/-- A step appends the entries it adds. -/
theorem step_entries (hs : s.mshr.Free) (hop : op.Unlocked) (h : step op s = .ok s') :
  entries s'.all = entries s.all ++ op.adds ∧ s'.mshr.Free
  := by
  obtain ⟨⟨ready, m'⟩, hok, h⟩ := bind_eq_ok.mp h
  cases h
  have hserves := serves_run hs hop hok
  refine ⟨?_, hserves.unlocked⟩
  calc entries (s.extracted ++ ready ++ m'.targets.list ++ m'.deferredTargets.list)
      = entries s.extracted
          ++ entries (ready ++ (m'.targets.list ++ m'.deferredTargets.list)) := by
        rw [← entries_append]
        simp only [append_assoc]
    _ = entries s.all ++ op.adds := by
        rw [hserves.entries, ← append_assoc, ← entries_append, History.all, append_assoc]

/-- A run appends the entries that its operations add, in their order. -/
theorem exec_entries {ops : List Op} (hs : s.mshr.Free) (hops : ∀ op ∈ ops, op.Unlocked)
    (h : Lib.exec step ops s = .ok s') :
  entries s'.all = entries s.all ++ ops.flatMap Op.adds
  := by
  induction ops generalizing s with
  | nil =>
    cases h
    simp
  | cons op ops ih =>
    obtain ⟨s₁, h₁, h⟩ := Lib.exec_cons_eq_ok.mp h
    obtain ⟨hentries, hfree⟩ := step_entries hs (hops op mem_cons_self) h₁
    rw [ih hfree (forall_mem_cons.mp hops).2 h, hentries,
      flatMap_cons, append_assoc]

/-- In a run without locked reads, the targets from the CPU side that were taken out, those of the
register, and the deferred ones are exactly those that were added, in the order in which they were
added. -/
theorem targets_in_order (ops : List Op) (hops : ∀ op ∈ ops, op.Unlocked) (s : History)
    (hrun : Lib.exec step ops {} = .ok s) :
  entries (s.extracted ++ s.mshr.targets.list ++ s.mshr.deferredTargets.list)
    = ops.flatMap Op.adds
  := by
  have hfree : Free ({} : History).mshr := by
    intro t ht
    cases ht
  exact exec_entries hfree hops hrun

/-- A packet of a run. -/
def samplePkt (id : ℕ) (cmd : MemCmd) : Pkt where
  id := id
  cmd := cmd
  req := { contextId := 0, paddr := 0, size := 4 }

/-- A run in which a snoop invalidates the block before the response, so that one target is served
alone, one waits for the next response, and one is deferred and promoted. -/
def sampleOps : List Op :=
  [.allocate 0 4 (samplePkt 0 .readReq) 0 0 true, .allocateTarget (samplePkt 1 .readReq) 1 1 true,
    .markInService false, .handleSnoop (samplePkt 2 .readExReq) 2 3 2,
    .allocateTarget (samplePkt 4 .writeReq) 3 3 true,
    .extractServiceableTargets .readRespWithInvalidate, .promoteDeferredTargets 4, .markPending,
    .allocateTarget (samplePkt 5 .readReq) 5 5 true]

/-- The entries after this run: those of the snoop are not among them. -/
theorem targets_in_order_snooped :
  ∃ s, Lib.exec step sampleOps {} = .ok s
    ∧ entries (s.extracted ++ s.mshr.targets.list ++ s.mshr.deferredTargets.list)
      = [(0, 0, 0, true), (1, 1, 1, true), (4, 3, 3, true), (5, 5, 5, true)]
  := by
  have hops : ∀ op ∈ sampleOps, op.Unlocked := by
    simp [sampleOps, Op.Unlocked, samplePkt]
  exact ⟨_, rfl, targets_in_order sampleOps hops _ rfl⟩

end MSHR

end Gem5Arc
