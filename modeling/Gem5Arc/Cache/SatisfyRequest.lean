import Gem5Arc.Cache.LoadLocks

/-!
# Accesses to a block, and the atomicity of LL/SC

`BaseCache::satisfyRequest` performs an access on a block of the cache: a swap or an atomic
operation, a write, a read, an upgrade, a clean or an invalidation. Writes are checked against the
locks of the block, but swaps and atomic operations are not.

So a store-conditional (SC) may succeed although another context has changed its bytes since the
load-locked access (LL). It cannot exactly as long as no swap or atomic operation changes a byte
under a lock of another context (`storeCond_atomic_iff`).
-/

namespace Gem5Arc

open Lib Packet

/-- A block of a classic cache. -/
structure CacheBlk where
  valid : Bool
  writable : Bool
  dirty : Bool
  data : ℕ → Byte
  lockList : List CacheBlk.Lock

namespace CacheBlk

variable (blkSize : ℕ)

/-- A block that has been invalidated, with its data as it was. -/
def invalidate (blk : CacheBlk) : CacheBlk where
  valid := false
  writable := false
  dirty := false
  data := blk.data
  lockList := []

/-- A swap, which in a conditional one depends on the bytes of the block. -/
def cmpAndSwap (pkt : Packet) (blk : CacheBlk) : Except Fault (Packet × CacheBlk) := do
  let offset := pkt.getOffset blkSize
  assert (pkt.req.size ≤ 8)
  let overwriteMem ← pkt.swapOverwrites offset blk.data
  let blk' := if overwriteMem then
      { blk with
        data := Packet.copyBytes offset pkt.req.size pkt.data blk.data
        dirty := true }
    else blk
  pure (pkt.setData offset blk.data, blk')

/-- The data of a block after a write that may proceed or not. -/
def updateBlockData (proceed : Bool) (pkt : Packet) (data : ℕ → Byte) : Except Fault (ℕ → Byte) :=
  if proceed then pkt.writeData (pkt.getOffset blkSize) data else .ok data

/-- The branch of `satisfyRequest` for swaps and atomic operations. -/
def satisfySwap (pkt : Packet) (blk : CacheBlk) : Except Fault (Packet × CacheBlk) :=
  match pkt.atomicOp with
  | some op =>
    let offset := pkt.getOffset blkSize
    .ok (pkt.setData offset blk.data,
      { blk with data := pkt.runAtomicOp op offset blk.data, dirty := true })
  | none => cmpAndSwap blkSize pkt blk

/-- The branch of `satisfyRequest` for writes. -/
def satisfyWrite (pkt : Packet) (blk : CacheBlk) : Except Fault (Packet × CacheBlk) := do
  assert blk.writable
  let (proceed, pkt, lockList) ← checkWrite pkt blk.lockList
  let data ← updateBlockData blkSize proceed pkt blk.data
  pure (pkt, { blk with data, lockList, dirty := true })

def trackRead (pkt : Packet) (lockList : List Lock) : Except Fault (List Lock) :=
  if pkt.has .isLlsc then trackLoadLocked pkt lockList else .ok lockList

/-- The branch of `satisfyRequest` for reads. -/
def satisfyRead (pkt : Packet) (blk : CacheBlk) : Except Fault (Packet × CacheBlk) := do
  let lockList ← trackRead pkt blk.lockList
  assert pkt.hasRespData
  pure (pkt.setData (pkt.getOffset blkSize) blk.data, { blk with lockList })

/-- The branch of `satisfyRequest` for upgrades. -/
def satisfyUpgrade (pkt : Packet) (blk : CacheBlk) : Except Fault (Packet × CacheBlk) := do
  assert (!pkt.hasSharers)
  assert (!(blk.dirty && pkt.cacheResponding))
  pure ({ pkt with cacheResponding := blk.dirty || pkt.cacheResponding },
    { blk with dirty := false })

def satisfyRequest (pkt : Packet) (blk : CacheBlk) : Except Fault (Packet × CacheBlk) := do
  assert (pkt.has .isRequest)
  assert blk.valid
  assert (pkt.getOffset blkSize + pkt.req.size ≤ blkSize)
  if pkt.cmd = .swapReq then satisfySwap blkSize pkt blk
  else if pkt.has .isWrite then satisfyWrite blkSize pkt blk
  else if pkt.has .isRead then satisfyRead blkSize pkt blk
  else if pkt.has .isUpgrade then satisfyUpgrade pkt blk
  else if pkt.has .isClean then pure (pkt, { blk with dirty := false })
  else do
    assert (pkt.has .isInvalidate)
    pure (pkt, blk.invalidate)

/-- The effect of an access on the block. -/
def access (pkt : Packet) (blk : CacheBlk) : Except Fault CacheBlk :=
  Prod.snd <$> satisfyRequest blkSize pkt blk

/-! ### What an access does -/

variable {blkSize} {pkt out : Packet} {s t : CacheBlk} {r : Request}

/-- The operation on the locks an access performs, if any. -/
def lockOp (pkt : Packet) : Option LockOp :=
  if pkt.cmd = .swapReq then none
  else if pkt.has .isWrite then some (.checkWrite pkt)
  else if pkt.has .isRead then if pkt.has .isLlsc then some (.trackLoadLocked pkt) else none
  else if pkt.has .isUpgrade || pkt.has .isClean then none
  else some .invalidate

/-- What an access has done to a block. -/
structure Accessed (blkSize : ℕ) (pkt : Packet) (s t : CacheBlk) : Prop where
  valid : s.valid = true
  fits : pkt.getOffset blkSize + pkt.req.size ≤ blkSize
  /-- A block that is not invalidated stays valid and writable. -/
  kept : lockOp pkt ≠ some .invalidate → t.valid = true ∧ t.writable = s.writable
  cleared : lockOp pkt = some .invalidate → t.valid = false
  /-- The locks change by the operation of the access. -/
  locks : match lockOp pkt with
    | none => t.lockList = s.lockList
    | some op => lockStep op s.lockList = .ok t.lockList
  /-- Writes and swaps change their own bytes at most, and other accesses none. -/
  changed : ∀ i, t.data i ≠ s.data i →
    (pkt.cmd = .swapReq ∨ lockOp pkt = some (.checkWrite pkt))
      ∧ pkt.getOffset blkSize ≤ i ∧ i < pkt.getOffset blkSize + pkt.req.size

theorem satisfySwap_eq_ok (h : satisfySwap blkSize pkt s = .ok (out, t)) :
  t.valid = s.valid ∧ t.writable = s.writable ∧ t.lockList = s.lockList
    ∧ ∀ i, t.data i ≠ s.data i →
      pkt.getOffset blkSize ≤ i ∧ i < pkt.getOffset blkSize + pkt.req.size
  := by
  unfold satisfySwap at h
  split at h
  · cases h
    refine ⟨rfl, rfl, rfl, ?_⟩
    intro i hi
    by_contra houtside
    exact hi (runAtomicOp_of_outside houtside)
  · obtain ⟨-, h⟩ := assert_bind_eq_ok.mp h
    obtain ⟨overwriteMem, -, h⟩ := bind_eq_ok.mp h
    cases h
    cases overwriteMem with
    | false => exact ⟨rfl, rfl, rfl, fun i hi => absurd rfl hi⟩
    | true =>
      refine ⟨rfl, rfl, rfl, ?_⟩
      intro i hi
      by_contra houtside
      exact hi (copyBytes_of_outside houtside)

theorem satisfyWrite_eq_ok (h : satisfyWrite blkSize pkt s = .ok (out, t)) :
  t.valid = s.valid ∧ t.writable = s.writable
    ∧ (∃ proceed, checkWrite pkt s.lockList = .ok (proceed, out, t.lockList))
    ∧ ∀ i, t.data i ≠ s.data i →
      pkt.getOffset blkSize ≤ i ∧ i < pkt.getOffset blkSize + pkt.req.size
  := by
  obtain ⟨-, h⟩ := assert_bind_eq_ok.mp h
  obtain ⟨⟨proceed, pkt', lockList⟩, hcheck, h⟩ := bind_eq_ok.mp h
  obtain ⟨data, hdata, h⟩ := bind_eq_ok.mp h
  cases h
  refine ⟨rfl, rfl, ⟨proceed, hcheck⟩, ?_⟩
  intro i hi
  obtain ⟨-, haddr, hsize, -⟩ := checkWrite_request hcheck
  cases proceed with
  | false =>
    cases hdata
    exact absurd rfl hi
  | true =>
    by_contra houtside
    apply hi
    apply writeData_of_outside hdata
    rw [hsize, getOffset, haddr]
    exact houtside

theorem satisfyRead_eq_ok (h : satisfyRead blkSize pkt s = .ok (out, t)) :
  t.valid = s.valid ∧ t.writable = s.writable ∧ t.data = s.data
    ∧ trackRead pkt s.lockList = .ok t.lockList
  := by
  obtain ⟨lockList, hlocks, h⟩ := bind_eq_ok.mp h
  obtain ⟨-, h⟩ := assert_bind_eq_ok.mp h
  cases h
  exact ⟨rfl, rfl, rfl, hlocks⟩

theorem satisfyUpgrade_eq_ok (h : satisfyUpgrade pkt s = .ok (out, t)) :
  t = { s with dirty := false }
  := by
  obtain ⟨-, h⟩ := assert_bind_eq_ok.mp h
  obtain ⟨-, h⟩ := assert_bind_eq_ok.mp h
  cases h
  rfl

/-- The branch an access takes, by its command. -/
theorem satisfyRequest_eq_ok :
  satisfyRequest blkSize pkt s = .ok (out, t)
    ↔ pkt.has .isRequest = true ∧ s.valid = true
      ∧ pkt.getOffset blkSize + pkt.req.size ≤ blkSize
      ∧ (if pkt.cmd = .swapReq then satisfySwap blkSize pkt s
          else if pkt.has .isWrite then satisfyWrite blkSize pkt s
          else if pkt.has .isRead then satisfyRead blkSize pkt s
          else if pkt.has .isUpgrade then satisfyUpgrade pkt s
          else if pkt.has .isClean then pure (pkt, { s with dirty := false })
          else assert (pkt.has .isInvalidate) >>= fun _ => pure (pkt, s.invalidate)) = .ok (out, t)
  := by
  rw [satisfyRequest, assert_bind_eq_ok, assert_bind_eq_ok, assert_bind_eq_ok, decide_eq_true_eq]

theorem accessed_of_satisfyRequest (h : satisfyRequest blkSize pkt s = .ok (out, t)) :
  Accessed blkSize pkt s t
  := by
  obtain ⟨-, hvalid, hfits, h⟩ := satisfyRequest_eq_ok.mp h
  have hclean (hop : lockOp pkt = none) : Accessed blkSize pkt s { s with dirty := false } :=
    ⟨hvalid, hfits, fun _ => ⟨hvalid, rfl⟩, by simp [hop], by simp [hop], fun i hi => absurd rfl hi⟩
  split_ifs at h with hswap hwrite hread hupgrade hisClean
  · have hop : lockOp pkt = none := by rw [lockOp, if_pos hswap]
    obtain ⟨hv, hw, hl, hd⟩ := satisfySwap_eq_ok h
    refine ⟨hvalid, hfits, fun _ => ⟨hv.trans hvalid, hw⟩, by simp [hop], ?_,
      fun i hi => ⟨.inl hswap, hd i hi⟩⟩
    rw [hop]
    exact hl
  · have hop : lockOp pkt = some (.checkWrite pkt) := by
      rw [lockOp, if_neg hswap, if_pos hwrite]
    obtain ⟨hv, hw, ⟨proceed, hl⟩, hd⟩ := satisfyWrite_eq_ok h
    refine ⟨hvalid, hfits, fun _ => ⟨hv.trans hvalid, hw⟩, by simp [hop], ?_,
      fun i hi => ⟨.inr hop, hd i hi⟩⟩
    simp only [hop, lockStep, hl]
    rfl
  · obtain ⟨hv, hw, hd, hl⟩ := satisfyRead_eq_ok h
    have hop : lockOp pkt = if pkt.has .isLlsc then some (.trackLoadLocked pkt) else none := by
      rw [lockOp, if_neg hswap, if_neg hwrite, if_pos hread]
    refine ⟨hvalid, hfits, fun _ => ⟨hv.trans hvalid, hw⟩, ?_, ?_,
      fun i hi => absurd (congrFun hd i) hi⟩
    · rw [hop]
      split_ifs
      · rintro ⟨⟩
      · rintro ⟨⟩
    · rw [hop]
      unfold trackRead at hl
      split_ifs at hl ⊢
      · exact hl
      · injection hl with hl
        exact hl.symm
  · cases satisfyUpgrade_eq_ok h
    exact hclean (by simp [lockOp, hswap, hwrite, hread, hupgrade])
  · cases h
    exact hclean (by simp [lockOp, hswap, hwrite, hread, hisClean])
  · have hop : lockOp pkt = some .invalidate := by
      simp [lockOp, hswap, hwrite, hread, hupgrade, hisClean]
    obtain ⟨-, h⟩ := assert_bind_eq_ok.mp h
    cases h
    refine ⟨hvalid, hfits, fun hne => absurd hop hne, fun _ => rfl, ?_, fun i hi => absurd rfl hi⟩
    simp [hop, lockStep, invalidate]

theorem accessed (h : access blkSize pkt s = .ok t) :
  Accessed blkSize pkt s t
  := by
  obtain ⟨⟨out, t'⟩, hok, rfl⟩ := map_eq_ok.mp h
  exact accessed_of_satisfyRequest hok

/-! ### Accesses to one block -/

/-- The packet is an access to the block with this address, and to at least one byte. -/
def OnBlock (blkAddr blkSize : ℕ) (pkt : Packet) : Prop :=
  pkt.req.paddr.toNat = blkAddr + pkt.getOffset blkSize ∧ 0 < pkt.req.size

/-- An LL. -/
def IsLoadLocked (pkt : Packet) : Prop :=
  lockOp pkt = some (.trackLoadLocked pkt)

/-- An SC. -/
def IsStoreCond (pkt : Packet) : Prop :=
  pkt.has .isWrite = true ∧ pkt.has .isLlsc = true

/-- The access returns with the extra data that reports success to an SC. -/
def Reports (blkSize : ℕ) (pkt : Packet) (s : CacheBlk) : Prop :=
  ∃ out t, satisfyRequest blkSize pkt s = .ok (out, t) ∧ out.req.extraData = 1

/-- An event changes a byte of the request, which is of another context. -/
def Tampers (blkAddr : ℕ) (r : Request) (e : Lib.Event CacheBlk Packet) : Prop :=
  e.label.req.contextId ≠ r.contextId
    ∧ ∃ i, r.Touches (blkAddr + i) ∧ e.after.data i ≠ e.before.data i

/-- The last LL of the context of the packet that covers its range, and the events since then. -/
def MatchingLL (pkt : Packet) (h : List (Lib.Event CacheBlk Packet))
    (e : Lib.Event CacheBlk Packet) (since : List (Lib.Event CacheBlk Packet)) : Prop :=
  (∃ h₁, h = h₁ ++ e :: since) ∧ IsLoadLocked e.label
    ∧ e.label.req.contextId = pkt.req.contextId ∧ e.label.req.Covers pkt.req
    ∧ ∀ e' ∈ since, ¬ (IsLoadLocked e'.label ∧ e'.label.req.contextId = pkt.req.contextId
      ∧ e'.label.req.Covers pkt.req)

/-- After the history `h`, every SC that succeeds has a matching LL, since when no access of another
context has changed a byte of its range. -/
def Atomic (blkAddr blkSize : ℕ) (h : List (Lib.Event CacheBlk Packet)) (s : CacheBlk) : Prop :=
  ∀ pkt, OnBlock blkAddr blkSize pkt → IsStoreCond pkt → Reports blkSize pkt s →
    ∃ e since, MatchingLL pkt h e since ∧ ∀ e' ∈ since, ¬ Tampers blkAddr pkt.req e'

/-- A swap or an atomic operation within the block puts another value in the place of a byte. -/
def Changes (blkSize : ℕ) (pkt : Packet) (data : ℕ → Byte) (i : ℕ) : Prop :=
  pkt.getOffset blkSize + pkt.req.size ≤ blkSize ∧ match pkt.atomicOp with
    | some op => pkt.runAtomicOp op (pkt.getOffset blkSize) data i ≠ data i
    | none => pkt.req.size ≤ 8 ∧ pkt.swapOverwrites (pkt.getOffset blkSize) data = .ok true
      ∧ Packet.copyBytes (pkt.getOffset blkSize) pkt.req.size pkt.data data i ≠ data i

/-- A swap or an atomic operation does not change a byte under a lock of another context. -/
def Guarded (blkAddr blkSize : ℕ) (pkt : Packet) (s : CacheBlk) : Prop :=
  pkt.cmd = .swapReq → s.valid = true → ∀ l ∈ s.lockList, l.contextId ≠ pkt.req.contextId →
    ∀ i, l.lowAddr.toNat ≤ blkAddr + i → blkAddr + i ≤ l.highAddr.toNat →
      ¬ Changes blkSize pkt s.data i

theorem exists_access_iff_changes (hswap : pkt.cmd = .swapReq) {i : ℕ} :
  (∃ t, access blkSize pkt s = .ok t ∧ t.data i ≠ s.data i)
    ↔ s.valid = true ∧ Changes blkSize pkt s.data i
  := by
  have hreq : pkt.has .isRequest = true := by rw [has, hswap]; rfl
  constructor
  · rintro ⟨t, h, hne⟩
    obtain ⟨⟨out, t⟩, hok, rfl⟩ := map_eq_ok.mp h
    obtain ⟨-, hvalid, hfits, h⟩ := satisfyRequest_eq_ok.mp hok
    refine ⟨hvalid, hfits, ?_⟩
    rw [if_pos hswap, satisfySwap] at h
    cases hop : pkt.atomicOp with
    | some op =>
      rw [hop] at h
      cases h
      exact hne
    | none =>
      rw [hop] at h
      obtain ⟨hsize, h⟩ := assert_bind_eq_ok.mp h
      obtain ⟨overwriteMem, hoverwrites, h⟩ := bind_eq_ok.mp h
      cases h
      cases overwriteMem with
      | false => exact absurd rfl hne
      | true => exact ⟨of_decide_eq_true hsize, hoverwrites, hne⟩
  · rintro ⟨hvalid, hfits, hchanges⟩
    have hok : ∃ out t, satisfySwap blkSize pkt s = .ok (out, t) ∧ t.data i ≠ s.data i := by
      rw [satisfySwap]
      cases hop : pkt.atomicOp with
      | some op =>
        rw [hop] at hchanges
        exact ⟨_, _, rfl, hchanges⟩
      | none =>
        rw [hop] at hchanges
        obtain ⟨hsize, hoverwrites, hne⟩ := hchanges
        exact ⟨_, _, assert_bind_eq_ok.mpr ⟨decide_eq_true hsize,
          bind_eq_ok.mpr ⟨true, hoverwrites, rfl⟩⟩, hne⟩
    obtain ⟨out, t, hok, hne⟩ := hok
    have hrequest := satisfyRequest_eq_ok.mpr ⟨hreq, hvalid, hfits, (if_pos hswap).trans hok⟩
    exact ⟨t, map_eq_ok.mpr ⟨_, hrequest, rfl⟩, hne⟩

/-! ### Locks along accesses -/

variable {blkAddr : ℕ} {l : Lock}

theorem OnBlock.proper (h : OnBlock blkAddr blkSize pkt) (hblk : blkAddr + blkSize ≤ 2 ^ 64)
    (hfits : pkt.getOffset blkSize + pkt.req.size ≤ blkSize) :
  pkt.req.Proper
  := by
  obtain ⟨haddr, hpos⟩ := h
  refine ⟨hpos, ?_⟩
  omega

/-- The lock operation of an access is performed with its own packet. -/
theorem performed_of_lockOp {op : LockOp} (h : lockOp pkt = some op) (hp : pkt.req.Proper)
    (locks : List Lock) :
  Performed op locks
  := by
  unfold lockOp at h
  split_ifs at h with hswap hwrite hread hllsc
  · cases h
    exact ⟨hwrite, hp⟩
  · cases h
    exact ⟨hllsc, hp⟩
  · cases h
    trivial

theorem eq_of_lockOp_trackLoadLocked {ll : Packet} (h : lockOp pkt = some (.trackLoadLocked ll)) :
  ll = pkt
  := by
  unfold lockOp at h
  split_ifs at h
  · injection h with h
    injection h
  · injection h with h
    injection h with h
    exact h.symm
  · injection h with h
    injection h

/-- What is known of the locks of a block: they are disjoint, each is the lock of an LL on the
block, and a valid block is writable. -/
structure Held (blkAddr blkSize : ℕ) (s : CacheBlk) : Prop where
  apart : Apart s.lockList
  loaded : ∀ l ∈ s.lockList, ∃ ll : Packet, OnBlock blkAddr blkSize ll
    ∧ ll.getOffset blkSize + ll.req.size ≤ blkSize ∧ l = Lock.ofRequest ll.req
  writable : s.valid = true → s.writable = true

section

variable (hblk : blkAddr + blkSize ≤ 2 ^ 64) (hs : Held blkAddr blkSize s)
  (hpkt : OnBlock blkAddr blkSize pkt) (h : access blkSize pkt s = .ok t)

include hblk hs hpkt h

theorem Held.access :
  Held blkAddr blkSize t
  := by
  have hacc := accessed h
  have hproper := hpkt.proper hblk hacc.fits
  have hlocks := hacc.locks
  have hwritable : t.valid = true → t.writable = true := by
    intro hv
    by_cases hop : lockOp pkt = some .invalidate
    · rw [hacc.cleared hop] at hv
      cases hv
    · rw [(hacc.kept hop).2]
      exact hs.writable hacc.valid
  cases hop : lockOp pkt with
  | none =>
    rw [hop] at hlocks
    refine ⟨?_, ?_, hwritable⟩
    · rw [hlocks]
      exact hs.apart
    · rw [hlocks]
      exact hs.loaded
  | some op =>
    rw [hop] at hlocks
    have hperformed := performed_of_lockOp hop hproper s.lockList
    obtain ⟨hapart, hloaded⟩ := hs.apart.lockStep hs.loaded hperformed hlocks (by
      rintro ll rfl
      cases eq_of_lockOp_trackLoadLocked hop
      exact ⟨pkt, hpkt, hacc.fits, rfl⟩)
    exact ⟨hapart, hloaded, hwritable⟩

def MakesLock (l : Lock) (e : Lib.Event CacheBlk Packet) : Prop :=
  ∃ op, lockOp e.label = some op ∧ Makes l ⟨e.before.lockList, op, e.after.lockList⟩

/-- An access breaks the lock of the LL `r`. -/
def BreaksLock (r : Request) (e : Lib.Event CacheBlk Packet) : Prop :=
  ∃ op, lockOp e.label = some op ∧ Breaks r ⟨e.before.lockList, op, e.after.lockList⟩

theorem mem_access (hr : r.Proper) :
  Lock.ofRequest r ∈ t.lockList
    ↔ MakesLock (Lock.ofRequest r) ⟨s, pkt, t⟩
      ∨ (Lock.ofRequest r ∈ s.lockList ∧ ¬ BreaksLock r ⟨s, pkt, t⟩)
  := by
  have hacc := accessed h
  have hproper := hpkt.proper hblk hacc.fits
  have hlocks := hacc.locks
  cases hop : lockOp pkt with
  | none =>
    rw [hop] at hlocks
    simp [MakesLock, BreaksLock, hop, hlocks]
  | some op =>
    rw [hop] at hlocks
    rw [mem_lockStep hr hs.apart (performed_of_lockOp hop hproper s.lockList) hlocks]
    simp [MakesLock, BreaksLock, hop]

omit hblk hs in
/-- An access that is guarded and does not break a lock does not tamper with its bytes. -/
theorem not_tampers (hr : r.Proper) (hmem : Lock.ofRequest r ∈ s.lockList)
    (hguard : Guarded blkAddr blkSize pkt s) (hkept : ¬ BreaksLock r ⟨s, pkt, t⟩) :
  ¬ Tampers blkAddr r ⟨s, pkt, t⟩
  := by
  rintro ⟨hctx, i, hi, hne⟩
  obtain ⟨hswap | hop, hlow, hhigh⟩ := (accessed h).changed i hne
  · obtain ⟨hvalid, hchanges⟩ := (exists_access_iff_changes hswap).mp ⟨t, h, hne⟩
    apply hguard hswap hvalid _ hmem hctx.symm i hi.1 _ hchanges
    have hlast : (Lock.ofRequest r).highAddr.toNat = r.paddr.toNat + r.size - 1 := toNat_reqHigh hr
    have hupper := hi.2
    omega
  · apply hkept
    refine ⟨_, hop, .inl ⟨hctx.symm, ?_⟩⟩
    apply Request.overlaps_of_touches hi
    have haddr := hpkt.1
    constructor
    · omega
    · omega

end

/-! ### Atomicity -/

/-- An SC that reports success has found a lock. -/
theorem succeeds_of_reports (hpkt : IsStoreCond pkt) (h : Reports blkSize pkt s) :
  Succeeds pkt s.lockList
  := by
  obtain ⟨out, t, h, hone⟩ := h
  obtain ⟨-, -, -, h⟩ := satisfyRequest_eq_ok.mp h
  have hswap : pkt.cmd ≠ .swapReq := by
    intro hswap
    have hllsc := hpkt.2
    rw [has, hswap] at hllsc
    cases hllsc
  rw [if_neg hswap, if_pos hpkt.1] at h
  obtain ⟨-, -, ⟨proceed, hcheck⟩, -⟩ := satisfyWrite_eq_ok h
  obtain ⟨-, -, -, hextra⟩ := checkWrite_request hcheck
  rw [(hextra hpkt.2).mp hone] at hcheck
  exact ⟨_, _, hcheck⟩

/-- An SC that finds a lock in a valid and writable block reports success. -/
theorem reports_of_succeeds (hcmd : pkt.cmd = .storeCondReq) (hvalid : s.valid = true)
    (hwritable : s.writable = true) (hfits : pkt.getOffset blkSize + pkt.req.size ≤ blkSize)
    (h : Succeeds pkt s.lockList) :
  Reports blkSize pkt s
  := by
  obtain ⟨pkt', locks, hcheck⟩ := h
  have hreq : pkt.has .isRequest = true := by rw [has, hcmd]; rfl
  have hwrite : pkt.has .isWrite = true := by rw [has, hcmd]; rfl
  have hllsc : pkt.has .isLlsc = true := by rw [has, hcmd]; rfl
  obtain ⟨hcmd', -, -, hextra⟩ := checkWrite_request hcheck
  have hdata : updateBlockData blkSize true pkt' s.data
      = .ok (copyBytes (pkt'.getOffset blkSize) pkt'.req.size pkt'.data s.data) := by
    simp [updateBlockData, writeData, isMaskedWrite, hcmd', hcmd]
  have hok : ∃ t, satisfyWrite blkSize pkt s = .ok (pkt', t) := by
    simp only [satisfyWrite, hwritable, hcheck, assert_true, ok_bind, hdata]
    exact ⟨_, rfl⟩
  obtain ⟨t, hok⟩ := hok
  refine ⟨pkt', t, satisfyRequest_eq_ok.mpr ⟨hreq, hvalid, hfits, ?_⟩, (hextra hllsc).mpr rfl⟩
  rw [if_neg (by simp [hcmd]), if_pos hwrite]
  exact hok

section

variable {pkts : List Packet} (hblk : blkAddr + blkSize ≤ 2 ^ 64) (hs : Held blkAddr blkSize s)
  (hempty : s.lockList = [])
  (hpkts : Lib.Meets (access blkSize)
    (fun pkt s => OnBlock blkAddr blkSize pkt ∧ Guarded blkAddr blkSize pkt s) pkts s)
  (hrun : exec (access blkSize) pkts s = .ok t)

include hblk hs hempty hpkts hrun

/-- Along guarded accesses, a lock is there exactly if it has been made, and has since not been
broken or tampered with. -/
theorem mem_lockList_iff_since (hr : r.Proper) :
  Lock.ofRequest r ∈ t.lockList
    ↔ Lib.Since (MakesLock (Lock.ofRequest r)) (fun e => BreaksLock r e ∨ Tampers blkAddr r e)
        (events (access blkSize) pkts s)
  := by
  apply holds_iff_since (H := fun s => Lock.ofRequest r ∈ s.lockList)
    (I := Held blkAddr blkSize) _ _ hs (by simp [hempty]) hpkts hrun
  · rintro s pkt t hs ⟨hpkt, hguard⟩ h
    rw [mem_access hblk hs hpkt h hr]
    apply or_congr_right
    apply and_congr_right
    intro hmem
    rw [not_or]
    constructor
    · intro hkept
      exact ⟨hkept, not_tampers hpkt h hr hmem hguard hkept⟩
    · intro hboth
      exact hboth.1
  · rintro s pkt t hs ⟨hpkt, -⟩ h
    exact hs.access hblk hpkt h

theorem atomic_of_guarded :
  Atomic blkAddr blkSize (events (access blkSize) pkts s) t
  := by
  intro pkt hpkt hsc hreports
  have ht : Held blkAddr blkSize t := by
    apply hpkts.invariant _ hs hrun
    rintro s pkt t hs ⟨hpkt, -⟩ h
    exact hs.access hblk hpkt h
  have hfits : pkt.getOffset blkSize + pkt.req.size ≤ blkSize := by
    obtain ⟨out, t', h, -⟩ := hreports
    exact (satisfyRequest_eq_ok.mp h).2.2.1
  have hproper := hpkt.proper hblk hfits
  obtain ⟨l, hmem, hmatch⟩ := (succeeds_storeCond hsc.1 hsc.2).mp (succeeds_of_reports hsc hreports)
  obtain ⟨ll, hll, hllfits, rfl⟩ := ht.loaded l hmem
  have hllproper := hll.proper hblk hllfits
  obtain ⟨hctx, hcov⟩ := (Lock.matches_ofRequest hllproper hproper).mp hmatch
  rw [mem_lockList_iff_since hblk hs hempty hpkts hrun hllproper] at hmem
  obtain ⟨h₁, e, since, hevents, ⟨op, hop, ll', rfl, hlock⟩, hkept⟩ := hmem
  cases eq_of_lockOp_trackLoadLocked hop
  have heproper : e.label.req.Proper := by
    obtain ⟨⟨hon, -⟩, hstep⟩ := hpkts.events e (by rw [hevents]; simp)
    exact hon.proper hblk (accessed hstep).fits
  rw [hlock, Lock.matches_ofRequest heproper hproper] at hmatch
  refine ⟨e, since, ⟨⟨h₁, hevents⟩, hop, hmatch.1, hmatch.2, ?_⟩, ?_⟩
  · rintro e' he' ⟨hload, -, hcov'⟩
    apply hkept e' he'
    left
    refine ⟨_, hload, ?_⟩
    exact Request.overlaps_of_touches (hcov.touches hproper.touches)
      (hcov'.touches hproper.touches)
  · rintro e' he' ⟨hne, i, hi, hchanged⟩
    apply hkept e' he'
    right
    refine ⟨?_, i, hcov.touches hi, hchanged⟩
    rw [hctx]
    exact hne

end

/-- Accesses that keep SCs atomic are guarded: the context of a lock whose bytes a swap has changed
could otherwise store to its range. -/
theorem guarded_of_atomic (hblk : blkAddr + blkSize ≤ 2 ^ 64) (hs : Held blkAddr blkSize s)
    (h : List (Lib.Event CacheBlk Packet))
    (hatomic : ∀ t, access blkSize pkt s = .ok t →
      Atomic blkAddr blkSize (h ++ [⟨s, pkt, t⟩]) t) :
  Guarded blkAddr blkSize pkt s
  := by
  intro hswap hvalid l hl hctx i hlow hhigh hchanges
  obtain ⟨t, ht, hne⟩ := (exists_access_iff_changes hswap).mpr ⟨hvalid, hchanges⟩
  have hacc := accessed ht
  have hop : lockOp pkt = none := by rw [lockOp, if_pos hswap]
  obtain ⟨ll, hll, hfits, rfl⟩ := hs.loaded l hl
  have hproper := hll.proper hblk hfits
  obtain ⟨hvalid, hwritable⟩ := hacc.kept (by simp [hop])
  have hlocks : t.lockList = s.lockList := by
    have hlocks := hacc.locks
    rwa [hop] at hlocks
  -- The context of the lock stores to all bytes of its LL.
  let sc : Packet := { ll with cmd := .storeCondReq }
  have hsucceeds : Succeeds sc t.lockList := by
    rw [succeeds_storeCond rfl rfl, hlocks]
    refine ⟨_, hl, ?_⟩
    rw [Lock.matches_ofRequest hproper hproper]
    exact ⟨rfl, le_rfl, le_rfl⟩
  have hreports : Reports blkSize sc t :=
    reports_of_succeeds rfl hvalid (hwritable.trans (hs.writable hacc.valid)) hfits hsucceeds
  obtain ⟨e, since, ⟨⟨h₁, hsplit⟩, hload, -⟩, hkept⟩ := hatomic t ht sc hll ⟨rfl, rfl⟩ hreports
  rcases eq_or_concat_of_append_cons_eq hsplit with ⟨-, rfl, -⟩ | ⟨since', rfl, -⟩
  · rw [IsLoadLocked, hop] at hload
    cases hload
  · apply hkept _ (List.mem_append_right _ (List.mem_singleton_self _))
    refine ⟨hctx.symm, i, ⟨hlow, ?_⟩, hne⟩
    have hhigh' : blkAddr + i ≤ (reqHigh ll.req).toNat := hhigh
    rw [toNat_reqHigh hproper] at hhigh'
    have hpos := hproper.nonempty
    change blkAddr + i < ll.req.paddr.toNat + ll.req.size
    omega

/-- For every sequence of accesses to a valid and writable block without locks: after each of them,
every SC that succeeds has a matching LL since when no access of another context has changed a byte
of its range, exactly if no swap or atomic operation changes a byte under a lock of another
context. -/
theorem storeCond_atomic_iff (hblk : blkAddr + blkSize ≤ 2 ^ 64) {blk : CacheBlk}
    (hwritable : blk.writable = true) (hempty : blk.lockList = []) {pkts : List Packet}
    (hpkts : ∀ pkt ∈ pkts, OnBlock blkAddr blkSize pkt) :
  (∀ pre t, pre <+: pkts → Lib.exec (access blkSize) pre blk = .ok t →
      Atomic blkAddr blkSize (Lib.events (access blkSize) pre blk) t)
    ↔ Lib.Meets (access blkSize) (Guarded blkAddr blkSize) pkts blk
  := by
  have hheld : Held blkAddr blkSize blk := by
    refine ⟨?_, ?_, fun _ => hwritable⟩
    · rw [hempty]
      exact List.Pairwise.nil
    · simp [hempty]
  rw [meets_iff_forall_initial]
  constructor
  · intro hatomic pre pkt s hpre hrun
    have hon := fun a ha => hpkts a (hpre.subset (List.mem_append_left _ ha))
    have hs : Held blkAddr blkSize s := by
      apply (meets_of_forall hon blk).invariant _ hheld hrun
      intro s pkt t hs hpkt h
      exact hs.access hblk hpkt h
    apply guarded_of_atomic hblk hs (events (access blkSize) pre blk)
    intro t ht
    rw [← events_concat hrun ht]
    exact hatomic _ _ hpre (exec_concat hrun ht)
  · intro hguard pre t hpre hrun
    apply atomic_of_guarded hblk hheld hempty _ hrun
    rw [meets_iff_forall_initial]
    intro pre' pkt s hpre' hrun'
    have hmem : pkt ∈ pkts := (hpre'.trans hpre).subset (by simp)
    exact ⟨hpkts pkt hmem, hguard pre' pkt s (hpre'.trans hpre) hrun'⟩

/-- A writable block of zeros. -/
def zeroBlk : CacheBlk where
  valid := true
  writable := true
  dirty := false
  data := fun _ => 0
  lockList := []

/-- Context 0 locks the first four bytes of a block, context 1 swaps them for ones, and the SC of
context 0 succeeds. -/
theorem swap_not_atomic :
  ∃ s t u out, access 64 (fourBytes .loadLockedReq 0 0) zeroBlk = .ok s
    ∧ access 64 { fourBytes .swapReq 1 0 with data := fun _ => 1 } s = .ok t
    ∧ t.data 0 ≠ s.data 0
    ∧ satisfyRequest 64 (fourBytes .storeCondReq 0 0) t = .ok (out, u) ∧ out.req.extraData = 1
  := ⟨_, _, _, _, rfl, rfl, by decide, rfl, rfl⟩

/-- Context 0 locks the first four bytes of a block and context 1 stores to the next four. -/
theorem storeCond_atomic_iff_undisturbed :
  ∃ t, Lib.exec (access 64) [fourBytes .loadLockedReq 0 0, fourBytes .writeReq 1 4] zeroBlk = .ok t
    ∧ Atomic 0 64 (Lib.events (access 64)
        [fourBytes .loadLockedReq 0 0, fourBytes .writeReq 1 4] zeroBlk) t
  := by
  refine ⟨_, rfl, ?_⟩
  apply (storeCond_atomic_iff (by decide) rfl rfl ?_).mpr ?_ _ _ List.prefix_rfl rfl
  · rw [List.forall_mem_cons, List.forall_mem_singleton]
    exact ⟨⟨rfl, Nat.succ_pos 3⟩, rfl, Nat.succ_pos 3⟩
  · refine ⟨nofun, fun _ _ => ⟨nofun, fun _ _ => trivial⟩⟩

end CacheBlk

end Gem5Arc
