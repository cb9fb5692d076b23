import Gem5Arc.Lib.Since
import Gem5Arc.Mem.Packet

/-!
# Accesses to a memory, and the atomicity of LL/SC

`AbstractMemory` performs accesses at the end of the memory system. For the load-locked (LL)
accesses it keeps a list of records, at most one for each context, with the granule of 16 bytes that
was loaded. A store or a successful store-conditional (SC) removes the records of the granule in
which it starts. Swaps and atomic operations do not touch the records, and a store removes no
records of the other granules it writes to.

`memory_storeCond_atomic_iff` says for which accesses a successful SC implies that nothing was
written to the granule since the LL.

Statistics, the backdoor, and the message to the contexts that lose their records are left out.
Whether a packet lies in the range of the memory is a parameter.
-/

namespace Gem5Arc

open Lib List

/-- The record of an LL. -/
structure LockedAddr where
  addr : Addr
  contextId : ℕ

namespace LockedAddr

def mask (paddr : Addr) : Addr :=
  paddr &&& ~~~15

def ofRequest (req : Request) : LockedAddr where
  addr := mask req.paddr
  contextId := req.contextId

end LockedAddr

structure AbstractMemory where
  /-- Does the range of the memory include the bytes of a packet? -/
  inRange : Addr → ℕ → Bool
  /-- The bytes of the memory, by their addresses, unless it is a null memory. -/
  pmem : Option (ℕ → Byte)
  writeable : Bool
  lockedAddrList : List LockedAddr := []

namespace AbstractMemory

/-- Set the address in the first record of the context of the request. -/
def modifyRecord (req : Request) : List LockedAddr → List LockedAddr
  | [] => []
  | l :: ls =>
    if l.contextId = req.contextId then { l with addr := LockedAddr.mask req.paddr } :: ls
    else l :: modifyRecord req ls

def trackLoadLocked (req : Request) (ls : List LockedAddr) : List LockedAddr :=
  if ls.any (fun l => l.contextId = req.contextId) then modifyRecord req ls
  else LockedAddr.ofRequest req :: ls

/-- The request with the answer for an SC. -/
def answer (pkt : Packet) (success : Bool) : Packet :=
  { pkt with req := { pkt.req with extraData := if success then 1 else 0 } }

def checkLockedAddrList (pkt : Packet) (ls : List LockedAddr) :
    Bool × Packet × List LockedAddr :=
  let paddr := LockedAddr.mask pkt.req.paddr
  let isLLSC := pkt.has .isLlsc
  let allowStore := !isLLSC
    || ls.any (fun l => l.addr = paddr && l.contextId = pkt.req.contextId)
  (allowStore, if isLLSC then answer pkt allowStore else pkt,
    if allowStore then ls.filter (fun l => l.addr ≠ paddr) else ls)

def writeOK (pkt : Packet) (m : AbstractMemory) : Bool × Packet × List LockedAddr :=
  if !m.writeable then (false, pkt, m.lockedAddrList)
  else if m.lockedAddrList.isEmpty then
    (!pkt.has .isLlsc, if pkt.has .isLlsc then answer pkt false else pkt, m.lockedAddrList)
  else checkLockedAddrList pkt m.lockedAddrList

/-- The branch of `access` for swaps and atomic operations. -/
def accessSwap (pkt : Packet) (m : AbstractMemory) : Except Fault (Packet × AbstractMemory) :=
  let addr := pkt.req.paddr.toNat
  match pkt.atomicOp, m.pmem with
  | some _, none => .ok (pkt, m)
  | some op, some mem =>
    .ok (pkt.setData addr mem, { m with pmem := some (pkt.runAtomicOp op addr mem) })
  | none, none =>
    .error (.panic "Swap only works if there is real memory (i.e. null=False)")
  | none, some mem => do
      let overwriteMem ← pkt.swapOverwrites addr mem
      let mem' := if overwriteMem then Packet.copyBytes addr pkt.req.size pkt.data mem else mem
      pure (pkt.setData addr mem, { m with pmem := some mem' })

/-- The records after a read. -/
def trackRead (pkt : Packet) (ls : List LockedAddr) : Except Fault (List LockedAddr) :=
  if pkt.has .isLlsc then do
    assert (!pkt.has .fromCache)
    pure (trackLoadLocked pkt.req ls)
  else .ok ls

/-- The branch of `access` for reads. -/
def accessRead (pkt : Packet) (m : AbstractMemory) : Except Fault (Packet × AbstractMemory) := do
  assert (!pkt.has .isWrite)
  let lockedAddrList ← trackRead pkt m.lockedAddrList
  pure ((m.pmem.map (pkt.setData pkt.req.paddr.toNat)).getD pkt, { m with lockedAddrList })

/-- The bytes of the memory after a write that may proceed or not. -/
def writeMem (proceed : Bool) (pkt : Packet) (pmem : Option (ℕ → Byte)) :
    Except Fault (Option (ℕ → Byte)) :=
  match pmem with
  | some mem =>
    if proceed then some <$> pkt.writeData pkt.req.paddr.toNat mem else .ok (some mem)
  | none => .ok none

/-- The branch of `access` for writes. -/
def accessWrite (pkt : Packet) (m : AbstractMemory) : Except Fault (Packet × AbstractMemory) := do
  let (proceed, pkt, lockedAddrList) := m.writeOK pkt
  let pmem ← writeMem proceed pkt m.pmem
  pure (pkt, { m with pmem, lockedAddrList })

/-- The branches of `access`. -/
def perform (pkt : Packet) (m : AbstractMemory) : Except Fault (Packet × AbstractMemory) :=
  if pkt.cmd = .swapReq then accessSwap pkt m
  else if pkt.has .isRead then accessRead pkt m
  else if pkt.has .isInvalidate || pkt.has .isClean then do
    assert (!pkt.has .isWrite)
    pure (pkt, m)
  else if pkt.has .isWrite then accessWrite pkt m
  else .error (.panic "Unexpected packet %s")

/-- `makeResponse`, if a response is needed. -/
def respond (pkt : Packet) : Packet :=
  if pkt.has .needsResponse then { pkt with cmd := pkt.cmd.responseCommand } else pkt

/-- The memory does not look at the packet. -/
def passes (pkt : Packet) : Bool :=
  pkt.cacheResponding || pkt.cmd = .cleanEvict || pkt.cmd = .writebackClean

def access (pkt : Packet) (m : AbstractMemory) : Except Fault (Packet × AbstractMemory) :=
  if passes pkt then .ok (pkt, m)
  else do
    assert (m.inRange pkt.req.paddr pkt.req.size)
    let (pkt, m) ← perform pkt m
    pure (respond pkt, m)

/-- The effect of an access on the memory. -/
def step (pkt : Packet) (m : AbstractMemory) : Except Fault AbstractMemory :=
  Prod.snd <$> access pkt m

/-! ### Granules -/

/-- The granule of an address. -/
def granule (b : ℕ) : ℕ := b / 16

open LockedAddr

theorem granule_mask (a : Addr) :
  granule (LockedAddr.mask a).toNat = granule a.toNat
  := by
  have hlt := a.isLt
  change (LockedAddr.mask a).toNat / 2 ^ 4 = a.toNat / 2 ^ 4
  rw [LockedAddr.mask, BitVec.toNat_and, ← Nat.shiftRight_eq_div_pow, Nat.shiftRight_and_distrib]
  change a.toNat >>> 4 &&& 2 ^ 60 - 1 = _
  rw [Nat.and_two_pow_sub_one_eq_mod, Nat.shiftRight_eq_div_pow]
  omega

/-! ### Records -/

variable {m m' : AbstractMemory} {pkt out : Packet} {ls : List LockedAddr} {l : LockedAddr}
  {req : Request}

/-- No context has two records. -/
def OnePerContext (ls : List LockedAddr) : Prop :=
  (ls.map LockedAddr.contextId).Nodup

theorem map_contextId_modifyRecord (req : Request) (ls : List LockedAddr) :
  (modifyRecord req ls).map contextId = ls.map contextId
  := by
  induction ls with
  | nil => rfl
  | cons l ls ih =>
    rw [modifyRecord]
    split_ifs
    · rfl
    · rw [map_cons, map_cons, ih]

section

variable (hls : OnePerContext ls)

include hls

/-- With one record for each context, an LL replaces the record of its context. -/
theorem mem_modifyRecord (hany : ls.any (fun l => l.contextId = req.contextId) = true) :
  l ∈ modifyRecord req ls ↔ l = .ofRequest req ∨ (l ∈ ls ∧ l.contextId ≠ req.contextId)
  := by
  induction ls with
  | nil => cases hany
  | cons x ls ih =>
    obtain ⟨hx, hls⟩ := nodup_cons.mp hls
    rw [modifyRecord]
    by_cases hc : x.contextId = req.contextId
    · have hothers : ∀ y ∈ ls, y.contextId ≠ req.contextId := by
        intro y hy heq
        exact hx (hc ▸ heq ▸ mem_map_of_mem hy)
      have hnew : ({ x with addr := LockedAddr.mask req.paddr } : LockedAddr)
          = .ofRequest req := by
        rw [ofRequest, ← hc]
      rw [if_pos hc, hnew, mem_cons, mem_cons]
      apply or_congr_right
      constructor
      · intro hl
        exact ⟨.inr hl, hothers l hl⟩
      · rintro ⟨rfl | hl, hne⟩
        · exact absurd hc hne
        · exact hl
    · have hany' : ls.any (fun l => l.contextId = req.contextId) = true := by
        simpa [hc] using hany
      have hx (heq : l = x) : l.contextId ≠ req.contextId := by rwa [heq]
      rw [if_neg hc, mem_cons, mem_cons, ih hls hany', or_and_right, and_iff_left_of_imp hx,
        or_left_comm]

theorem mem_trackLoadLocked :
  l ∈ trackLoadLocked req ls ↔ l = .ofRequest req ∨ (l ∈ ls ∧ l.contextId ≠ req.contextId)
  := by
  unfold trackLoadLocked
  split_ifs with hany
  · exact mem_modifyRecord hls hany
  · rw [mem_cons]
    apply or_congr_right
    constructor
    · intro hl
      refine ⟨hl, ?_⟩
      intro hc
      apply hany
      rw [any_eq_true]
      exact ⟨l, hl, by simpa using hc⟩
    · rintro ⟨hl, -⟩
      exact hl

theorem OnePerContext.trackLoadLocked (req : Request) :
  OnePerContext (trackLoadLocked req ls)
  := by
  unfold AbstractMemory.trackLoadLocked
  split_ifs with hany
  · rw [OnePerContext, map_contextId_modifyRecord]
    exact hls
  · apply nodup_cons.mpr ⟨?_, hls⟩
    intro hmem
    obtain ⟨l, hl, hc⟩ := mem_map.mp hmem
    apply hany
    rw [any_eq_true]
    exact ⟨l, hl, decide_eq_true hc⟩

end

/-- The short cut for an empty list does what the loops do. -/
theorem writeOK_eq (m : AbstractMemory) (pkt : Packet) :
  m.writeOK pkt
    = if m.writeable then checkLockedAddrList pkt m.lockedAddrList
      else (false, pkt, m.lockedAddrList)
  := by
  unfold writeOK
  cases m.writeable with
  | false => rfl
  | true =>
    cases m.lockedAddrList with
    | cons l ls => rfl
    | nil =>
      unfold checkLockedAddrList
      cases pkt.has .isLlsc with
      | false => rfl
      | true => rfl

/-- A write that may proceed removes the records of the granule it starts in. -/
theorem mem_writeOK :
  l ∈ (m.writeOK pkt).2.2
    ↔ l ∈ m.lockedAddrList
      ∧ ¬ ((m.writeOK pkt).1 = true ∧ l.addr = LockedAddr.mask pkt.req.paddr)
  := by
  rw [writeOK_eq]
  cases m.writeable with
  | false => simp
  | true =>
    simp only [if_true, checkLockedAddrList]
    split_ifs with hallow
    · simp [hallow]
    · simp [hallow]

theorem writeOK_sublist :
  (m.writeOK pkt).2.2.Sublist m.lockedAddrList
  := by
  rw [writeOK_eq]
  cases m.writeable with
  | false => exact List.Sublist.refl _
  | true =>
    simp only [if_true, checkLockedAddrList]
    split_ifs
    · exact filter_sublist
    · exact List.Sublist.refl _

/-- The check of a write changes only the extra data of an SC. -/
theorem writeOK_request (m : AbstractMemory) (pkt : Packet) :
  (m.writeOK pkt).2.1 = pkt ∨ ∃ success, (m.writeOK pkt).2.1 = answer pkt success
  := by
  rw [writeOK_eq]
  cases m.writeable with
  | false => exact .inl rfl
  | true =>
    simp only [if_true, checkLockedAddrList]
    split_ifs
    · exact .inr ⟨_, rfl⟩
    · exact .inl rfl

/-- An SC is answered with success exactly if it finds the record of its context in a memory that is
writeable. -/
theorem extraData_writeOK (hllsc : pkt.has .isLlsc = true) (hfresh : pkt.req.extraData = 0) :
  (m.writeOK pkt).2.1.req.extraData = 1
    ↔ m.writeable = true ∧ ∃ l ∈ m.lockedAddrList,
      l.addr = LockedAddr.mask pkt.req.paddr ∧ l.contextId = pkt.req.contextId
  := by
  rw [writeOK_eq]
  cases m.writeable with
  | false => simp [hfresh]
  | true =>
    simp only [checkLockedAddrList, hllsc, Bool.not_true, Bool.false_or, if_true, answer, true_and]
    cases hany : m.lockedAddrList.any
      (fun l => l.addr = LockedAddr.mask pkt.req.paddr && l.contextId = pkt.req.contextId) with
    | true =>
      simpa using hany
    | false =>
      simpa using hany

/-! ### What an access does -/

/-- The branch for reads tracks the packet. -/
def IsLoadLocked (pkt : Packet) : Prop :=
  passes pkt = false ∧ pkt.cmd ≠ .swapReq ∧ pkt.has .isRead = true ∧ pkt.has .isLlsc = true

/-- The packet takes the branch for writes. -/
def IsStore (pkt : Packet) : Prop :=
  passes pkt = false ∧ pkt.cmd ≠ .swapReq ∧ pkt.has .isRead = false
    ∧ (pkt.has .isInvalidate || pkt.has .isClean) = false ∧ pkt.has .isWrite = true

/-- The packet is a swap or an atomic operation. -/
def IsSwap (pkt : Packet) : Prop :=
  passes pkt = false ∧ pkt.cmd = .swapReq

instance (pkt : Packet) : Decidable (IsLoadLocked pkt) := inferInstanceAs (Decidable (_ ∧ _))

instance (pkt : Packet) : Decidable (IsStore pkt) := inferInstanceAs (Decidable (_ ∧ _))

/-- The access writes the byte with this address: it is an atomic operation, a swap that overwrites
the memory, or a write that may proceed and has the byte enabled. -/
def WritesByte (pkt : Packet) (m : AbstractMemory) (b : ℕ) : Prop :=
  pkt.req.Touches b
    ∧ ((IsSwap pkt ∧ (pkt.atomicOp.isSome = true
          ∨ ∃ mem, m.pmem = some mem ∧ pkt.swapOverwrites pkt.req.paddr.toNat mem = .ok true))
      ∨ (IsStore pkt ∧ (m.writeOK pkt).1 = true
          ∧ (pkt.isMaskedWrite = true →
            pkt.req.byteEnable.getD (b - pkt.req.paddr.toNat) false = true)))

/-- What an access has done to a memory. -/
structure Accessed (pkt : Packet) (m m' : AbstractMemory) : Prop where
  inRange : passes pkt = false → m.inRange pkt.req.paddr pkt.req.size = true
  range_eq : m'.inRange = m.inRange
  writeable_eq : m'.writeable = m.writeable
  records : m'.lockedAddrList
    = if IsLoadLocked pkt then trackLoadLocked pkt.req m.lockedAddrList
      else if IsStore pkt then (m.writeOK pkt).2.2
      else m.lockedAddrList
  /-- The bytes the access does not write are as before. -/
  unchanged : ∀ b, ¬ WritesByte pkt m b → m'.pmem.map (· b) = m.pmem.map (· b)

/-- A swap leaves the records and the bytes it does not write alone. -/
theorem accessSwap_eq_ok (hpasses : passes pkt = false) (hcmd : pkt.cmd = .swapReq)
    (h : accessSwap pkt m = .ok (out, m')) :
  m'.inRange = m.inRange ∧ m'.writeable = m.writeable ∧ m'.lockedAddrList = m.lockedAddrList
    ∧ ∀ b, ¬ WritesByte pkt m b → m'.pmem.map (· b) = m.pmem.map (· b)
  := by
  unfold accessSwap at h
  cases hop : pkt.atomicOp with
  | some op =>
    cases hmem : m.pmem with
    | none =>
      simp only [hop, hmem] at h
      cases h
      exact ⟨rfl, rfl, rfl, fun b _ => by rw [hmem]⟩
    | some mem =>
      simp only [hop, hmem] at h
      cases h
      refine ⟨rfl, rfl, rfl, ?_⟩
      intro b hb
      have houtside : ¬ pkt.req.Touches b := by
        intro htouch
        exact hb ⟨htouch, .inl ⟨⟨hpasses, hcmd⟩, .inl (by rw [hop]; rfl)⟩⟩
      exact congrArg some (Packet.runAtomicOp_of_outside houtside)
  | none =>
    cases hmem : m.pmem with
    | none =>
      simp only [hop, hmem] at h
      cases h
    | some mem =>
      simp only [hop, hmem] at h
      obtain ⟨overwriteMem, hover, h⟩ := bind_eq_ok.mp h
      cases h
      refine ⟨rfl, rfl, rfl, ?_⟩
      intro b hb
      cases overwriteMem with
      | false => rfl
      | true =>
        have houtside : ¬ pkt.req.Touches b := by
          intro htouch
          exact hb ⟨htouch, .inl ⟨⟨hpasses, hcmd⟩, .inr ⟨mem, hmem, hover⟩⟩⟩
        exact congrArg some (Packet.copyBytes_of_outside houtside)

theorem accessRead_eq_ok (h : accessRead pkt m = .ok (out, m')) :
  m' = { m with
    lockedAddrList := if pkt.has .isLlsc then trackLoadLocked pkt.req m.lockedAddrList
      else m.lockedAddrList }
  := by
  obtain ⟨-, h⟩ := assert_bind_eq_ok.mp h
  obtain ⟨ls, hls, h⟩ := bind_eq_ok.mp h
  cases h
  unfold trackRead at hls
  split_ifs at hls ⊢
  · obtain ⟨-, hls⟩ := assert_bind_eq_ok.mp hls
    cases hls
    rfl
  · cases hls
    rfl

theorem writeData_writeOK (base : ℕ) (mem : ℕ → Byte) :
  (m.writeOK pkt).2.1.writeData base mem = pkt.writeData base mem
    ∧ (m.writeOK pkt).2.1.req.paddr = pkt.req.paddr
  := by
  rcases writeOK_request m pkt with h | ⟨success, h⟩
  · rw [h]
    exact ⟨rfl, rfl⟩
  · rw [h]
    exact ⟨rfl, rfl⟩

theorem accessWrite_eq :
  accessWrite pkt m
    = (writeMem (m.writeOK pkt).1 (m.writeOK pkt).2.1 m.pmem >>= fun pmem =>
        .ok ((m.writeOK pkt).2.1, { m with pmem, lockedAddrList := (m.writeOK pkt).2.2 }))
  := rfl

/-- A write changes only bytes it writes. -/
theorem accessWrite_eq_ok (hstore : IsStore pkt) (h : accessWrite pkt m = .ok (out, m')) :
  m'.inRange = m.inRange ∧ m'.writeable = m.writeable ∧ m'.lockedAddrList = (m.writeOK pkt).2.2
    ∧ out = (m.writeOK pkt).2.1
    ∧ ∀ b, ¬ WritesByte pkt m b → m'.pmem.map (· b) = m.pmem.map (· b)
  := by
  rw [accessWrite_eq] at h
  obtain ⟨pmem, hpmem, h⟩ := bind_eq_ok.mp h
  obtain ⟨rfl, rfl⟩ := Prod.mk.inj (Except.ok.inj h)
  refine ⟨rfl, rfl, rfl, rfl, ?_⟩
  intro b hb
  unfold writeMem at hpmem
  cases hmem : m.pmem with
  | none =>
    rw [hmem] at hpmem
    cases hpmem
    rfl
  | some mem =>
    simp only [hmem] at hpmem
    split_ifs at hpmem with hproceed
    · obtain ⟨mem', hwrite, rfl⟩ := map_eq_ok.mp hpmem
      rw [(writeData_writeOK 0 mem).2, (writeData_writeOK _ mem).1] at hwrite
      apply congrArg some
      by_cases htouch : pkt.req.Touches b
      · have hdisabled : pkt.isMaskedWrite = true
            ∧ pkt.req.byteEnable.getD (b - pkt.req.paddr.toNat) false = false := by
          by_contra hall
          apply hb
          refine ⟨htouch, .inr ⟨hstore, hproceed, ?_⟩⟩
          intro hmask
          rw [← Bool.not_eq_false]
          exact fun hfalse => hall ⟨hmask, hfalse⟩
        exact Packet.writeData_of_disabled hwrite hdisabled.1 hdisabled.2
      · exact Packet.writeData_of_outside hwrite htouch
    · cases hpmem
      rfl

theorem access_eq_ok (hpasses : passes pkt = false) :
  access pkt m = .ok (out, m')
    ↔ m.inRange pkt.req.paddr pkt.req.size = true
      ∧ ∃ out', perform pkt m = .ok (out', m') ∧ out = respond out'
  := by
  rw [access, hpasses, if_neg Bool.false_ne_true, assert_bind_eq_ok, bind_eq_ok]
  apply and_congr_right
  intro _
  constructor
  · rintro ⟨⟨out', m₁⟩, hperform, hout⟩
    cases hout
    exact ⟨out', hperform, rfl⟩
  · rintro ⟨out', hperform, rfl⟩
    exact ⟨_, hperform, rfl⟩

theorem accessed (h : access pkt m = .ok (out, m')) :
  Accessed pkt m m'
  := by
  cases hpasses : passes pkt with
  | true =>
    rw [access, hpasses, if_pos rfl] at h
    cases h
    have hload : ¬ IsLoadLocked pkt := by simp [IsLoadLocked, hpasses]
    have hstore : ¬ IsStore pkt := by simp [IsStore, hpasses]
    refine ⟨by simp [hpasses], rfl, rfl, ?_, fun b _ => rfl⟩
    rw [if_neg hload, if_neg hstore]
  | false =>
    obtain ⟨hrange, out', h, -⟩ := (access_eq_ok hpasses).mp h
    unfold perform at h
    split_ifs at h with hswap hread hmaint hwrite
    · obtain ⟨hr, hw, hl, hb⟩ := accessSwap_eq_ok hpasses hswap h
      have hload : ¬ IsLoadLocked pkt := by simp [IsLoadLocked, hswap]
      have hstore : ¬ IsStore pkt := by simp [IsStore, hswap]
      refine ⟨fun _ => hrange, hr, hw, ?_, hb⟩
      rw [if_neg hload, if_neg hstore]
      exact hl
    · have hstore : ¬ IsStore pkt := by simp [IsStore, hread]
      cases accessRead_eq_ok h
      refine ⟨fun _ => hrange, rfl, rfl, ?_, fun b _ => rfl⟩
      simp [IsLoadLocked, hpasses, hswap, hread, hstore]
    · have hload : ¬ IsLoadLocked pkt := by simp [IsLoadLocked, hread]
      have hstore : ¬ IsStore pkt := by simp [IsStore, hmaint]
      obtain ⟨-, h⟩ := assert_bind_eq_ok.mp h
      cases h
      refine ⟨fun _ => hrange, rfl, rfl, ?_, fun b _ => rfl⟩
      rw [if_neg hload, if_neg hstore]
    · have hload : ¬ IsLoadLocked pkt := by simp [IsLoadLocked, hread]
      have hstore : IsStore pkt := ⟨hpasses, hswap, by simpa using hread, by simpa using hmaint,
        hwrite⟩
      obtain ⟨hr, hw, hl, -, hb⟩ := accessWrite_eq_ok hstore h
      refine ⟨fun _ => hrange, hr, hw, ?_, hb⟩
      rw [if_neg hload, if_pos hstore]
      exact hl

theorem accessed_of_step (h : step pkt m = .ok m') :
  Accessed pkt m m'
  := by
  obtain ⟨⟨out, m₁⟩, hok, rfl⟩ := map_eq_ok.mp h
  exact accessed hok

/-! ### Records along accesses -/

/-- The records of the memory: one for each context, each from an LL in the range of the memory. -/
structure Recorded (m : AbstractMemory) : Prop where
  unique : OnePerContext m.lockedAddrList
  loaded : ∀ l ∈ m.lockedAddrList, ∃ req : Request, l = .ofRequest req
    ∧ m.inRange req.paddr req.size = true

/-- The access writes a byte of the granule. -/
def WritesGranule (pkt : Packet) (m : AbstractMemory) (g : ℕ) : Prop :=
  ∃ b, granule b = g ∧ WritesByte pkt m b

/-- The access is the LL that makes the record. -/
def Makes (l : LockedAddr) (e : Lib.Event AbstractMemory Packet) : Prop :=
  IsLoadLocked e.label ∧ l = .ofRequest e.label.req

/-- The access removes the record: it is an LL of its context, or a store that may proceed and
starts in its granule. -/
def Breaks (l : LockedAddr) (e : Lib.Event AbstractMemory Packet) : Prop :=
  (IsLoadLocked e.label ∧ e.label.req.contextId = l.contextId)
    ∨ (IsStore e.label ∧ (e.before.writeOK e.label).1 = true
      ∧ l.addr = LockedAddr.mask e.label.req.paddr)

theorem not_isStore_of_isLoadLocked (h : IsLoadLocked pkt) :
  ¬ IsStore pkt
  := by
  rintro ⟨-, -, hread, -⟩
  rw [h.2.2.1] at hread
  cases hread

theorem mem_step (hm : Recorded m) (h : step pkt m = .ok m') :
  l ∈ m'.lockedAddrList
    ↔ Makes l ⟨m, pkt, m'⟩ ∨ (l ∈ m.lockedAddrList ∧ ¬ Breaks l ⟨m, pkt, m'⟩)
  := by
  rw [(accessed_of_step h).records]
  by_cases hload : IsLoadLocked pkt
  · have hstore := not_isStore_of_isLoadLocked hload
    rw [if_pos hload, mem_trackLoadLocked hm.unique]
    simp only [Makes, Breaks, hload, hstore, true_and, false_and, or_false]
    rw [ne_comm]
  · rw [if_neg hload]
    by_cases hstore : IsStore pkt
    · rw [if_pos hstore, mem_writeOK]
      simp [Makes, Breaks, hload, hstore]
    · rw [if_neg hstore]
      simp [Makes, Breaks, hload, hstore]

theorem Recorded.step (hm : Recorded m) (h : step pkt m = .ok m') :
  Recorded m'
  := by
  have hacc := accessed_of_step h
  constructor
  · rw [hacc.records]
    split_ifs with hload hstore
    · exact hm.unique.trackLoadLocked pkt.req
    · exact (writeOK_sublist.map _).nodup hm.unique
    · exact hm.unique
  · intro l hl
    rw [hacc.range_eq]
    rcases (mem_step hm h).mp hl with ⟨hload, rfl⟩ | ⟨hl, -⟩
    · exact ⟨pkt.req, rfl, hacc.inRange hload.1⟩
    · exact hm.loaded l hl

/-! ### Atomicity -/

/-- An SC, whose request is new. -/
structure IsStoreCond (pkt : Packet) : Prop where
  isWrite : pkt.has .isWrite = true
  isLlsc : pkt.has .isLlsc = true
  fresh : pkt.req.extraData = 0

/-- The access returns with the extra data that reports success to an SC. -/
def Reports (pkt : Packet) (m : AbstractMemory) : Prop :=
  ∃ out m', access pkt m = .ok (out, m') ∧ out.req.extraData = 1

/-- After the history `h`, for every SC that succeeds there is a last LL of its context, and since
then no access has written a byte of the granule of the LL. -/
def Atomic (h : List (Lib.Event AbstractMemory Packet)) (m : AbstractMemory) : Prop :=
  ∀ pkt, IsStoreCond pkt → Reports pkt m →
    ∃ h₁ e since, h = h₁ ++ e :: since
      ∧ IsLoadLocked e.label ∧ e.label.req.contextId = pkt.req.contextId
      ∧ (∀ e' ∈ since, ¬ (IsLoadLocked e'.label ∧ e'.label.req.contextId = pkt.req.contextId))
      ∧ ∀ e' ∈ since, ¬ WritesGranule e'.label e'.before (granule e.label.req.paddr.toNat)

/-- An access to a memory that is writeable writes to a granule with a record only if it is a store
that starts in this granule. -/
def Guarded (pkt : Packet) (m : AbstractMemory) : Prop :=
  m.writeable = true → (∃ m', step pkt m = .ok m') →
    ∀ l ∈ m.lockedAddrList, WritesGranule pkt m (granule l.addr.toNat) →
      IsStore pkt ∧ l.addr = LockedAddr.mask pkt.req.paddr

theorem IsStoreCond.isStore (h : IsStoreCond pkt) (hpasses : passes pkt = false) :
  IsStore pkt
  := by
  have htable : ∀ cmd : MemCmd, cmd.has .isWrite = true → cmd.has .isLlsc = true →
      cmd ≠ .swapReq ∧ cmd.has .isRead = false
        ∧ (cmd.has .isInvalidate || cmd.has .isClean) = false := by
    intro cmd
    cases cmd
    all_goals decide
  obtain ⟨hswap, hread, hmaint⟩ := htable pkt.cmd h.isWrite h.isLlsc
  exact ⟨hpasses, hswap, hread, hmaint, h.isWrite⟩

theorem perform_of_isStore (h : IsStore pkt) :
  perform pkt m = accessWrite pkt m
  := by
  obtain ⟨-, hswap, hread, hmaint, hwrite⟩ := h
  rw [perform, if_neg hswap, hread, if_neg Bool.false_ne_true, hmaint, if_neg Bool.false_ne_true,
    if_pos hwrite]

theorem extraData_respond (pkt : Packet) :
  (respond pkt).req.extraData = pkt.req.extraData
  := by
  unfold respond
  split_ifs
  · rfl
  · rfl

/-- An SC that reports success has found the record of its context. -/
theorem IsStoreCond.record_of_reports (hsc : IsStoreCond pkt) (h : Reports pkt m) :
  m.writeable = true ∧ ∃ l ∈ m.lockedAddrList,
    l.addr = LockedAddr.mask pkt.req.paddr ∧ l.contextId = pkt.req.contextId
  := by
  obtain ⟨out, m', h, hone⟩ := h
  cases hpasses : passes pkt with
  | true =>
    rw [access, hpasses, if_pos rfl] at h
    cases h
    rw [hsc.fresh] at hone
    cases hone
  | false =>
    have hstore := hsc.isStore hpasses
    obtain ⟨-, out', hperform, rfl⟩ := (access_eq_ok hpasses).mp h
    rw [perform_of_isStore hstore] at hperform
    obtain ⟨-, -, -, rfl, -⟩ := accessWrite_eq_ok hstore hperform
    rw [extraData_respond] at hone
    exact (extraData_writeOK hsc.isLlsc hsc.fresh).mp hone

/-- An SC of the bytes of an LL. -/
def storeCondAt (req : Request) : Packet where
  cmd := .storeCondReq
  req := { contextId := req.contextId, paddr := req.paddr, size := req.size }

theorem isStoreCond_storeCondAt (req : Request) :
  IsStoreCond (storeCondAt req)
  := ⟨rfl, rfl, rfl⟩

/-- The SC of a context with a record reports success. -/
theorem reports_storeCondAt (hw : m.writeable = true) (hl : .ofRequest req ∈ m.lockedAddrList)
    (hrange : m.inRange req.paddr req.size = true) :
  Reports (storeCondAt req) m
  := by
  have hsc := isStoreCond_storeCondAt req
  have hstore := hsc.isStore rfl
  have hmem : ∃ pmem, writeMem (m.writeOK (storeCondAt req)).1 (m.writeOK (storeCondAt req)).2.1
      m.pmem = .ok pmem := by
    unfold writeMem
    cases m.pmem with
    | none => exact ⟨none, rfl⟩
    | some mem =>
      simp only
      split_ifs
      · rw [(writeData_writeOK _ mem).1]
        exact ⟨_, rfl⟩
      · exact ⟨_, rfl⟩
  have hperform : ∃ m', perform (storeCondAt req) m
      = .ok ((m.writeOK (storeCondAt req)).2.1, m') := by
    obtain ⟨pmem, hmem⟩ := hmem
    rw [perform_of_isStore hstore, accessWrite_eq, hmem]
    exact ⟨_, rfl⟩
  obtain ⟨m', hperform⟩ := hperform
  refine ⟨_, m', (access_eq_ok rfl).mpr ⟨hrange, _, hperform, rfl⟩, ?_⟩
  · rw [extraData_respond]
    exact (extraData_writeOK hsc.isLlsc hsc.fresh).mpr ⟨hw, _, hl, rfl, rfl⟩

variable {pkts : List Packet}

section

variable (hm : Recorded m)

include hm

/-- The memory stays writeable or not, and its records are as they should be. -/
theorem Recorded.exec (hrun : exec AbstractMemory.step pkts m = .ok m') :
  Recorded m' ∧ m'.writeable = m.writeable
  := by
  have hmeets : Lib.Meets AbstractMemory.step (fun _ _ => True) pkts m :=
    meets_of_forall (by simp) m
  apply hmeets.invariant (P := fun m' => Recorded m' ∧ m'.writeable = m.writeable) _ ⟨hm, rfl⟩ hrun
  rintro m₁ pkt m₂ ⟨hm₁, hw₁⟩ - h
  exact ⟨hm₁.step h, (accessed_of_step h).writeable_eq.trans hw₁⟩

variable (hempty : m.lockedAddrList = []) (hrun : exec step pkts m = .ok m')

include hempty hrun

/-- A record is there exactly if it has been made and not been removed since. -/
theorem mem_records_iff_since :
  l ∈ m'.lockedAddrList ↔ Lib.Since (Makes l) (Breaks l) (events step pkts m)
  := by
  apply holds_iff_since (H := fun m => l ∈ m.lockedAddrList) (I := Recorded)
    (A := fun _ _ => True) _ _ hm (by simp [hempty]) (meets_of_forall (by simp) m) hrun
  · intro m pkt m' hm _ h
    exact mem_step hm h
  · intro m pkt m' hm _ h
    exact hm.step h

/-- A record is the record of the last LL of its context. -/
theorem record_eq_last (hl : l ∈ m'.lockedAddrList)
    {h₁ since : List (Lib.Event AbstractMemory Packet)} {e : Lib.Event AbstractMemory Packet}
    (hevents : events step pkts m = h₁ ++ e :: since)
    (hload : IsLoadLocked e.label ∧ e.label.req.contextId = l.contextId)
    (hlast : ∀ e' ∈ since, ¬ (IsLoadLocked e'.label ∧ e'.label.req.contextId = l.contextId)) :
  l = .ofRequest e.label.req
  := by
  rw [mem_records_iff_since hm hempty hrun] at hl
  obtain ⟨h₁', e₀, since', hevents', ⟨hload₀, rfl⟩, hkept⟩ := hl
  have heq := last_unique (hevents.symm.trans hevents') hload ⟨hload₀, rfl⟩ hlast
    (fun e' he' hload' => hkept e' he' (.inl hload'))
  rw [heq]

/-- Along guarded accesses to a memory that is writeable, a record is there exactly if it has been
made, and since then has not been removed and its granule has not been written. -/
theorem mem_records_iff_unwritten_since (hw : m.writeable = true)
    (hpkts : Lib.Meets step Guarded pkts m) :
  l ∈ m'.lockedAddrList
    ↔ Lib.Since (Makes l)
        (fun e => Breaks l e ∨ WritesGranule e.label e.before (granule l.addr.toNat))
        (events step pkts m)
  := by
  apply holds_iff_since (H := fun m => l ∈ m.lockedAddrList)
    (I := fun m => Recorded m ∧ m.writeable = true) _ _ ⟨hm, hw⟩ (by simp [hempty]) hpkts hrun
  · rintro m pkt m' ⟨hm, hw⟩ hguard h
    rw [mem_step hm h]
    apply or_congr_right
    apply and_congr_right
    intro hl
    rw [not_or]
    constructor
    · intro hkept
      refine ⟨hkept, ?_⟩
      rintro ⟨b, hb, hwrites⟩
      obtain ⟨hstore, haddr⟩ := hguard hw ⟨m', h⟩ l hl ⟨b, hb, hwrites⟩
      apply hkept
      right
      obtain ⟨-, ⟨hswap, -⟩ | ⟨-, hproceed, -⟩⟩ := hwrites
      · exact absurd hswap.2 hstore.2.1
      · exact ⟨hstore, hproceed, haddr⟩
    · intro hboth
      exact hboth.1
  · rintro m pkt m' ⟨hm, hw⟩ - h
    exact ⟨hm.step h, (accessed_of_step h).writeable_eq.trans hw⟩

theorem atomic_of_guarded (hpkts : Lib.Meets step Guarded pkts m) :
  Atomic (events step pkts m) m'
  := by
  intro pkt hsc hreports
  obtain ⟨hw', l, hl, haddr, hctx⟩ := hsc.record_of_reports hreports
  have hw := (hm.exec hrun).2.symm.trans hw'
  rw [mem_records_iff_unwritten_since hm hempty hrun hw hpkts] at hl
  obtain ⟨h₁, e, since, hevents, ⟨hload, rfl⟩, hkept⟩ := hl
  refine ⟨h₁, e, since, hevents, hload, hctx, ?_, ?_⟩
  · rintro e' he' ⟨hload', hctx'⟩
    exact hkept e' he' (.inl (.inl ⟨hload', hctx'.trans hctx.symm⟩))
  · intro e' he' hwrites
    apply hkept e' he'
    right
    have hgranule : granule (ofRequest e.label.req).addr.toNat
        = granule e.label.req.paddr.toNat := granule_mask _
    rw [hgranule]
    exact hwrites

end

/-- Accesses that keep SCs atomic are guarded: the context of a record whose granule is written
otherwise could store to it. -/
theorem guarded_of_atomic {m₀ : AbstractMemory} (hm₀ : Recorded m₀)
    (hempty : m₀.lockedAddrList = []) (hrun : exec step pkts m₀ = .ok m)
    (hatomic : ∀ m', step pkt m = .ok m' → Atomic (events step pkts m₀ ++ [⟨m, pkt, m'⟩]) m') :
  Guarded pkt m
  := by
  rintro hw ⟨m', hstep⟩ l hl hwrites
  have hm := (hm₀.exec hrun).1
  have hacc := accessed_of_step hstep
  obtain ⟨req, rfl, hrange⟩ := hm.loaded l hl
  have hload : ¬ IsLoadLocked pkt := by
    intro hload
    obtain ⟨b, -, -, hswap | hstore⟩ := hwrites
    · exact hload.2.1 hswap.1.2
    · exact not_isStore_of_isLoadLocked hload hstore.1
  by_contra hbad
  have hl' : ofRequest req ∈ m'.lockedAddrList := by
    rw [mem_step hm hstep]
    right
    refine ⟨hl, ?_⟩
    rintro (⟨hload', -⟩ | ⟨hstore, -, haddr⟩)
    · exact hload hload'
    · exact hbad ⟨hstore, haddr⟩
  have hreports : Reports (storeCondAt req) m' := by
    apply reports_storeCondAt (hacc.writeable_eq.trans hw) hl'
    rw [hacc.range_eq]
    exact hrange
  obtain ⟨h₁, e, since, hevents, hload', hctx, hlast, hunwritten⟩ :=
    hatomic m' hstep (storeCondAt req) (isStoreCond_storeCondAt req) hreports
  rcases eq_or_concat_of_append_cons_eq hevents with ⟨-, rfl, -⟩ | ⟨since', rfl, hevents'⟩
  · exact hload hload'
  · have hrecord : ofRequest req = .ofRequest e.label.req := by
      apply record_eq_last hm₀ hempty hrun hl hevents' ⟨hload', hctx⟩
      intro e' he'
      exact hlast e' (mem_append_left _ he')
    apply hunwritten _ (mem_append_right _ (mem_singleton_self _))
    rw [hrecord] at hwrites
    rw [← granule_mask]
    exact hwrites

/-- For every sequence of accesses to a memory without records: after each of them, every SC that
reports success has a last LL of its context, since when no byte of the granule of the LL has been
written, exactly if every access that writes to a granule with a record is a store that starts in
this granule, or the memory is not writeable. -/
theorem memory_storeCond_atomic_iff (hempty : m.lockedAddrList = []) (pkts : List Packet) :
  (∀ pre m', pre <+: pkts → Lib.exec step pre m = .ok m' → Atomic (Lib.events step pre m) m')
    ↔ Lib.Meets step Guarded pkts m
  := by
  have hm : Recorded m := by
    constructor
    · rw [hempty]
      exact nodup_nil
    · simp [hempty]
  rw [meets_iff_forall_initial]
  constructor
  · intro hatomic pre pkt m₁ hpre hrun
    apply guarded_of_atomic hm hempty hrun
    intro m₂ hstep
    rw [← events_concat hrun hstep]
    exact hatomic _ _ hpre (exec_concat hrun hstep)
  · intro hguard pre m₁ hpre hrun
    apply atomic_of_guarded hm hempty hrun
    rw [meets_iff_forall_initial]
    intro pre' pkt m₂ hpre' hrun'
    exact hguard pre' pkt m₂ (hpre'.trans hpre) hrun'

/-- A memory of 64 bytes, all of them 0. -/
def zeroMemory : AbstractMemory where
  inRange := fun paddr size => paddr.toNat + size ≤ 64
  pmem := some (fun _ => 0)
  writeable := true

/-- An access of context `c` to `size` bytes, with ones as its data. -/
def onesAt (cmd : MemCmd) (c : ℕ) (paddr : Addr) (size : ℕ) : Packet where
  cmd := cmd
  req := { contextId := c, paddr := paddr, size := size }
  data := fun _ => 1

/-- Context 0 locks the granule of address 16, the access changes the byte at this address, and the
SC of context 0 succeeds. -/
def Overlooked (pkt : Packet) : Prop :=
  ∃ m₁ m₂ m₃ out, step (onesAt .loadLockedReq 0 16 4) zeroMemory = .ok m₁
    ∧ step pkt m₁ = .ok m₂
    ∧ m₁.pmem.map (· 16) = some 0 ∧ m₂.pmem.map (· 16) = some 1
    ∧ access (onesAt .storeCondReq 0 16 4) m₂ = .ok (out, m₃) ∧ out.req.extraData = 1

/-- Context 1 stores eight bytes from address 12, or swaps the four bytes at address 16. -/
theorem storeCond_not_atomic :
  Overlooked (onesAt .writeReq 1 12 8) ∧ Overlooked (onesAt .swapReq 1 16 4)
  := by
  constructor
  · exact ⟨_, _, _, _, rfl, rfl, rfl, rfl, rfl, rfl⟩
  · exact ⟨_, _, _, _, rfl, rfl, rfl, rfl, rfl, rfl⟩

/-- Context 0 locks a granule and context 1 stores to another one. -/
theorem memory_storeCond_atomic_iff_apart :
  ∃ m, Lib.exec step [onesAt .loadLockedReq 0 16 4, onesAt .writeReq 1 32 8] zeroMemory = .ok m
    ∧ Atomic (Lib.events step [onesAt .loadLockedReq 0 16 4, onesAt .writeReq 1 32 8] zeroMemory) m
  := by
  refine ⟨_, rfl, ?_⟩
  apply (memory_storeCond_atomic_iff rfl _).mpr ?_ _ _ prefix_rfl rfl
  refine ⟨?_, ?_⟩
  · nofun
  · rintro m ⟨⟩
    refine ⟨?_, fun _ _ => trivial⟩
    rintro - - l hl ⟨b, hb, hwrites⟩
    rw [mem_singleton.mp hl] at hb
    have hgranule : b / 16 = 1 := hb
    have hlow : 32 ≤ b := hwrites.1.1
    omega

end AbstractMemory

end Gem5Arc
