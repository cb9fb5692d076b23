import Gem5Arc.Lib.Since
import Gem5Arc.Mem.Packet

/-!
# The load locks of a cache block

A block of a classic cache keeps the list of the load-locked (LL) accesses to it. A lock has the
context and the range of bytes of the access. A later LL removes the locks it intersects, a store
the intersecting ones of other contexts, and a store-conditional (SC) succeeds if it finds a lock of
its context around its range, which it then removes.

The locks of a block are pairwise disjoint (`Apart`). So a lock is removed by a successful SC
exactly if it is around the range of the SC, and which locks there are is a matter of what has been
loaded and not been broken since (`mem_locks_iff_since`). From it follows when an SC succeeds
(`checkWrite_storeCond_iff`).
-/

namespace Gem5Arc

open List

namespace CacheBlk

/-- The context that has locked a range of bytes, which includes both ends. -/
structure Lock where
  contextId : ℕ
  lowAddr : Addr
  highAddr : Addr

/-- The last byte of a request. -/
def reqHigh (req : Request) : Addr :=
  req.paddr + BitVec.ofNat 64 req.size - 1

namespace Lock

def ofRequest (req : Request) : Lock where
  contextId := req.contextId
  lowAddr := req.paddr
  highAddr := reqHigh req

/-- The lock is of the context of the request and around its range. -/
def «matches» (l : Lock) (req : Request) : Bool :=
  l.contextId = req.contextId && req.paddr ≥ l.lowAddr && reqHigh req ≤ l.highAddr

def intersects (l : Lock) (req : Request) : Bool :=
  req.paddr ≤ l.highAddr && reqHigh req ≥ l.lowAddr

end Lock

/-- Remove the locks the request intersects, and lock its range. -/
def trackLoadLocked (pkt : Packet) (lockList : List Lock) : Except Fault (List Lock) := do
  assert (pkt.has .isLlsc)
  pure (Lock.ofRequest pkt.req :: lockList.filter (fun l => !l.intersects pkt.req))

/-- Remove the locks of other contexts the request intersects. -/
def clearLoadLocks (req : Request) (lockList : List Lock) : List Lock :=
  lockList.filter (fun l => !(l.intersects req && l.contextId ≠ req.contextId))

/-- May the write proceed? An SC also gets the answer in the extra data of its request. -/
def checkWrite (pkt : Packet) (lockList : List Lock) :
    Except Fault (Bool × Packet × List Lock) := do
  assert (pkt.has .isWrite)
  if !pkt.has .isLlsc && lockList.isEmpty then
    return (true, pkt, lockList)
  if pkt.has .isLlsc then
    let success := lockList.any (fun l => Lock.matches l pkt.req)
    let lockList := lockList.eraseP (fun l => Lock.matches l pkt.req)
    let pkt := { pkt with req := { pkt.req with extraData := if success then 1 else 0 } }
    return (success, pkt, clearLoadLocks pkt.req lockList)
  else
    return (true, pkt, clearLoadLocks pkt.req lockList)

/-! ### Locks and ranges -/

variable {l l' : Lock} {r r' : Request} {s t : List Lock} {pkt : Packet}

theorem toNat_reqHigh (h : r.Proper) :
  (reqHigh r).toNat = r.paddr.toNat + r.size - 1
  := by
  obtain ⟨hpos, hle⟩ := h
  have hone : (1 : Addr).toNat = 1 := rfl
  simp only [reqHigh, BitVec.toNat_sub, BitVec.toNat_add, BitVec.toNat_ofNat, hone]
  omega

/-- The lock of an LL matches the requests of its context that it covers. -/
theorem Lock.matches_ofRequest (h : r.Proper) (h' : r'.Proper) :
  Lock.matches (ofRequest r) r' = true ↔ r.contextId = r'.contextId ∧ r.Covers r'
  := by
  have hpos := h.nonempty
  simp only [Lock.matches, Bool.and_eq_true, decide_eq_true_eq, BitVec.le_def, and_assoc]
  simp only [ofRequest, toNat_reqHigh h, toNat_reqHigh h', Request.Covers]
  apply and_congr_right
  intro _
  omega

theorem Lock.intersects_ofRequest (h : r.Proper) (h' : r'.Proper) :
  (ofRequest r).intersects r' = true ↔ r.Overlaps r'
  := by
  have hpos := h.nonempty
  have hpos' := h'.nonempty
  simp only [Lock.intersects, ofRequest, Bool.and_eq_true, decide_eq_true_eq, BitVec.le_def,
    toNat_reqHigh h, toNat_reqHigh h', Request.Overlaps]
  omega

/-- The ranges of the locks have no byte in common. -/
def Lock.Disjoint (l l' : Lock) : Prop :=
  l.highAddr < l'.lowAddr ∨ l'.highAddr < l.lowAddr

theorem Lock.disjoint_ofRequest :
  (ofRequest r).Disjoint l ↔ l.intersects r = false
  := by
  rw [← Bool.not_eq_true]
  simp only [Disjoint, intersects, ofRequest, Bool.and_eq_true, decide_eq_true_eq, BitVec.le_def,
    BitVec.lt_def]
  omega

/-- Two disjoint locks are not both around a request. -/
theorem Lock.Disjoint.not_matches (h : l.Disjoint l') (hr : r.Proper)
    (hl : Lock.matches l r = true) :
  Lock.matches l' r = false
  := by
  have hpos := hr.nonempty
  rw [← Bool.not_eq_true]
  simp only [Lock.matches, Bool.and_eq_true, decide_eq_true_eq, BitVec.le_def,
    toNat_reqHigh hr, Disjoint, BitVec.lt_def] at hl h ⊢
  omega

/-! ### The lists of locks -/

/-- The locks of a block are pairwise disjoint. -/
def Apart (s : List Lock) : Prop :=
  s.Pairwise Lock.Disjoint

/-- Among disjoint locks, removing the first one that matches a request removes all that do. -/
theorem Apart.eraseP_matches (h : Apart s) (hr : r.Proper) :
  s.eraseP (fun l => Lock.matches l r) = s.filter (fun l => !Lock.matches l r)
  := by
  induction s with
  | nil => rfl
  | cons l s ih =>
    obtain ⟨hl, hs⟩ := pairwise_cons.mp h
    cases hm : Lock.matches l r with
    | false => simp [hm, ih hs]
    | true =>
      have hothers : ∀ l' ∈ s, (!Lock.matches l' r) = true := by
        intro l' hl'
        rw [(hl l' hl').not_matches hr hm]
        rfl
      simp only [eraseP_cons, hm, filter_cons, cond_true, Bool.not_true]
      rw [filter_eq_self.mpr hothers]
      rfl

/-- A write of the packet may proceed. -/
def Succeeds (pkt : Packet) (s : List Lock) : Prop :=
  ∃ pkt' t, checkWrite pkt s = .ok (true, pkt', t)

theorem checkWrite_store (hw : pkt.has .isWrite = true) (hl : pkt.has .isLlsc = false) :
  checkWrite pkt s = .ok (true, pkt, clearLoadLocks pkt.req s)
  := by
  rw [checkWrite, hw, hl]
  cases s with
  | nil => rfl
  | cons l s => rfl

theorem checkWrite_storeCond (hw : pkt.has .isWrite = true) (hl : pkt.has .isLlsc = true) :
  checkWrite pkt s
    = .ok (s.any (fun l => Lock.matches l pkt.req),
        { pkt with req := { pkt.req with
          extraData := if s.any (fun l => Lock.matches l pkt.req) then 1 else 0 } },
        clearLoadLocks pkt.req (s.eraseP (fun l => Lock.matches l pkt.req)))
  := by
  rw [checkWrite, hw, hl]
  rfl

variable {success : Bool} {pkt' : Packet} {op : LockOp}

/-- A check of a write changes only the extra data of the request, which for an SC tells whether it
succeeds. -/
theorem checkWrite_request (h : checkWrite pkt s = .ok (success, pkt', t)) :
  pkt'.cmd = pkt.cmd ∧ pkt'.req.paddr = pkt.req.paddr ∧ pkt'.req.size = pkt.req.size
    ∧ (pkt.has .isLlsc = true → (pkt'.req.extraData = 1 ↔ success = true))
  := by
  have hw := (assert_bind_eq_ok.mp h).1
  cases hl : pkt.has .isLlsc with
  | false =>
    rw [checkWrite_store hw hl] at h
    cases h
    exact ⟨rfl, rfl, rfl, nofun⟩
  | true =>
    rw [checkWrite_storeCond hw hl] at h
    cases h
    refine ⟨rfl, rfl, rfl, fun _ => ?_⟩
    cases s.any (fun l => Lock.matches l pkt.req) with
    | false => simp
    | true => simp

/-- An SC succeeds if there is a lock of its context around its range. -/
theorem succeeds_storeCond (hw : pkt.has .isWrite = true) (hl : pkt.has .isLlsc = true) :
  Succeeds pkt s ↔ ∃ l ∈ s, Lock.matches l pkt.req = true
  := by
  rw [Succeeds, checkWrite_storeCond hw hl, ← any_eq_true]
  constructor
  · rintro ⟨pkt', t, h⟩
    injection h with h
    injection h
  · intro h
    rw [h]
    exact ⟨_, _, rfl⟩

/-! ### Sequences of operations -/

/-- An operation on the locks of a block. -/
inductive LockOp where
  | trackLoadLocked (pkt : Packet)
  | checkWrite (pkt : Packet)
  | invalidate

def lockStep : LockOp → List Lock → Except Fault (List Lock)
  | .trackLoadLocked pkt, s => trackLoadLocked pkt s
  | .checkWrite pkt, s => (fun out => out.2.2) <$> checkWrite pkt s
  | .invalidate, _ => .ok []

/-- The operations the cache performs: an LL is tracked, a write is checked, and the ranges are not
empty. -/
def Performed : LockOp → List Lock → Prop
  | .trackLoadLocked pkt, _ => pkt.has .isLlsc = true ∧ pkt.req.Proper
  | .checkWrite pkt, _ => pkt.has .isWrite = true ∧ pkt.req.Proper
  | .invalidate, _ => True

/-- What breaks the lock of the LL `r`: an LL that overlaps its range, a store or SC of another
context that does, a successful SC of its context inside the range, and an invalidation. -/
def Breaks (r : Request) (e : Lib.Event (List Lock) LockOp) : Prop :=
  match e.label with
  | .trackLoadLocked pkt => r.Overlaps pkt.req
  | .checkWrite pkt =>
    (r.contextId ≠ pkt.req.contextId ∧ r.Overlaps pkt.req)
      ∨ (pkt.has .isLlsc = true ∧ Succeeds pkt e.before ∧ r.contextId = pkt.req.contextId
        ∧ r.Covers pkt.req)
  | .invalidate => True

theorem mem_clearLoadLocks :
  l ∈ clearLoadLocks r s ↔ l ∈ s ∧ ¬ (l.intersects r = true ∧ l.contextId ≠ r.contextId)
  := by
  simp only [clearLoadLocks, mem_filter, Bool.not_eq_true', Bool.and_eq_false_iff,
    decide_eq_false_iff_not]
  apply and_congr_right
  intro _
  rw [not_and_or, Bool.not_eq_true]

theorem Apart.filter (h : Apart s) (p : Lock → Bool) :
  Apart (s.filter p)
  := h.sublist filter_sublist

/-- The locks after an LL. -/
theorem mem_trackLoadLocked (h : trackLoadLocked pkt s = .ok t) :
  l ∈ t ↔ l = Lock.ofRequest pkt.req ∨ (l ∈ s ∧ l.intersects pkt.req = false)
  := by
  obtain ⟨-, h⟩ := assert_bind_eq_ok.mp h
  cases h
  simp

/-- The locks after a write. A lock around the range of a successful SC is removed. -/
theorem mem_checkWrite (hs : Apart s) (hr : pkt.req.Proper)
    (h : checkWrite pkt s = .ok (success, pkt', t)) :
  l ∈ t ↔ l ∈ s ∧ ¬ (l.intersects pkt.req = true ∧ l.contextId ≠ pkt.req.contextId)
    ∧ ¬ (pkt.has .isLlsc = true ∧ Lock.matches l pkt.req = true)
  := by
  have hw := (assert_bind_eq_ok.mp h).1
  cases hl : pkt.has .isLlsc with
  | false =>
    rw [checkWrite_store hw hl] at h
    cases h
    rw [mem_clearLoadLocks]
    simp
  | true =>
    rw [checkWrite_storeCond hw hl] at h
    cases h
    rw [mem_clearLoadLocks, hs.eraseP_matches hr, mem_filter]
    simp only [Bool.not_eq_true', true_and, Bool.not_eq_true]
    tauto

theorem Apart.trackLoadLocked (hs : Apart s) (h : CacheBlk.trackLoadLocked pkt s = .ok t) :
  Apart t
  := by
  obtain ⟨-, h⟩ := assert_bind_eq_ok.mp h
  cases h
  apply pairwise_cons.mpr ⟨?_, hs.filter _⟩
  intro l hl
  rw [Lock.disjoint_ofRequest]
  simpa using of_mem_filter hl

theorem Apart.checkWrite (hs : Apart s) (h : CacheBlk.checkWrite pkt s = .ok (success, pkt', t)) :
  Apart t
  := by
  have hw := (assert_bind_eq_ok.mp h).1
  cases hl : pkt.has .isLlsc with
  | false =>
    rw [checkWrite_store hw hl] at h
    cases h
    exact hs.filter _
  | true =>
    rw [checkWrite_storeCond hw hl] at h
    cases h
    apply Apart.filter
    exact hs.sublist eraseP_sublist

theorem lockStep_checkWrite (h : lockStep (.checkWrite pkt) s = .ok t) :
  ∃ success pkt', checkWrite pkt s = .ok (success, pkt', t)
  := by
  obtain ⟨⟨success, pkt', t'⟩, hok, rfl⟩ := map_eq_ok.mp h
  exact ⟨success, pkt', hok⟩

/-- The locks are disjoint, and each is the lock of an LL. -/
structure Tracked (s : List Lock) : Prop where
  apart : Apart s
  loaded : ∀ l ∈ s, ∃ r : Request, r.Proper ∧ l = Lock.ofRequest r

theorem tracked_nil :
  Tracked []
  := ⟨List.Pairwise.nil, by simp⟩

/-- The locks stay disjoint, and what holds of each of them holds of each later if it holds of a new
one. -/
theorem Apart.lockStep {P : Lock → Prop} (hs : Apart s) (hP : ∀ l ∈ s, P l) (hop : Performed op s)
    (h : lockStep op s = .ok t)
    (hnew : ∀ pkt, op = .trackLoadLocked pkt → P (Lock.ofRequest pkt.req)) :
  Apart t ∧ ∀ l ∈ t, P l
  := by
  cases op with
  | trackLoadLocked pkt =>
    refine ⟨hs.trackLoadLocked h, ?_⟩
    intro l hl
    rcases (mem_trackLoadLocked h).mp hl with rfl | ⟨hl, -⟩
    · exact hnew pkt rfl
    · exact hP l hl
  | checkWrite pkt =>
    obtain ⟨success, pkt', h⟩ := lockStep_checkWrite h
    refine ⟨hs.checkWrite h, ?_⟩
    intro l hl
    exact hP l ((mem_checkWrite hs hop.2 h).mp hl).1
  | invalidate =>
    cases h
    exact ⟨.nil, by simp⟩

theorem Tracked.lockStep (hs : Tracked s) (hop : Performed op s) (h : lockStep op s = .ok t) :
  Tracked t
  := by
  obtain ⟨hapart, hloaded⟩ := hs.apart.lockStep hs.loaded hop h (by
    rintro pkt rfl
    exact ⟨pkt.req, hop.2, rfl⟩)
  exact ⟨hapart, hloaded⟩

/-- An operation that is performed does not fail. -/
theorem exists_lockStep (hop : Performed op s) :
  ∃ t, lockStep op s = .ok t
  := by
  cases op with
  | trackLoadLocked pkt =>
    rw [lockStep, trackLoadLocked, hop.1]
    exact ⟨_, rfl⟩
  | checkWrite pkt =>
    simp only [lockStep]
    cases hl : pkt.has .isLlsc with
    | false =>
      rw [checkWrite_store hop.1 hl]
      exact ⟨_, rfl⟩
    | true =>
      rw [checkWrite_storeCond hop.1 hl]
      exact ⟨_, rfl⟩
  | invalidate => exact ⟨_, rfl⟩

/-- An event makes the lock of its LL. -/
def Makes (l : Lock) (e : Lib.Event (List Lock) LockOp) : Prop :=
  ∃ pkt, e.label = .trackLoadLocked pkt ∧ l = Lock.ofRequest pkt.req

/-- The lock of the LL `r` is there after an operation if the operation makes it, or if it was there
and the operation does not break it. -/
theorem mem_lockStep (hr : r.Proper) (hs : Apart s) (hop : Performed op s)
    (h : lockStep op s = .ok t) :
  Lock.ofRequest r ∈ t
    ↔ Makes (Lock.ofRequest r) ⟨s, op, t⟩ ∨ (Lock.ofRequest r ∈ s ∧ ¬ Breaks r ⟨s, op, t⟩)
  := by
  cases op with
  | trackLoadLocked pkt =>
    rw [mem_trackLoadLocked h, ← Bool.not_eq_true, Lock.intersects_ofRequest hr hop.2]
    simp [Makes, Breaks]
  | checkWrite pkt =>
    obtain ⟨success, pkt', h⟩ := lockStep_checkWrite h
    have hmakes : ¬ Makes (Lock.ofRequest r) ⟨s, .checkWrite pkt, t⟩ := by
      rintro ⟨_, hlabel, -⟩
      cases hlabel
    rw [mem_checkWrite hs hop.2 h, Lock.intersects_ofRequest hr hop.2,
      Lock.matches_ofRequest hr hop.2, iff_false_intro hmakes, false_or]
    apply and_congr_right
    intro hmem
    have hsucceeds : pkt.has .isLlsc = true → r.contextId = pkt.req.contextId →
        r.Covers pkt.req → Succeeds pkt s := by
      intro hl hc hcov
      rw [succeeds_storeCond hop.1 hl]
      exact ⟨_, hmem, (Lock.matches_ofRequest hr hop.2).mpr ⟨hc, hcov⟩⟩
    have hctx : (Lock.ofRequest r).contextId = r.contextId := rfl
    simp only [Breaks, hctx]
    tauto
  | invalidate =>
    cases h
    simp [Makes, Breaks]

/-- Which locks there are after a sequence of operations. -/
theorem mem_locks_iff_since (hr : r.Proper) {ops : List LockOp}
    (hops : Lib.Meets lockStep Performed ops []) (hrun : Lib.exec lockStep ops [] = .ok s) :
  Lock.ofRequest r ∈ s
    ↔ Lib.Since (Makes (Lock.ofRequest r)) (Breaks r) (Lib.events lockStep ops [])
  := by
  apply Lib.holds_iff_since (H := fun s => Lock.ofRequest r ∈ s) (I := Tracked) _ _ tracked_nil
    not_mem_nil hops hrun
  · intro s op t hs hop h
    exact mem_lockStep hr hs.apart hop h
  · intro s op t hs hop h
    exact hs.lockStep hop h

/-- What breaks a lock depends on its LL only through the context and the range. -/
theorem breaks_congr (hr : r.Proper) (hr' : r'.Proper) (h : Lock.ofRequest r = Lock.ofRequest r')
    (e : Lib.Event (List Lock) LockOp) :
  Breaks r e ↔ Breaks r' e
  := by
  injection h with hctx haddr hhigh
  have hsize : r.size = r'.size := by
    have hnat := congrArg BitVec.toNat hhigh
    rw [toNat_reqHigh hr, toNat_reqHigh hr', haddr] at hnat
    have hpos := hr.nonempty
    have hpos' := hr'.nonempty
    omega
  simp only [Breaks, Request.Overlaps, Request.Covers, hctx, haddr, hsize]

/-- An SC on a block succeeds exactly if there is an earlier LL of its context that covers its
range, and since then there was no LL that overlaps the LL, no store or SC of another context that
does, no successful SC of its context inside the range of the LL, and no invalidation. Other stores
always succeed. -/
theorem checkWrite_storeCond_iff {ops : List LockOp} (hops : Lib.Meets lockStep Performed ops []) :
  ∃ s, Lib.exec lockStep ops [] = .ok s
    ∧ (∀ pkt : Packet, pkt.has .isWrite = true → pkt.has .isLlsc = true → pkt.req.Proper →
      (Succeeds pkt s
        ↔ ∃ h₁ e h₂ ll, Lib.events lockStep ops [] = h₁ ++ e :: h₂
          ∧ e.label = .trackLoadLocked ll ∧ ll.req.contextId = pkt.req.contextId
          ∧ ll.req.Covers pkt.req ∧ ∀ e' ∈ h₂, ¬ Breaks ll.req e'))
    ∧ ∀ pkt : Packet, pkt.has .isWrite = true → pkt.has .isLlsc = false → Succeeds pkt s
  := by
  have halways : Lib.Always lockStep Tracked ops [] := by
    apply Lib.always_of_meets _ tracked_nil hops
    intro s op hs hop
    obtain ⟨t, ht⟩ := exists_lockStep hop
    exact ⟨t, ht, hs.lockStep hop ht⟩
  obtain ⟨s, hrun, hs⟩ := halways.exec
  refine ⟨s, hrun, ?_, fun _ hw hl => ⟨_, _, checkWrite_store hw hl⟩⟩
  intro pkt hw hl hr
  rw [succeeds_storeCond hw hl]
  constructor
  · rintro ⟨l, hmem, hmatch⟩
    obtain ⟨r, hproper, rfl⟩ := hs.loaded l hmem
    obtain ⟨h₁, e, h₂, hevents, ⟨ll, hlabel, hlock⟩, hkept⟩ :=
      (mem_locks_iff_since hproper hops hrun).mp hmem
    have hll : ll.req.Proper := by
      have hperformed := (hops.events e (by rw [hevents]; simp)).1
      rw [hlabel] at hperformed
      exact hperformed.2
    rw [hlock, Lock.matches_ofRequest hll hr] at hmatch
    refine ⟨h₁, e, h₂, ll, hevents, hlabel, hmatch.1, hmatch.2, ?_⟩
    intro e' he'
    rw [← breaks_congr hproper hll hlock]
    exact hkept e' he'
  · rintro ⟨h₁, e, h₂, ll, hevents, hlabel, hctx, hcov, hkept⟩
    have hll : ll.req.Proper := by
      have hperformed := (hops.events e (by rw [hevents]; simp)).1
      rw [hlabel] at hperformed
      exact hperformed.2
    refine ⟨Lock.ofRequest ll.req, ?_, (Lock.matches_ofRequest hll hr).mpr ⟨hctx, hcov⟩⟩
    rw [mem_locks_iff_since hll hops hrun]
    exact ⟨h₁, e, h₂, hevents, ⟨ll, hlabel, rfl⟩, hkept⟩

/-- An access of context `c` to four bytes. -/
def fourBytes (cmd : MemCmd) (c : ℕ) (paddr : Addr) : Packet where
  cmd := cmd
  req := { contextId := c, paddr := paddr, size := 4 }

theorem proper_fourBytes {cmd : MemCmd} {c : ℕ} {paddr : Addr} (h : paddr.toNat + 4 ≤ 2 ^ 64) :
  (fourBytes cmd c paddr).req.Proper
  := ⟨Nat.succ_pos 3, h⟩

/-- Context 0 locks four bytes, context 1 stores to the next four, and the SC of context 0
succeeds. -/
theorem checkWrite_storeCond_iff_undisturbed :
  ∃ s, Lib.exec lockStep [.trackLoadLocked (fourBytes .loadLockedReq 0 64),
      .checkWrite (fourBytes .writeReq 1 68)] [] = .ok s
    ∧ Succeeds (fourBytes .storeCondReq 0 64) s
  := by
  have hops : Lib.Meets lockStep Performed [.trackLoadLocked (fourBytes .loadLockedReq 0 64),
      .checkWrite (fourBytes .writeReq 1 68)] [] :=
    ⟨⟨rfl, proper_fourBytes (by decide)⟩,
      fun _ _ => ⟨⟨rfl, proper_fourBytes (by decide)⟩, fun _ _ => trivial⟩⟩
  obtain ⟨s, hrun, hcond, -⟩ := checkWrite_storeCond_iff hops
  refine ⟨s, hrun, (hcond _ rfl rfl (proper_fourBytes (by decide))).mpr ?_⟩
  refine ⟨[], _, _, _, rfl, rfl, rfl, by decide, ?_⟩
  intro e he
  rw [mem_singleton.mp he]
  simp [Breaks, fourBytes, Request.Overlaps, MemCmd.has, MemCmd.attributes, Packet.has]

end CacheBlk

end Gem5Arc
