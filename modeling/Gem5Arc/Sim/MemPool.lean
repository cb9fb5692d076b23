import Gem5Arc.Basic
import Gem5Arc.Lib.Run

/-!
# The pool of physical pages

`sim/mem_pool.cc`: a pool hands out the pages of a part of physical memory one after another. Page
numbers are counters, which are words that are compared as signed numbers.

The pages that are left are counted after those of the request have been taken. As there must be
some left, the last page is never handed out, and a request for all free pages is refused. Numbers
that are off by more than half of all words are seen with the wrong sign (`pages_granted_iff`).
-/

namespace Gem5Arc

open BitVec Lib List

structure MemPool where
  pageShift : ℕ
  startPageNum : BitVec 64
  freePageNum : BitVec 64
  totalPages : BitVec 64

namespace MemPool

/-- The constructor. -/
def make (pageShift : ℕ) (ptr limit : Addr) : Except Fault MemPool := do
  let totalPages := (limit - ptr) >>> pageShift
  assert (0 < totalPages.toInt)
  pure ⟨pageShift, ptr >>> pageShift, ptr >>> pageShift, totalPages⟩

def allocatedPages (pool : MemPool) : BitVec 64 := pool.freePageNum - pool.startPageNum

def freePages (pool : MemPool) : BitVec 64 := pool.totalPages - pool.allocatedPages

def freePageAddr (pool : MemPool) : Addr := pool.freePageNum <<< pool.pageShift

def allocate (npages : Addr) (pool : MemPool) : Except Fault (Addr × MemPool) := do
  let taken := { pool with freePageNum := pool.freePageNum + npages }
  fatalIf (taken.freePages.toInt ≤ 0)
    "Out of memory, please increase size of physical memory."
  pure (pool.freePageAddr, taken)

/-! ### Requests -/

/-- A pool, and the addresses that it has returned, each with the number of pages. -/
structure Handed where
  pool : MemPool
  ranges : List (Addr × ℕ) := []

def call (npages : Addr) (s : Handed) : Except Fault Handed := do
  let (addr, pool) ← s.pool.allocate npages
  pure ⟨pool, (addr, npages.toNat) :: s.ranges⟩

/-- A request is granted exactly if there are as many free pages. -/
def Exact (npages : Addr) (s : Handed) : Prop :=
  (∃ t, call npages s = .ok t) ↔ npages.toNat ≤ s.pool.freePages.toNat

/-- The request is not for all free pages, and the difference has the right sign. -/
def Differs (npages : Addr) (s : Handed) : Prop :=
  npages ≠ s.pool.freePages ∧ s.pool.freePages.toNat < npages.toNat + 2 ^ 63
    ∧ npages.toNat ≤ s.pool.freePages.toNat + 2 ^ 63

def endOf (pageShift : ℕ) (range : Addr × ℕ) : ℕ := range.1.toNat + range.2 * 2 ^ pageShift

/-- The ranges are disjoint, the newest one first, lie between two addresses, and have all pages
that are not free. -/
structure Sound (pageShift N ptr limit : ℕ) (s : Handed) : Prop where
  disjoint : s.ranges.Pairwise fun new old => endOf pageShift old ≤ new.1.toNat
  inside : ∀ range ∈ s.ranges, ptr ≤ range.1.toNat ∧ endOf pageShift range ≤ limit
  total : (s.ranges.map Prod.snd).sum + s.pool.freePages.toNat = N

variable {pageShift start N : ℕ} {npages : Addr} {s t : Handed}

theorem freePages_take (npages : Addr) (pool : MemPool) :
  freePages { pool with freePageNum := pool.freePageNum + npages } = pool.freePages - npages
  := by
  simp only [freePages, allocatedPages]
  bv_omega

theorem call_eq_ok :
  call npages s = .ok t
    ↔ 0 < (s.pool.freePages - npages).toInt
      ∧ t = ⟨{ s.pool with freePageNum := s.pool.freePageNum + npages },
        (s.pool.freePageAddr, npages.toNat) :: s.ranges⟩
  := by
  simp only [call, allocate, freePages_take, fatalIf, decide_eq_true_eq]
  split_ifs with h
  · constructor
    · nofun
    · rintro ⟨hpos, -⟩
      omega
  · constructor
    · rintro ⟨⟩
      exact ⟨by omega, rfl⟩
    · rintro ⟨-, rfl⟩
      rfl

theorem exact_iff_differs :
  Exact npages s ↔ Differs npages s
  := by
  have hgranted : (∃ t, call npages s = .ok t) ↔ 0 < (s.pool.freePages - npages).toInt := by
    simp [call_eq_ok]
  rw [Exact, Differs, hgranted, toInt_eq_toNat_cond, ne_eq, toNat_eq]
  generalize s.pool.freePages = free
  have hfree := free.isLt
  have hn := npages.isLt
  rw [toNat_sub]
  omega

/-- The free pages are those from the next one to the end of the pool, and the ranges are before. -/
structure Next (pageShift start N : ℕ) (s : Handed) : Prop
    extends Sound pageShift N (start * 2 ^ pageShift) ((start + N) * 2 ^ pageShift) s where
  shift : s.pool.pageShift = pageShift
  next : s.pool.freePageNum.toNat + s.pool.freePages.toNat = start + N
  before : ∀ range ∈ s.ranges, endOf pageShift range ≤ s.pool.freePageNum.toNat * 2 ^ pageShift

/-- A request that is granted as it should be takes the next pages. -/
theorem Next.call (hlimit : (start + N) * 2 ^ pageShift < 2 ^ 64) (h : Next pageShift start N s)
    (hexact : Exact npages s) (hcall : call npages s = .ok t) :
  Next pageShift start N t
  := by
  have hle := hexact.mp ⟨t, hcall⟩
  obtain ⟨-, rfl⟩ := call_eq_ok.mp hcall
  have htotal := h.total
  have hnext := h.next
  have hpages : (start + N) * 1 ≤ (start + N) * 2 ^ pageShift :=
    Nat.mul_le_mul_left _ (Nat.two_pow_pos _)
  have hfree : (s.pool.freePageNum + npages).toNat = s.pool.freePageNum.toNat + npages.toNat := by
    rw [toNat_add]
    omega
  have hleft : (s.pool.freePages - npages).toNat = s.pool.freePages.toNat - npages.toNat := by
    rw [toNat_sub]
    omega
  have hmono {a b : ℕ} (hab : a ≤ b) : a * 2 ^ pageShift ≤ b * 2 ^ pageShift :=
    Nat.mul_le_mul_right _ hab
  have haddr : s.pool.freePageAddr.toNat = s.pool.freePageNum.toNat * 2 ^ pageShift := by
    rw [freePageAddr, h.shift, toNat_shiftLeft, Nat.shiftLeft_eq]
    apply Nat.mod_eq_of_lt
    apply (hmono (by omega)).trans_lt hlimit
  have hend : endOf pageShift (s.pool.freePageAddr, npages.toNat)
      = (s.pool.freePageNum.toNat + npages.toNat) * 2 ^ pageShift := by
    rw [endOf, haddr, Nat.add_mul]
  refine ⟨⟨?_, ?_, ?_⟩, h.shift, ?_, ?_⟩
  · apply pairwise_cons.mpr ⟨?_, h.disjoint⟩
    intro range hrange
    rw [haddr]
    apply h.before range hrange
  · apply forall_mem_cons.mpr ⟨⟨?_, ?_⟩, h.inside⟩
    · rw [haddr]
      apply hmono
      omega
    · rw [hend]
      apply hmono
      omega
  · rw [map_cons, sum_cons, freePages_take, hleft]
    omega
  · rw [freePages_take, hleft, hfree]
    omega
  · rw [hfree]
    intro range hrange
    rcases mem_cons.mp hrange with rfl | hrange
    · exact hend.le
    · exact (h.before range hrange).trans (hmono (Nat.le_add_right _ _))

/-- Requests to a pool of `N` whole pages are granted exactly if there are as many free pages, and
return disjoint ranges of the pool, exactly if no request is for all free pages or so large that
its difference to the free pages has the wrong sign. -/
theorem pages_granted_iff {ptr limit : Addr} {pool : MemPool}
    (hmake : make pageShift ptr limit = .ok pool) (hptr : ptr.toNat = start * 2 ^ pageShift)
    (hlimit : limit.toNat = (start + N) * 2 ^ pageShift) (requests : List Addr) :
  Meets call Exact requests ⟨pool, []⟩
      ∧ (∀ t, exec call requests ⟨pool, []⟩ = .ok t → Sound pageShift N ptr.toNat limit.toNat t)
    ↔ Meets call Differs requests ⟨pool, []⟩
  := by
  have hpow := Nat.two_pow_pos pageShift
  have hle : ptr.toNat ≤ limit.toNat := by
    rw [hptr, hlimit]
    apply Nat.mul_le_mul_right
    omega
  have hpages : ((limit - ptr) >>> pageShift).toNat = N := by
    rw [toNat_ushiftRight, toNat_sub_of_le hle, hptr, hlimit, ← Nat.sub_mul,
      Nat.add_sub_cancel_left, Nat.shiftRight_eq_div_pow, Nat.mul_div_cancel _ hpow]
  have hstart : (ptr >>> pageShift).toNat = start := by
    rw [toNat_ushiftRight, hptr, Nat.shiftRight_eq_div_pow, Nat.mul_div_cancel _ hpow]
  obtain ⟨-, hpool⟩ := assert_bind_eq_ok.mp hmake
  have hnext : Next pageShift start N ⟨pool, []⟩ := by
    cases hpool
    refine ⟨⟨.nil, nofun, ?_⟩, rfl, ?_, nofun⟩
    · simp [freePages, allocatedPages, hpages]
    · simp [freePages, allocatedPages, hpages, hstart]
  have heq : Exact = Differs := funext₂ fun _ _ => propext exact_iff_differs
  rw [← heq, hptr, hlimit, and_iff_left_iff_imp]
  intro hmeets t hrun
  have hlt := limit.isLt
  rw [hlimit] at hlt
  apply Next.toSound
  exact hmeets.invariant (fun s npages t hs => hs.call hlt) hnext hrun

/-- Two requests to a pool of four pages. -/
theorem pages_granted_iff_two :
  Meets call Exact [1, 2] ⟨⟨12, 1, 1, 4⟩, []⟩
    ∧ (∀ t, exec call [1, 2] ⟨⟨12, 1, 1, 4⟩, []⟩ = .ok t → Sound 12 4 0x1000 0x5000 t)
  := by
  apply (@pages_granted_iff 12 1 4 0x1000 0x5000 ⟨12, 1, 1, 4⟩ rfl rfl rfl [1, 2]).mpr
  have hfirst : call 1 ⟨⟨12, 1, 1, 4⟩, []⟩ = .ok ⟨⟨12, 1, 2, 4⟩, [(0x1000, 1)]⟩ := rfl
  refine Meets.of_cons ⟨by decide, by decide, by decide⟩ hfirst ?_
  exact ⟨⟨by decide, by decide, by decide⟩, fun _ _ => trivial⟩

/-- All four pages of a pool are requested. -/
theorem allocate_all :
  make 12 0x1000 0x5000 = .ok ⟨12, 1, 1, 4⟩ ∧ freePages ⟨12, 1, 1, 4⟩ = 4
    ∧ allocate 4 ⟨12, 1, 1, 4⟩
      = .error (.fatal "Out of memory, please increase size of physical memory.")
  := ⟨rfl, rfl, rfl⟩

end MemPool

end Gem5Arc
