import Gem5Arc.Basic
import Gem5Arc.Lib.Run

/-!
# Threads that wait for a futex

A `FutexMap` has a list of waiting threads for each futex with waiters, and beside these lists the
set of all threads that wait, which `is_waiting` asks.

`wakeup`, `wakeup_bitset` and `suspend` keep the lists and the set consistent. `requeue` moves
threads from one list to another, and wakes some of them, but does not take these out of the set. It
also uses the iterator of a futex that it has not found if it moves no thread.

Two calls use what is no longer valid: `wakeup` a reference into a list node that it has freed, and
`requeue` an iterator after an insertion that may rehash the map. A call says whether the node has
been reused, and whether the map is rehashed.
-/

namespace Gem5Arc

open List Function

/-- A futex: an address in the memory of a thread group. -/
structure FutexKey where
  addr : BitVec 64
  tgid : BitVec 64
deriving DecidableEq

/-- A thread that waits, and the bits it waits for. -/
structure WaiterState (T : Type) where
  tc : T
  bitmask : BitVec 32
deriving DecidableEq

/-- `WaiterState::checkMask`. -/
def WaiterState.checkMask {T : Type} (w : WaiterState T) (wakeupBitmask : BitVec 32) : Bool :=
  w.bitmask &&& wakeupBitmask != 0

/-- The lists of waiting threads, and the set of all of them. -/
structure FutexMap (T : Type) where
  lists : FutexKey → Option (List (WaiterState T)) := fun _ => none
  waitingTcs : Finset T := ∅

variable {T : Type}

/-- The result of a call, and the threads it has activated, in this order. -/
structure Woken (T : Type) where
  result : ℤ
  activated : List T

namespace FutexMap

/-- `while (!list.empty() && n < count)`: the elements that are taken from the front of a list, and
those that are left. -/
def popFront {α : Type} (count : ℤ) : ℤ → List α → List α × List α
  | _, [] => ([], [])
  | n, a :: l =>
    if n < count then (a :: (popFront count (n + 1) l).1, (popFront count (n + 1) l).2)
    else ([], a :: l)

theorem popFront_eq {α : Type} (count n : ℤ) (l : List α) :
  popFront count n l = (l.take (count - n).toNat, l.drop (count - n).toNat)
  := by
  induction l generalizing n with
  | nil => simp [popFront]
  | cons a l ih =>
    rw [popFront, ih]
    split_ifs with h
    · have hcount : (count - n).toNat = (count - (n + 1)).toNat + 1 := by
        omega
      rw [hcount]
      rfl
    · have hcount : (count - n).toNat = 0 := by
        omega
      rw [hcount]
      rfl

def put (key : FutexKey) (l : List (WaiterState T)) (s : FutexMap T) : FutexMap T :=
  { s with lists := Function.update s.lists key (some l) }

def threads (s : FutexMap T) (key : FutexKey) : List T := ((s.lists key).getD []).map (·.tc)

variable {s t : FutexMap T} {key : FutexKey} {l : List (WaiterState T)}

theorem threads_eq (h : s.lists key = some l) :
  s.threads key = l.map (·.tc)
  := by
  rw [threads, h]
  rfl

theorem threads_update (f : Option (List (WaiterState T))) (waitingTcs : Finset T)
    (key' : FutexKey) :
  threads ⟨Function.update s.lists key f, waitingTcs⟩ key'
    = if key' = key then (f.getD []).map (·.tc) else s.threads key'
  := by
  simp only [threads, update_apply]
  split_ifs
  · rfl
  · rfl

theorem lists_put (key' : FutexKey) :
  (s.put key l).lists key' = if key' = key then some l else s.lists key'
  := by
  simp only [put, update_apply]

theorem threads_put (key' : FutexKey) :
  (s.put key l).threads key' = if key' = key then l.map (·.tc) else s.threads key'
  := threads_update (some l) s.waitingTcs key'

variable [DecidableEq T]

/-- `FutexMap::suspend_bitset`. -/
def suspendBitset (key : FutexKey) (tc : T) (bitmask : BitVec 32) (s : FutexMap T) : FutexMap T :=
  let waiterList :=
    match s.lists key with
    | none => [⟨tc, bitmask⟩]
    | some l => l ++ [⟨tc, bitmask⟩]
  { s with
    lists := Function.update s.lists key (some waiterList)
    waitingTcs := insert tc s.waitingTcs }

/-- `FutexMap::suspend`. -/
def suspend (key : FutexKey) (tc : T) (s : FutexMap T) : FutexMap T :=
  s.suspendBitset key tc 0xffffffff#32

/-- Threads are activated, and taken out of their list and of the set. The list is erased if nothing
is left of it. -/
def wake (key : FutexKey) (woken rest : List (WaiterState T)) (s : FutexMap T) :
    Woken T × FutexMap T :=
  (⟨woken.length, woken.map (·.tc)⟩,
    { lists := Function.update s.lists key (if rest = [] then none else some rest)
      waitingTcs := s.waitingTcs \ (woken.map (·.tc)).toFinset })

/-- `FutexMap::wakeup`. The thread that is taken out of the set is read from the node that
`pop_front` has freed. -/
def wakeup (key : FutexKey) (count : ℤ) (reused : Bool) (s : FutexMap T) :
    Except Fault (Woken T × FutexMap T) :=
  match s.lists key with
  | none => .ok (⟨0, []⟩, s)
  | some l =>
    let (woken, rest) := popFront count 0 l
    if reused = true ∧ woken ≠ [] then .error .danglingPointer
    else .ok (s.wake key woken rest)

/-- `FutexMap::wakeup_bitset`. -/
def wakeupBitset (key : FutexKey) (bitmask : BitVec 32) (s : FutexMap T) : Woken T × FutexMap T :=
  match s.lists key with
  | none => (⟨0, []⟩, s)
  | some l =>
    s.wake key (l.filter (·.checkMask bitmask)) (l.filter (!·.checkMask bitmask))

/-- The threads that `requeue` moves are put at the end of the list of the target. If there is none
and no thread is moved, the iterator at the end of the map is used. -/
def addTo (key : FutexKey) (moved : List (WaiterState T)) (s : FutexMap T) :
    Except Fault (FutexMap T) :=
  match s.lists key with
  | none =>
    if 0 < moved.length then .ok (s.put key moved) else .error .nullPointer
  | some l => .ok (s.put key (l ++ moved))

/-- A list is erased if nothing is left of it. -/
def eraseEmpty (key : FutexKey) (s : FutexMap T) : FutexMap T :=
  if s.lists key = some [] then { s with lists := Function.update s.lists key none } else s

/-- `FutexMap::requeue`. The threads that are woken stay in `waitingTcs`. The target may be the same
futex, and the list it has then is the one that is left. If a list is inserted for the target and
the map is rehashed, the iterator of the first list is not valid any more. -/
def requeue (addr1 tgid : BitVec 64) (count count2 : ℤ) (addr2 : BitVec 64) (rehashed : Bool)
    (s : FutexMap T) : Except Fault (Woken T × FutexMap T) :=
  match s.lists ⟨addr1, tgid⟩ with
  | none => .ok (⟨0, []⟩, s)
  | some l => do
      let (woken, left) := popFront count 0 l
      let (moved, rest) := popFront count2 0 left
      let s := s.put ⟨addr1, tgid⟩ rest
      let t ← s.addTo ⟨addr2, tgid⟩ moved
      if rehashed = true ∧ s.lists ⟨addr2, tgid⟩ = none ∧ rest = [] then .error .danglingPointer
      else .ok (⟨woken.length + moved.length, woken.map (·.tc)⟩, t.eraseEmpty ⟨addr1, tgid⟩)

/-- `FutexMap::is_waiting`. -/
def isWaiting (tc : T) (s : FutexMap T) : Bool := tc ∈ s.waitingTcs

/-- The lists and the set are consistent: the set has the threads of the lists, a thread is once in
one list, and no list is empty. -/
structure Consistent (s : FutexMap T) : Prop where
  waiting : ∀ tc, s.isWaiting tc ↔ ∃ key, tc ∈ s.threads key
  unique : ∀ tc key key', tc ∈ s.threads key → tc ∈ s.threads key' → key = key'
  nodup : ∀ key, (s.threads key).Nodup
  ne_nil : ∀ key, s.lists key ≠ some []

theorem consistent_init :
  ({} : FutexMap T).Consistent
  := by
  constructor
  · intro tc
    simp [isWaiting, threads]
  · nofun
  · intro key
    apply nodup_nil
  · nofun

section

variable (h : s.Consistent)

include h

/-- A thread that does not wait is added at the end of a list. -/
theorem Consistent.suspendBitset {tc : T} (htc : s.isWaiting tc = false) (bitmask : BitVec 32) :
  (s.suspendBitset key tc bitmask).Consistent
  := by
  have hnot (key' : FutexKey) : tc ∉ s.threads key' := by
    intro hmem
    rw [(h.waiting tc).mpr ⟨key', hmem⟩] at htc
    cases htc
  have hthreads (key' : FutexKey) : (s.suspendBitset key tc bitmask).threads key'
      = if key' = key then s.threads key ++ [tc] else s.threads key' := by
    rw [FutexMap.suspendBitset, threads_update]
    split_ifs with hkey
    · cases hl : s.lists key with
      | none => simp [threads, hl]
      | some l => simp [threads, hl]
    · rfl
  have hmem (tc' : T) (key' : FutexKey) : tc' ∈ (s.suspendBitset key tc bitmask).threads key'
      ↔ tc' ∈ s.threads key' ∨ tc' = tc ∧ key' = key := by
    rw [hthreads]
    split_ifs with hkey
    · rw [hkey, mem_append, mem_singleton]
      simp
    · simp [hkey]
  constructor
  · intro tc'
    simp only [hmem, exists_or, ← h.waiting]
    simp [isWaiting, FutexMap.suspendBitset, or_comm]
  · intro tc' key' key'' h' h''
    rw [hmem] at h' h''
    rcases h' with h' | ⟨rfl, rfl⟩
    · rcases h'' with h'' | ⟨rfl, rfl⟩
      · exact h.unique _ _ _ h' h''
      · cases hnot _ h'
    · rcases h'' with h'' | ⟨-, rfl⟩
      · cases hnot _ h''
      · rfl
  · intro key'
    rw [hthreads]
    split_ifs
    · apply List.Nodup.append (h.nodup key) (nodup_singleton tc)
      rw [disjoint_singleton]
      apply hnot
    · apply h.nodup
  · intro key'
    simp only [FutexMap.suspendBitset, update_apply]
    split_ifs
    · cases s.lists key with
      | none => simp
      | some l => simp
    · apply h.ne_nil

/-- A list keeps the threads that are not taken out of it. -/
theorem Consistent.mem_kept_iff {gone kept : List T} (hperm : (gone ++ kept).Perm (s.threads key))
    (tc : T) (key' : FutexKey) :
  (tc ∈ if key' = key then kept else s.threads key') ↔ tc ∈ s.threads key' ∧ tc ∉ gone
  := by
  have hdisjoint := disjoint_of_nodup_append (hperm.nodup_iff.mpr (h.nodup key))
  split_ifs with hkey
  · rw [hkey, ← hperm.mem_iff, mem_append]
    constructor
    · intro hkept
      exact ⟨.inr hkept, fun hgone => hdisjoint hgone hkept⟩
    · rintro ⟨hor, hnot⟩
      exact hor.resolve_left hnot
  · constructor
    · intro hother
      refine ⟨hother, ?_⟩
      intro hgone
      exact hkey (h.unique tc _ _ hother (hperm.mem_iff.mp (mem_append_left _ hgone)))
    · intro hother
      exact hother.1

/-- Threads of a list are woken: they are taken out of the list and out of the set. -/
theorem Consistent.wake (hl : s.lists key = some l) {woken rest : List (WaiterState T)}
    (hperm : (woken ++ rest).Perm l) :
  (s.wake key woken rest).2.Consistent
  := by
  have hsplit : (woken.map (·.tc) ++ rest.map (·.tc)).Perm (s.threads key) := by
    rw [threads_eq hl, ← map_append]
    exact hperm.map _
  have hnodup := hsplit.nodup_iff.mpr (h.nodup key)
  have hthreads (key' : FutexKey) : (s.wake key woken rest).2.threads key'
      = if key' = key then rest.map (·.tc) else s.threads key' := by
    rw [FutexMap.wake, threads_update]
    split_ifs with hkey hrest
    · rw [hrest]
      rfl
    · rfl
    · rfl
  have hmem (tc : T) (key' : FutexKey) : tc ∈ (s.wake key woken rest).2.threads key'
      ↔ tc ∈ s.threads key' ∧ tc ∉ woken.map (·.tc) := by
    rw [hthreads]
    exact h.mem_kept_iff hsplit tc key'
  constructor
  · intro tc
    simp only [hmem, exists_and_right, ← h.waiting]
    simp [isWaiting, FutexMap.wake]
  · intro tc key' key'' h' h''
    exact h.unique tc _ _ ((hmem tc key').mp h').1 ((hmem tc key'').mp h'').1
  · intro key'
    rw [hthreads]
    split_ifs
    · exact hnodup.of_append_right
    · apply h.nodup
  · intro key'
    simp only [FutexMap.wake, update_apply]
    split_ifs with hkey hrest
    · nofun
    · intro hnil
      exact hrest (Option.some.inj hnil)
    · apply h.ne_nil

theorem Consistent.wakeupBitset (bitmask : BitVec 32) :
  (s.wakeupBitset key bitmask).2.Consistent
  := by
  rw [FutexMap.wakeupBitset]
  cases hl : s.lists key with
  | none => apply h
  | some l =>
    apply h.wake hl
    apply filter_append_perm

end

/-! ### Requeue -/

variable {addr1 tgid addr2 : BitVec 64} {count count2 : ℤ} {rehashed : Bool} {out : Woken T}

omit [DecidableEq T] in
/-- The iterator at the end of the map must not be used. -/
theorem addTo_eq_ok {moved : List (WaiterState T)} :
  s.addTo key moved = .ok t
    ↔ (s.lists key ≠ none ∨ moved ≠ []) ∧ s.put key ((s.lists key).getD [] ++ moved) = t
  := by
  rw [addTo]
  cases hl : s.lists key with
  | none =>
    cases moved with
    | nil => simp
    | cons w moved => simp
  | some l => simp

theorem threads_eraseEmpty (key' : FutexKey) :
  (s.eraseEmpty key).threads key' = s.threads key'
  := by
  rw [eraseEmpty]
  split_ifs with hempty
  · rw [threads_update]
    split_ifs with hkey
    · rw [hkey, threads_eq hempty]
      rfl
    · rfl
  · rfl

theorem waitingTcs_eraseEmpty :
  (s.eraseEmpty key).waitingTcs = s.waitingTcs
  := by
  rw [eraseEmpty]
  split_ifs
  · rfl
  · rfl

theorem eraseEmpty_ne_nil {key' : FutexKey} (h : key' ≠ key → s.lists key' ≠ some []) :
  (s.eraseEmpty key).lists key' ≠ some []
  := by
  rw [eraseEmpty]
  by_cases hkey : key' = key
  · rw [hkey]
    split_ifs with hempty
    · simp
    · apply hempty
  · split_ifs
    · simp only [update_apply, if_neg hkey]
      apply h hkey
    · apply h hkey

/-- The list of a futex in three parts: the threads that `requeue` wakes, those that it moves, and
those that it leaves. -/
structure Parts (l : List (WaiterState T)) (count count2 : ℤ)
    (woken moved rest : List (WaiterState T)) : Prop where
  woken_eq : woken = l.take count.toNat
  moved_eq : moved = (l.drop count.toNat).take count2.toNat
  rest_eq : rest = (l.drop count.toNat).drop count2.toNat

variable {woken moved rest : List (WaiterState T)}

omit [DecidableEq T] in
theorem Parts.append (h : Parts l count count2 woken moved rest) :
  l = woken ++ (moved ++ rest)
  := by
  rw [h.woken_eq, h.moved_eq, h.rest_eq, take_append_drop, take_append_drop]

omit [DecidableEq T] in
/-- The target has a list before exactly if it has one when the threads are taken out. -/
theorem lists_put_eq_none_iff (hl : s.lists key = some l) (key' : FutexKey) :
  (s.put key rest).lists key' = none ↔ s.lists key' = none
  := by
  rw [lists_put]
  split_ifs with hkey
  · simp [hkey, hl]
  · rfl

/-- When `requeue` returns, and what it returns. -/
theorem requeue_eq_ok_iff (h : Parts l count count2 woken moved rest)
    (hl : s.lists ⟨addr1, tgid⟩ = some l) :
  s.requeue addr1 tgid count count2 addr2 rehashed = .ok (out, t)
    ↔ (s.lists ⟨addr2, tgid⟩ ≠ none ∨ moved ≠ [] ∧ (rehashed = true → rest ≠ []))
      ∧ out = ⟨woken.length + moved.length, woken.map (·.tc)⟩
      ∧ t = ((s.put ⟨addr1, tgid⟩ rest).put ⟨addr2, tgid⟩
        (((s.put ⟨addr1, tgid⟩ rest).lists ⟨addr2, tgid⟩).getD [] ++ moved)).eraseEmpty
          ⟨addr1, tgid⟩
  := by
  simp only [requeue, hl, popFront_eq, Int.sub_zero, ← h.woken_eq, ← h.moved_eq, ← h.rest_eq,
    bind_eq_ok, addTo_eq_ok, ne_eq, lists_put_eq_none_iff hl]
  constructor
  · rintro ⟨u, ⟨hmoved, rfl⟩, hout⟩
    split_ifs at hout with hdangling
    cases hout
    refine ⟨?_, rfl, rfl⟩
    tauto
  · rintro ⟨hmoved, rfl, rfl⟩
    refine ⟨_, ⟨hmoved.imp_right And.left, rfl⟩, if_neg ?_⟩
    tauto

section

variable (h : Parts l count count2 woken moved rest) (hl : s.lists ⟨addr1, tgid⟩ = some l)
  (hout : s.requeue addr1 tgid count count2 addr2 rehashed = .ok (out, t))

include h hl hout

/-- `requeue` wakes the first `count` threads of a list, moves the next `count2` threads to the end
of the list of the target, and changes no other list. -/
theorem requeue_eq_ok :
  out.activated = woken.map (·.tc)
    ∧ t.waitingTcs = s.waitingTcs
    ∧ ∀ key, t.threads key
      = (if key = ⟨addr1, tgid⟩ then rest.map (·.tc) else s.threads key)
        ++ if key = ⟨addr2, tgid⟩ then moved.map (·.tc) else []
  := by
  obtain ⟨-, rfl, rfl⟩ := (requeue_eq_ok_iff h hl).mp hout
  refine ⟨rfl, waitingTcs_eraseEmpty, ?_⟩
  intro key
  rw [threads_eraseEmpty, threads_put]
  by_cases hkey : key = ⟨addr2, tgid⟩
  · rw [if_pos hkey, if_pos hkey, map_append, ← threads, threads_put, ← hkey]
  · rw [if_neg hkey, if_neg hkey, threads_put, append_nil]

theorem requeue_ne_nil (hs : ∀ key, s.lists key ≠ some []) (key : FutexKey) :
  t.lists key ≠ some []
  := by
  obtain ⟨hmoved, -, rfl⟩ := (requeue_eq_ok_iff h hl).mp hout
  apply eraseEmpty_ne_nil
  intro hkey
  by_cases hkey2 : key = ⟨addr2, tgid⟩
  · rw [hkey2] at hkey
    rw [hkey2, lists_put, lists_put, if_pos rfl, if_neg hkey]
    intro hnil
    obtain ⟨hold, hnew⟩ := append_eq_nil_iff.mp (Option.some.inj hnil)
    cases hl2 : s.lists ⟨addr2, tgid⟩ with
    | none => exact hmoved.elim (· hl2) fun h => h.1 hnew
    | some l2 =>
      rw [hl2] at hold
      exact hs _ (hl2.trans (congrArg some hold))
  · rw [lists_put, if_neg hkey2, lists_put, if_neg hkey]
    apply hs

/-- If no thread is woken, `requeue` keeps the lists and the set consistent. -/
theorem Consistent.requeue (hs : s.Consistent) (hwoken : woken = []) :
  t.Consistent
  := by
  subst hwoken
  obtain ⟨-, hwaiting, hthreads⟩ := requeue_eq_ok h hl hout
  have hsplit : (moved.map (·.tc) ++ rest.map (·.tc)).Perm (s.threads ⟨addr1, tgid⟩) := by
    rw [threads_eq hl, h.append, nil_append, map_append]
  have hnodup := hsplit.nodup_iff.mpr (hs.nodup ⟨addr1, tgid⟩)
  have hmem (tc : T) (key : FutexKey) : tc ∈ t.threads key
      ↔ tc ∈ s.threads key ∧ tc ∉ moved.map (·.tc)
        ∨ tc ∈ moved.map (·.tc) ∧ key = ⟨addr2, tgid⟩ := by
    rw [hthreads, mem_append, hs.mem_kept_iff hsplit]
    split_ifs with hkey
    · simp [hkey]
    · simp [hkey]
  constructor
  · intro tc
    have hsame : t.isWaiting tc = s.isWaiting tc := by
      rw [isWaiting, isWaiting, hwaiting]
    rw [hsame, hs.waiting]
    constructor
    · rintro ⟨key, hkey⟩
      by_cases hmoved : tc ∈ moved.map (·.tc)
      · exact ⟨_, (hmem tc _).mpr (.inr ⟨hmoved, rfl⟩)⟩
      · exact ⟨key, (hmem tc key).mpr (.inl ⟨hkey, hmoved⟩)⟩
    · rintro ⟨key, hkey⟩
      rcases (hmem tc key).mp hkey with ⟨hold, -⟩ | ⟨hmoved, -⟩
      · exact ⟨key, hold⟩
      · exact ⟨_, hsplit.mem_iff.mp (mem_append_left _ hmoved)⟩
  · intro tc key key' hkey hkey'
    rcases (hmem tc key).mp hkey with ⟨hold, hnot⟩ | ⟨hmoved, rfl⟩
    · rcases (hmem tc key').mp hkey' with ⟨hold', -⟩ | ⟨hmoved', -⟩
      · exact hs.unique tc _ _ hold hold'
      · cases hnot hmoved'
    · rcases (hmem tc key').mp hkey' with ⟨-, hnot'⟩ | ⟨-, rfl⟩
      · cases hnot' hmoved
      · rfl
  · intro key
    rw [hthreads]
    apply List.Nodup.append
    · split_ifs
      · exact hnodup.of_append_right
      · apply hs.nodup
    · split_ifs
      · exact hnodup.of_append_left
      · apply nodup_nil
    · intro tc hold hnew
      split_ifs at hnew
      · exact ((hs.mem_kept_iff hsplit tc key).mp hold).2 hnew
      · cases hnew
  · exact requeue_ne_nil h hl hout hs.ne_nil

/-- If `requeue` keeps the lists and the set consistent, then it has woken no thread. -/
theorem woken_eq_nil_of_consistent (hs : s.Consistent) (ht : t.Consistent) :
  woken = []
  := by
  obtain ⟨-, hwaiting, hthreads⟩ := requeue_eq_ok h hl hout
  have hlist : s.threads ⟨addr1, tgid⟩
      = woken.map (·.tc) ++ (moved.map (·.tc) ++ rest.map (·.tc)) := by
    rw [threads_eq hl, h.append, map_append, map_append]
  have hnodup := hs.nodup ⟨addr1, tgid⟩
  rw [hlist] at hnodup
  have hdisjoint := disjoint_of_nodup_append hnodup
  cases hwoken : woken with
  | nil => rfl
  | cons w ws =>
    have hw : w.tc ∈ woken.map (·.tc) := by
      rw [hwoken]
      exact mem_cons_self
    have hsource : w.tc ∈ s.threads ⟨addr1, tgid⟩ := by
      rw [hlist]
      exact mem_append_left _ hw
    have hstill : t.isWaiting w.tc = true := by
      rw [isWaiting, hwaiting]
      exact (hs.waiting w.tc).mpr ⟨_, hsource⟩
    obtain ⟨key, hkey⟩ := (ht.waiting w.tc).mp hstill
    rw [hthreads, mem_append] at hkey
    rcases hkey with hold | hnew
    · split_ifs at hold with hkey1
      · cases hdisjoint hw (mem_append_right _ hold)
      · cases hkey1 (hs.unique _ _ _ hold hsource)
    · split_ifs at hnew
      · cases hdisjoint hw (mem_append_left _ hnew)
      · cases hnew

end

/-! ### Calls -/

variable (T) in
inductive Call where
  | suspend (key : FutexKey) (tc : T)
  | suspendBitset (key : FutexKey) (tc : T) (bitmask : BitVec 32)
  | wakeup (key : FutexKey) (count : ℤ) (reused : Bool)
  | wakeupBitset (key : FutexKey) (bitmask : BitVec 32)
  | requeue (addr1 tgid : BitVec 64) (count count2 : ℤ) (addr2 : BitVec 64) (rehashed : Bool)

def call : Call T → FutexMap T → Except Fault (FutexMap T)
  | .suspend key tc, s => .ok (s.suspend key tc)
  | .suspendBitset key tc bitmask, s => .ok (s.suspendBitset key tc bitmask)
  | .wakeup key count reused, s => (·.2) <$> s.wakeup key count reused
  | .wakeupBitset key bitmask, s => .ok (s.wakeupBitset key bitmask).2
  | .requeue addr1 tgid count count2 addr2 rehashed, s =>
    (·.2) <$> s.requeue addr1 tgid count count2 addr2 rehashed

/-- Only threads that do not wait are suspended. -/
def Allowed : Call T → FutexMap T → Prop
  | .suspend _ tc, s => s.isWaiting tc = false
  | .suspendBitset _ tc _, s => s.isWaiting tc = false
  | _, _ => True

/-- A `wakeup` whose freed node has been reused wakes no thread. A `requeue` of a futex with waiters
wakes no thread, and its target has waiters, or it moves one, and not all if the map is rehashed. -/
def Safe : Call T → FutexMap T → Prop
  | .wakeup key count reused, s => reused = true → s.lists key ≠ none → count ≤ 0
  | .requeue addr1 tgid count count2 addr2 rehashed, s =>
    s.lists ⟨addr1, tgid⟩ ≠ none →
      count ≤ 0 ∧ (s.lists ⟨addr2, tgid⟩ ≠ none
        ∨ 0 < count2 ∧ (rehashed = true → count2 < (s.threads ⟨addr1, tgid⟩).length))
  | _, _ => True

theorem Consistent.wakeup_iff {reused : Bool} (hs : s.Consistent) :
  (∃ t, call (.wakeup key count reused) s = .ok t ∧ t.Consistent)
    ↔ Safe (.wakeup key count reused) s
  := by
  rw [call, Safe, wakeup]
  cases hl : s.lists key with
  | none => exact iff_of_true ⟨s, rfl, hs⟩ fun _ h => (h rfl).elim
  | some l =>
    have hne : l ≠ [] := fun h => hs.ne_nil key (h ▸ hl)
    have hwoken : l.take count.toNat ≠ [] ↔ 0 < count := by
      rw [Ne, take_eq_nil_iff, or_iff_left hne]
      omega
    simp only [popFront_eq, Int.sub_zero]
    split_ifs with hreused
    · apply iff_of_false
      · rintro ⟨t, ⟨⟩, -⟩
      · intro hsafe
        exact (hwoken.mp hreused.2).not_ge (hsafe hreused.1 (by simp))
    · apply iff_of_true ⟨_, rfl, hs.wake hl (by rw [take_append_drop])⟩
      intro hr _
      by_contra hcount
      exact hreused ⟨hr, hwoken.mpr (not_le.mp hcount)⟩

theorem Consistent.requeue_iff (hs : s.Consistent) :
  (∃ t, call (.requeue addr1 tgid count count2 addr2 rehashed) s = .ok t ∧ t.Consistent)
    ↔ Safe (.requeue addr1 tgid count count2 addr2 rehashed) s
  := by
  rw [call, Safe]
  cases hl : s.lists ⟨addr1, tgid⟩ with
  | none =>
    have hsame : s.requeue addr1 tgid count count2 addr2 rehashed = .ok (⟨0, []⟩, s) := by
      rw [FutexMap.requeue, hl]
    rw [hsame]
    exact ⟨fun _ h => (h rfl).elim, fun _ => ⟨s, rfl, hs⟩⟩
  | some l =>
    have hparts : Parts l count count2 _ _ _ := ⟨rfl, rfl, rfl⟩
    have hne : l ≠ [] := fun h => hs.ne_nil ⟨addr1, tgid⟩ (h ▸ hl)
    have hlength := length_pos_iff.mpr hne
    -- if no thread is woken, `count2` says whether some or all threads are moved
    have hmoves (hcount : count ≤ 0) : (l.drop count.toNat).take count2.toNat ≠ []
        ∧ (rehashed = true → (l.drop count.toNat).drop count2.toNat ≠ [])
        ↔ 0 < count2 ∧ (rehashed = true → count2 < (s.threads ⟨addr1, tgid⟩).length) := by
      rw [Int.toNat_of_nonpos hcount, drop_zero, Ne, take_eq_nil_iff, or_iff_left hne, Ne,
        drop_eq_nil_iff, threads_eq hl, length_map]
      refine and_congr ?_ (imp_congr_right fun _ => ?_)
      · omega
      · omega
    constructor
    · rintro ⟨t, hcall, ht⟩ -
      obtain ⟨⟨out, t'⟩, hout, rfl⟩ := map_eq_ok.mp hcall
      have hwoken := woken_eq_nil_of_consistent hparts hl hout hs ht
      have hcount : count ≤ 0 := by
        rcases take_eq_nil_iff.mp hwoken with hzero | hnil
        · omega
        · cases hne hnil
      exact ⟨hcount, ((requeue_eq_ok_iff hparts hl).mp hout).1.imp_right (hmoves hcount).mp⟩
    · intro h
      obtain ⟨hcount, htarget⟩ := h (by simp)
      have hout := (requeue_eq_ok_iff hparts hl).mpr
        ⟨htarget.imp_right (hmoves hcount).mpr, rfl, rfl⟩
      refine ⟨_, map_eq_ok.mpr ⟨_, hout, rfl⟩, hs.requeue hparts hl hout ?_⟩
      rw [Int.toNat_of_nonpos hcount, take_zero]

/-- A call returns and keeps the lists and the set consistent exactly if it is safe. -/
theorem Consistent.call_iff (hs : s.Consistent) {c : Call T} (hc : Allowed c s) :
  (∃ t, call c s = .ok t ∧ t.Consistent) ↔ Safe c s
  := by
  cases c with
  | suspend key tc => exact iff_of_true ⟨_, rfl, hs.suspendBitset hc _⟩ trivial
  | suspendBitset key tc bitmask => exact iff_of_true ⟨_, rfl, hs.suspendBitset hc bitmask⟩ trivial
  | wakeup key count reused => exact hs.wakeup_iff
  | wakeupBitset key bitmask => exact iff_of_true ⟨_, rfl, hs.wakeupBitset bitmask⟩ trivial
  | requeue addr1 tgid count count2 addr2 rehashed => exact hs.requeue_iff

/-- In a sequence of calls, every call returns and leaves the lists and the set consistent exactly
if every `wakeup` that wakes a thread finds it in the freed node, and every `requeue` of a futex
with waiters wakes no thread, and has a target with waiters or moves a thread, and not all of them
if the map is rehashed. And whenever it returns, `requeue` wakes the first threads and moves the
next ones in order to the end of the list of the target. -/
theorem futexMap_consistent_iff {calls : List (Call T)} (hcalls : Lib.Meets call Allowed calls {}) :
  (Lib.Always call Consistent calls {} ↔ Lib.Meets call Safe calls {})
    ∧ ∀ (s : FutexMap T) (addr1 tgid : BitVec 64) (count count2 : ℤ) (addr2 : BitVec 64)
        (rehashed : Bool) (out : Woken T) (t : FutexMap T),
      s.requeue addr1 tgid count count2 addr2 rehashed = .ok (out, t) →
      out.activated = (s.threads ⟨addr1, tgid⟩).take count.toNat
        ∧ ∀ key, t.threads key
          = (if key = ⟨addr1, tgid⟩ then
              ((s.threads ⟨addr1, tgid⟩).drop count.toNat).drop count2.toNat else s.threads key)
            ++ if key = ⟨addr2, tgid⟩ then
                ((s.threads ⟨addr1, tgid⟩).drop count.toNat).take count2.toNat else []
  := by
  constructor
  · apply Lib.always_iff_meets _ consistent_init hcalls
    intro s c hs hc
    exact hs.call_iff hc
  · intro s addr1 tgid count count2 addr2 rehashed out t hout
    cases hl : s.lists ⟨addr1, tgid⟩ with
    | none =>
      rw [FutexMap.requeue, hl] at hout
      cases hout
      have hempty : s.threads ⟨addr1, tgid⟩ = [] := by
        rw [threads, hl]
        rfl
      rw [hempty]
      refine ⟨take_nil.symm, ?_⟩
      intro key
      split_ifs with hkey
      all_goals simp_all
    | some l =>
      have hparts : Parts l count count2 _ _ _ := ⟨rfl, rfl, rfl⟩
      obtain ⟨hactivated, -, hthreads⟩ := requeue_eq_ok hparts hl hout
      rw [threads_eq hl, ← map_take, ← map_drop, ← map_drop, ← map_take]
      exact ⟨hactivated, hthreads⟩

/-- Two threads wait, for two futexes. -/
def twoWaiters : List (Call ℕ) :=
  [.suspend ⟨0, 0⟩ 1, .suspend ⟨64, 0⟩ 2]

/-- A `requeue` that wakes a thread: afterwards the thread is in no list, and `is_waiting` is true.
A `requeue` that moves no thread to a futex without waiters. A `requeue` that moves all threads and
rehashes the map, and a `wakeup` whose freed node has been reused. -/
theorem requeue_inconsistent :
  (∃ t, Lib.exec call (twoWaiters ++ [.requeue 0 0 1 0 64 false]) {} = .ok t
    ∧ t.isWaiting 1 = true ∧ ∀ key, 1 ∉ t.threads key)
  ∧ Lib.exec call (twoWaiters ++ [.requeue 0 0 0 0 128 false]) {} = .error .nullPointer
  ∧ Lib.exec call (twoWaiters ++ [.requeue 0 0 0 1 128 true]) {} = .error .danglingPointer
  ∧ Lib.exec call (twoWaiters ++ [.wakeup ⟨0, 0⟩ 1 true]) {} = .error .danglingPointer
  := by
  constructor
  · refine ⟨_, rfl, rfl, ?_⟩
    intro key
    simp only [threads, eraseEmpty, put, suspend, suspendBitset, update_apply]
    by_cases hkey : key = ⟨0#64, 0#64⟩
    · rw [hkey]
      decide
    · by_cases hkey' : key = ⟨64#64, 0#64⟩
      · rw [hkey']
        decide
      · simp [hkey, hkey']
  · exact ⟨rfl, rfl, rfl⟩

/-- The first thread is moved to the list of the second one. -/
theorem futexMap_consistent_iff_moved :
  Lib.Always call Consistent (twoWaiters ++ [.requeue 0 0 0 1 64 true]) {}
  := by
  have hallowed : Lib.Meets call Allowed (twoWaiters ++ [.requeue 0 0 0 1 64 true]) {} :=
    .of_cons rfl rfl (.of_cons rfl rfl ⟨trivial, fun _ _ => trivial⟩)
  apply (futexMap_consistent_iff hallowed).1.mpr
  exact .of_cons trivial rfl (.of_cons trivial rfl
    ⟨fun _ => ⟨le_refl 0, .inl (by decide)⟩, fun _ _ => trivial⟩)

end FutexMap

end Gem5Arc
