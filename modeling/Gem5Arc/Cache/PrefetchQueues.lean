import Gem5Arc.Cache.PendingTranslations

/-!
# Prefetches that are queued already

`alreadyInQueue` of `mem/cache/prefetch/queued.cc` looks for a prefetch in a queue, and is to raise
the priority of the packet that it finds. But its iterator is then at the next packet. So the queue
is updated as it should be exactly if nothing has to be done, neither for the packet that is found
nor for the next one (`alreadyInQueue_updates_iff`).
-/

namespace Gem5Arc.Queued

open List

variable {pfi : PrefetchInfo} {p : ℤ} {queue before after : List Node} {it : Node}

/-- The packets, when the priority of one of them is raised to at least `p`, and it is moved before
those of a lower priority. -/
def promoted (p : ℤ) (before : List DeferredPacket) (it : DeferredPacket)
    (after : List DeferredPacket) : List DeferredPacket :=
  before.filter (p ≤ ·.priority) ++ { it with priority := max it.priority p }
    :: (before.filter (·.priority < p) ++ after)

/-- What `alreadyInQueue` is for: it finds the prefetch, and updates its packet. -/
structure Updates (pfi : PrefetchInfo) (p : ℤ) (queue : List Node) (out : Bool × List Node) :
    Prop where
  found : out.1 = true ↔ ∃ n ∈ queue, n.dp.pfInfo = pfi
  updated : ∀ before it after, queue = before ++ it :: after → it.dp.pfInfo = pfi →
    out.2.map Node.dp = promoted p (before.map Node.dp) it.dp (after.map Node.dp)
  unchanged : out.1 = false → out.2 = queue

theorem sameAddr_iff {pfi' : PrefetchInfo} :
  pfi.sameAddr pfi' = true ↔ pfi = pfi'
  := by
  rw [PrefetchInfo.sameAddr, Bool.and_eq_true, decide_eq_true_iff, decide_eq_true_iff,
    PrefetchInfo.mk.injEq]

theorem promoted_eq_self {before after : List DeferredPacket} {it : DeferredPacket}
    (hit : p ≤ it.priority) (hbefore : ∀ x ∈ before, it.priority ≤ x.priority) :
  promoted p before it after = before ++ it :: after
  := by
  have hkept : before.filter (p ≤ ·.priority) = before := by
    rw [filter_eq_self]
    intro x hx
    exact decide_eq_true (hit.trans (hbefore x hx))
  have hpassed : before.filter (·.priority < p) = [] := by
    rw [filter_eq_nil_iff]
    intro x hx hlt
    exact absurd (hit.trans (hbefore x hx)) (not_le.mpr (of_decide_eq_true hlt))
  rw [promoted, hkept, hpassed, max_eq_left hit]
  rfl

section

variable (hnodup : ((before ++ it :: after).map fun n => n.dp.pfInfo).Nodup)

include hnodup

theorem alreadyInQueue_of_split :
  alreadyInQueue it.dp.pfInfo p (before ++ it :: after)
    = (true, raisePriority p (before ++ [it]) after)
  := by
  have hfind : (before ++ it :: after).findIdx? (fun n => n.dp.pfInfo.sameAddr it.dp.pfInfo)
      = some before.length := by
    rw [findIdx?_append, findIdx?_eq_none_iff.mpr, findIdx?_cons, sameAddr_iff.mpr rfl]
    · simp
    · intro n hn
      rw [map_append, map_cons, nodup_append] at hnodup
      rw [← Bool.not_eq_true, sameAddr_iff]
      exact hnodup.2.2 _ (mem_map_of_mem hn) _ mem_cons_self
  have hlength : before.length + 1 = (before ++ [it]).length := by
    rw [length_append, length_singleton]
  rw [alreadyInQueue, hfind]
  simp only [hlength, append_cons before it after, take_left, drop_left]

/-- The packet of the prefetch is updated exactly if neither it nor the next one has a lower
priority. -/
theorem raisePriority_promotes_iff
    (hsorted : (before ++ it :: after).Pairwise fun m n => n.dp.priority ≤ m.dp.priority) :
  (raisePriority p (before ++ [it]) after).map Node.dp
      = promoted p (before.map Node.dp) it.dp (after.map Node.dp)
    ↔ p ≤ it.dp.priority ∧ ∀ n ∈ after.head?, p ≤ n.dp.priority
  := by
  obtain ⟨-, hafter, hbefore⟩ := pairwise_append.mp hsorted
  have hself (hle : p ≤ it.dp.priority) :
      promoted p (before.map Node.dp) it.dp (after.map Node.dp)
        = (before ++ it :: after).map Node.dp := by
    rw [map_append, map_cons]
    apply promoted_eq_self hle
    rw [forall_mem_map]
    exact fun n hn => hbefore n hn it mem_cons_self
  cases after with
  | nil =>
    rw [raisePriority]
    constructor
    · intro h
      have hmem : { it.dp with priority := max it.dp.priority p }
          ∈ (before ++ [it]).map Node.dp := by
        rw [h, promoted]
        simp
      obtain ⟨n, hn, hdp⟩ := mem_map.mp hmem
      have hit : n = it := inj_on_of_nodup_map hnodup hn (by simp) (by rw [hdp])
      rw [hit] at hdp
      exact ⟨max_eq_left_iff.mp (congrArg DeferredPacket.priority hdp).symm, by simp⟩
    · intro h
      exact (hself h.1).symm
  | cons next after =>
    by_cases hlt : next.dp.priority < p
    · apply iff_of_false _ fun h => not_le.mpr hlt (h.2 next rfl)
      intro h
      have hmem : next.dp ∈ (raised p (before ++ [it]) next after).map Node.dp := by
        rw [← raisePriority_of_lt hlt, h, promoted]
        simp
      rw [append_cons, map_append, map_cons, nodup_middle, nodup_cons, ← map_append] at hnodup
      rcases mem_cons.mp ((raised_contents id).mem_iff.mp hmem) with hsame | hother
      · exact hlt.ne (congrArg DeferredPacket.priority hsame)
      · obtain ⟨n, hn, hdp⟩ := mem_map.mp hother
        apply hnodup.1
        exact mem_map.mpr ⟨n, hn, congrArg DeferredPacket.pfInfo hdp⟩
    · have hle := not_lt.mp hlt
      have hit := hle.trans ((pairwise_cons.mp hafter).1 next mem_cons_self)
      rw [raisePriority_of_not_lt hlt, hself hit, append_assoc]
      exact iff_of_true rfl ⟨hit, by simpa using hle⟩

end

/-- The queue is updated as it should be exactly if neither the packet of the prefetch nor the one
after it has a lower priority. -/
theorem alreadyInQueue_updates_iff
    (hsorted : queue.Pairwise fun m n => n.dp.priority ≤ m.dp.priority)
    (hnodup : (queue.map fun n => n.dp.pfInfo).Nodup) :
  Updates pfi p queue (alreadyInQueue pfi p queue)
    ↔ ∀ before it after, queue = before ++ it :: after → it.dp.pfInfo = pfi →
        p ≤ it.dp.priority ∧ ∀ n ∈ after.head?, p ≤ n.dp.priority
  := by
  constructor
  · rintro h before it after rfl rfl
    have hupdated := h.updated before it after rfl rfl
    rw [alreadyInQueue_of_split hnodup] at hupdated
    exact (raisePriority_promotes_iff hnodup hsorted).mp hupdated
  · intro h
    by_cases hqueued : ∃ n ∈ queue, n.dp.pfInfo = pfi
    · have hfound : (alreadyInQueue pfi p queue).1 = true := by
        obtain ⟨n, hn, rfl⟩ := hqueued
        obtain ⟨before, after, rfl⟩ := append_of_mem hn
        rw [alreadyInQueue_of_split hnodup]
      refine ⟨iff_of_true hfound hqueued, ?_, by simp [hfound]⟩
      rintro before it after rfl rfl
      rw [alreadyInQueue_of_split hnodup]
      exact (raisePriority_promotes_iff hnodup hsorted).mpr (h before it after rfl rfl)
    · have hnone : alreadyInQueue pfi p queue = (false, queue) := by
        rw [alreadyInQueue, findIdx?_eq_none_iff.mpr]
        intro n hn
        rw [← Bool.not_eq_true, sameAddr_iff]
        exact fun h => hqueued ⟨n, hn, h⟩
      rw [hnone]
      refine ⟨iff_of_false Bool.false_ne_true hqueued, ?_, fun _ => rfl⟩
      rintro before it after rfl rfl
      exact absurd ⟨it, by simp, rfl⟩ hqueued

def packetFor (addr : Addr) (priority : ℤ) : DeferredPacket :=
  ⟨0, ⟨addr, false⟩, 0, none, priority, none, false⟩

/-- A prefetch that is queued with a higher priority than the new one. -/
theorem alreadyInQueue_updates_iff_two :
  Updates ⟨64, false⟩ 2 [⟨0, packetFor 64 5⟩, ⟨1, packetFor 128 3⟩]
    (alreadyInQueue ⟨64, false⟩ 2 [⟨0, packetFor 64 5⟩, ⟨1, packetFor 128 3⟩])
  := by
  rw [alreadyInQueue_updates_iff (by simp [packetFor]) (by simp [packetFor])]
  intro before it after heq hit
  rcases before with _ | ⟨_, _ | ⟨_, before⟩⟩
  · cases heq
    simp [packetFor]
  · cases heq
    cases hit
  · simp at heq

/-- The priority of the packet after the one for the address is raised. -/
theorem alreadyInQueue_raises_next :
  ¬ Updates ⟨64, false⟩ 9 [⟨0, packetFor 64 5⟩, ⟨1, packetFor 128 3⟩]
      (alreadyInQueue ⟨64, false⟩ 9 [⟨0, packetFor 64 5⟩, ⟨1, packetFor 128 3⟩])
    ∧ alreadyInQueue ⟨64, false⟩ 9 [⟨0, packetFor 64 5⟩, ⟨1, packetFor 128 3⟩]
      = (true, [⟨0, packetFor 128 9⟩, ⟨1, packetFor 64 5⟩])
  := by
  refine ⟨?_, rfl⟩
  intro h
  have hpriorities := congrArg (map DeferredPacket.priority) (h.updated [] _ _ rfl rfl)
  exact absurd hpriorities (by decide)

end Gem5Arc.Queued
