import Gem5Arc.Lib.Agenda
import Gem5Arc.Sim.Operations

/-!
# The order of service

`Step` is a call of the queue. Next to the queue it keeps a list of the queued events, the newest
first. The calls follow the rules of the queue: an event is not inserted while it is queued, and
not for a time in the past; its time does not change while it is queued; and only a queued event
is removed.

In every state of a run the queue has exactly the queued events, the calls that are allowed
return, and the next event to be serviced is the newest of those with the smallest time and
priority (`reachable_inOrder`). Time does not go back (`curTick_mono`).
-/

namespace Gem5Arc.EventQueue

open Lib List

variable {I : Type}

/-! ### The invariant -/

/-- The queue has the pending events in the order of service. -/
structure Lined (s : List I × EventQueue I) : Prop where
  nodup : s.1.Nodup
  bins : ∃ bins, s.2.Represents bins ∧ Ordered s.2.key s.1 (items bins)

variable {pending : List I} {q q' : EventQueue I} {s t : List I × EventQueue I} {event : I}
  {fuel : ℕ} {events : I → Event I}

/-- Calls that leave the links alone leave the pending events in order. -/
theorem Lined.congr (h : Lined (pending, q)) (hhead : q'.head = q.head)
    (hsame : ∀ i ∈ pending, SameLinks q q' i) :
  Lined (pending, q')
  := by
  obtain ⟨bins, hbins, hordered⟩ := h.bins
  refine ⟨h.nodup, bins, ?_, ?_⟩
  · have hpart : q'.Part q.head bins none := by
      apply Part.congr hbins
      intro i hi
      apply hsame i (hordered.mem_iff.mp hi)
    rw [← hhead] at hpart
    apply hpart
  · apply hordered.congr
    intro i hi
    apply (hsame i hi).key

/-- The queue has the pending events in the order of service, and none is in the past. -/
structure Sound (s : List I × EventQueue I) : Prop where
  nodup : s.1.Nodup
  bins : ∃ bins, s.2.Represents bins ∧ Ordered s.2.key s.1 (items bins)
  ahead : ∀ i ∈ s.1, s.2.curTick ≤ (s.2.events i).when

theorem Sound.lined (h : Sound s) :
  Lined s
  := ⟨h.nodup, h.bins⟩

theorem Lined.sound (h : Lined s) (hahead : ∀ i ∈ s.1, s.2.curTick ≤ (s.2.events i).when) :
  Sound s
  := ⟨h.nodup, h.bins, hahead⟩

/-- Calls that leave the links alone leave the queue sound. -/
theorem Sound.congr (h : Sound (pending, q)) (hhead : q'.head = q.head)
    (hcurTick : q'.curTick = q.curTick) (hsame : ∀ i ∈ pending, SameLinks q q' i) :
  Sound (pending, q')
  := by
  apply (h.lined.congr hhead hsame).sound
  intro i hi
  have hahead := h.ahead i hi
  rw [hcurTick, when_eq_of_key (hsame i hi).key]
  apply hahead

variable [DecidableEq I]

section

variable (h : Lined (pending, q))

include h

/-- An event that is not queued is inserted. -/
theorem Lined.insert (hnew : event ∉ pending) :
  ∃ q', Returns (pending.length + 1) (q.insert · event) q' ∧ Lined (event :: pending, q')
    ∧ q'.key = q.key ∧ q'.curTick = q.curTick
  := by
  obtain ⟨bins, hbins, hordered⟩ := h.bins
  have hlength := Nat.lt_succ_of_le hordered.perm.length_eq.le
  have hnew' : event ∉ items bins := by
    rw [hordered.mem_iff]
    apply hnew
  obtain ⟨q', bins', l, m, hinsert, hbins', hitems, hitems', hl, hm, hkey, hcurTick⟩ :=
    hbins.insert hnew' hlength
  refine ⟨q', hinsert, ⟨?_, bins', hbins', ?_⟩, hkey, hcurTick⟩
  · apply nodup_cons.mpr ⟨hnew, h.nodup⟩
  · rw [hitems] at hordered
    rw [hitems', hkey]
    apply hordered.insert hl hm

/-- An event that is queued is removed. -/
theorem Lined.remove (hmem : event ∈ pending) (hqueue : (q.events event).queue) :
  ∃ q', Returns (pending.length + 1) (q.remove · event) q' ∧ Lined (pending.erase event, q')
    ∧ q'.key = q.key ∧ q'.curTick = q.curTick
  := by
  obtain ⟨bins, hbins, hordered⟩ := h.bins
  have hlength := Nat.lt_succ_of_le hordered.perm.length_eq.le
  obtain ⟨q', bins', hremove, hbins', hitems, hkey, hcurTick⟩ :=
    hbins.remove (hordered.mem_iff.mpr hmem) hqueue hlength
  refine ⟨q', hremove, ⟨?_, bins', hbins', ?_⟩, hkey, hcurTick⟩
  · apply h.nodup.erase
  · dsimp only
    rw [hitems, hkey]
    apply hordered.erase h.nodup

/-- The next event is serviced. -/
theorem Lined.serviceOne (hne : pending ≠ []) :
  ∃ event q', q.serviceOne = .ok (event, q') ∧ event ∈ pending ∧ IsNext q.key pending event
    ∧ Lined (pending.erase event, q') ∧ q'.key = q.key
    ∧ q'.curTick = if (q.events event).squashed then q.curTick else (q.events event).when
  := by
  obtain ⟨bins, hbins, hordered⟩ := h.bins
  cases hitems : items bins with
  | nil =>
    have hperm := hordered.perm
    rw [hitems] at hperm
    apply absurd hperm.nil_eq.symm hne
  | cons event l =>
    obtain ⟨q', bins', hservice, hbins', hitems', hkey, hcurTick⟩ := hbins.serviceOne hitems
    rw [hitems] at hordered
    have hmem := hordered.mem_iff.mp (mem_cons_self ..)
    refine ⟨event, q', hservice, hmem, hordered.isNext, ⟨?_, bins', hbins', ?_⟩, hkey, hcurTick⟩
    · apply h.nodup.erase
    · have herase := hordered.erase h.nodup event
      rw [erase_cons_head] at herase
      rw [hitems', hkey]
      apply herase

end

/-- An empty queue has nothing to service. -/
theorem Lined.serviceOne_nil (h : Lined ([], q)) :
  q.serviceOne = .error .nullPointer
  := by
  obtain ⟨bins, hbins, hordered⟩ := h.bins
  have hhead : q.head = none := by
    cases bins with
    | nil => apply hbins.chain
    | cons b bins => cases hordered.mem_iff.mp (top_mem_items (mem_cons_self ..))
  rw [EventQueue.serviceOne, hhead]
  rfl

/-- The event that is serviced is the next one. -/
theorem Lined.of_serviceOne (h : Lined (pending, q)) (hservice : q.serviceOne = .ok (event, q')) :
  event ∈ pending ∧ IsNext q.key pending event ∧ Lined (pending.erase event, q') ∧ q'.key = q.key
    ∧ q'.curTick = if (q.events event).squashed then q.curTick else (q.events event).when
  := by
  cases pending with
  | nil =>
    rw [h.serviceOne_nil] at hservice
    cases hservice
  | cons i pending =>
    obtain ⟨event', q'', hservice', hnext⟩ := h.serviceOne (by simp)
    rw [hservice] at hservice'
    cases hservice'
    exact hnext

section

variable (h : Sound (pending, q))

include h

/-- An event that may be inserted is inserted. -/
theorem Sound.insert (hnew : event ∉ pending) (hwhen : q.curTick ≤ (q.events event).when) :
  ∃ q', Returns (pending.length + 1) (q.insert · event) q' ∧ Sound (event :: pending, q')
    ∧ q'.curTick = q.curTick
  := by
  obtain ⟨q', hinsert, hlined, hkey, hcurTick⟩ := h.lined.insert hnew
  refine ⟨q', hinsert, hlined.sound ?_, hcurTick⟩
  intro i hi
  rw [hcurTick, when_eq_of_key (congrFun hkey i)]
  rcases mem_cons.mp hi with rfl | hi
  · apply hwhen
  · apply h.ahead i hi

/-- An event that is queued is removed. -/
theorem Sound.remove (hmem : event ∈ pending) (hqueue : (q.events event).queue) :
  ∃ q', Returns (pending.length + 1) (q.remove · event) q' ∧ Sound (pending.erase event, q')
    ∧ q'.curTick = q.curTick
  := by
  obtain ⟨q', hremove, hlined, hkey, hcurTick⟩ := h.lined.remove hmem hqueue
  refine ⟨q', hremove, hlined.sound ?_, hcurTick⟩
  intro i hi
  rw [hcurTick, when_eq_of_key (congrFun hkey i)]
  apply h.ahead i (mem_of_mem_erase hi)

/-- The next event is serviced, and time does not go back. -/
theorem Sound.serviceOne (hservice : q.serviceOne = .ok (event, q')) :
  Sound (pending.erase event, q') ∧ q.curTick ≤ q'.curTick
  := by
  obtain ⟨hmem, hnext, hlined, hkey, hcurTick⟩ := h.lined.of_serviceOne hservice
  have hle (i : I) (hi : i ∈ pending) : q'.curTick ≤ (q.events i).when := by
    rw [hcurTick]
    split_ifs
    · apply h.ahead i hi
    · apply when_le_of_key (hnext.minimal i hi)
  refine ⟨hlined.sound ?_, ?_⟩
  · intro i hi
    rw [when_eq_of_key (congrFun hkey i)]
    apply hle i (mem_of_mem_erase hi)
  · rw [hcurTick]
    split_ifs
    · apply le_refl
    · apply h.ahead event hmem

end

/-! ### Runs -/

/-- A call of the queue, or of an event. -/
inductive Op (I : Type) where
  | setWhen (event : I) (when : Tick)
  | squash (event : I)
  | insert (event : I)
  | remove (event : I)
  | serviceOne

/-- A call that follows the rules, and returns. -/
inductive Step : List I × EventQueue I → Op I → List I × EventQueue I → Prop
  | setWhen {pending : List I} {q : EventQueue I} {event : I} (when : Tick) :
      event ∉ pending → Step (pending, q) (.setWhen event when) (pending, q.setWhen event when)
  | squash {pending : List I} {q : EventQueue I} (event : I) :
      Step (pending, q) (.squash event) (pending, q.squash event)
  | insert {pending : List I} {q q' : EventQueue I} {event : I} (fuel : ℕ) :
      event ∉ pending → q.curTick ≤ (q.events event).when → q.insert fuel event = .ok q' →
      Step (pending, q) (.insert event) (event :: pending, q')
  | remove {pending : List I} {q q' : EventQueue I} {event : I} (fuel : ℕ) :
      event ∈ pending → q.remove fuel event = .ok q' →
      Step (pending, q) (.remove event) (pending.erase event, q')
  | serviceOne {pending : List I} {q q' : EventQueue I} {event : I} :
      q.serviceOne = .ok (event, q') →
      Step (pending, q) .serviceOne (pending.erase event, q')

/-- The states of the runs that start with a new queue. -/
def Reachable (events : I → Event I) (pending : List I) (q : EventQueue I) : Prop :=
  Lib.Reachable Step ([], init events) (pending, q)

/-- One call keeps the queue sound, and time does not go back. -/
theorem Sound.step {op : Op I} (h : Sound s) (hstep : Step s op t) :
  Sound t ∧ s.2.curTick ≤ t.2.curTick
  := by
  cases hstep with
  | setWhen when hnew =>
    refine ⟨h.congr rfl rfl ?_, le_refl _⟩
    intro i hi
    apply sameLinks_edit
    rintro rfl
    apply hnew hi
  | squash event =>
    refine ⟨h.congr rfl rfl ?_, le_refl _⟩
    intro i _
    apply sameLinks_setSquashed
  | insert fuel hnew hwhen hinsert =>
    obtain ⟨q', hreturns, hsound, hcurTick⟩ := h.insert hnew hwhen
    obtain rfl := hreturns.unique hinsert
    exact ⟨hsound, hcurTick.ge⟩
  | remove fuel hmem hremove =>
    obtain ⟨q', hreturns, hsound, hcurTick⟩ := h.remove hmem (queue_of_remove hremove)
    obtain rfl := hreturns.unique hremove
    exact ⟨hsound, hcurTick.ge⟩
  | serviceOne hservice => apply h.serviceOne hservice

theorem reachable_sound (h : Reachable events pending q) :
  Sound (pending, q)
  := by
  apply h.invariant
  · intro s op t hs hstep
    apply (hs.step hstep).1
  · exact ⟨nodup_nil, ⟨[], Part.nil, Ordered.nil⟩, by simp⟩

/-- What holds of a queue and the events that have been queued, the newest first. -/
structure InOrder (pending : List I) (q : EventQueue I) : Prop where
  /-- The pointers make up bins with increasing keys, and these have each queued event once. -/
  bins : ∃ bins, q.Represents bins ∧ (items bins).Nodup ∧ ∀ i, i ∈ items bins ↔ i ∈ pending
  /-- Another event can be inserted. -/
  insert : ∀ event, event ∉ pending → q.curTick ≤ (q.events event).when →
    ∀ fuel > pending.length, ∃ q', q.insert fuel event = .ok q'
  /-- A queued event can be removed, if its queue is this one. -/
  remove : ∀ event ∈ pending, (q.events event).queue →
    ∀ fuel > pending.length, ∃ q', q.remove fuel event = .ok q'
  /-- If there are queued events, one can be serviced. -/
  service : pending ≠ [] → ∃ event q', q.serviceOne = .ok (event, q')
  /-- The event that is serviced is a queued one with the smallest key, and the newest of these. -/
  next : ∀ event q', q.serviceOne = .ok (event, q') → event ∈ pending ∧ IsNext q.key pending event

/-- In every state of a run, the queue is in order. -/
theorem reachable_inOrder {events : I → Event I} {pending : List I} {q : EventQueue I}
    (h : Reachable events pending q) :
  InOrder pending q
  := by
  have hsound := reachable_sound h
  constructor
  · obtain ⟨bins, hbins, hordered⟩ := hsound.bins
    exact ⟨bins, hbins, hbins.nodup, fun i => hordered.mem_iff⟩
  · intro event hnew hwhen fuel hfuel
    obtain ⟨q', hinsert, -⟩ := hsound.insert hnew hwhen
    exact ⟨q', hinsert.eq_ok hfuel⟩
  · intro event hmem hqueue fuel hfuel
    obtain ⟨q', hremove, -⟩ := hsound.remove hmem hqueue
    exact ⟨q', hremove.eq_ok hfuel⟩
  · intro hne
    obtain ⟨event, q', hservice, -⟩ := hsound.lined.serviceOne hne
    exact ⟨event, q', hservice⟩
  · intro event q' hservice
    obtain ⟨hmem, hnext, -⟩ := hsound.lined.of_serviceOne hservice
    exact ⟨hmem, hnext⟩

/-- Three events, of which the last one is serviced first. -/
theorem reachable_inOrder_three :
  ∃ q, Reachable (fun i : ℕ => { when := if i = 2 then 3 else 5 }) [1, 0] q ∧ InOrder [1, 0] q
  := by
  have hq : Reachable (fun i : ℕ => { when := if i = 2 then 3 else 5 }) [1, 0] _ :=
    ⟨[.insert 0, .insert 1, .insert 2, .serviceOne],
      .cons (.insert 1 (by decide) (by decide) rfl)
        (.cons (.insert 1 (by decide) (by decide) rfl)
          (.cons (.insert 1 (by decide) (by decide) rfl)
            (.cons (.serviceOne rfl) (.nil _))))⟩
  exact ⟨_, hq, reachable_inOrder hq⟩

theorem curTick_mono (h : Reachable events pending q) (ht : Lib.Reachable Step (pending, q) t) :
  q.curTick ≤ t.2.curTick
  := by
  suffices hinv : Sound t ∧ q.curTick ≤ t.2.curTick from hinv.2
  apply ht.invariant
  · intro s op t hs hstep
    have hnext := hs.1.step hstep
    exact ⟨hnext.1, hs.2.trans hnext.2⟩
  · exact ⟨reachable_sound h, le_refl _⟩

theorem curTick_mono_five :
  ∃ q t, Step ([()], q) .serviceOne t ∧ q.curTick ≤ t.2.curTick
  := by
  have hq : Reachable (fun _ => { when := 5 }) [()] _ :=
    ⟨_, .single (.insert 1 (by decide) (by decide) rfl)⟩
  exact ⟨_, _, .serviceOne rfl, curTick_mono hq ⟨_, .single (.serviceOne rfl)⟩⟩

end Gem5Arc.EventQueue
