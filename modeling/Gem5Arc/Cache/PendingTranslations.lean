import Gem5Arc.Cache.QueuedPrefetcher
import Gem5Arc.Lib.Run

/-!
# Prefetches that wait for a translation

A translation in flight calls back the object it was started for. So the prefetch it is for has to
stay in this object, in the queue of prefetches that wait for a translation (`Queued.Intact`). Two
things can break this. A full queue drops its oldest element of the lowest priority, also if the
translation of this element is in flight. And the update of a priority swaps the contents of
objects. The queue is moreover bounded by the size of the other queue, and not by its own.

The prefetches in flight stay where they are, and the queue stays within its bound, exactly if
whenever a prefetch is added or a priority is updated, no prefetch in flight is dropped or swapped,
and there is room for a prefetch that is added without another one being dropped
(`pending_translations_iff`).
-/

namespace Gem5Arc.Queued

open List Node

variable (cfg : Config) {β : Type} {slot : ℕ} {rest : List Node}

/-! ### Calls -/

inductive Call where
  | squash (addr : Addr) (isSecure : Bool)
  | insert (access : Access) (pfi : PrefetchInfo) (priority : ℤ) (inCache : Addr → Bool → Bool)
      (curTick : Tick)
  | getPacket (now : ℕ → Option Answer) (curTick : Tick)
  | processMissingTranslations (max : ℕ) (now : ℕ → Option Answer) (curTick : Tick)
  | complete (obj : ℕ) (answer : Answer) (curTick : Tick)

def call : Call → State → Except Fault State
  | .squash addr isSecure, s => .ok (squash cfg addr isSecure s)
  | .insert access pfi priority inCache curTick, s =>
    insert cfg access pfi priority inCache curTick s
  | .getPacket now curTick, s => Prod.snd <$> getPacket cfg now curTick s
  | .processMissingTranslations max now curTick, s =>
    processMissingTranslations cfg max now curTick s
  | .complete obj answer curTick, s => finish cfg obj answer curTick s

/-- The calls that are made: a prefetcher that is trained with virtual addresses is notified of
accesses that have one, and only translations in flight are completed. -/
def Made : Call → State → Prop
  | .insert access _ _ _ _, _ => cfg.useVirtualAddresses = true → access.vaddr.isSome = true
  | .complete obj _ _, s => ∃ f ∈ s.inFlight, f.obj = obj
  | _, _ => True

/-- Every prefetch in flight is in the queue, in the object that is called back, and the queue is
within its bound. -/
structure Intact (s : State) : Prop where
  present : ∀ f ∈ s.inFlight, ∃ n ∈ s.pfqMissingTranslation,
    n.obj = f.obj ∧ n.dp.id = f.id ∧ n.dp.ongoingTranslation = true
  bounded : s.pfqMissingTranslation.length ≤ cfg.missingTranslationQueueSize

/-- The elements that change places when the priority of `it` is updated. -/
def displaced (priority : ℤ) (before : List Node) (it : Node) : List Node :=
  let lower := before.filter fun n => n.dp.priority < priority
  if lower.isEmpty then [] else it :: lower

/-- No element in flight changes places when the priority of the first element of the second list is
updated. -/
def Unswapped (priority : ℤ) (before : List Node) : List Node → Prop
  | [] => True
  | it :: _ => it.dp.priority < priority →
      ∀ n ∈ displaced priority before it, n.dp.ongoingTranslation = false

/-- There is room for an element, or the element that is dropped is not in flight. -/
def Room (queue : List Node) : Prop :=
  if queue.length = cfg.queueSize then
    ∀ i n, victim queue.reverse = .ok i → queue[i]? = some n → n.dp.ongoingTranslation = false
  else queue.length < cfg.missingTranslationQueueSize

/-- A prefetch that has to be translated finds room. -/
def NewRoom (access : Access) (pfi : PrefetchInfo) (s : State) : Prop :=
  match destination cfg access pfi with
  | .ok (.translate _) => Room cfg s.pfqMissingTranslation
  | _ => True

def position (pfi : PrefetchInfo) (queue : List Node) : Option ℕ :=
  queue.findIdx? fun n => n.dp.pfInfo.sameAddr pfi

/-- An insertion disturbs no prefetch in flight. -/
def InsertUndisturbed (access : Access) (pfi : PrefetchInfo) (priority : ℤ) (s : State) : Prop :=
  if cfg.queueFilter then
    match position pfi s.pfq with
    | some _ => True
    | none =>
      match position pfi s.pfqMissingTranslation with
      | some i => Unswapped priority (s.pfqMissingTranslation.take (i + 1))
          (s.pfqMissingTranslation.drop (i + 1))
      | none => NewRoom cfg access pfi s
  else NewRoom cfg access pfi s

def Undisturbed : Call → State → Prop
  | .insert access pfi priority _ _, s => InsertUndisturbed cfg access pfi priority s
  | _, _ => True

/-! ### Computations without a failed assertion -/

/-- The computation fails no assertion, and what it returns has the property. -/
structure Safely {α : Type} (x : Except Fault α) (R : α → Prop) : Prop where
  noAssertion : x ≠ .error .assertion
  returns : ∀ t, x = .ok t → R t

section Safely

variable {α : Type} {R : α → Prop} {R' : β → Prop} {x : Except Fault α}

theorem safely_ok {a : α} (h : R a) :
  Safely (.ok a) R
  where
  noAssertion := by simp
  returns := by
    rintro _ ⟨⟩
    exact h

theorem safely_panic (msg : String) :
  Safely (.error (.panic msg)) R
  where
  noAssertion := by simp
  returns := nofun

theorem Safely.bind {f : α → Except Fault β} (hx : Safely x R)
    (hf : ∀ a, x = .ok a → R a → Safely (f a) R') :
  Safely (x >>= f) R'
  := by
  cases hxa : x with
  | error e =>
    constructor
    · rw [error_bind]
      intro h
      cases h
      exact hx.noAssertion hxa
    · rintro _ ⟨⟩
  | ok a => exact hf a hxa (hx.returns a hxa)

theorem Safely.mono {P : α → Prop} (hx : Safely x P) (h : ∀ a, P a → R a) :
  Safely x R
  := ⟨hx.noAssertion, fun t ht => h t (hx.returns t ht)⟩

end Safely

/-! ### Adding to a queue -/

variable {cfg}

theorem victim_safely (l : List Node) :
  Safely (victim l) fun _ => True
  := by
  unfold victim
  split
  · exact safely_panic _
  · exact safely_panic _
  · exact safely_ok trivial

theorem makeRoom_safely (queue : List Node) :
  Safely (makeRoom cfg queue) fun queue' =>
    (queue.length ≠ cfg.queueSize ∧ queue' = queue)
      ∨ queue.length = cfg.queueSize
        ∧ ∃ i, victim queue.reverse = .ok i ∧ queue' = queue.eraseIdx i
  := by
  unfold makeRoom
  split_ifs with hfull
  · apply (victim_safely _).bind
    intro i hi _
    exact safely_ok (.inr ⟨hfull, i, hi, rfl⟩)
  · exact safely_ok (.inl ⟨hfull, rfl⟩)

/-- A packet is added to what is left of the queue. -/
theorem addToQueue_safely (obj : ℕ) (dpp : DeferredPacket) (queue : List Node) :
  Safely (addToQueue cfg obj dpp queue) fun queue' => ∃ rest,
    ((queue.length ≠ cfg.queueSize ∧ rest = queue)
      ∨ queue.length = cfg.queueSize
        ∧ ∃ i, victim queue.reverse = .ok i ∧ rest = queue.eraseIdx i)
    ∧ queue'.Perm (⟨obj, dpp⟩ :: rest)
  := by
  apply (makeRoom_safely queue).bind
  intro rest _ hrest
  apply safely_ok
  refine ⟨rest, hrest, ?_⟩
  apply perm_middle.trans
  rw [take_append_drop]

/-- Only the new packet is added to a queue. -/
theorem addToQueue_mem (obj : ℕ) (dpp : DeferredPacket) (queue : List Node) :
  Safely (addToQueue cfg obj dpp queue) fun queue' =>
    ∀ n ∈ queue', n = ⟨obj, dpp⟩ ∨ n ∈ queue
  := by
  apply (addToQueue_safely obj dpp queue).mono
  rintro queue' ⟨rest, hrest, hperm⟩ n hn
  rcases mem_cons.mp (hperm.mem_iff.mp hn) with h | h
  · exact .inl h
  · right
    rcases hrest with ⟨-, rfl⟩ | ⟨-, i, -, rfl⟩
    · exact h
    · exact mem_of_mem_eraseIdx h

variable {queue : List Node} {f : DeferredPacket → DeferredPacket} {curTick : Tick}
  {dp : DeferredPacket} {before : List Node} {priority : ℤ} {pfi : PrefetchInfo}
  {inCache : Addr → Bool → Bool}

/-- The position of the element that is dropped. -/
theorem victim_lt {i : ℕ} (h : victim queue.reverse = .ok i) :
  i < queue.length
  := by
  rw [← length_reverse]
  unfold victim at h
  split at h
  · cases h
  · cases h
  · rename_i last before _ heq
    cases h
    rw [heq, length_cons]
    omega

/-! ### Valid states -/

/-- The prefetches in flight are exactly those with an ongoing translation, objects and prefetches
are different, and every prefetch has what its queue needs. -/
structure Valid (cfg : Config) (s : State) : Prop extends Intact cfg s where
  objs : (s.pfqMissingTranslation.map Node.obj).Nodup
  ids : (s.pfqMissingTranslation.map fun n => n.dp.id).Nodup
  freshObj : ∀ n ∈ s.pfqMissingTranslation, n.obj < s.nextObj
  freshId : ∀ n ∈ s.pfqMissingTranslation, n.dp.id < s.nextId
  flights : (s.inFlight.map InFlight.obj).Nodup
  started : ∀ n ∈ s.pfqMissingTranslation, n.dp.ongoingTranslation = true →
    ⟨n.obj, n.dp.id⟩ ∈ s.inFlight
  requests : ∀ n ∈ s.pfqMissingTranslation, n.dp.translationRequest.isSome = true
  packets : ∀ n ∈ s.pfq, n.dp.pkt.isSome = true

/-- The computation keeps the prefetches in flight where they are, and the queue within its bound,
exactly under the condition, and then it keeps the state valid. -/
structure Exactly (cfg : Config) (x : Except Fault State) (P : Prop) : Prop where
  of_intact : Safely x (Intact cfg) → P
  valid : P → Safely x (Valid cfg)

theorem Exactly.of_valid {x : Except Fault State} (h : Safely x (Valid cfg)) :
  Exactly cfg x True
  := ⟨fun _ => trivial, fun _ => h⟩

theorem Valid.empty :
  Valid cfg {}
  where
  present := by simp
  bounded := Nat.zero_le _
  objs := nodup_nil
  ids := nodup_nil
  freshObj := by simp
  freshId := by simp
  flights := nodup_nil
  started := by simp
  requests := by simp
  packets := by simp

variable {s t : State} {n m : Node}

theorem Valid.eq_of_obj (hs : Valid cfg s) (hn : n ∈ s.pfqMissingTranslation)
    (hm : m ∈ s.pfqMissingTranslation) (h : n.obj = m.obj) :
  n = m
  := inj_on_of_nodup_map hs.objs hn hm h

/-- The other queue is changed. -/
theorem Valid.withPfq (hs : Valid cfg s) {pfq : List Node} {nextObj nextId : ℕ}
    (hobj : s.nextObj ≤ nextObj) (hid : s.nextId ≤ nextId)
    (hpackets : ∀ n ∈ pfq, n.dp.pkt.isSome = true) :
  Valid cfg { s with pfq, nextObj, nextId }
  := { hs with
    freshObj := fun n hn => Nat.lt_of_lt_of_le (hs.freshObj n hn) hobj
    freshId := fun n hn => Nat.lt_of_lt_of_le (hs.freshId n hn) hid
    packets := hpackets }

/-! ### Translations -/

theorem updateObject_mem {obj : ℕ} :
  m ∈ updateObject obj f queue
    ↔ ∃ n ∈ queue, m = if n.obj = obj then { n with dp := f n.dp } else n
  := by
  unfold updateObject
  simp only [mem_map, eq_comm]

/-- An update keeps what it does not change of each element. -/
theorem map_updateObject {g : Node → β} (hg : ∀ n : Node, g { n with dp := f n.dp } = g n) (obj : ℕ)
    (queue : List Node) :
  (updateObject obj f queue).map g = queue.map g
  := by
  unfold updateObject
  rw [map_map]
  apply map_congr_left
  intro n _
  dsimp only [Function.comp]
  split_ifs
  · exact hg n
  · rfl

theorem forall_updateObject {P : Node → Prop} (hP : ∀ n ∈ queue, P n)
    (hf : ∀ n, P n → P { n with dp := f n.dp }) {obj : ℕ} :
  ∀ m ∈ updateObject obj f queue, P m
  := by
  intro m hm
  obtain ⟨n, hn, rfl⟩ := updateObject_mem.mp hm
  split_ifs
  · exact hf n (hP n hn)
  · exact hP n hn

variable {answer : Answer} {vaddr : Addr} {access : Access}

/-- A translated prefetch is queued, and nothing else changes. -/
theorem queueTranslated_safely (hs : ∀ n ∈ s.pfq, n.dp.pkt.isSome = true) :
  Safely (queueTranslated cfg answer curTick dp s) fun t => ∃ pfq nextObj,
    t = { s with pfq, nextObj } ∧ s.nextObj ≤ nextObj ∧ ∀ n ∈ pfq, n.dp.pkt.isSome = true
  := by
  have hsame : ∃ pfq nextObj, s = { s with pfq, nextObj } ∧ s.nextObj ≤ nextObj
      ∧ ∀ n ∈ pfq, n.dp.pkt.isSome = true := ⟨s.pfq, s.nextObj, rfl, Nat.le_refl _, hs⟩
  unfold queueTranslated
  split
  · exact safely_ok hsame
  · split_ifs
    · exact safely_ok hsame
    · apply (addToQueue_mem _ _ _).bind
      intro pfq _ hmem
      apply safely_ok
      refine ⟨pfq, s.nextObj + 1, rfl, Nat.le_succ _, ?_⟩
      intro n hn
      rcases hmem n hn with rfl | h
      · rfl
      · exact hs n h

/-- The object is taken out of the queue and of the translations in flight. -/
def completed (obj : ℕ) (s : State) : State :=
  { s with
    inFlight := s.inFlight.filter fun f => f.obj ≠ obj
    pfqMissingTranslation := s.pfqMissingTranslation.filter fun n => n.obj ≠ obj }

theorem Valid.completed (hs : Valid cfg s) (obj : ℕ) :
  Valid cfg (completed obj s)
  where
  present := by
    intro f hf
    obtain ⟨hf, hne⟩ := mem_filter.mp hf
    obtain ⟨n, hn, hobj, hid, hongoing⟩ := hs.present f hf
    refine ⟨n, mem_filter.mpr ⟨hn, ?_⟩, hobj, hid, hongoing⟩
    rw [hobj]
    exact hne
  bounded := Nat.le_trans (length_filter_le _ _) hs.bounded
  objs := hs.objs.sublist (filter_sublist.map _)
  ids := hs.ids.sublist (filter_sublist.map _)
  freshObj := fun n hn => hs.freshObj n (mem_of_mem_filter hn)
  freshId := fun n hn => hs.freshId n (mem_of_mem_filter hn)
  flights := hs.flights.sublist (filter_sublist.map _)
  started := by
    intro n hn hongoing
    obtain ⟨hn, hne⟩ := mem_filter.mp hn
    exact mem_filter.mpr ⟨hs.started n hn hongoing, hne⟩
  requests := fun n hn => hs.requests n (mem_of_mem_filter hn)
  packets := hs.packets

theorem filter_updateObject (f : DeferredPacket → DeferredPacket) (obj : ℕ) (queue : List Node) :
  (updateObject obj f queue).filter (fun n => n.obj ≠ obj)
    = queue.filter fun n => n.obj ≠ obj
  := by
  induction queue with
  | nil => rfl
  | cons n queue ih =>
    rw [updateObject, map_cons, ← updateObject]
    by_cases h : n.obj = obj
    · rw [if_pos h, filter_cons_of_neg (by simpa using h),
        filter_cons_of_neg (by simpa using h), ih]
    · rw [if_neg h, filter_cons_of_pos (by simpa using h),
        filter_cons_of_pos (by simpa using h), ih]

theorem find_updateObject (hn : n ∈ queue) :
  ∃ m, (updateObject n.obj f queue).find? (fun m => m.obj = n.obj) = some m
  := by
  rw [← Option.isSome_iff_exists, find?_isSome]
  exact ⟨{ n with dp := f n.dp }, updateObject_mem.mpr ⟨n, hn, by rw [if_pos rfl]⟩,
    decide_eq_true rfl⟩

/-- A translation in flight is completed. -/
theorem Valid.finish (hs : Valid cfg s) {f : InFlight} (hf : f ∈ s.inFlight) :
  Safely (finish cfg f.obj answer curTick s) fun t => Valid cfg t
    ∧ ∀ m ∈ s.pfqMissingTranslation, m.obj ≠ f.obj → m ∈ t.pfqMissingTranslation
  := by
  obtain ⟨n, hn, hobj, -, hongoing⟩ := hs.present f hf
  have hassert : ((s.pfqMissingTranslation.find? fun n => n.obj = f.obj).all fun n =>
      n.dp.ongoingTranslation) = true := by
    cases hfind : s.pfqMissingTranslation.find? fun n => n.obj = f.obj with
    | none => rfl
    | some m =>
      have hm := find?_some hfind
      rw [decide_eq_true_iff] at hm
      rw [hs.eq_of_obj (mem_of_find?_eq_some hfind) hn (hm.trans hobj.symm)]
      exact hongoing
  unfold Queued.finish
  rw [hassert, assert_true, ok_bind]
  unfold translationComplete
  obtain ⟨it, hit⟩ := find_updateObject (f := setOngoing false) hn
  rw [hobj] at hit
  simp only [hit]
  refine Safely.bind (queueTranslated_safely ?_) ?_
  · exact hs.packets
  rintro t - ⟨pfq, nextObj, rfl, hnext, hpackets⟩
  apply safely_ok
  rw [filter_updateObject]
  refine ⟨(hs.completed f.obj).withPfq hnext (Nat.le_refl _) hpackets, ?_⟩
  intro m hm hne
  exact mem_filter.mpr ⟨hm, by simpa using hne⟩

/-- The translation of an element is started. -/
def begun (n : Node) (s : State) : State :=
  { s with
    inFlight := ⟨n.obj, n.dp.id⟩ :: s.inFlight
    pfqMissingTranslation := updateObject n.obj (setOngoing true) s.pfqMissingTranslation }

theorem Valid.begun (hs : Valid cfg s) (hn : n ∈ s.pfqMissingTranslation)
    (hidle : n.dp.ongoingTranslation = false) :
  Valid cfg (begun n s)
  where
  present := by
    intro f hf
    rcases mem_cons.mp hf with rfl | hf
    · refine ⟨⟨n.obj, setOngoing true n.dp⟩, ?_, rfl, rfl, rfl⟩
      exact updateObject_mem.mpr ⟨n, hn, by rw [if_pos rfl]⟩
    · obtain ⟨m, hm, hobj, hid, hongoing⟩ := hs.present f hf
      have hne : m.obj ≠ n.obj := by
        intro h
        rw [hs.eq_of_obj hm hn h, hidle] at hongoing
        cases hongoing
      exact ⟨m, updateObject_mem.mpr ⟨m, hm, by rw [if_neg hne]⟩, hobj, hid, hongoing⟩
  bounded := by
    change (updateObject _ _ _).length ≤ _
    rw [updateObject, length_map]
    exact hs.bounded
  objs := by
    change ((updateObject _ _ _).map obj).Nodup
    rw [map_updateObject fun _ => rfl]
    exact hs.objs
  ids := by
    change ((updateObject _ _ _).map fun n => n.dp.id).Nodup
    rw [map_updateObject fun _ => rfl]
    exact hs.ids
  freshObj := forall_updateObject hs.freshObj fun _ h => h
  freshId := forall_updateObject hs.freshId fun _ h => h
  flights := by
    refine nodup_cons.mpr ⟨?_, hs.flights⟩
    intro hmem
    obtain ⟨f, hf, hobj⟩ := mem_map.mp hmem
    obtain ⟨m, hm, hmobj, -, hongoing⟩ := hs.present f hf
    rw [hs.eq_of_obj hm hn (hmobj.trans hobj), hidle] at hongoing
    cases hongoing
  started := by
    intro m hm hongoing
    obtain ⟨m', hm', rfl⟩ := updateObject_mem.mp hm
    split_ifs at hongoing ⊢ with h
    · rw [hs.eq_of_obj hm' hn h]
      exact mem_cons_self
    · exact mem_cons_of_mem _ (hs.started m' hm' hongoing)
  requests := forall_updateObject hs.requests fun _ h => h
  packets := hs.packets

theorem mem_begun (hm : m ∈ s.pfqMissingTranslation) (hne : m.obj ≠ n.obj) :
  m ∈ (begun n s).pfqMissingTranslation
  := updateObject_mem.mpr ⟨m, hm, by rw [if_neg hne]⟩

theorem Valid.startTranslation (hs : Valid cfg s) (hn : n ∈ s.pfqMissingTranslation)
    {now : Option Answer} :
  Safely (startTranslation cfg n now curTick s) fun t => Valid cfg t
    ∧ ∀ m ∈ s.pfqMissingTranslation, m.obj ≠ n.obj → m ∈ t.pfqMissingTranslation
  := by
  unfold Queued.startTranslation
  rw [hs.requests n hn, assert_true, ok_bind]
  split_ifs with hongoing
  · exact safely_ok ⟨hs, fun m hm _ => hm⟩
  · have hbegun := hs.begun hn (Bool.not_eq_true _ ▸ hongoing)
    cases now with
    | none => exact safely_ok ⟨hbegun, fun m hm hne => mem_begun hm hne⟩
    | some answer =>
      have hflight : ⟨n.obj, n.dp.id⟩ ∈ (Queued.begun n s).inFlight := mem_cons_self
      apply (hbegun.finish hflight).mono
      rintro t ⟨ht, hkeep⟩
      exact ⟨ht, fun m hm hne => hkeep m (mem_begun hm hne) hne⟩

/-- The translations of some elements are started. -/
theorem Valid.startAll {now : ℕ → Option Answer} {l : List Node} (hl : (l.map obj).Nodup)
    (hs : Valid cfg s) (hmem : ∀ n ∈ l, n ∈ s.pfqMissingTranslation) :
  Safely (startAll cfg now curTick l s) fun t => Valid cfg t
  := by
  induction l generalizing s with
  | nil => exact safely_ok hs
  | cons n l ih =>
    rw [Queued.startAll]
    rw [map_cons, nodup_cons] at hl
    apply (hs.startTranslation (hmem n mem_cons_self)).bind
    rintro t - ⟨ht, hkeep⟩
    apply ih hl.2 ht
    intro m hm
    apply hkeep m (hmem m (mem_cons_of_mem _ hm))
    exact ne_of_mem_of_not_mem (mem_map_of_mem hm) hl.1

theorem Valid.processMissingTranslations (hs : Valid cfg s) (max : ℕ) (now : ℕ → Option Answer)
    (curTick : Tick) :
  Safely (processMissingTranslations cfg max now curTick s) fun t => Valid cfg t
  := by
  apply Valid.startAll _ hs
  · intro n hn
    exact mem_of_mem_take hn
  · rw [map_take]
    exact hs.objs.sublist (take_sublist _ _)

theorem Valid.issue (hs : Valid cfg s) (now : ℕ → Option Answer) (curTick : Tick) :
  Safely (issue cfg now curTick s) fun out => Valid cfg out.2
  := by
  unfold Queued.issue
  split
  · exact safely_ok hs
  · rename_i n rest hpfq
    have hpackets := hs.packets
    rw [hpfq, forall_mem_cons] at hpackets
    obtain ⟨hpkt, hrest⟩ := hpackets
    split
    · rename_i hnone
      rw [hnone] at hpkt
      cases hpkt
    · have hs' := hs.withPfq (Nat.le_refl _) (Nat.le_refl _) hrest
      apply (hs'.processMissingTranslations _ now curTick).bind
      intro t _ ht
      exact safely_ok ht

theorem Valid.getPacket (hs : Valid cfg s) (now : ℕ → Option Answer) (curTick : Tick) :
  Safely (getPacket cfg now curTick s) fun out => Valid cfg out.2
  := by
  unfold Queued.getPacket
  split_ifs
  · apply (hs.processMissingTranslations _ now curTick).bind
    intro t _ ht
    exact ht.issue now curTick
  · exact hs.issue now curTick

/-! ### Swapping -/

section

variable (slot : ℕ) (dp : DeferredPacket)

theorem swapUp_cons (prev : Node) (before : List Node) :
  swapUp slot dp (prev :: before)
    = if dp.priority > prev.dp.priority then
        (⟨slot, prev.dp⟩, (swapUp prev.obj dp before).1 :: (swapUp prev.obj dp before).2)
      else ((swapUp slot dp before).1, prev :: (swapUp slot dp before).2)
  := by
  rw [swapUp]

/-- The objects stay where they are. -/
theorem swapUp_objs (before : List Node) :
  ((swapUp slot dp before).1 :: (swapUp slot dp before).2).map obj
    = slot :: before.map obj
  := by
  induction before generalizing slot with
  | nil => rfl
  | cons prev before ih =>
    rw [swapUp_cons]
    split_ifs
    · have h := ih prev.obj
      simp only [map_cons, cons.injEq] at h ⊢
      exact ⟨trivial, h⟩
    · have h := ih slot
      simp only [map_cons, cons.injEq] at h ⊢
      exact ⟨h.1, trivial, h.2⟩

/-- The contents are exchanged. -/
theorem swapUp_contents (before : List Node) :
  (((swapUp slot dp before).1 :: (swapUp slot dp before).2).map Node.dp).Perm
    (dp :: before.map Node.dp)
  := by
  induction before generalizing slot with
  | nil => exact .refl _
  | cons prev before ih =>
    rw [swapUp_cons]
    split_ifs
    · exact ((ih prev.obj).cons prev.dp).trans (.swap _ _ _)
    · have h := (ih slot).cons prev.dp
      exact (List.Perm.swap _ _ _).trans (h.trans (.swap _ _ _))

end

/-- Nothing happens if no element has a lower priority. -/
theorem swapUp_of_forall (h : ∀ n ∈ before, ¬ n.dp.priority < dp.priority) :
  swapUp slot dp before = (⟨slot, dp⟩, before)
  := by
  induction before with
  | nil => rfl
  | cons prev before ih =>
    rw [swapUp_cons, if_neg (h prev mem_cons_self), ih (forall_mem_cons.mp h).2]

/-- An element that has no lower priority stays. -/
theorem mem_swapUp (hn : n ∈ before) (h : ¬ n.dp.priority < dp.priority) :
  n ∈ (swapUp slot dp before).2
  := by
  induction before generalizing slot with
  | nil => cases hn
  | cons prev before ih =>
    rw [swapUp_cons]
    rcases mem_cons.mp hn with rfl | hn
    · rw [if_neg h]
      exact mem_cons_self
    · split_ifs
      · exact mem_cons_of_mem _ (ih hn)
      · exact mem_cons_of_mem _ (ih hn)

/-- An element of a lower priority gets into another object. -/
theorem swapUp_leaves (dp : DeferredPacket) (hobjs : (slot :: before.map obj).Nodup)
    (hn : n ∈ before) (h : n.dp.priority < dp.priority) :
  ∃ m ∈ (swapUp slot dp before).1 :: (swapUp slot dp before).2, m.dp = n.dp ∧ m.obj ≠ n.obj
  := by
  induction before generalizing slot with
  | nil => cases hn
  | cons prev before ih =>
    rw [map_cons, nodup_cons, nodup_cons, mem_cons, not_or] at hobjs
    obtain ⟨⟨hslot, hslot'⟩, hprev, hnodup⟩ := hobjs
    rw [swapUp_cons]
    rcases mem_cons.mp hn with rfl | hn
    · rw [if_pos h]
      exact ⟨⟨slot, n.dp⟩, mem_cons_self, rfl, hslot⟩
    · split_ifs
      · obtain ⟨m, hm, hdp, hobj⟩ := ih (nodup_cons.mpr ⟨hprev, hnodup⟩) hn
        exact ⟨m, mem_cons_of_mem _ hm, hdp, hobj⟩
      · obtain ⟨m, hm, hdp, hobj⟩ := ih (nodup_cons.mpr ⟨hslot', hnodup⟩) hn
        refine ⟨m, ?_, hdp, hobj⟩
        rcases mem_cons.mp hm with h | h
        · rw [h]
          exact mem_cons_self
        · exact mem_cons_of_mem _ (mem_cons_of_mem _ h)

/-- If there is an element of a lower priority, then the packet gets into another object. -/
theorem swapUp_moves (slot : ℕ) (hn : n ∈ before) (h : n.dp.priority < dp.priority) :
  ∃ m ∈ (swapUp slot dp before).2, m.dp = dp
  := by
  induction before generalizing slot with
  | nil => cases hn
  | cons prev before ih =>
    rw [swapUp_cons]
    split_ifs with hlower
    · have hdp := (swapUp_contents prev.obj dp before).mem_iff.mpr mem_cons_self
      obtain ⟨m, hm, hmdp⟩ := mem_map.mp hdp
      exact ⟨m, hm, hmdp⟩
    · rcases mem_cons.mp hn with rfl | hn
      · exact absurd h hlower
      · obtain ⟨m, hm, hmdp⟩ := ih slot hn
        exact ⟨m, mem_cons_of_mem _ hm, hmdp⟩

/-! ### Updating a priority -/

section Raise

variable {after : List Node} {it : Node}

/-- The queue after an update that changes the priority. -/
def raised (priority : ℤ) (before : List Node) (it : Node) (after : List Node) : List Node :=
  (swapUp it.obj { it.dp with priority } before.reverse).2.reverse
    ++ (swapUp it.obj { it.dp with priority } before.reverse).1 :: after

theorem raisePriority_of_lt (h : it.dp.priority < priority) :
  raisePriority priority before (it :: after) = raised priority before it after
  := by
  rw [raisePriority, if_pos h]
  rfl

theorem raisePriority_of_not_lt (h : ¬ it.dp.priority < priority) :
  raisePriority priority before (it :: after) = before ++ it :: after
  := by
  rw [raisePriority, if_neg h]

theorem raised_perm :
  raised priority before it after
    ~ (swapUp it.obj { it.dp with priority } before.reverse).1
        :: (swapUp it.obj { it.dp with priority } before.reverse).2 ++ after
  := perm_middle.trans (((reverse_perm _).append_right _).cons _)

theorem mem_raised :
  n ∈ raised priority before it after
    ↔ n ∈ (swapUp it.obj { it.dp with priority } before.reverse).1
        :: (swapUp it.obj { it.dp with priority } before.reverse).2 ∨ n ∈ after
  := raised_perm.mem_iff.trans mem_append

theorem raised_objs :
  (raised priority before it after).map obj = (before ++ it :: after).map obj
  := by
  have h := swapUp_objs it.obj { it.dp with priority } before.reverse
  rw [map_cons, cons.injEq] at h
  obtain ⟨hthere, hbefore⟩ := h
  unfold raised
  rw [map_append, map_cons, map_reverse, hthere, hbefore, map_reverse,
    reverse_reverse, map_append, map_cons]

/-- The contents are those before, except for the priority of one element. -/
theorem raised_contents (f : DeferredPacket → β) :
  ((raised priority before it after).map fun n => f n.dp).Perm
    (f { it.dp with priority } :: (before ++ after).map fun n => f n.dp)
  := by
  have h := (swapUp_contents it.obj { it.dp with priority } before.reverse).map f
  simp only [map_cons, map_map, Function.comp_def] at h
  apply (raised_perm.map _).trans
  rw [map_append, map_append]
  exact (h.append_right _).trans ((((reverse_perm _).map _).append_right _).cons _)

/-- What the priority does not matter for is the same. -/
theorem raised_same {f : DeferredPacket → β} (hf : f { it.dp with priority } = f it.dp) :
  ((raised priority before it after).map fun n => f n.dp).Perm
    ((before ++ it :: after).map fun n => f n.dp)
  := by
  apply (raised_contents f).trans
  rw [hf]
  exact (perm_middle.map fun n : Node => f n.dp).symm

/-- An element in flight that is not displaced stays in its object. -/
theorem raised_keeps (h : ∀ n ∈ displaced priority before it, n.dp.ongoingTranslation = false)
    (hn : n ∈ before ++ it :: after) (hongoing : n.dp.ongoingTranslation = true) :
  ∃ m ∈ raised priority before it after, m.obj = n.obj ∧ m.dp.id = n.dp.id
    ∧ m.dp.ongoingTranslation = true
  := by
  by_cases hlower : ∃ m ∈ before, m.dp.priority < priority
  · obtain ⟨m, hm, hmlt⟩ := hlower
    have hdisplaced : displaced priority before it
        = it :: before.filter fun n => n.dp.priority < priority := by
      exact if_neg (by simpa using ⟨m, hm, hmlt⟩)
    rw [hdisplaced] at h
    refine ⟨n, mem_raised.mpr ?_, rfl, rfl, hongoing⟩
    rcases mem_append.mp hn with hn | hn
    · left
      apply mem_cons_of_mem
      apply mem_swapUp (mem_reverse.mpr hn)
      intro hlt
      have hidle := h n (mem_cons_of_mem _ (mem_filter.mpr ⟨hn, decide_eq_true hlt⟩))
      rw [hongoing] at hidle
      cases hidle
    · rcases mem_cons.mp hn with rfl | hn
      · have hidle := h n mem_cons_self
        rw [hongoing] at hidle
        cases hidle
      · exact .inr hn
  · have hswap : swapUp it.obj { it.dp with priority } before.reverse
        = (⟨it.obj, { it.dp with priority }⟩, before.reverse) := by
      apply swapUp_of_forall
      intro m hm hlt
      exact hlower ⟨m, mem_reverse.mp hm, hlt⟩
    rcases mem_append.mp hn with hn | hn
    · refine ⟨n, mem_raised.mpr (.inl ?_), rfl, rfl, hongoing⟩
      rw [hswap]
      exact mem_cons_of_mem _ (mem_reverse.mpr hn)
    · rcases mem_cons.mp hn with rfl | hn
      · refine ⟨⟨n.obj, { n.dp with priority }⟩, mem_raised.mpr (.inl ?_), rfl, rfl, hongoing⟩
        rw [hswap]
        exact mem_cons_self
      · exact ⟨n, mem_raised.mpr (.inr hn), rfl, rfl, hongoing⟩

/-- A displaced element gets into another object. -/
theorem raised_displaces (hobjs : ((before ++ it :: after).map obj).Nodup)
    (hn : n ∈ displaced priority before it) :
  n ∈ before ++ it :: after
    ∧ ∃ m ∈ raised priority before it after, m.dp.id = n.dp.id ∧ m.obj ≠ n.obj
  := by
  have hobjs' : (it.obj :: before.reverse.map obj).Nodup := by
    rw [map_append, map_cons] at hobjs
    have hsub := (perm_middle.nodup_iff.mp hobjs).sublist ((sublist_append_left _ _).cons_cons _)
    rw [map_reverse]
    exact (((reverse_perm _).symm.cons _).nodup_iff).mp hsub
  unfold displaced at hn
  dsimp only at hn
  split_ifs at hn with hempty
  · cases hn
  · rcases mem_cons.mp hn with rfl | hn
    · obtain ⟨m, hm, hlt⟩ : ∃ m ∈ before, m.dp.priority < priority := by simpa using hempty
      have hlower : m.dp.priority < ({ n.dp with priority } : DeferredPacket).priority := hlt
      obtain ⟨u, hu, hdp⟩ := swapUp_moves n.obj (mem_reverse.mpr hm) hlower
      refine ⟨by simp, u, mem_raised.mpr (.inl (mem_cons_of_mem _ hu)), by rw [hdp], ?_⟩
      have hmem : u.obj ∈ before.reverse.map obj := by
        have hcons := swapUp_objs n.obj { n.dp with priority } before.reverse
        rw [map_cons, cons.injEq] at hcons
        rw [← hcons.2]
        exact mem_map_of_mem hu
      intro h
      rw [h] at hmem
      exact (nodup_cons.mp hobjs').1 hmem
    · obtain ⟨hn, hlt⟩ := mem_filter.mp hn
      rw [decide_eq_true_iff] at hlt
      obtain ⟨u, hu, hdp, hobj⟩ :=
        swapUp_leaves { it.dp with priority } hobjs' (mem_reverse.mpr hn) hlt
      exact ⟨mem_append_left _ hn, u, mem_raised.mpr (.inl hu), by rw [hdp], hobj⟩

/-- A prefetch of the queue after an update was there before. -/
theorem exists_of_mem_raised (f : DeferredPacket → β) (hn : n ∈ raised priority before it after)
    (hf : f { it.dp with priority } = f it.dp) :
  ∃ m ∈ before ++ it :: after, f m.dp = f n.dp
  := mem_map.mp ((raised_same hf).mem_iff.mp (mem_map_of_mem hn))

section

variable (hids : ((before ++ it :: after).map fun n => n.dp.id).Nodup)

include hids

theorem nodup_ids_raised :
  ((raised priority before it after).map fun n => n.dp.id).Nodup
  := by
  exact (raised_same (by rfl)).nodup_iff.mpr hids

/-- The prefetches in flight are after an update that does not swap them what they were before. -/
theorem exists_inFlight_of_mem_raised
    (h : ∀ n ∈ displaced priority before it, n.dp.ongoingTranslation = false)
    (hn : n ∈ raised priority before it after) (hongoing : n.dp.ongoingTranslation = true) :
  ∃ m ∈ before ++ it :: after, n.obj = m.obj ∧ n.dp.id = m.dp.id
    ∧ m.dp.ongoingTranslation = true
  := by
  obtain ⟨m, hm, h'⟩ := exists_of_mem_raised (fun dp => (dp.id, dp.ongoingTranslation)) hn rfl
  obtain ⟨hid, hmongoing⟩ := Prod.mk.inj h'
  rw [hongoing] at hmongoing
  obtain ⟨u, hu, huobj, huid, -⟩ := raised_keeps h hm hmongoing
  have hun : u = n := inj_on_of_nodup_map (nodup_ids_raised hids) hu hn (huid.trans hid)
  rw [← hun]
  exact ⟨m, hm, huobj, huid, hmongoing⟩

end

end Raise

/-- The queue after an update that disturbs no prefetch in flight. -/
theorem Valid.raised (hs : Valid cfg s) {after : List Node} {it : Node}
    (hq : s.pfqMissingTranslation = before ++ it :: after)
    (h : ∀ n ∈ displaced priority before it, n.dp.ongoingTranslation = false) :
  Valid cfg { s with pfqMissingTranslation := raised priority before it after }
  := by
  have hids := hs.ids
  rw [hq] at hids
  have hobjs : (Queued.raised priority before it after).map obj
      = s.pfqMissingTranslation.map obj := by
    rw [hq]
    exact raised_objs
  constructor
  · constructor
    · intro f hf
      obtain ⟨n, hn, hobj, hid, hongoing⟩ := hs.present f hf
      rw [hq] at hn
      obtain ⟨m, hm, hmobj, hmid, hmongoing⟩ := raised_keeps h hn hongoing
      exact ⟨m, hm, hmobj.trans hobj, hmid.trans hid, hmongoing⟩
    · have hlen := congrArg length hobjs
      rw [length_map, length_map] at hlen
      rw [hlen]
      exact hs.bounded
  · rw [hobjs]
    exact hs.objs
  · exact nodup_ids_raised hids
  · intro n hn
    have hmem : n.obj ∈ s.pfqMissingTranslation.map obj := by
      rw [← hobjs]
      exact mem_map_of_mem hn
    obtain ⟨m, hm, hobj⟩ := mem_map.mp hmem
    rw [← hobj]
    exact hs.freshObj m hm
  · intro n hn
    obtain ⟨m, hm, hid⟩ := exists_of_mem_raised DeferredPacket.id hn rfl
    rw [← hid]
    exact hs.freshId m (hq ▸ hm)
  · exact hs.flights
  · intro n hn hongoing
    obtain ⟨m, hm, hobj, hid, hmongoing⟩ := exists_inFlight_of_mem_raised hids h hn hongoing
    rw [hobj, hid]
    exact hs.started m (hq ▸ hm) hmongoing
  · intro n hn
    obtain ⟨m, hm, hrequest⟩ := exists_of_mem_raised DeferredPacket.translationRequest hn rfl
    rw [← hrequest]
    exact hs.requests m (hq ▸ hm)
  · exact hs.packets

/-- The prefetches in flight stay in their objects exactly if none is swapped. -/
theorem Valid.raisePriority (hs : Valid cfg s) (hq : s.pfqMissingTranslation = before ++ rest) :
  Exactly cfg (.ok { s with pfqMissingTranslation := raisePriority priority before rest })
    (Unswapped priority before rest)
  := by
  cases rest with
  | nil =>
    rw [Queued.raisePriority]
    rw [append_nil] at hq
    rw [← hq]
    exact .of_valid (safely_ok hs)
  | cons it after =>
    by_cases hlt : it.dp.priority < priority
    · rw [raisePriority_of_lt hlt]
      constructor
      · intro hsafe _ n hn
        have hobjs := hs.objs
        have hids := hs.ids
        rw [hq] at hobjs hids
        obtain ⟨hmem, m, hm, hid, hobj⟩ := raised_displaces hobjs hn
        rw [← hq] at hmem
        by_contra hongoing
        rw [Bool.not_eq_false] at hongoing
        obtain ⟨u, hu, huobj, huid, -⟩ :=
          (hsafe.returns _ rfl).present ⟨n.obj, n.dp.id⟩ (hs.started n hmem hongoing)
        have hmu : m = u :=
          inj_on_of_nodup_map (nodup_ids_raised hids) hm hu (hid.trans huid.symm)
        rw [hmu] at hobj
        exact hobj huobj
      · intro h
        exact safely_ok (hs.raised hq (h hlt))
    · rw [raisePriority_of_not_lt hlt, ← hq]
      exact ⟨fun _ h => absurd h hlt, fun _ => safely_ok hs⟩

/-! ### Insertions -/

/-- A prefetch was added to the queue. -/
def withWaiting (queue : List Node) (s : State) : State :=
  { s with
    pfqMissingTranslation := queue
    nextObj := s.nextObj + 1
    nextId := s.nextId + 1 }

/-- The queue after a prefetch was added to what is left of it. -/
theorem Valid.added (hs : Valid cfg s) {dpp : DeferredPacket}
    (hrest : rest.Sublist s.pfqMissingTranslation)
    (hongoing : ∀ n ∈ s.pfqMissingTranslation, n.dp.ongoingTranslation = true → n ∈ rest)
    (hperm : queue.Perm (⟨s.nextObj, dpp⟩ :: rest)) (hid : dpp.id = s.nextId)
    (hidle : dpp.ongoingTranslation = false) (hrequest : dpp.translationRequest.isSome = true)
    (hbounded : rest.length + 1 ≤ cfg.missingTranslationQueueSize) :
  Valid cfg (withWaiting queue s)
  := by
  have hall {P : Node → Prop} (hnew : P ⟨s.nextObj, dpp⟩)
      (hold : ∀ n ∈ s.pfqMissingTranslation, P n) : ∀ n ∈ queue, P n := by
    intro n hn
    rcases mem_cons.mp (hperm.mem_iff.mp hn) with rfl | h
    · exact hnew
    · exact hold n (hrest.subset h)
  unfold withWaiting
  constructor
  · constructor
    · intro f hf
      obtain ⟨n, hn, hobj, hid, hstarted⟩ := hs.present f hf
      refine ⟨n, hperm.mem_iff.mpr ?_, hobj, hid, hstarted⟩
      exact mem_cons_of_mem _ (hongoing n hn hstarted)
    · rw [hperm.length_eq]
      exact hbounded
  · rw [(hperm.map _).nodup_iff, map_cons, nodup_cons]
    refine ⟨?_, hs.objs.sublist (hrest.map _)⟩
    intro h
    obtain ⟨n, hn, hobj⟩ := mem_map.mp h
    have hlt := hs.freshObj n (hrest.subset hn)
    rw [hobj] at hlt
    exact Nat.lt_irrefl _ hlt
  · rw [(hperm.map _).nodup_iff, map_cons, nodup_cons]
    refine ⟨?_, hs.ids.sublist (hrest.map _)⟩
    intro h
    obtain ⟨n, hn, hnid⟩ := mem_map.mp h
    have hlt := hs.freshId n (hrest.subset hn)
    rw [hnid, hid] at hlt
    exact Nat.lt_irrefl _ hlt
  · exact hall (Nat.lt_succ_self _) fun n h => Nat.lt_succ_of_lt (hs.freshObj n h)
  · exact hall (hid ▸ Nat.lt_succ_self _) fun n h => Nat.lt_succ_of_lt (hs.freshId n h)
  · exact hs.flights
  · exact hall (fun h => absurd h (Bool.eq_false_iff.mp hidle)) hs.started
  · exact hall hrequest hs.requests
  · exact hs.packets

/-- A new prefetch that waits for its translation. -/
def waiting (pfi : PrefetchInfo) (priority : ℤ) (vaddr : Addr) (s : State) : DeferredPacket :=
  ⟨s.nextId, pfi, 0, none, priority, some vaddr, false⟩

/-- A prefetch that waits for its translation is added without disturbing others exactly if there is
room. -/
theorem Valid.addWaiting (hs : Valid cfg s)
    (hok : addToQueue cfg s.nextObj (waiting pfi priority vaddr s) s.pfqMissingTranslation
      = .ok queue) :
  Exactly cfg (.ok (withWaiting queue s)) (Room cfg s.pfqMissingTranslation)
  := by
  obtain ⟨rest, hrest, hperm⟩ := (addToQueue_safely _ _ _).returns queue hok
  unfold Room
  rcases hrest with ⟨hnot, rfl⟩ | ⟨hfull, i, hi, rfl⟩
  · rw [if_neg hnot]
    constructor
    · intro hsafe
      have hlen := (hsafe.returns _ rfl).bounded
      rw [withWaiting, hperm.length_eq] at hlen
      exact hlen
    · intro h
      exact safely_ok (hs.added (List.Sublist.refl _) (fun n hn _ => hn) hperm rfl rfl rfl h)
  · rw [if_pos hfull]
    have hlt := victim_lt hi
    have hleft := getElem_cons_eraseIdx_perm hlt
    constructor
    · intro hsafe j n hj hn
      cases hi.symm.trans hj
      rw [getElem?_eq_getElem hlt, Option.some.injEq] at hn
      by_contra hongoing
      rw [Bool.not_eq_false] at hongoing
      have hmem := hn ▸ getElem_mem hlt
      obtain ⟨u, hu, huobj, -, -⟩ :=
        (hsafe.returns _ rfl).present ⟨n.obj, n.dp.id⟩ (hs.started n hmem hongoing)
      rcases mem_cons.mp (hperm.mem_iff.mp hu) with rfl | hu
      · have hlt' := hs.freshObj n hmem
        have hobj : s.nextObj = n.obj := huobj
        rw [hobj] at hlt'
        exact Nat.lt_irrefl _ hlt'
      · rw [hn] at hleft
        apply (nodup_cons.mp (hleft.nodup_iff.mpr hs.objs.of_map)).1
        rw [← hs.eq_of_obj (mem_of_mem_eraseIdx hu) hmem huobj]
        exact hu
    · intro h
      have hidle := h i _ hi (getElem?_eq_getElem hlt)
      apply safely_ok
      apply hs.added (eraseIdx_sublist _ _) _ hperm rfl rfl rfl
      · exact hleft.length_eq.trans_le hs.bounded
      · intro n hn hongoing
        apply (mem_cons.mp (hleft.mem_iff.mpr hn)).resolve_left
        rintro rfl
        rw [hongoing] at hidle
        cases hidle

/-- The destination of a prefetch is found. -/
theorem destination_eq (haccess : cfg.useVirtualAddresses = true → access.vaddr.isSome = true)
    (pfi : PrefetchInfo) :
  ∃ d, destination cfg access pfi = .ok d
  := by
  have htrained : ∃ orig, trainedAddr cfg access = .ok orig := by
    unfold trainedAddr
    split_ifs with hvirtual
    · obtain ⟨vaddr, hvaddr⟩ := Option.isSome_iff_exists.mp (haccess hvirtual)
      rw [hvaddr]
      exact ⟨vaddr, rfl⟩
    · exact ⟨_, rfl⟩
  obtain ⟨orig, horig⟩ := htrained
  unfold destination
  rw [horig, ok_bind]
  split_ifs
  · exact ⟨_, rfl⟩
  · exact ⟨_, rfl⟩
  · exact ⟨_, rfl⟩
  · exact ⟨_, rfl⟩
  · split
    · exact ⟨_, rfl⟩
    · exact ⟨_, rfl⟩

section

variable (hs : Valid cfg s)

include hs

theorem Valid.enqueuePhysical {paddr : Addr} :
  Safely (enqueue cfg pfi priority inCache curTick s (.physical paddr)) (Valid cfg)
  := by
  rw [enqueue]
  split_ifs
  · exact safely_ok hs
  · apply (addToQueue_mem _ _ _).bind
    intro pfq _ hmem
    apply safely_ok
    apply hs.withPfq (Nat.le_succ _) (Nat.le_succ _)
    intro n hn
    rcases hmem n hn with rfl | h
    · rfl
    · exact hs.packets n h

theorem Valid.enqueueWaiting :
  Exactly cfg (enqueue cfg pfi priority inCache curTick s (.translate vaddr))
    (Room cfg s.pfqMissingTranslation)
  := by
  change Exactly cfg (addToQueue cfg s.nextObj (waiting pfi priority vaddr s)
    s.pfqMissingTranslation >>= fun queue => .ok (withWaiting queue s)) _
  constructor
  · intro hsafe
    cases hok : addToQueue cfg s.nextObj (waiting pfi priority vaddr s) s.pfqMissingTranslation with
    | ok queue =>
      rw [hok, ok_bind] at hsafe
      exact (hs.addWaiting hok).of_intact hsafe
    | error e =>
      unfold Room
      unfold addToQueue makeRoom at hok
      split_ifs at hok ⊢
      · intro i n hi
        rw [hi] at hok
        cases hok
      · cases hok
  · intro hroom
    apply (addToQueue_safely _ _ _).bind
    intro queue hok _
    exact (hs.addWaiting hok).valid hroom

theorem Valid.insertNew (haccess : cfg.useVirtualAddresses = true → access.vaddr.isSome = true) :
  Exactly cfg (insertNew cfg access pfi priority inCache curTick s) (NewRoom cfg access pfi s)
  := by
  obtain ⟨d, hd⟩ := destination_eq haccess pfi
  unfold Queued.insertNew NewRoom
  rw [hd, ok_bind]
  cases d with
  | dropped => exact .of_valid (safely_ok hs)
  | physical paddr => exact .of_valid hs.enqueuePhysical
  | translate vaddr => exact hs.enqueueWaiting

/-- An update of a priority in the other queue. -/
theorem Valid.raisePfq (priority : ℤ) (k : ℕ) :
  Valid cfg { s with pfq := Queued.raisePriority priority (s.pfq.take k) (s.pfq.drop k) }
  := by
  apply hs.withPfq (Nat.le_refl _) (Nat.le_refl _)
  have hq := take_append_drop k s.pfq
  have hpackets : ∀ n ∈ s.pfq.take k ++ s.pfq.drop k, n.dp.pkt.isSome = true := by
    rw [hq]
    exact hs.packets
  generalize s.pfq.take k = before at hpackets ⊢
  generalize s.pfq.drop k = rest at hpackets ⊢
  cases rest with
  | nil =>
    rw [append_nil] at hpackets
    exact hpackets
  | cons it after =>
    by_cases hlt : it.dp.priority < priority
    · rw [raisePriority_of_lt hlt]
      intro n hn
      obtain ⟨m, hm, hpkt⟩ := exists_of_mem_raised DeferredPacket.pkt hn rfl
      rw [← hpkt]
      exact hpackets m hm
    · rw [raisePriority_of_not_lt hlt]
      exact hpackets

/-- An insertion keeps the prefetches in flight where they are, and the queue within its bound,
exactly if it disturbs none of them. -/
theorem Valid.insert (haccess : cfg.useVirtualAddresses = true → access.vaddr.isSome = true) :
  Exactly cfg (insert cfg access pfi priority inCache curTick s)
    (InsertUndisturbed cfg access pfi priority s)
  := by
  unfold Queued.insert InsertUndisturbed
  split_ifs with hfilter
  · cases hpfq : position pfi s.pfq with
    | some i =>
      rw [alreadyInQueue, ← position, hpfq]
      exact .of_valid (safely_ok (hs.raisePfq priority (i + 1)))
    | none =>
      rw [alreadyInQueue, ← position, hpfq]
      cases hmissing : position pfi s.pfqMissingTranslation with
      | some i =>
        rw [alreadyInQueue, ← position, hmissing]
        exact hs.raisePriority (take_append_drop (i + 1) s.pfqMissingTranslation).symm
      | none =>
        rw [alreadyInQueue, ← position, hmissing]
        exact hs.insertNew haccess
  · exact hs.insertNew haccess

end

/-! ### Runs -/

/-- A call keeps the prefetches in flight where they are, and the queue within its bound, exactly if
it disturbs none of them. -/
theorem Valid.call {c : Call} (hs : Valid cfg s) (hc : Made cfg c s) :
  Exactly cfg (call cfg c s) (Undisturbed cfg c s)
  := by
  cases c with
  | squash addr isSecure =>
    apply Exactly.of_valid
    apply safely_ok
    unfold squash
    split_ifs
    · apply hs.withPfq (Nat.le_refl _) (Nat.le_refl _)
      intro n hn
      exact hs.packets n (mem_of_mem_filter hn)
    · exact hs
  | insert access pfi priority inCache curTick => exact hs.insert hc
  | getPacket now curTick =>
    apply Exactly.of_valid
    rw [Queued.call, map_eq_pure_bind]
    apply (hs.getPacket now curTick).bind
    intro out _ hout
    exact safely_ok hout
  | processMissingTranslations max now curTick =>
    exact .of_valid (hs.processMissingTranslations max now curTick)
  | complete obj answer curTick =>
    obtain ⟨f, hf, rfl⟩ := hc
    exact .of_valid ((hs.finish hf).mono fun t ht => ht.1)

/-- In every run no assertion fails, every prefetch in flight stays in the queue in the object that
is called back, and the queue stays within its bound, exactly if no call disturbs a prefetch in
flight. -/
theorem pending_translations_iff (cfg : Config) (calls : List Call)
    (hcalls : Lib.Meets (call cfg) (Made cfg) calls {}) :
  Lib.Meets (call cfg) (fun c s => Safely (call cfg c s) (Intact cfg)) calls {}
    ↔ Lib.Meets (call cfg) (Undisturbed cfg) calls {}
  := by
  apply Lib.meets_iff_meets (Q := Valid cfg) _ _ Valid.empty hcalls
  · intro s c hs hc
    have hcall := hs.call hc
    exact ⟨hcall.of_intact, fun hP => (hcall.valid hP).mono fun _ ht => ht.toIntact⟩
  · intro s c t hs hc hsafe hok
    exact ((hs.call hc).valid ((hs.call hc).of_intact hsafe)).returns t hok

/-- A small prefetcher that is trained with virtual addresses. -/
def sampleConfig : Config where
  queueSize := 2
  missingTranslationQueueSize := 2
  latency := 1
  queueSquash := true
  queueFilter := true
  cacheSnoop := false
  useVirtualAddresses := true
  blkSize := 64
  pageBytes := 4096

/-- A prefetch for another page. -/
def crossing (addr : Addr) : Call :=
  .insert ⟨0, some 0, true⟩ ⟨addr, false⟩ 0 (fun _ _ => false) 0

/-- Two translations are started. A third prefetch drops the first one from the full queue, and then
the first translation is completed. -/
theorem addToQueue_drops_inFlight :
  ∃ s, Lib.exec (call sampleConfig)
      [crossing 4096, crossing 8192, .getPacket (fun _ => none) 1, crossing 12288] {} = .ok s
    ∧ (⟨0, 0⟩ : InFlight) ∈ s.inFlight
    ∧ call sampleConfig (.complete 0 ⟨some 4096, false⟩ 2) s = .error .assertion
  := ⟨_, rfl, by decide, rfl⟩

/-- The third prefetch comes after the first translation is complete. -/
theorem pending_translations_iff_complete :
  Lib.Meets (call sampleConfig)
    (fun c s => Safely (call sampleConfig c s) (Intact sampleConfig))
    [crossing 4096, crossing 8192, .getPacket (fun _ => none) 1, .complete 0 ⟨some 4096, false⟩ 2,
      crossing 12288] {}
  := by
  apply (pending_translations_iff sampleConfig _ ?_).mpr
  · exact .of_cons (Nat.zero_lt_two : 0 < 2) rfl (.of_cons (Nat.one_lt_two : 1 < 2) rfl
      (.of_cons trivial rfl (.of_cons trivial rfl
        ⟨(Nat.one_lt_two : 1 < 2), fun _ _ => trivial⟩)))
  · exact .of_cons (fun _ => rfl) rfl (.of_cons (fun _ => rfl) rfl (.of_cons trivial rfl
      (.of_cons ⟨⟨0, 0⟩, by decide, rfl⟩ rfl ⟨fun _ => rfl, fun _ _ => trivial⟩)))

end Gem5Arc.Queued
