import Gem5Arc.MIExample.Phase

/-!
# The invariant of the protocol

Every cache is in a phase, every DMA controller is at some point of its transaction, and the
directory waits for memory in the states that it should. The invariant is split in these three
parts. Each step of the protocol changes one cache (or two), one DMA controller, and the directory,
so that there is a rule for each part that leaves the other caches and controllers alone.
-/

namespace Gem5Arc.MIExample

open Function Home List State

variable {C D V W : Type} {v : V} {d : D} {n : Node C V} {p : Port V W}

/-! ### Caches -/

/-- A cache has the only valid copy of the line. -/
def Home.Lent : Home C D W → Prop
  | .M _ => True
  | .M_DRD _ _ => True
  | .M_DWR _ _ _ => True
  | _ => False

theorem Home.Refuses.role_ne [DecidableEq C] {home : Home C D W} {c : C} (h : home.Refuses c) :
  home.role c ≠ .owner ∧ home.role c ≠ .recalled
  := by
  cases home with
  | M o | M_DRD _ o | M_DWR _ o _ =>
    simp only [Home.Refuses] at h
    simp [role, h]
  | IM o | MI o | M_DRDI o | M_DWRI _ o =>
    rw [role]
    split_ifs
    · simp
    · simp
  | I | ID _ | ID_W _ => simp [role]

structure CachesOk [DecidableEq C] (s : State C D V W) : Prop where
  phase (c : C) : Phase (s.home.role c) (s.holder = some c) (s.node c)
  source (q x : C) : .getx x ∈ (s.node q).fwd ↔ (s.node x).source = some q
  holder : s.holder.isSome ↔ s.home.Lent
  reclaim (c : C) : .inv ∈ (s.node c).fwd → Nonempty D

namespace CachesOk

variable [DecidableEq C] {s t : State C D V W}

section

variable (h : CachesOk s)

include h

variable {c : C}

theorem lent (hholds : s.holder = some c) :
  s.home.Lent
  := by
  rw [← h.holder, hholds]
  rfl

/-- The rule for a step that changes one cache. -/
theorem update (hnode : t.node = update s.node c n) (hrole : ∀ q ≠ c, t.home.role q = s.home.role q)
    (hother : ∀ q ≠ c, t.holder = some q ↔ s.holder = some q)
    (hphase : Phase (t.home.role c) (t.holder = some c) n)
    (hgetx : ∀ x, .getx x ∈ n.fwd ↔ .getx x ∈ (s.node c).fwd)
    (hsource : n.source = (s.node c).source) (hholder : t.holder.isSome ↔ t.home.Lent)
    (hinv : .inv ∈ n.fwd → Nonempty D) :
  CachesOk t
  := by
  have hfwd (q x : C) : .getx x ∈ (t.node q).fwd ↔ .getx x ∈ (s.node q).fwd := by
    rw [hnode]
    by_cases hq : q = c
    · rw [hq, update_self]
      apply hgetx
    · rw [update_of_ne hq]
  have hsrc (x : C) : (t.node x).source = (s.node x).source := by
    rw [hnode]
    by_cases hx : x = c
    · rw [hx, update_self]
      apply hsource
    · rw [update_of_ne hx]
  constructor
  · intro q
    rw [hnode]
    by_cases hq : q = c
    · rw [hq, update_self]
      apply hphase
    · rw [update_of_ne hq]
      apply (h.phase q).congr (hrole q hq) (hother q hq)
  · intro q x
    rw [hfwd, hsrc]
    apply h.source
  · apply hholder
  · intro q
    rw [hnode]
    by_cases hq : q = c
    · rw [hq, update_self]
      apply hinv
    · rw [update_of_ne hq]
      apply h.reclaim

/-- The rule for a step that changes no cache. -/
theorem keep (hnode : t.node = s.node) (hholder : t.holder = s.holder)
    (hrole : ∀ c, t.home.role c = s.home.role c) (hlent : t.home.Lent ↔ s.home.Lent) :
  CachesOk t
  := by
  constructor
  · intro c
    rw [hnode, hholder, hrole]
    apply h.phase
  · rw [hnode]
    apply h.source
  · rw [hholder, hlent]
    apply h.holder
  · rw [hnode]
    apply h.reclaim

/-- A cache makes a step of its own. -/
theorem cache {ordered : Bool} {told : List (Event C D V W)} (hordered : ordered = true ∨ IsEmpty D)
    (hn : (s.node c).Step ordered c n none told) :
  CachesOk { s.setNode c n with history := s.history ++ told }
  := by
  refine h.update rfl (fun _ _ => rfl) (fun _ _ => Iff.rfl) ?_ ?_ ?_ ?_ ?_
  · apply (h.phase c).step hn
    apply hordered.imp_right
    intro hempty hinv
    obtain ⟨d⟩ := h.reclaim c hinv
    apply hempty.false d
  · apply hn.getx_mem_iff
  · apply hn.source_eq
  · apply h.holder
  · intro hinv
    apply h.reclaim c (hn.fwd_subset hinv)

/-- The directory fetches the line for a cache. -/
theorem fetch (hhome : s.home = .I) (hreq : (s.node c).req = some .getx) :
  CachesOk ((s.take c).turn (.IM c) .reading [])
  := by
  obtain ⟨line, hn, hwaits, -, hholds⟩ := (h.phase c).of_getx hreq
  apply h.update rfl
  · intro q hq
    simp [State.turn, role, hhome, hq.symm]
  · intro q _
    rfl
  · rw [hn]
    apply Phase.fetching hwaits _ hholds
    simp [State.turn, role]
  · intro x
    rfl
  · rfl
  · have hholder := h.holder
    rw [hhome] at hholder
    apply hholder
  · apply h.reclaim

/-- The directory sends the line that it has fetched for a cache. -/
theorem fetched (hhome : s.home = .IM c) :
  CachesOk ((s.send c v).turn (.M c) .idle [])
  := by
  have hphase := h.phase c
  rw [hhome, role, if_pos rfl] at hphase
  obtain ⟨line, hn, hwaits, -⟩ := hphase.of_fetching
  have hnone : s.holder = none := by
    have hholder := h.holder
    rw [hhome] at hholder
    simpa [Home.Lent] using hholder
  apply h.update (c := c) rfl
  · intro q hq
    simp [State.turn, role, hhome, hq.symm]
  · intro q hq
    simp [State.turn, State.send, hnone, hq.symm]
  · rw [hn]
    refine Phase.coming v hwaits ?_ rfl
    simp only [State.turn, role, if_true]
    exact .owner
  · intro x
    rfl
  · rw [hn]
  · simp [State.turn, State.send, Home.Lent]
  · apply h.reclaim

/-- The directory refuses the block of a cache that does not own the line any more. -/
theorem refuse (hrefuses : s.home.Refuses c) (hreq : (s.node c).req = some (.putx v)) :
  CachesOk ((s.take c).forward c .nack)
  := by
  have hrole := hrefuses.role_ne
  apply h.update (c := c) (n := { s.node c with req := none, fwd := (s.node c).fwd ++ [.nack] })
  · simp [State.forward, State.take, State.setNode]
  · intro q _
    rfl
  · intro q _
    rfl
  · change Phase (s.home.role c) (s.holder = some c) _
    obtain ⟨fwd, hn, hside, hholds⟩ | ⟨hn, hnone, hholds⟩ := (h.phase c).of_putx hreq
    · rw [hn]
      generalize s.home.role c = role at hrole hside
      cases hside with
      | passed x => exact .nacked v x rfl hholds
      | owner | recalled | answered => simp at hrole
    · rw [hn]
      exact .lostNacked hnone hholds
  · intro x
    simp
  · rfl
  · apply h.holder
  · intro hinv
    apply h.reclaim c
    simpa using hinv

/-- The directory accepts the block that a cache writes back. -/
theorem accept (hreq : (s.node c).req = some (.putx v)) (hs : s.home.role c ≠ .none)
    (ht : t.home.role c = .writing) (hrole : ∀ q ≠ c, t.home.role q = s.home.role q)
    (hnode : t.node = Function.update s.node c { s.node c with req := none })
    (hholder : t.holder = none) (hlent : ¬ t.home.Lent) :
  CachesOk t
  := by
  obtain ⟨fwd, hn, hside, hholds⟩ | ⟨-, hnone, -⟩ := (h.phase c).of_putx hreq
  · apply h.update hnode hrole
    · intro q hq
      rw [hholder, hholds]
      simp [hq.symm]
    · rw [ht, hholder, hn]
      apply Phase.accepted v _ rfl nofun
      generalize s.home.role c = role at hs hside
      cases hside with
      | owner => exact .inl rfl
      | passed x => contradiction
      | recalled => exact .inr rfl
      | answered => exact .inl rfl
    · intro x
      rfl
    · rfl
    · rw [hholder]
      simp [hlent]
    · apply h.reclaim
  · contradiction

/-- The directory acknowledges that memory has the block. -/
theorem acknowledge (hs : s.home.role c = .writing) (ht : t.home.role c = .none)
    (hrole : ∀ q ≠ c, t.home.role q = s.home.role q)
    (hnode : t.node = Function.update s.node c { s.node c with fwd := (s.node c).fwd ++ [.ack] })
    (hholder : t.holder = s.holder) (hlent : t.home.Lent ↔ s.home.Lent) :
  CachesOk t
  := by
  have hphase := h.phase c
  rw [hs] at hphase
  obtain ⟨v, fwd, hn, hfwd, hholds⟩ := hphase.of_writing
  apply h.update hnode hrole
  · intro q _
    rw [hholder]
  · rw [ht, hholder, hn]
    apply Phase.acked v _ rfl hholds
    rcases hfwd with rfl | rfl
    · exact .inl rfl
    · exact .inr rfl
  · intro x
    simp
  · rfl
  · rw [hholder, hlent]
    apply h.holder
  · intro hinv
    apply h.reclaim c
    simpa using hinv

/-- The directory recalls the line from its owner. -/
theorem recallOwner (hempty : Nonempty D) (hs : s.home.role c = .owner)
    (ht : t.home.role c = .recalled) (hrole : ∀ q ≠ c, t.home.role q = s.home.role q)
    (hnode : t.node = Function.update s.node c { s.node c with fwd := (s.node c).fwd ++ [.inv] })
    (hholder : t.holder = s.holder) (hlent : t.home.Lent ↔ s.home.Lent) :
  CachesOk t
  := by
  have hphase := h.phase c
  rw [hs] at hphase
  obtain ⟨hfwd, hphase⟩ := hphase.of_owner .recalled
  apply h.update hnode hrole
  · intro q _
    rw [hholder]
  · rw [ht, hholder, hfwd]
    apply hphase
  · intro x
    simp
  · rfl
  · rw [hholder, hlent]
    apply h.holder
  · intro _
    apply hempty

end

/-- A cache sends the block to another one. -/
theorem supply {ordered : Bool} {c x : C} {told : List (Event C D V W)} (h : CachesOk s)
    (hn : (s.node c).Step ordered c n (some (x, v)) told) :
  CachesOk ((s.setNode c n).send x v)
  := by
  obtain ⟨hholds, -, hsource, hgetx, hgetx', hphase⟩ := (h.phase c).supply hn
  have hx : (s.node x).source = some c := by
    rw [← h.source, hgetx]
  have hne : x ≠ c := by
    rintro rfl
    rw [hsource] at hx
    cases hx
  have hnode_x : ((s.setNode c n).send x v).node x
      = { s.node x with data := some v, source := none } := by
    simp [send, setNode, hne]
  have hnode_c : ((s.setNode c n).send x v).node c = n := by
    simp [send, setNode, hne.symm]
  have hnode (q : C) (hqx : q ≠ x) (hqc : q ≠ c) :
      ((s.setNode c n).send x v).node q = s.node q := by
    simp [send, setNode, hqx, hqc]
  constructor
  · intro q
    change Phase (s.home.role q) (some x = some q) _
    by_cases hqx : q = x
    · rw [hqx, hnode_x]
      obtain ⟨line, fwd, hn, hwaits, hside, -⟩ := (h.phase x).of_source hx
      rw [hn]
      exact .coming v hwaits hside rfl
    · by_cases hqc : q = c
      · rw [hqc, hnode_c]
        apply hphase.congr rfl
        simp [hne]
      · rw [hnode q hqx hqc]
        apply (h.phase q).congr rfl
        rw [hholds]
        simp [Ne.symm hqx, Ne.symm hqc]
  · intro q y
    have hfwd : .getx y ∈ (((s.setNode c n).send x v).node q).fwd
        ↔ .getx y ∈ (s.node q).fwd ∧ ¬ (q = c ∧ y = x) := by
      by_cases hqc : q = c
      · rw [hqc, hnode_c, hgetx]
        simp [hgetx' y]
      · by_cases hqx : q = x
        · rw [hqx, hnode_x]
          simp [hne]
        · rw [hnode q hqx hqc]
          simp [hqc]
    rw [hfwd, h.source]
    by_cases hyx : y = x
    · rw [hyx, hnode_x, hx]
      simp [eq_comm]
    · by_cases hyc : y = c
      · rw [hyc, hnode_c, hn.source_eq]
        simp [hne.symm]
      · rw [hnode y hyx hyc]
        simp [hyx]
  · change (some x).isSome ↔ s.home.Lent
    rw [← h.holder, hholds]
    rfl
  · intro q hinv
    by_cases hqx : q = x
    · rw [hqx, hnode_x] at hinv
      apply h.reclaim x hinv
    · by_cases hqc : q = c
      · rw [hqc, hnode_c] at hinv
        apply h.reclaim c (hn.fwd_subset hinv)
      · rw [hnode q hqx hqc] at hinv
        apply h.reclaim q hinv

/-- The directory tells the owner of the line to pass it on. -/
theorem pass {c o : C} (h : CachesOk s) (hhome : s.home = .M o)
    (hreq : (s.node c).req = some .getx) :
  CachesOk (((s.setNode c { s.node c with req := none, source := some o }).forward o
    (.getx c)).turn (.M c) s.channel [])
  := by
  obtain ⟨line, hn, hwaits, hrole, hholds⟩ := (h.phase c).of_getx hreq
  have hne : o ≠ c := by
    rintro rfl
    simp [hhome, role] at hrole
  have hphase := h.phase o
  rw [hhome, role, if_pos rfl] at hphase
  obtain ⟨hfwd, hphase⟩ := hphase.of_owner (.passed c)
  generalize ht : ((s.setNode c { s.node c with req := none, source := some o }).forward o
    (.getx c)).turn (.M c) s.channel [] = t
  have hnode_o : t.node o = { s.node o with fwd := [.getx c] } := by
    simp [← ht, turn, forward, setNode, hne, hfwd]
  have hnode_c : t.node c = { line := line, source := some o } := by
    simp [← ht, turn, forward, setNode, hne.symm, hn]
  have hnode (q : C) (hqo : q ≠ o) (hqc : q ≠ c) : t.node q = s.node q := by
    simp [← ht, turn, forward, setNode, hqo, hqc]
  have hhome' : t.home = .M c := by
    rw [← ht, turn]
  have hholder : t.holder = s.holder := by
    rw [← ht]
    rfl
  constructor
  · intro q
    rw [hhome', hholder]
    by_cases hqo : q = o
    · rw [hqo, hnode_o]
      apply hphase.congr _ Iff.rfl
      simp [role, hne.symm]
    · by_cases hqc : q = c
      · rw [hqc, hnode_c]
        refine Phase.awaiting o hwaits ?_ hholds
        simp only [role, if_true]
        exact .owner
      · rw [hnode q hqo hqc]
        apply (h.phase q).congr _ Iff.rfl
        simp [hhome, role, Ne.symm hqo, Ne.symm hqc]
  · intro q x
    have hfwd' : .getx x ∈ (t.node q).fwd ↔ .getx x ∈ (s.node q).fwd ∨ (q = o ∧ x = c) := by
      by_cases hqo : q = o
      · rw [hqo, hnode_o, hfwd]
        simp
      · by_cases hqc : q = c
        · rw [hqc, hnode_c, hn]
          simp [hne.symm]
        · rw [hnode q hqo hqc]
          simp [hqo]
    rw [hfwd', h.source]
    by_cases hxc : x = c
    · rw [hxc, hnode_c, hn]
      simp [eq_comm]
    · by_cases hxo : x = o
      · rw [hxo, hnode_o]
        simp [hne]
      · rw [hnode x hxo hxc]
        simp [hxc]
  · rw [hholder, hhome', h.holder, hhome]
    rfl
  · intro q hinv
    by_cases hqo : q = o
    · rw [hqo, hnode_o] at hinv
      simp at hinv
    · by_cases hqc : q = c
      · rw [hqc, hnode_c] at hinv
        simp at hinv
      · rw [hnode q hqo hqc] at hinv
        apply h.reclaim q hinv

end CachesOk

/-! ### DMA controllers -/

/-- The part that a DMA controller plays for the directory. -/
inductive Part (W : Type) where
  | none
  | reading
  | waiting (w : W)
  | writing

/-- The part of the DMA controller `d`. -/
def Home.part [DecidableEq D] (d : D) : Home C D W → Part W
  | .ID e => if e = d then .reading else .none
  | .M_DRD e _ => if e = d then .reading else .none
  | .M_DWR e _ w => if e = d then .waiting w else .none
  | .ID_W e => if e = d then .writing else .none
  | .M_DWRI e _ => if e = d then .writing else .none
  | _ => .none

/-- How far the DMA write of a controller has come. -/
inductive Stage (W : Type) where
  | idle
  | issued (w : W)
  | performed (w : W)

/-- The event is a step of a DMA write of `d`. -/
def Event.Concerns (d : D) : Event C D V W → Prop
  | .dmaIssue e _ => e = d
  | .dmaWrite m _ => m = .DMA d
  | .dmaAck e => e = d
  | _ => False

/-- The history has the DMA writes of `d` in order: each one is issued, then sent to memory, and
then acknowledged, before the next one is issued. -/
inductive Follows (d : D) : List (Event C D V W) → Stage W → Prop
  | nil : Follows d [] .idle
  | issue {l : List (Event C D V W)} (w : W) : Follows d l .idle →
      Follows d (l ++ [.dmaIssue d w]) (.issued w)
  | write {l : List (Event C D V W)} (w : W) : Follows d l (.issued w) →
      Follows d (l ++ [.dmaWrite (.DMA d) w]) (.performed w)
  | ack {l : List (Event C D V W)} (w : W) : Follows d l (.performed w) →
      Follows d (l ++ [.dmaAck d]) .idle
  | other {l : List (Event C D V W)} {stage : Stage W} (e : Event C D V W) : ¬ e.Concerns d →
      Follows d l stage → Follows d (l ++ [e]) stage

/-- The points of the transaction of a DMA controller that plays a part for the directory. -/
inductive Access (part : Part W) : Stage W → Port V W → Prop
  | ready : part = .none → Access part .idle {}
  | readAsked : part = .none → Access part .idle { device := .reading, req := some .read }
  | reading : part = .reading → Access part .idle { device := .reading }
  | readDone (v : V) : part = .none →
      Access part .idle { device := .reading, resp := some (.data v) }
  | writeAsked (w : W) : part = .none →
      Access part (.issued w) { device := .writing w, req := some (.write w) }
  | waiting (w : W) : part = .waiting w → Access part (.issued w) { device := .writing w }
  | writing (w : W) : part = .writing → Access part (.performed w) { device := .writing w }
  | writeDone (w : W) : part = .none →
      Access part (.performed w) { device := .writing w, resp := some .ack }

namespace Access

variable {part : Part W} {stage : Stage W}

theorem of_reading (h : Access .reading stage p) :
  stage = .idle ∧ p = { device := .reading }
  := by
  cases h with
  | reading => exact ⟨rfl, rfl⟩
  | _ => contradiction

theorem of_waiting {w : W} (h : Access (.waiting w) stage p) :
  stage = .issued w ∧ p = { device := .writing w }
  := by
  cases h with
  | waiting w' hpart =>
    cases hpart
    exact ⟨rfl, rfl⟩
  | _ => contradiction

theorem of_writing (h : Access .writing stage p) :
  ∃ w, stage = .performed w ∧ p = { device := .writing w }
  := by
  cases h with
  | writing w => exact ⟨w, rfl, rfl⟩
  | _ => contradiction

variable (h : Access part stage p)

include h

theorem of_req_read (hreq : p.req = some .read) :
  stage = .idle ∧ p = { device := .reading, req := some .read } ∧ part = .none
  := by
  cases h with
  | readAsked hpart => exact ⟨rfl, rfl, hpart⟩
  | _ => cases hreq

theorem of_req_write {w : W} (hreq : p.req = some (.write w)) :
  stage = .issued w ∧ p = { device := .writing w, req := some (.write w) } ∧ part = .none
  := by
  cases h with
  | writeAsked w' hpart =>
    cases hreq
    exact ⟨rfl, rfl, hpart⟩
  | _ => cases hreq

theorem of_ready (hdevice : p.device = .ready) :
  stage = .idle ∧ p = {} ∧ part = .none
  := by
  cases h with
  | ready hpart => exact ⟨rfl, rfl, hpart⟩
  | _ => cases hdevice

theorem of_resp_data (hresp : p.resp = some (.data v)) :
  stage = .idle ∧ p = { device := .reading, resp := some (.data v) } ∧ part = .none
  := by
  cases h with
  | readDone v' hpart =>
    cases hresp
    exact ⟨rfl, rfl, hpart⟩
  | _ => cases hresp

theorem of_resp_ack (hresp : p.resp = some .ack) :
  ∃ w, stage = .performed w ∧ p = { device := .writing w, resp := some .ack } ∧ part = .none
  := by
  cases h with
  | writeDone w hpart => exact ⟨w, rfl, rfl, hpart⟩
  | _ => cases hresp

end Access

/-- The part of the invariant for the DMA controllers. -/
def PortsOk [DecidableEq D] (s : State C D V W) : Prop :=
  ∀ d, ∃ stage, Follows d s.history stage ∧ Access (s.home.part d) stage (s.port d)

theorem Follows.others {l told : List (Event C D V W)} {stage : Stage W} (h : Follows d l stage)
    (htold : ∀ e ∈ told, ¬ e.Concerns d) :
  Follows d (l ++ told) stage
  := by
  induction told using List.reverseRecOn with
  | nil =>
    rw [append_nil]
    apply h
  | append_singleton told e ih =>
    rw [← append_assoc]
    apply Follows.other e
    · apply htold
      simp
    · apply ih
      intro e he
      apply htold
      simp [he]

namespace PortsOk

variable [DecidableEq D] {s t : State C D V W}

section

variable (h : PortsOk s)

include h

variable {told : List (Event C D V W)}

/-- The rule for a step that changes one DMA controller. -/
theorem update (hport : t.port = update s.port d p) (hhistory : t.history = s.history ++ told)
    (hpart : ∀ e ≠ d, t.home.part e = s.home.part e) (htold : ∀ e ≠ d, ∀ ev ∈ told, ¬ ev.Concerns e)
    (hd : ∀ stage, Follows d s.history stage → Access (s.home.part d) stage (s.port d) →
      ∃ stage', Follows d t.history stage' ∧ Access (t.home.part d) stage' p) :
  PortsOk t
  := by
  intro e
  obtain ⟨stage, hfollows, haccess⟩ := h e
  rw [hport]
  by_cases he : e = d
  · rw [he] at hfollows haccess
    rw [he, update_self]
    apply hd stage hfollows haccess
  · rw [update_of_ne he, hpart e he, hhistory]
    use stage, hfollows.others (htold e he), haccess

/-- The rule for a step that changes no DMA controller. -/
theorem keep (hport : t.port = s.port) (hhistory : t.history = s.history ++ told)
    (hpart : ∀ d, t.home.part d = s.home.part d) (htold : ∀ d, ∀ ev ∈ told, ¬ ev.Concerns d) :
  PortsOk t
  := by
  intro d
  obtain ⟨stage, hfollows, haccess⟩ := h d
  rw [hport, hpart, hhistory]
  use stage, hfollows.others (htold d), haccess

/-- The rule for a step that changes no DMA controller and tells nothing. -/
theorem silent (hport : t.port = s.port) (hhistory : t.history = s.history)
    (hpart : ∀ d, t.home.part d = s.home.part d) :
  PortsOk t
  := by
  apply h.keep hport _ hpart (fun _ => forall_mem_nil _)
  rw [hhistory, append_nil]

/-- The rule for a step that changes one DMA controller and tells nothing. -/
theorem advance (hport : t.port = Function.update s.port d p) (hhistory : t.history = s.history)
    (hpart : ∀ e ≠ d, t.home.part e = s.home.part e)
    (hd : ∀ stage, Access (s.home.part d) stage (s.port d) → Access (t.home.part d) stage p) :
  PortsOk t
  := by
  apply h.update hport (hhistory.trans (append_nil _).symm) hpart (by simp)
  intro stage hfollows haccess
  rw [hhistory]
  exact ⟨stage, hfollows, hd stage haccess⟩

end

end PortsOk

/-! ### The directory -/

/-- What the directory waits for from memory. -/
def Home.Uses : Home C D W → Channel V → Prop
  | .IM _, channel | .ID _, channel => channel = .reading ∨ ∃ v, channel = .read v
  | .MI _, channel | .ID_W _, channel | .M_DRDI _, channel | .M_DWRI _ _, channel =>
    channel = .written ∨ ∃ v, channel = .writing v
  | _, channel => channel = .idle

structure Inv [DecidableEq C] [DecidableEq D] (s : State C D V W) : Prop where
  caches : CachesOk s
  ports : PortsOk s
  channel : s.home.Uses s.channel

/-! ### The steps -/

section Steps

variable [DecidableEq C] [DecidableEq D] {effect : W → V → V} {ordered : Bool}
  {act : Act C D} {s t : State C D V W}

namespace CachesOk

theorem step (h : CachesOk s) (hstep : s.Step effect ordered act t)
    (hordered : ordered = true ∨ IsEmpty D) :
  CachesOk t
  := by
  cases hstep with
  | cache c n told hn => exact h.cache hordered hn
  | supply c n x v told hn => exact h.supply hn
  | fetch c hhome hreq => exact h.fetch hhome hreq
  | pass c o hhome hreq => exact h.pass hhome hreq
  | writeback c v hhome hreq | recalledRead d c v hhome hreq | recalledWrite d c w v hhome hreq =>
    apply h.accept hreq
    · simp [hhome, role]
    · simp [State.turn, role]
    · intro q hq
      simp [State.turn, role, hhome, hq.symm]
    · rfl
    · rfl
    · exact not_false
  | refuse c v hrefuses hreq => exact h.refuse hrefuses hreq
  | fetched c v hhome hchannel => exact h.fetched hhome
  | writtenBack c hhome hchannel | writtenRecalled c hhome hchannel
  | dmaWrittenRecalled d c hhome hchannel =>
    apply h.acknowledge (c := c)
    · simp [hhome, role]
    · rfl
    · intro q hq
      simp [State.turn, role, hhome, hq.symm]
    · rfl
    · rfl
    · rw [hhome]
      rfl
  | dmaRead d v hhome | dmaWritten d hhome | dmaFetch d hhome | dmaStore d w hhome =>
    apply h.keep
    · rfl
    · rfl
    · intro c
      rw [hhome]
      rfl
    · rw [hhome]
      rfl
  | recallForRead d c hhome hreq | recallForWrite d c w hhome hreq =>
    apply h.recallOwner (c := c) ⟨d⟩
    · simp [hhome, role]
    · simp [State.turn, role]
    · intro q hq
      simp [State.turn, role, hhome, hq.symm]
    · rfl
    · rfl
    · rw [hhome]
      rfl
  | readMemory | writeMemory | issueRead | issueWrite | dmaData | dmaAck =>
    exact h.keep rfl rfl (fun _ => rfl) Iff.rfl

end CachesOk

namespace PortsOk

section

variable (h : PortsOk s)

include h

/-- A message of a cache arrives at the directory. -/
theorem request {c : C} (hstep : s.Step effect ordered (.request c) t) :
  PortsOk t
  := by
  cases hstep with
  | refuse => exact h.silent rfl rfl (fun _ => rfl)
  | fetch _ hhome | pass _ o hhome | writeback _ v hhome =>
    refine h.silent rfl (append_nil _) ?_
    intro d
    rw [hhome]
    rfl
  | recalledRead d _ v hhome =>
    apply h.advance rfl (append_nil _)
    · intro e he
      simp [State.turn, part, hhome, he.symm]
    · intro stage haccess
      rw [hhome, part, if_pos rfl] at haccess
      obtain ⟨rfl, hp⟩ := haccess.of_reading
      simp only [State.take, State.setNode, hp]
      exact .readDone v rfl
  | recalledWrite d _ w v hhome =>
    refine h.update (update_eq_self d s.port).symm rfl ?_ ?_ ?_
    · intro e he
      simp [State.turn, part, hhome, he.symm]
    · intro e he
      simp [Event.Concerns, he.symm]
    · intro stage hfollows haccess
      rw [hhome, part, if_pos rfl] at haccess
      obtain ⟨rfl, hp⟩ := haccess.of_waiting
      rw [hp]
      refine ⟨.performed w, hfollows.write w, .writing w ?_⟩
      simp [State.turn, part]

/-- The answer of memory arrives at the directory. -/
theorem memoryResponse (hstep : s.Step effect ordered .memoryResponse t) :
  PortsOk t
  := by
  cases hstep with
  | fetched c v hhome | writtenBack c hhome | writtenRecalled c hhome =>
    refine h.silent rfl (append_nil _) ?_
    intro d
    rw [hhome]
    rfl
  | dmaRead d v hhome =>
    apply h.advance rfl (append_nil _)
    · intro e he
      simp [State.turn, part, hhome, he.symm]
    · intro stage haccess
      rw [hhome, part, if_pos rfl] at haccess
      obtain ⟨rfl, hp⟩ := haccess.of_reading
      rw [hp]
      exact .readDone v rfl
  | dmaWritten d hhome | dmaWrittenRecalled d c hhome =>
    apply h.advance rfl (append_nil _)
    · intro e he
      simp [State.turn, part, hhome, he.symm]
    · intro stage haccess
      rw [hhome, part, if_pos rfl] at haccess
      obtain ⟨w, rfl, hp⟩ := haccess.of_writing
      simp only [State.forward, State.setNode, hp]
      exact .writeDone w rfl

/-- A message of a DMA controller arrives at the directory. -/
theorem dmaRequest (hstep : s.Step effect ordered (.dmaRequest d) t) :
  PortsOk t
  := by
  cases hstep with
  | dmaFetch _ hhome hreq | recallForRead _ c hhome hreq =>
    apply h.advance rfl (append_nil _)
    · intro e he
      simp [State.turn, part, hhome, he.symm]
    · intro stage haccess
      obtain ⟨rfl, hp, -⟩ := haccess.of_req_read hreq
      simp only [State.forward, State.setNode, hp]
      apply Access.reading
      simp [State.turn, part]
  | dmaStore _ w hhome hreq =>
    apply h.update rfl rfl
    · intro e he
      simp [State.turn, part, hhome, he.symm]
    · intro e he
      simp [Event.Concerns, he.symm]
    · intro stage hfollows haccess
      obtain ⟨rfl, hp, -⟩ := haccess.of_req_write hreq
      rw [hp]
      refine ⟨.performed w, hfollows.write w, .writing w ?_⟩
      simp [State.turn, part]
  | recallForWrite _ c w hhome hreq =>
    apply h.advance rfl (append_nil _)
    · intro e he
      simp [State.turn, part, hhome, he.symm]
    · intro stage haccess
      obtain ⟨rfl, hp, -⟩ := haccess.of_req_write hreq
      rw [State.forward, State.setNode, hp]
      apply Access.waiting w
      simp [State.turn, part]

/-- A device starts or ends an access. -/
theorem device (hstep : s.Step effect ordered (.device d) t) :
  PortsOk t
  := by
  cases hstep with
  | issueRead _ hdevice =>
    refine h.advance rfl rfl (fun _ _ => rfl) ?_
    intro stage haccess
    obtain ⟨rfl, hp, hpart⟩ := haccess.of_ready hdevice
    rw [hp]
    exact .readAsked hpart
  | issueWrite _ w hdevice =>
    refine h.update rfl rfl (fun _ _ => rfl) ?_ ?_
    · intro e he
      simp [Event.Concerns, he.symm]
    · intro stage hfollows haccess
      obtain ⟨rfl, hp, hpart⟩ := haccess.of_ready hdevice
      rw [hp]
      exact ⟨.issued w, hfollows.issue w, .writeAsked w hpart⟩
  | dmaData _ v hdevice hresp =>
    refine h.update rfl rfl (fun _ _ => rfl) ?_ ?_
    · simp [Event.Concerns]
    · intro stage hfollows haccess
      obtain ⟨rfl, hp, hpart⟩ := haccess.of_resp_data hresp
      rw [hp]
      exact ⟨.idle, hfollows.other _ not_false, .ready hpart⟩
  | dmaAck _ w hdevice hresp =>
    refine h.update rfl rfl (fun _ _ => rfl) ?_ ?_
    · intro e he
      simp [Event.Concerns, he.symm]
    · intro stage hfollows haccess
      obtain ⟨w', rfl, hp, hpart⟩ := haccess.of_resp_ack hresp
      rw [hp]
      exact ⟨.idle, hfollows.ack w', .ready hpart⟩

theorem step (hstep : s.Step effect ordered act t) :
  PortsOk t
  := by
  cases act with
  | cache c =>
    cases hstep with
    | cache _ n told hn =>
      refine h.keep rfl rfl (fun _ => rfl) ?_
      cases hn with
      | _ => simp [Event.Concerns]
    | supply => exact h.silent rfl rfl (fun _ => rfl)
  | request c => exact h.request hstep
  | memory =>
    cases hstep with
    | readMemory | writeMemory => exact h.silent rfl rfl (fun _ => rfl)
  | memoryResponse => exact h.memoryResponse hstep
  | dmaRequest d => exact h.dmaRequest hstep
  | device d => exact h.device hstep

end

end PortsOk

theorem Inv.channel_step (h : Inv s) (hstep : s.Step effect ordered act t) :
  t.home.Uses t.channel
  := by
  have hchannel := h.channel
  cases hstep with
  | cache | supply | refuse | issueRead | issueWrite | dmaData | dmaAck => exact hchannel
  | fetch | dmaFetch => exact .inl rfl
  | writeback | recalledRead | recalledWrite | dmaStore => exact .inr ⟨_, rfl⟩
  | fetched | writtenBack | dmaRead | dmaWritten | writtenRecalled | dmaWrittenRecalled => rfl
  | pass c o hhome | recallForRead _ o hhome | recallForWrite _ o _ hhome =>
    rw [hhome] at hchannel
    exact hchannel
  | readMemory hreading =>
    rw [hreading] at hchannel
    cases hhome : s.home with
    | IM c => exact .inr ⟨_, rfl⟩
    | ID d => exact .inr ⟨_, rfl⟩
    | _ =>
      rw [hhome] at hchannel
      simp [Home.Uses] at hchannel
  | writeMemory v hwriting =>
    rw [hwriting] at hchannel
    cases hhome : s.home with
    | MI c | ID_W d | M_DRDI c | M_DWRI d c => exact .inl rfl
    | _ =>
      rw [hhome] at hchannel
      simp [Home.Uses] at hchannel

theorem Inv.step (h : Inv s) (hstep : s.Step effect ordered act t)
    (hordered : ordered = true ∨ IsEmpty D) :
  Inv t
  where
  caches := h.caches.step hstep hordered
  ports := h.ports.step hstep
  channel := h.channel_step hstep

/-- The invariant holds at the start. -/
theorem Inv.init (memory : V) :
  Inv ({ memory := memory } : State C D V W)
  := by
  refine ⟨⟨?_, ?_, ?_, ?_⟩, ?_, rfl⟩
  · intro c
    exact .idle rfl nofun
  · simp
  · simp [Home.Lent]
  · simp
  · intro d
    exact ⟨.idle, .nil, .ready rfl⟩

end Steps

end Gem5Arc.MIExample
