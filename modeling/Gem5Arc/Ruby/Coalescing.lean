import Gem5Arc.Lib.Run
import Gem5Arc.Lib.Update
import Gem5Arc.Ruby.Sequencer

/-!
# Coalescing of requests

The invariant of the sequencer, line by line: the packets of a line that have been accepted are
those that have been hit, followed by those that wait in its list, in this order. A request of the
line is in flight exactly if its list is not empty and no callback of the line is running, and it
is the one of the packet at the front. Inside a call of `hitCallback` the packet at the front has
been hit, and is still in the list.

* `coalescing_sound`: along every run of legal steps no assertion fails, and the hit callbacks of a
  line occur in the order of acceptance, once for each packet. Each answer hits the packet at the
  front of its line first. A run takes at most four steps for each hit, and if it can only go on
  with a new packet, then every packet has been hit.
-/

open Function Lib

namespace Gem5Arc.Sequencer

open Control List Option State

/-- There are as many addresses as words of 64 bits. -/
local instance : Fintype Addr :=
  Fintype.ofEquiv (Fin (2 ^ 64)) ⟨BitVec.ofFin, BitVec.toFin, fun _ => rfl, fun _ => rfl⟩

variable {P : Params} {t : State}

/-! ### The types of requests -/

/-- A request is issued with a type that is answered by the callback of its own type. -/
theorem requestTypes_eq (P : Params) (pkt : Packet) :
  ∃ primary secondary, requestTypes P pkt = .ok (primary, secondary)
    ∧ primary.callbackKind = secondary.callbackKind
  := by
  unfold requestTypes
  cases hwrite : pkt.isWrite with
  | true =>
    simp only [if_true]
    split_ifs <;> exact ⟨_, _, rfl, rfl⟩
  | false =>
    have hread : pkt.isRead = true := by
      have haccess := pkt.access
      rwa [hwrite, Bool.or_false] at haccess
    simp only [hread, Bool.false_eq_true, if_false, if_true]
    split_ifs <;> exact ⟨_, _, rfl, rfl⟩

/-- The first request a callback looks at is of the type it answers, so no assertion fails, and the
callback hits it. -/
theorem Call.turn_first (c : Call) {t : RequestType} (hruby : c.rubyRequest = true)
    (ht : t.callbackKind = c.kind) :
  c.turn t = .ok (.hit false)
  := by
  obtain ⟨line, kind, noCoales, rubyRequest⟩ := c
  subst hruby ht
  cases t <;> cases noCoales <;> rfl

/-- A callback that has hit a request goes on hitting, or issues the next one. -/
theorem Call.turn_next (c : Call) (t : RequestType) (hruby : c.rubyRequest = false) :
  c.turn t = .ok .reissue ∨ c.turn t = .ok (.hit false)
  := by
  obtain ⟨line, kind, noCoales, rubyRequest⟩ := c
  subst hruby
  cases kind <;> cases t <;> cases noCoales <;> first | exact .inl rfl | exact .inr rfl

/-! ### The invariant -/

/-- Whether a callback of a line is running. -/
def Control.busy (control : Control) (line : Addr) : Bool :=
  match control with
  | .idle => false
  | .looping c => c.line = line
  | .hitting c => c.line = line

/-- The requests of a line that have not been hit. -/
def State.waiting (s : State) (line : Addr) : List SequencerRequest :=
  match s.control with
  | .hitting c => if c.line = line then (s.list line).tail else s.list line
  | _ => s.list line

/-- The request of the controller for a packet. -/
def SequencerRequest.issued (r : SequencerRequest) : RubyRequest := ⟨r.pkt, r.secondType⟩

/-- The packets of a line, in order. -/
def ofLine (P : Params) (line : Addr) (l : List Packet) : List Packet :=
  l.filter (·.line P = line)

def State.inFlightOf (P : Params) (line : Addr) (s : State) : List RubyRequest :=
  s.inFlight.filter (·.pkt.line P = line)

/-- The list of a line whose front is in flight: none while a callback of the line is running. -/
def State.front (s : State) (line : Addr) : List RubyRequest :=
  if s.control.busy line then [] else ((s.list line).head?.map (·.issued)).toList

/-- What the sequencer promises. -/
structure State.Sound (P : Params) (s : State) : Prop where
  /-- The packets of a line are hit in the order of acceptance, and at most once. -/
  order : ∀ line,
    ofLine P line s.accepted = ofLine P line s.hits ++ (s.waiting line).map (·.pkt)
  /-- At most one request of a line is in flight, and it is the one at the front of its list. -/
  flight : ∀ line, s.inFlightOf P line = s.front line
  /-- Between calls the count is the number of requests in the lists. -/
  count : s.control = .idle → s.outstandingCount = ∑ line, ((s.list line).length : ℤ)
  /-- When every request has been answered, every packet has been hit exactly once. -/
  done : s.control = .idle → s.inFlight = [] →
    ∀ line, ofLine P line s.accepted = ofLine P line s.hits

/-- What a callback that is running knows. -/
def Control.Running (control : Control) (s : State) : Prop :=
  match control with
  | .idle => True
  | .looping c => ∃ l, s.requestTable c.line = some l
      ∧ (c.rubyRequest = true → ∃ r l', l = r :: l' ∧ r.type.callbackKind = c.kind)
  | .hitting c => c.rubyRequest = false ∧ ∃ r l, s.requestTable c.line = some (r :: l)

/-- The packets of a list are of its line and are answered by the callback of their type. -/
def Listed (P : Params) (line : Addr) (r : SequencerRequest) : Prop :=
  r.pkt.line P = line ∧ r.type.callbackKind = r.secondType.callbackKind

structure State.Inv (P : Params) (s : State) : Prop where
  order : ∀ line,
    ofLine P line s.accepted = ofLine P line s.hits ++ (s.waiting line).map (·.pkt)
  flight : ∀ line, s.inFlightOf P line = s.front line
  count : s.outstandingCount + (if s.control matches .hitting _ then 1 else 0)
    = ∑ line, ((s.list line).length : ℤ)
  listed : ∀ line, ∀ r ∈ s.list line, Listed P line r
  running : s.control.Running s

/-- How much a callback still has to do, in addition to its hits. -/
def Control.weight : Control → ℕ
  | .idle => 1
  | .looping c => if c.rubyRequest then 0 else 2
  | .hitting _ => 3

/-- What grows with every step but the arrival of a packet. -/
def State.progress (s : State) : ℤ := 4 * s.hits.length - s.control.weight

variable {s : State}

theorem State.Inv.sound (h : s.Inv P) :
  s.Sound P
  := by
  refine ⟨h.order, h.flight, ?_, ?_⟩
  · intro hidle
    have hcount := h.count
    rw [hidle] at hcount
    simpa using hcount
  · intro hidle hnone line
    have hflight := h.flight line
    rw [inFlightOf, hnone, front, hidle] at hflight
    have hlist : s.list line = [] := by
      cases hl : s.list line with
      | nil => rfl
      | cons r l =>
        rw [hl] at hflight
        cases hflight
    have horder := h.order line
    rw [waiting, hidle, hlist, map_nil, append_nil] at horder
    exact horder

theorem State.Inv.initial :
  State.Inv P {}
  := by
  refine ⟨fun _ => rfl, fun _ => rfl, ?_, ?_, trivial⟩
  · simp [list]
  · intro line r hr
    cases hr

/-! ### Lists of lines -/

variable {line : Addr} {x : Option (List SequencerRequest)}

theorem list_eq {l : List SequencerRequest} (h : s.requestTable line = some l) :
  s.list line = l
  := by
  rw [list, h, getD_some]

section

variable (ht : t.requestTable = update s.requestTable line x)

include ht

theorem list_update (line' : Addr) :
  t.list line' = if line' = line then x.getD [] else s.list line'
  := by
  rw [list, ht, update_apply]
  split_ifs <;> rfl

theorem sum_list_update :
  (∑ l, ((t.list l).length : ℤ)) + (s.list line).length
    = (∑ l, ((s.list l).length : ℤ)) + (x.getD []).length
  := by
  have hsum := sum_update (fun y : Option (List SequencerRequest) => ((y.getD []).length : ℤ))
    s.requestTable line x
  simp only [list, ht]
  exact hsum

end

theorem ofLine_append (line : Addr) (l l' : List Packet) :
  ofLine P line (l ++ l') = ofLine P line l ++ ofLine P line l'
  := filter_append ..

theorem ofLine_single (line : Addr) (pkt : Packet) :
  ofLine P line [pkt] = if pkt.line P = line then [pkt] else []
  := by
  by_cases h : pkt.line P = line
  · simp [ofLine, h]
  · simp [ofLine, h]

/-! ### Requests -/

/-- A packet is accepted: it is put at the end of the list of its line, and issued if the list was
empty. -/
structure Inserted (P : Params) (r : SequencerRequest) (s t : State) : Prop where
  table : t.requestTable
    = Function.update s.requestTable (r.pkt.line P) (some (s.list (r.pkt.line P) ++ [r]))
  control : t.control = s.control
  count : t.outstandingCount = s.outstandingCount + 1
  accepted : t.accepted = s.accepted ++ [r.pkt]
  hits : t.hits = s.hits
  flight : t.inFlight = s.inFlight ++ if s.list (r.pkt.line P) = [] then [r.issued] else []

namespace Inserted

variable {r : SequencerRequest}

section

variable (h : Inserted P r s t)

include h

theorem list (line : Addr) :
  t.list line = if line = r.pkt.line P then s.list line ++ [r] else s.list line
  := by
  rw [list_update h.table]
  split_ifs with hline
  · rw [hline]
    rfl
  · rfl

/-- What is in flight for a line. -/
theorem inFlightOf (line : Addr) :
  t.inFlightOf P line
    = s.inFlightOf P line ++ if r.pkt.line P = line ∧ s.list line = [] then [r.issued] else []
  := by
  rw [State.inFlightOf, h.flight, filter_append, State.inFlightOf]
  congr 1
  by_cases hline : r.pkt.line P = line
  · rw [hline]
    by_cases hnil : s.list line = []
    · simp [hnil, SequencerRequest.issued, hline]
    · simp [hnil]
  · have hother : ¬(r.pkt.line P = line ∧ s.list line = []) := fun h => hline h.1
    split_ifs
    · simp [SequencerRequest.issued, hline]
    · rfl

variable (hcontrol : s.control = .idle ∨ ∃ c, s.control = .hitting c)

include hcontrol

section

variable (hrunning : s.control.Running s)

include hrunning

/-- The packet waits behind the other packets of its line. -/
theorem waiting (line : Addr) :
  t.waiting line = s.waiting line ++ if r.pkt.line P = line then [r] else []
  := by
  have hlist := h.list line
  by_cases hline : r.pkt.line P = line
  · rw [if_pos hline.symm] at hlist
    rw [if_pos hline, State.waiting, State.waiting, h.control]
    rcases hcontrol with hidle | ⟨c, hhit⟩
    · rw [hidle]
      exact hlist
    · rw [hhit] at hrunning ⊢
      obtain ⟨-, r', l, htable⟩ := hrunning
      by_cases hc : c.line = line
      · have hs : s.list line = r' :: l := by
          rw [← hc, list_eq htable]
        simp only [if_pos hc]
        rw [hlist, hs, cons_append, tail_cons, tail_cons]
      · simp only [if_neg hc]
        exact hlist
  · rw [if_neg (Ne.symm hline)] at hlist
    rw [if_neg hline, append_nil, State.waiting, State.waiting, h.control, hlist]

/-- The packet is at the front if the list of its line was empty. -/
theorem front (line : Addr) :
  t.front line
    = s.front line ++ if r.pkt.line P = line ∧ s.list line = [] then [r.issued] else []
  := by
  have hlist := h.list line
  rw [State.front, State.front, h.control, hlist]
  by_cases hline : r.pkt.line P = line
  · rw [if_pos hline.symm]
    cases hs : s.list line with
    | nil =>
      have hbusy : s.control.busy line = false := by
        rcases hcontrol with hidle | ⟨c, hhit⟩
        · rw [hidle]
          rfl
        · rw [hhit] at hrunning ⊢
          obtain ⟨-, r', l, htable⟩ := hrunning
          apply decide_eq_false
          intro hc
          rw [State.list, ← hc, htable] at hs
          cases hs
      simp [hbusy, hline]
    | cons r' l => simp
  · have hother : ¬(r.pkt.line P = line ∧ s.list line = []) := fun h => hline h.1
    rw [if_neg (Ne.symm hline), if_neg hother, append_nil]

theorem running :
  t.control.Running t
  := by
  rw [h.control]
  rcases hcontrol with hidle | ⟨c, hhit⟩
  · rw [hidle]
    trivial
  · rw [hhit] at hrunning ⊢
    obtain ⟨hruby, r', l, htable⟩ := hrunning
    refine ⟨hruby, ?_⟩
    rw [h.table]
    by_cases hline : c.line = r.pkt.line P
    · rw [hline] at htable ⊢
      rw [update_self, State.list, htable]
      exact ⟨r', l ++ [r], rfl⟩
    · rw [update_of_ne hline]
      exact ⟨r', l, htable⟩

end

/-- Accepting a packet keeps the invariant. -/
theorem inv (hs : s.Inv P) (hkind : r.type.callbackKind = r.secondType.callbackKind) :
  t.Inv P
  := by
  refine ⟨?_, ?_, ?_, ?_, h.running hcontrol hs.running⟩
  · intro line
    rw [h.accepted, h.hits, h.waiting hcontrol hs.running line, ofLine_append, hs.order line,
      ofLine_single, map_append, append_assoc]
    congr 2
    split_ifs <;> rfl
  · intro line
    rw [h.inFlightOf line, h.front hcontrol hs.running line, hs.flight line]
  · have hsum := sum_list_update h.table
    have hcount := hs.count
    rw [getD_some, List.length_append, length_singleton] at hsum
    rw [h.count, h.control]
    omega
  · intro line r' hr'
    rw [h.list line] at hr'
    split_ifs at hr' with hline
    · rcases mem_append.mp hr' with hr' | hr'
      · exact hs.listed line r' hr'
      · rw [mem_singleton.mp hr']
        exact ⟨hline.symm, hkind⟩
    · exact hs.listed line r' hr'

end

end Inserted

section

variable (h : s.Inv P)

include h

/-- Sending a packet keeps the invariant. -/
theorem State.Inv.makeRequest (hcontrol : s.control = .idle ∨ ∃ c, s.control = .hitting c)
    (pkt : Packet) :
  ∃ t, makeRequest P pkt s = .ok t ∧ t.Inv P ∧ t.progress = s.progress
  := by
  obtain ⟨primary, secondary, htypes, hkind⟩ := requestTypes_eq P pkt
  unfold Sequencer.makeRequest
  split_ifs with hfull
  · exact ⟨s, rfl, h, rfl⟩
  · rw [htypes, ok_bind]
    simp only
    split_ifs with hblocked
    · exact ⟨s, rfl, h, rfl⟩
    · have hinv {t : State} (ht : Inserted P ⟨pkt, primary, secondary⟩ s t) : t.Inv P :=
        ht.inv hcontrol h hkind
      by_cases hnil : s.list (pkt.line P) = []
      · refine ⟨(s.insertRequest P ⟨pkt, primary, secondary⟩).1.issueRequest pkt secondary, ?_,
          hinv ⟨rfl, rfl, rfl, rfl, rfl, ?_⟩, rfl⟩
        · simp [insertRequest, hnil]
        · rw [if_pos hnil]
          rfl
      · refine ⟨(s.insertRequest P ⟨pkt, primary, secondary⟩).1, ?_,
          hinv ⟨rfl, rfl, rfl, rfl, rfl, ?_⟩, rfl⟩
        · simp [insertRequest, hnil]
        · rw [if_neg hnil, append_nil]
          rfl

/-! ### Callbacks -/

variable {q : RubyRequest} {c : Call} {l : List SequencerRequest}

/-- A request that is in flight is the one at the front of its line, and no callback of the line is
running. -/
theorem State.Inv.front_of_mem (hq : q ∈ s.inFlight) :
  ∃ r l, s.requestTable (q.pkt.line P) = some (r :: l) ∧ q = r.issued
    ∧ s.inFlightOf P (q.pkt.line P) = [q] ∧ r.type.callbackKind = q.type.callbackKind
  := by
  have hmem : q ∈ s.inFlightOf P (q.pkt.line P) :=
    mem_filter.mpr ⟨hq, decide_eq_true rfl⟩
  have hflight := h.flight (q.pkt.line P)
  rw [front, list] at hflight
  rw [hflight] at hmem ⊢
  cases htable : s.requestTable (q.pkt.line P) with
  | none => simp [htable] at hmem
  | some l =>
    cases l with
    | nil => simp [htable] at hmem
    | cons r l =>
      cases hbusy : s.control.busy (q.pkt.line P) with
      | true => simp [hbusy] at hmem
      | false =>
        simp only [htable, hbusy, getD_some, head?_cons, map_some,
          toList_some, mem_singleton, Bool.false_eq_true, if_false] at hmem ⊢
        have hlisted := h.listed _ r (by rw [list_eq htable]; exact mem_cons_self)
        refine ⟨r, l, rfl, hmem, by rw [hmem], ?_⟩
        rw [hlisted.2, hmem]
        rfl

theorem State.Inv.with_control {control : Control} (hc : s.control = control) :
  State.Inv P { s with control }
  := hc ▸ h

/-- The controller answers: the request is no longer in flight, and its line is busy. -/
theorem State.Inv.callback (hidle : s.control = .idle) (hq : q ∈ s.inFlight) (noCoales : Bool) :
  ∃ t, callback P q noCoales s = .ok t ∧ t.Inv P ∧ s.progress < t.progress
  := by
  obtain ⟨r, l, htable, -, hflight, hkind⟩ := h.front_of_mem hq
  have hsome : (s.requestTable (q.pkt.line P)).isSome = true := by
    rw [htable]
    rfl
  have hs := h.with_control hidle
  refine ⟨_, assert_bind_eq_ok.mpr ⟨hsome, rfl⟩, ⟨hs.order, ?_, hs.count, h.listed, ?_⟩, ?_⟩
  · intro line
    rw [inFlightOf, ← erase_filter]
    by_cases heq : q.pkt.line P = line
    · rw [heq, inFlightOf] at hflight
      rw [hflight, erase_cons_head, front, busy, if_pos (decide_eq_true heq)]
    · rw [erase_of_not_mem (by simp [heq]), front, busy, if_neg (by simpa using heq)]
      exact hs.flight line
  · exact ⟨r :: l, htable, fun _ => ⟨r, l, rfl, hkind⟩⟩
  · simp [progress, hidle, weight]

/-- The first turn after an answer hits the packet that has been answered. -/
theorem State.Inv.hits_front (hq : q ∈ s.inFlight) (noCoales : Bool) :
  ∃ t, exec (step P) [.callback q noCoales, .turn] s = .ok t ∧ t.hits = s.hits ++ [q.pkt]
  := by
  obtain ⟨r, l, htable, rfl, -, hkind⟩ := h.front_of_mem hq
  have hturn := Call.turn_first
    ⟨r.issued.pkt.line P, r.issued.type.callbackKind, noCoales, true⟩ rfl hkind
  simp only [exec, step, Sequencer.callback, htable, isSome_some, assert_true, ok_bind, loopTurn,
    hturn]
  exact ⟨_, rfl, rfl⟩

/-- The loop ends at an empty list, whose entry is erased. -/
theorem State.Inv.finish (hc : s.control = .looping c) (htable : s.requestTable c.line = some []) :
  State.Inv P
    { s with
      requestTable := update s.requestTable c.line none
      control := .idle }
  := by
  have hlist (line : Addr) : list
      { s with
        requestTable := update s.requestTable c.line none
        control := .idle } line = s.list line := by
    rw [list_update rfl]
    split_ifs with hline
    · rw [hline, list_eq htable]
      rfl
    · rfl
  have hs := h.with_control hc
  refine ⟨?_, ?_, ?_, ?_, trivial⟩
  · intro line
    rw [waiting, hlist line]
    exact hs.order line
  · intro line
    have hflight := hs.flight line
    rw [front] at hflight
    rw [front, hlist line]
    by_cases hline : c.line = line
    · rw [busy, if_pos (decide_eq_true hline)] at hflight
      rw [list, ← hline, htable]
      rw [hline]
      exact hflight
    · rw [busy, if_neg (by simpa using hline)] at hflight
      exact hflight
  · simp only [hlist]
    exact hs.count
  · intro line r hr
    rw [hlist line] at hr
    exact h.listed line r hr

variable {r : SequencerRequest}

/-- The loop ends by issuing the packet at the front. -/
theorem State.Inv.reissue (hc : s.control = .looping c)
    (htable : s.requestTable c.line = some (r :: l)) :
  State.Inv P { s.issueRequest r.pkt r.secondType with control := .idle }
  := by
  have hlist := list_eq htable
  have hlisted := h.listed c.line r (by rw [hlist]; exact mem_cons_self)
  have hs := h.with_control hc
  refine ⟨hs.order, ?_, hs.count, h.listed, trivial⟩
  · intro line
    have hflight := hs.flight line
    rw [front, inFlightOf] at hflight
    have hfront : front { s.issueRequest r.pkt r.secondType with control := .idle } line
        = ((s.list line).head?.map (·.issued)).toList := rfl
    rw [inFlightOf, issueRequest, filter_append, hflight]
    by_cases hline : c.line = line
    · subst hline
      have hpkt := decide_eq_true hlisted.1
      rw [busy, if_pos (decide_eq_true rfl), nil_append, filter_cons, if_pos hpkt]
      exact (hfront.trans (by rw [hlist]; rfl)).symm
    · have hpkt : ¬decide (r.pkt.line P = line) = true := by
        rw [hlisted.1]
        simpa using hline
      rw [busy, if_neg (by simpa using hline), filter_cons, if_neg hpkt, filter_nil, append_nil]
      exact hfront.symm

/-- The packet at the front is hit. -/
theorem State.Inv.hit (hc : s.control = .looping c) (htable : s.requestTable c.line = some (r :: l))
    (blocked : Addr → Bool) :
  State.Inv P
    { s with
      outstandingCount := s.outstandingCount - 1
      blocked := blocked
      hits := s.hits ++ [r.pkt]
      control := .hitting { c with rubyRequest := false } }
  := by
  have hlist := list_eq htable
  have hlisted := h.listed c.line r (by rw [hlist]; exact mem_cons_self)
  have hs := h.with_control hc
  refine ⟨?_, hs.flight, ?_, h.listed, ⟨rfl, r, l, htable⟩⟩
  · intro line
    have horder := h.order line
    rw [waiting, hc] at horder
    rw [horder, ofLine_append, ofLine_single, hlisted.1, append_assoc]
    congr 1
    change _ = _ ++ map _ (if c.line = line then (s.list line).tail else s.list line)
    by_cases hline : c.line = line
    · rw [if_pos hline, if_pos hline, ← hline, hlist]
      rfl
    · rw [if_neg hline, if_neg hline]
      rfl
  · have hone : s.outstandingCount - 1 + 1 = s.outstandingCount + 0 := by omega
    exact hone.trans hs.count

/-- After `hitCallback` the packet at the front is taken from the list. -/
theorem State.Inv.hitReturn (hc : s.control = .hitting c) :
  ∃ t, hitReturn c s = .ok t ∧ t.Inv P ∧ s.progress < t.progress
  := by
  have hrunning := h.running
  rw [hc] at hrunning
  obtain ⟨hruby, r, l, htable⟩ := hrunning
  have hcons := list_eq htable
  let t : State := { s with
    requestTable := update s.requestTable c.line (some l)
    control := .looping c }
  have hupdate : t.requestTable = update s.requestTable c.line (some l) := rfl
  have hlist := list_update hupdate
  rw [getD_some] at hlist
  refine ⟨t, by rw [Sequencer.hitReturn, htable], ⟨?_, ?_, ?_, ?_, ?_⟩, ?_⟩
  · intro line
    have horder := h.order line
    rw [waiting, hc] at horder
    rw [waiting, hlist line]
    by_cases hline : c.line = line
    · simp only [if_pos hline] at horder
      rw [if_pos hline.symm, horder, ← hline, hcons, tail_cons]
    · simp only [if_neg hline] at horder
      rw [if_neg (Ne.symm hline)]
      exact horder
  · intro line
    have hflight := h.flight line
    rw [front, hc] at hflight
    rw [front, hlist line]
    change _ = if decide _ then _ else _
    simp only [busy, decide_eq_true_eq] at hflight ⊢
    by_cases hline : c.line = line
    · rw [if_pos hline] at hflight ⊢
      exact hflight
    · rw [if_neg hline] at hflight ⊢
      rw [if_neg (Ne.symm hline)]
      exact hflight
  · have hcount := h.count
    rw [hc] at hcount
    have hone : s.outstandingCount + 1 = ∑ line, ((s.list line).length : ℤ) := hcount
    have hsum := sum_list_update hupdate
    rw [hcons, getD_some, length_cons] at hsum
    push_cast at hsum
    change s.outstandingCount + 0 = _
    omega
  · intro line r' hr'
    rw [hlist line] at hr'
    split_ifs at hr' with hline
    · rw [hline]
      exact h.listed c.line r' (by rw [hcons]; exact mem_cons_of_mem r hr')
    · exact h.listed line r' hr'
  · refine ⟨l, update_self _ _ _, ?_⟩
    intro htrue
    rw [hruby] at htrue
    cases htrue
  · simp [progress, hc, weight, hruby, t]

/-- A turn of the loop of a callback returns and keeps the invariant. -/
theorem State.Inv.loopTurn (hc : s.control = .looping c) :
  ∃ t, loopTurn c s = .ok t ∧ t.Inv P ∧ s.progress < t.progress
  := by
  have hrunning := h.running
  rw [hc] at hrunning
  obtain ⟨l, htable, hfirst⟩ := hrunning
  have hprogress : s.progress = 4 * s.hits.length - (looping c).weight := by
    rw [progress, hc]
  unfold Sequencer.loopTurn
  rw [htable, hprogress]
  cases hruby : c.rubyRequest with
  | true =>
    -- the first turn hits a packet
    obtain ⟨r, l', rfl, hkind⟩ := hfirst hruby
    simp only [c.turn_first hruby hkind]
    refine ⟨_, rfl, h.hit hc htable _, ?_⟩
    simp only [progress, weight, hruby, if_true, length_append, length_singleton]
    omega
  | false =>
    cases l with
    | nil => exact ⟨_, rfl, h.finish hc htable, by simp [progress, weight, hruby]⟩
    | cons r l =>
      rcases c.turn_next r.type hruby with hturn | hturn
      · simp only [hturn]
        exact ⟨_, rfl, h.reissue hc htable, by simp [progress, weight, hruby, issueRequest]⟩
      · simp only [hturn]
        refine ⟨_, rfl, h.hit hc htable _, ?_⟩
        simp only [progress, weight, hruby, length_append, length_singleton]
        omega

/-! ### Runs -/

/-- A legal step returns, keeps the invariant, and makes progress unless a packet arrives. -/
theorem State.Inv.step {l : Label} (hl : Legal l s) :
  ∃ t, step P l s = .ok t ∧ t.Inv P ∧ s.progress + (if l.isRequest then 0 else 1) ≤ t.progress
  := by
  cases l with
  | request pkt =>
    obtain ⟨t, ht, hinv, heq⟩ := h.makeRequest hl pkt
    exact ⟨t, ht, hinv, by simp [heq, Label.isRequest]⟩
  | callback q noCoales => exact h.callback hl.1 hl.2 noCoales
  | turn =>
    obtain ⟨c, hc⟩ := hl
    simp only [Sequencer.step, hc]
    exact h.loopTurn hc
  | hitReturn =>
    obtain ⟨c, hc⟩ := hl
    simp only [Sequencer.step, hc]
    exact h.hitReturn hc

/-- In a run each hit pays for four steps. -/
theorem State.Inv.progress_le {labels : List Label}
    (hlabels : Meets (Sequencer.step P) Legal labels s)
    (ht : exec (Sequencer.step P) labels s = .ok t) :
  s.progress + (labels.countP (!·.isRequest) : ℕ) ≤ t.progress
  := by
  induction labels generalizing s with
  | nil =>
    cases ht
    simp
  | cons l labels ih =>
    obtain ⟨u, hu, ht⟩ := exec_cons_eq_ok.mp ht
    obtain ⟨u', hu', hinv, hprogress⟩ := h.step hlabels.1
    cases hu.symm.trans hu'
    have hrest := ih hinv (hlabels.2 u hu) ht
    rw [countP_cons]
    cases hl : l.isRequest with
    | true =>
      simp only [hl, if_true, Bool.not_true, Bool.false_eq_true, if_false] at hprogress ⊢
      omega
    | false =>
      simp only [hl, if_true, Bool.not_false, Bool.false_eq_true, if_false] at hprogress ⊢
      omega

/-- If a step is possible with a new packet only, then every packet has been hit. -/
theorem State.Inv.done (hstuck : ∀ l, Legal l s → l.isRequest = true) :
  s.control = .idle ∧ ∀ line, ofLine P line s.accepted = ofLine P line s.hits
  := by
  have hidle : s.control = .idle := by
    cases hc : s.control with
    | idle => rfl
    | looping c => cases hstuck .turn ⟨c, hc⟩
    | hitting c => cases hstuck .hitReturn ⟨c, hc⟩
  refine ⟨hidle, h.sound.done hidle (eq_nil_iff_forall_not_mem.mpr ?_)⟩
  intro q hq
  cases hstuck (.callback q false) ⟨hidle, hq⟩

end

/-- Along every run in which packets arrive between callbacks or from inside a hit callback and
every request that is issued is answered at most once, no assertion fails. In every state on the
way the packets of each line have been hit in the order of acceptance and at most once, at most one
request of each line is in flight and it is the one at the front of the list of its line, and
between calls the number of outstanding requests is the sum of the lengths of the lists. When no
request is left in flight, every accepted packet has been hit exactly once. A run takes at most four
steps for each hit, not counting the arrival of packets, and as long as a packet has not been hit
it can go on. An answer first hits the packet it is for. -/
theorem coalescing_sound (P : Params) {labels : List Label}
    (hlabels : Meets (step P) Legal labels {}) :
  Always (step P) (State.Sound P) labels {}
    ∧ ∀ s, exec (step P) labels {} = .ok s →
      labels.countP (!·.isRequest) ≤ 4 * s.hits.length + 1
      ∧ ((∀ l, Legal l s → l.isRequest = true) →
        s.control = .idle ∧ ∀ line, ofLine P line s.accepted = ofLine P line s.hits)
      ∧ ∀ q noCoales, Legal (.callback q noCoales) s →
        ∃ t, exec (step P) [.callback q noCoales, .turn] s = .ok t ∧ t.hits = s.hits ++ [q.pkt]
  := by
  have hrun : Always (step P) (State.Inv P) labels {} := by
    apply always_of_meets _ State.Inv.initial hlabels
    intro s l h hl
    obtain ⟨t, ht, hinv, -⟩ := h.step hl
    exact ⟨t, ht, hinv⟩
  refine ⟨hrun.mono fun s h => h.sound, ?_⟩
  intro s hs
  obtain ⟨s', hs', hinv⟩ := hrun.exec
  cases hs.symm.trans hs'
  refine ⟨?_, hinv.done, fun q noCoales hq => hinv.hits_front hq.2 noCoales⟩
  have hprogress := State.Inv.initial.progress_le hlabels hs
  have hinitial : progress {} = -1 := rfl
  rw [hinitial, progress] at hprogress
  omega

/-- A sequencer with lines of 64 bytes and room for 16 packets. -/
def example64 : Params where
  lineBits := 6
  maxOutstandingRequests := 16

/-- A load of address 0. -/
def load : Packet where
  id := 0
  addr := 0
  isRead := true
  access := rfl

/-- A store to address 8, which is in the same line. -/
def store : Packet where
  id := 1
  addr := 8
  isWrite := true
  access := rfl

/-- A store arrives from inside the hit callback of a load of the same line, and is issued. -/
theorem coalescing_sound_nested :
  Always (step example64) (State.Sound example64)
    [.request load, .callback ⟨load, .ld⟩ false, .turn, .request store, .hitReturn, .turn] {}
  := by
  apply (coalescing_sound example64 ?_).1
  exact .of_cons (.inl rfl) rfl (.of_cons ⟨rfl, mem_singleton.mpr rfl⟩ rfl
    (.of_cons ⟨_, rfl⟩ rfl (.of_cons (.inr ⟨_, rfl⟩) rfl
      (.of_cons ⟨_, rfl⟩ rfl ⟨⟨_, rfl⟩, fun _ _ => trivial⟩))))

end Gem5Arc.Sequencer
