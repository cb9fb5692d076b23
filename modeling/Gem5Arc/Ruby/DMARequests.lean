import Gem5Arc.Lib.Run
import Gem5Arc.Ruby.DMASequencer

/-!
# Outstanding requests of the DMA sequencer

`DMASequencer` keeps the packets it works on in a table, by the address of a line. It asks the DMA
controller for one line of a packet at a time, and when the line is answered it asks for the next
one, up to the end of the packet. The table entry stays under the address of the first line, while
the controller answers with the address of the line it was asked for.

Packets are numbered as they are accepted. The model keeps, for each packet, which lines have been
asked for and answered, and the hit callbacks with the data of the packet. The size of a packet and
the maximum number of outstanding requests are values of a C++ `int`. Atomic requests are left out.
-/

namespace Gem5Arc.DMASequencer

open DMASequencer Function Lib List

variable {b i id : ℕ}

/-- A packet in the table, and how much of it has been asked for and answered. -/
structure DMARequest where
  startPaddr : Addr
  len : ℕ
  write : Bool
  bytesCompleted : ℕ
  bytesIssued : ℕ
  data : ℕ → BitVec 8
  /-- The number of the packet. -/
  pkt : ℕ

/-- What happened to a packet. -/
structure History (b : ℕ) where
  issued : List (SequencerMsg b) := []
  answers : List (SequencerMsg b × DataBlock b) := []
  /-- The data of the packet at each hit callback. -/
  hits : List (ℕ → BitVec 8) := []

/-- The table, the number of its entries, the accepted packets, and the lines that have been asked
for and are not answered, each with the number of its packet. -/
structure State (b : ℕ) where
  requestTable : Addr → Option DMARequest := fun _ => none
  outstandingCount : ℤ := 0
  packets : List DMAPacket := []
  inFlight : List (ℕ × SequencerMsg b) := []
  history : ℕ → History b := fun _ => {}

/-- What `makeRequest` returns. -/
inductive RequestStatus where
  | Issued | BufferFull | Aliased

namespace State

/-- Ask the controller for a line of a packet. -/
def issue (id : ℕ) (msg : SequencerMsg b) (s : State b) : State b :=
  let h := s.history id
  { s with
    inFlight := s.inFlight ++ [(id, msg)]
    history := Function.update s.history id { h with issued := h.issued ++ [msg] } }

def put (addr : Addr) (r : DMARequest) (s : State b) : State b :=
  { s with requestTable := Function.update s.requestTable addr (some r) }

/-- Take a request out of the table, and hand its packet back. -/
def complete (addr : Addr) (r : DMARequest) (s : State b) : State b :=
  let h := s.history r.pkt
  { s with
    requestTable := Function.update s.requestTable addr none
    outstandingCount := s.outstandingCount - 1
    history := Function.update s.history r.pkt { h with hits := h.hits ++ [r.data] } }

/-- The table entry of a packet that has just been accepted. -/
def request (b : ℕ) (id : ℕ) (pkt : DMAPacket) : DMARequest where
  startPaddr := pkt.addr
  len := pkt.size
  write := pkt.isWrite
  bytesCompleted := 0
  bytesIssued := (DMASequencer.makeRequest b pkt).len
  data := pkt.data
  pkt := id

def accept (pkt : DMAPacket) (s : State b) : State b :=
  let id := s.packets.length
  let s := s.put (makeLineAddress b pkt.addr) (request b id pkt)
  { s with outstandingCount := s.outstandingCount + 1, packets := s.packets ++ [pkt] }.issue id
    (DMASequencer.makeRequest b pkt)

variable (maxOutstandingRequests : ℕ)

/-- Accept a packet, unless the table is full or has an entry for its first line. -/
def makeRequest (pkt : DMAPacket) (s : State b) : Except Fault (RequestStatus × State b) :=
  if s.outstandingCount = maxOutstandingRequests then .ok (.BufferFull, s)
  else do
    assert (s.outstandingCount < maxOutstandingRequests)
    match s.requestTable (makeLineAddress b pkt.addr) with
    | some _ => pure (.Aliased, s)
    | none => pure (.Issued, s.accept pkt)

/-- The message for the next line of a packet. -/
def nextMsg (b : ℕ) (r : DMARequest) : SequencerMsg b :=
  let physicalAddress := r.startPaddr + BitVec.ofNat 64 r.bytesCompleted
  let len := if r.len - r.bytesCompleted < 2 ^ b then r.len - r.bytesCompleted else 2 ^ b
  { physicalAddress := physicalAddress
    lineAddress := makeLineAddress b physicalAddress
    type := if r.write then .ST else .LD
    dataBlk :=
      if r.write then DataBlock.clear.setData (fun i => r.data (r.bytesCompleted + i)) 0 len
      else DataBlock.clear
    len := len }

/-- Complete the packet whose entry is under the address, or ask for its next line. -/
def issueNext (address : Addr) (s : State b) : Except Fault (State b) :=
  match s.requestTable address with
  | none => .error .assertion
  | some r => do
      assert (s.outstandingCount ≤ maxOutstandingRequests)
      let r := { r with bytesCompleted := r.bytesIssued }
      if r.len = r.bytesCompleted then pure (s.complete address r)
      else
        let msg := nextMsg b r
        assert (msg.physicalAddress &&& mask b = 0#64)
        let r := { r with bytesIssued := r.bytesIssued + msg.len }
        pure ((s.put address r).issue r.pkt msg)

/-- The data of a request after a line has been read. -/
def received (r : DMARequest) (offset len : ℕ) (dblk : DataBlock b) : ℕ → BitVec 8 :=
  fun i =>
    let j := offset + (i - r.bytesCompleted)
    if h : r.bytesCompleted ≤ i ∧ i < r.bytesCompleted + len ∧ j < 2 ^ b then dblk ⟨j, h.2.2⟩
    else r.data i

/-- A line has been read. -/
def dataCallback (dblk : DataBlock b) (address : Addr) (s : State b) : Except Fault (State b) :=
  match s.requestTable address with
  | none => .error .assertion
  | some r => do
      let len := r.bytesIssued - r.bytesCompleted
      let offset := if r.bytesCompleted = 0 then (r.startPaddr &&& mask b).toNat else 0
      assert (!r.write)
      assert (offset + len ≤ 2 ^ b)
      (s.put address { r with data := received r offset len dblk }).issueNext
        maxOutstandingRequests address

/-- A line has been written. -/
def ackCallback (address : Addr) (s : State b) : Except Fault (State b) := do
  assert (s.requestTable address).isSome
  s.issueNext maxOutstandingRequests address

/-- The state without a message that is answered. -/
def answered (i id : ℕ) (msg : SequencerMsg b) (dblk : DataBlock b) (s : State b) : State b :=
  let h := s.history id
  { s with
    inFlight := s.inFlight.eraseIdx i
    history := Function.update s.history id { h with answers := h.answers ++ [(msg, dblk)] } }

/-- Answer a message with the address of its line: a read with the data of the line, and a write
without data. -/
def answer (i : ℕ) (dblk : DataBlock b) (s : State b) : Except Fault (State b) :=
  match s.inFlight[i]? with
  | none => .ok s
  | some (id, msg) =>
    let s := s.answered i id msg dblk
    match msg.type with
    | .LD => s.dataCallback maxOutstandingRequests dblk msg.lineAddress
    | .ST => s.ackCallback maxOutstandingRequests msg.lineAddress

end State

/-- What happens at a DMA sequencer: a packet arrives, or one of the messages in flight is
answered. -/
inductive Event (b : ℕ) where
  | request (pkt : DMAPacket)
  | answer (i : ℕ) (dblk : DataBlock b)

variable (maxOutstandingRequests : ℕ)

def step : Event b → State b → Except Fault (State b)
  | .request pkt, s => Prod.snd <$> s.makeRequest maxOutstandingRequests pkt
  | .answer i dblk, s => s.answer maxOutstandingRequests i dblk

/-! ### The specification -/

/-- Messages for a part of a packet that starts with its byte `i` and has `size` bytes: each message
starts where the last one ends, does not leave its line, and has the data of its bytes. -/
def Covers (b : ℕ) (pkt : DMAPacket) : ℕ → ℕ → List (SequencerMsg b) → Prop
  | _, size, [] => size = 0
  | i, size, msg :: msgs =>
    let addr := pkt.addr + BitVec.ofNat 64 i
    msg.physicalAddress = addr
      ∧ msg.lineAddress = makeLineAddress b addr
      ∧ msg.type = (if pkt.isWrite then .ST else .LD)
      ∧ msg.len ≤ size
      ∧ (∃ h : (getOffset b addr).toNat + msg.len ≤ 2 ^ b,
        pkt.isWrite → ∀ j (hj : j < msg.len),
          msg.dataBlk ⟨(getOffset b addr).toNat + j, by omega⟩ = pkt.data (i + j))
      ∧ Covers b pkt (i + msg.len) (size - msg.len) msgs

/-- Every byte of a packet that was read is the byte of an answer for its line. -/
def Read (pkt : DMAPacket) (answers : List (SequencerMsg b × DataBlock b)) (data : ℕ → BitVec 8) :
    Prop :=
  ∀ i < pkt.size, ∃ msg dblk, ∃ j : Fin (2 ^ b), (msg, dblk) ∈ answers
    ∧ msg.lineAddress = makeLineAddress b (pkt.addr + BitVec.ofNat 64 i)
    ∧ (getOffset b (pkt.addr + BitVec.ofNat 64 i)).toNat = j
    ∧ data i = dblk j

/-- Each accepted packet has asked for its bytes, once and in order. A packet with a message in
flight had no hit callback. Any other packet had exactly one, after all its messages were answered,
and then with the bytes that were read. -/
def Complete (s : State b) : Prop :=
  ∀ id pkt, s.packets[id]? = some pkt →
    let h := s.history id
    Covers b pkt 0 pkt.size h.issued
      ∧ (((∃ msg, (id, msg) ∈ s.inFlight) ∧ h.hits = [])
        ∨ ((∀ msg, (id, msg) ∉ s.inFlight) ∧ h.answers.map Prod.fst = h.issued
          ∧ ∃ data, h.hits = [data] ∧ (pkt.isWrite = false → Read pkt h.answers data)))

/-- The packet lies in one line, if it is accepted. -/
def OneLine : Event b → State b → Prop
  | .request pkt, s => (∃ t, s.makeRequest maxOutstandingRequests pkt = .ok (.Issued, t)) →
      (getOffset b pkt.addr).toNat + pkt.size ≤ 2 ^ b
  | .answer _ _, _ => True

/-! ### Packets in one line -/

/-- The data of a packet when it is handed back. -/
def final (pkt : DMAPacket) (dblk : DataBlock b) : ℕ → BitVec 8 :=
  if pkt.isWrite then pkt.data
  else State.received (State.request b 0 pkt) (getOffset b pkt.addr).toNat pkt.size dblk

/-- A packet is in flight, or it has been answered and handed back. -/
def Phase (s : State b) (id : ℕ) (pkt : DMAPacket) : Prop :=
  let msg := DMASequencer.makeRequest b pkt
  ((id, msg) ∈ s.inFlight ∧ s.history id = ⟨[msg], [], []⟩)
    ∨ ((∀ msg, (id, msg) ∉ s.inFlight)
      ∧ ∃ dblk, s.history id = ⟨[msg], [(msg, dblk)], [final pkt dblk]⟩)

/-- What holds as long as every packet lies in one line: the entries of the table are those of the
messages in flight, and no two of these are for the same line. -/
structure Sound (s : State b) : Prop where
  oneLine : ∀ pkt ∈ s.packets, (getOffset b pkt.addr).toNat + pkt.size ≤ 2 ^ b
  flight : ∀ id msg, (id, msg) ∈ s.inFlight → ∃ pkt, s.packets[id]? = some pkt
    ∧ msg = DMASequencer.makeRequest b pkt
    ∧ s.requestTable msg.lineAddress = some (State.request b id pkt)
  lines : (s.inFlight.map fun x => x.2.lineAddress).Nodup
  entry : ∀ line r, s.requestTable line = some r →
    line ∈ s.inFlight.map fun x => x.2.lineAddress
  count : s.outstandingCount = s.inFlight.length
  bound : s.inFlight.length ≤ maxOutstandingRequests
  fresh : ∀ id, s.packets.length ≤ id → s.history id = {}
  phase : ∀ id pkt, s.packets[id]? = some pkt → Phase s id pkt

section

variable {maxOutstandingRequests} {s : State b} {pkt : DMAPacket}

theorem makeRequest_len (hpkt : (getOffset b pkt.addr).toNat + pkt.size ≤ 2 ^ b) :
  (makeRequest b pkt).len = pkt.size
  := by
  rw [getOffset_eq] at hpkt
  rw [makeRequest, if_pos hpkt]

theorem Sound.accept (hs : Sound maxOutstandingRequests s)
    (hpkt : (getOffset b pkt.addr).toNat + pkt.size ≤ 2 ^ b)
    (hlt : s.outstandingCount < maxOutstandingRequests)
    (hnone : s.requestTable (makeLineAddress b pkt.addr) = none) :
  Sound maxOutstandingRequests (s.accept pkt)
  := by
  have hline : ∀ id msg, (id, msg) ∈ s.inFlight →
      msg.lineAddress ≠ makeLineAddress b pkt.addr := by
    intro id msg hmem heq
    obtain ⟨pkt', -, -, htable⟩ := hs.flight id msg hmem
    rw [heq, hnone] at htable
    cases htable
  have hold : ∀ (id : ℕ) pkt', s.packets[id]? = some pkt' →
      (s.packets ++ [pkt])[id]? = some pkt' := by
    intro id pkt' hpkt'
    obtain ⟨hlen, -⟩ := List.getElem?_eq_some_iff.mp hpkt'
    rw [getElem?_append_left hlen]
    apply hpkt'
  unfold State.accept State.issue State.put
  constructor
  · exact forall_mem_append.mpr ⟨hs.oneLine, forall_mem_singleton.mpr hpkt⟩
  · intro id msg hmem
    rcases mem_append.mp hmem with hmem | hmem
    · obtain ⟨pkt', hpkt', hmsg, htable⟩ := hs.flight id msg hmem
      refine ⟨pkt', hold id pkt' hpkt', hmsg, ?_⟩
      dsimp only
      rw [update_of_ne (hline id msg hmem)]
      apply htable
    · cases mem_singleton.mp hmem
      refine ⟨pkt, getElem?_concat_length, rfl, ?_⟩
      apply update_self
  · simp only [map_append]
    apply List.Nodup.append hs.lines (nodup_singleton _)
    intro line hmem hline'
    obtain ⟨⟨id, msg⟩, hflight, rfl⟩ := mem_map.mp hmem
    apply hline id msg hflight (mem_singleton.mp hline')
  · intro line r hr
    simp only [map_append] at hr ⊢
    by_cases hlineEq : line = makeLineAddress b pkt.addr
    · apply mem_append_right
      rw [hlineEq]
      apply mem_singleton_self
    · rw [update_of_ne hlineEq] at hr
      apply mem_append_left
      apply hs.entry line r hr
  · simp only [List.length_append, hs.count]
    rfl
  · have hcount := hs.count
    simp only [List.length_append, length_singleton]
    omega
  · intro id hlen
    simp only [List.length_append, length_singleton] at hlen ⊢
    rw [update_of_ne (by omega)]
    apply hs.fresh id (by omega)
  · intro id pkt' hpkt'
    by_cases hnew : id = s.packets.length
    · subst hnew
      simp only [getElem?_concat_length] at hpkt'
      cases hpkt'
      refine .inl ⟨mem_append_right _ mem_cons_self, ?_⟩
      dsimp only
      rw [update_self, hs.fresh _ (le_refl _)]
      rfl
    · have hpkt₀ : s.packets[id]? = some pkt' := by
        dsimp only at hpkt'
        rw [getElem?_append] at hpkt'
        split_ifs at hpkt' with hlen
        · apply hpkt'
        · rw [getElem?_singleton, if_neg (by omega)] at hpkt'
          cases hpkt'
      rw [Phase]
      dsimp only
      rw [update_of_ne hnew]
      rcases hs.phase id pkt' hpkt₀ with ⟨hmem, hh⟩ | ⟨hmem, hh⟩
      · exact .inl ⟨mem_append_left _ hmem, hh⟩
      · refine .inr ⟨?_, hh⟩
        intro msg hmsg
        rcases mem_append.mp hmsg with hmsg | hmsg
        · apply hmem msg hmsg
        · cases mem_singleton.mp hmsg
          apply hnew rfl

/-- A packet whose entry is under the address is handed back when all its bytes were asked for. -/
theorem issueNext_eq {address : Addr} {r : DMARequest} (htable : s.requestTable address = some r)
    (hcount : s.outstandingCount ≤ maxOutstandingRequests) (hlen : r.len = r.bytesIssued) :
  s.issueNext maxOutstandingRequests address
    = .ok (s.complete address { r with bytesCompleted := r.bytesIssued })
  := by
  rw [State.issueNext, htable]
  apply assert_bind_eq_ok.mpr ⟨decide_eq_true hcount, _⟩
  rw [if_pos hlen]
  rfl

/-- The state after the message of a packet in one line has been answered. -/
def State.handBack (i id : ℕ) (pkt : DMAPacket) (dblk : DataBlock b) (s : State b) : State b :=
  let msg := DMASequencer.makeRequest b pkt
  let h := s.history id
  { s with
    requestTable := Function.update s.requestTable msg.lineAddress none
    outstandingCount := s.outstandingCount - 1
    inFlight := s.inFlight.eraseIdx i
    history := Function.update s.history id
      ⟨h.issued, h.answers ++ [(msg, dblk)], h.hits ++ [final pkt dblk]⟩ }

section

variable (hs : Sound maxOutstandingRequests s)

include hs

theorem Sound.answer_eq (dblk : DataBlock b) (hi : s.inFlight[i]? = some (id, makeRequest b pkt))
    (hpkt : s.packets[id]? = some pkt)
    (htable : s.requestTable (makeLineAddress b pkt.addr) = some (State.request b id pkt)) :
  s.answer maxOutstandingRequests i dblk = .ok (s.handBack i id pkt dblk)
  := by
  have hone := hs.oneLine pkt (mem_of_getElem? hpkt)
  have hlen := makeRequest_len hone
  have hcount : s.outstandingCount ≤ maxOutstandingRequests := by
    rw [hs.count]
    exact_mod_cast hs.bound
  have hanswered : (s.answered i id (makeRequest b pkt) dblk).requestTable
      (makeRequest b pkt).lineAddress = some (State.request b id pkt) := htable
  rw [State.answer, hi]
  dsimp only
  cases hwrite : pkt.isWrite with
  | true =>
    have htype : (makeRequest b pkt).type = .ST := by
      rw [makeRequest, hwrite]
      rfl
    rw [htype]
    rw [State.ackCallback, hanswered]
    apply assert_bind_eq_ok.mpr ⟨rfl, _⟩
    rw [issueNext_eq hanswered hcount hlen.symm]
    simp only [State.complete, State.answered, State.handBack, State.request, final, hwrite,
      update_self, update_idem, if_true]
  | false =>
    have htype : (makeRequest b pkt).type = .LD := by
      rw [makeRequest, hwrite]
      rfl
    rw [htype]
    rw [State.dataCallback, hanswered]
    have hoffset : (pkt.addr &&& mask b).toNat + (makeRequest b pkt).len
        ≤ 2 ^ b := by
      rw [hlen, ← getOffset_eq]
      apply hone
    apply assert_bind_eq_ok.mpr ⟨by simp [State.request, hwrite], _⟩
    apply assert_bind_eq_ok.mpr ⟨decide_eq_true hoffset, _⟩
    refine (issueNext_eq (s := (s.answered i id _ dblk).put _ _) (update_self ..) hcount
      ?_).trans ?_
    · apply hlen.symm
    simp only [State.complete, State.put, State.answered, State.handBack, State.request, final,
      hwrite, update_self, update_idem, hlen, getOffset_eq]
    rfl

theorem Sound.lineAddress_ne {i : ℕ} {x y : ℕ × SequencerMsg b} (hi : s.inFlight[i]? = some x)
    (hy : y ∈ s.inFlight.eraseIdx i) :
  y.2.lineAddress ≠ x.2.lineAddress
  := by
  obtain ⟨hlt, rfl⟩ := List.getElem?_eq_some_iff.mp hi
  have hperm := (getElem_cons_eraseIdx_perm hlt).map fun x => x.2.lineAddress
  have hnodup := nodup_cons.mp (hperm.nodup_iff.mpr hs.lines)
  intro heq
  apply hnodup.1
  apply mem_map.mpr ⟨y, hy, heq⟩

theorem Sound.handBack (dblk : DataBlock b) (hi : s.inFlight[i]? = some (id, makeRequest b pkt))
    (hpkt : s.packets[id]? = some pkt) :
  Sound maxOutstandingRequests (s.handBack i id pkt dblk)
  := by
  obtain ⟨hlt, hget⟩ := List.getElem?_eq_some_iff.mp hi
  have hperm := getElem_cons_eraseIdx_perm hlt
  have hlength := hperm.length_eq
  rw [length_cons] at hlength
  have hgone : ∀ msg, (id, msg) ∉ s.inFlight.eraseIdx i := by
    intro msg hmsg
    obtain ⟨pkt', hpkt', rfl, -⟩ := hs.flight id msg (mem_of_mem_eraseIdx hmsg)
    cases hpkt.symm.trans hpkt'
    apply hs.lineAddress_ne hi hmsg rfl
  have hstays : ∀ id' msg, id' ≠ id → (id', msg) ∈ s.inFlight →
      (id', msg) ∈ s.inFlight.eraseIdx i := by
    intro id' msg hne hmem
    apply (mem_cons.mp (hperm.mem_iff.mpr hmem)).resolve_left
    rw [hget]
    exact fun heq => hne (congrArg Prod.fst heq)
  constructor
  · apply hs.oneLine
  · intro id' msg hmem
    obtain ⟨pkt', hpkt', hmsg, htable⟩ := hs.flight id' msg (mem_of_mem_eraseIdx hmem)
    refine ⟨pkt', hpkt', hmsg, ?_⟩
    simp only [State.handBack]
    rw [update_of_ne (hs.lineAddress_ne hi hmem)]
    apply htable
  · apply List.Nodup.sublist _ hs.lines
    apply (eraseIdx_sublist _ _).map
  · intro line r hr
    simp only [State.handBack] at hr ⊢
    by_cases hline : line = (makeRequest b pkt).lineAddress
    · rw [hline, update_self] at hr
      cases hr
    · rw [update_of_ne hline] at hr
      obtain ⟨⟨id', msg⟩, hmem, rfl⟩ := mem_map.mp (hs.entry line r hr)
      apply mem_map_of_mem
      apply hstays id' msg _ hmem
      rintro rfl
      obtain ⟨pkt', hpkt', rfl, -⟩ := hs.flight id' msg hmem
      cases hpkt.symm.trans hpkt'
      apply hline rfl
  · simp only [State.handBack, hs.count]
    omega
  · have hbound := hs.bound
    simp only [State.handBack]
    omega
  · intro id' hlen
    obtain ⟨hlt, -⟩ := List.getElem?_eq_some_iff.mp hpkt
    simp only [State.handBack] at hlen ⊢
    rw [update_of_ne (by omega)]
    apply hs.fresh id' hlen
  · intro id' pkt' hpkt'
    by_cases hid : id' = id
    · subst hid
      cases hpkt.symm.trans hpkt'
      refine .inr ⟨hgone, dblk, ?_⟩
      rcases hs.phase id' pkt hpkt with ⟨-, hh⟩ | ⟨hnot, -⟩
      · simp only [State.handBack, update_self, hh]
        rfl
      · exact absurd (mem_of_getElem? hi) (hnot _)
    · have hhistory : (s.handBack i id pkt dblk).history id' = s.history id' := by
        apply update_of_ne hid
      rw [Phase, hhistory]
      rcases hs.phase id' pkt' hpkt' with ⟨hmem, hh⟩ | ⟨hnot, hh⟩
      · exact .inl ⟨hstays id' _ hid hmem, hh⟩
      · exact .inr ⟨fun msg hmsg => hnot msg (mem_of_mem_eraseIdx hmsg), hh⟩

/-- No event fails as long as every packet that is accepted lies in one line. -/
theorem Sound.step {e : Event b} (he : OneLine maxOutstandingRequests e s) :
  ∃ t, step maxOutstandingRequests e s = .ok t ∧ Sound maxOutstandingRequests t
  := by
  cases e with
  | request pkt =>
    rw [OneLine, State.makeRequest] at he
    rw [DMASequencer.step, State.makeRequest]
    split_ifs at he ⊢ with hfull
    · exact ⟨s, rfl, hs⟩
    · have hbound := hs.bound
      have hlt : s.outstandingCount < maxOutstandingRequests := by
        rw [hs.count] at hfull ⊢
        omega
      rw [decide_eq_true hlt, assert_true, ok_bind] at he ⊢
      cases htable : s.requestTable (makeLineAddress b pkt.addr) with
      | some r => exact ⟨s, rfl, hs⟩
      | none =>
        rw [htable] at he
        exact ⟨s.accept pkt, rfl, hs.accept (he ⟨_, rfl⟩) hlt htable⟩
  | answer i dblk =>
    cases hi : s.inFlight[i]? with
    | none =>
      refine ⟨s, ?_, hs⟩
      rw [DMASequencer.step, State.answer, hi]
    | some x =>
      obtain ⟨id, msg⟩ := x
      obtain ⟨pkt, hpkt, rfl, htable⟩ := hs.flight id msg (mem_of_getElem? hi)
      exact ⟨_, hs.answer_eq dblk hi hpkt htable, hs.handBack dblk hi hpkt⟩

end

theorem covers_makeRequest (hpkt : (getOffset b pkt.addr).toNat + pkt.size ≤ 2 ^ b) :
  Covers b pkt 0 pkt.size [makeRequest b pkt]
  := by
  have hlen := makeRequest_len hpkt
  have haddr : pkt.addr + BitVec.ofNat 64 0 = pkt.addr := BitVec.add_zero _
  simp only [Covers, haddr, hlen, Nat.sub_self, and_true]
  refine ⟨rfl, rfl, rfl, le_refl _, hpkt, ?_⟩
  intro hwrite j hj
  have hoffset : (pkt.addr &&& mask b).toNat + pkt.size ≤ 2 ^ b := by
    rw [← getOffset_eq]
    apply hpkt
  simp only [makeRequest, hwrite, if_true, DataBlock.setData, getOffset_eq, if_pos hoffset]
  rw [if_pos (by omega)]
  congr 1
  omega

theorem read_final (hb : b ≤ 64) (hpkt : (getOffset b pkt.addr).toNat + pkt.size ≤ 2 ^ b)
    (hread : pkt.isWrite = false) (dblk : DataBlock b) :
  Read pkt [(makeRequest b pkt, dblk)] (final pkt dblk)
  := by
  intro i hi
  obtain ⟨hline, hoffset⟩ := getOffset_add hb pkt.addr (by omega : _ + i < 2 ^ b)
  refine ⟨_, dblk, ⟨(getOffset b pkt.addr).toNat + i, by omega⟩, mem_singleton_self _, ?_,
    hoffset, ?_⟩
  · rw [hline]
    rfl
  · rw [final, hread, if_neg Bool.false_ne_true, State.received]
    exact dif_pos ⟨Nat.zero_le i, (Nat.zero_add pkt.size).symm ▸ hi, by omega⟩

theorem Sound.complete (hb : b ≤ 64) (hs : Sound maxOutstandingRequests s) :
  Complete s
  := by
  intro id pkt hpkt
  have hone := hs.oneLine pkt (mem_of_getElem? hpkt)
  rcases hs.phase id pkt hpkt with ⟨hmem, hh⟩ | ⟨hnot, dblk, hh⟩
  · rw [hh]
    exact ⟨covers_makeRequest hone, .inl ⟨⟨_, hmem⟩, rfl⟩⟩
  · rw [hh]
    refine ⟨covers_makeRequest hone, .inr ⟨hnot, rfl, _, rfl, ?_⟩⟩
    intro hread
    apply read_final hb hone hread dblk

end

/-- If the packets that are accepted lie in one line, no callback fails, and every packet is
completed. -/
theorem complete_of_oneLine (hb : b ≤ 64) (l : List (Event b))
    (hl : Meets (step maxOutstandingRequests) (OneLine maxOutstandingRequests) l {}) :
  Always (step maxOutstandingRequests) Complete l {}
  := by
  apply Always.mono (P := Sound maxOutstandingRequests) (fun s hs => hs.complete hb)
  apply always_of_meets (fun s e hs he => hs.step he) _ hl
  constructor
  · nofun
  · nofun
  · apply nodup_nil
  · nofun
  · rfl
  · apply Nat.zero_le
  · intro id _
    rfl
  · nofun

/-- A packet with 64 bytes of one line. -/
def oneLinePacket (write : Bool) : DMAPacket where
  addr := 64
  size := 64
  isWrite := write
  data := fun i => BitVec.ofNat 8 i

theorem complete_of_oneLine_two :
  Always (step 4) (Complete (b := 6))
    [.request (oneLinePacket false), .request { oneLinePacket true with addr := 128 },
      .answer 1 DataBlock.clear, .answer 0 (fun _ => 7)] {}
  := by
  apply complete_of_oneLine 4 (by decide)
  refine ⟨fun _ => ?_, fun _ _ => ⟨fun _ => ?_, fun _ _ => ⟨trivial, fun _ _ => ⟨trivial, ?_⟩⟩⟩⟩
  · show (getOffset 6 64).toNat + 64 ≤ 2 ^ 6
    decide
  · show (getOffset 6 128).toNat + 64 ≤ 2 ^ 6
    decide
  · exact fun _ _ => trivial

/-- A read of two lines. The answer for the second line finds no entry. -/
theorem secondLine_fails :
  exec (step (b := 6) 4)
      [.request { oneLinePacket false with size := 128 }, .answer 0 (fun _ => 7),
        .answer 0 (fun _ => 7)] {}
    = .error .assertion
  := rfl

end Gem5Arc.DMASequencer
