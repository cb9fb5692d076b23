import Gem5Arc.MESITwoLevel.Lines

/-!
# DMA writes

The directory takes a DMA write for a line in state `I` or `M`. In state `M` it first asks the owner
for its data. It sends the bytes of the write to memory, and when memory has answered it
acknowledges the write.

The answer of memory has the address of the first byte that was written, and the TBE of the line is
looked up with that address. So a write that does not start with the line fails an assertion. The
data of the owner is thrown away, and what memory has for the bytes that are not written stays.
`dmaWrite_coherent_iff` says exactly which writes are handled as they should be. Other lines may
take any steps before each step of the write.
-/

namespace Gem5Arc.MESITwoLevel

open DataBlock Directory Lib.Reachable List RequestMsg TBETable

variable {b numberOfTBEs : ℕ} {l : Label b}

/-! ### What a write should do -/

/-- The acknowledgements that the directory has sent to a DMA controller for a line. -/
def Line.acks (x : Line b) (requestor : MachineID) : ℕ :=
  x.sent.countP fun msg => msg.type = .ACK ∧ msg.destination = requestor

/-- The line of a write is in state `I` again, its DMA controller has one more acknowledgement, and
memory has the value with the bytes of the write. -/
structure Written (msg : RequestMsg b) (value : DataBlock b) (acks : ℕ)
    (s : System b numberOfTBEs) :
    Prop where
  getState_eq : s.directory.getState (makeLineAddress b msg.addr) = .I
  acks_eq : (s.line (makeLineAddress b msg.addr)).acks msg.requestor = acks + 1
  memory_eq : s.memory (makeLineAddress b msg.addr)
    = value.overlay (getOffset b msg.addr).toNat msg.len msg.dataBlk

/-- After any steps of other lines there is a next step as described, and every such step is made
and leads to a state with `P`. -/
def Next (line : Addr) (next : System b numberOfTBEs → Label b → Prop)
    (P : System b numberOfTBEs → Prop) (s : System b numberOfTBEs) : Prop :=
  ∀ s', Others line s s' →
    (∃ l, next s' l) ∧ ∀ l, next s' l → ∃ t, step l s' = .ok t ∧ P t

/-- Memory serves a request of the line. -/
def IsMemory (line : Addr) (s : System b numberOfTBEs) (l : Label b) : Prop :=
  ∃ i, l = .memory i ∧ l.line s = some line

/-- The directory handles an answer of memory for the line. -/
def IsMemoryResponse (line : Addr) (s : System b numberOfTBEs) (l : Label b) : Prop :=
  ∃ i, l = .memoryResponse i ∧ l.line s = some line

/-- Memory serves the request of the write, and the directory handles its answer. -/
def Finishes (msg : RequestMsg b) (value : DataBlock b) (acks : ℕ) (s : System b numberOfTBEs) :
    Prop :=
  Next (makeLineAddress b msg.addr) (IsMemory (makeLineAddress b msg.addr))
    (Next (makeLineAddress b msg.addr) (IsMemoryResponse (makeLineAddress b msg.addr))
      (Written msg value acks)) s

/-- The directory takes the request, handles the data of the owner if there is one, and the write
finishes. -/
def Coherent (msg : RequestMsg b) (data : Option (ResponseMsg b)) (value : DataBlock b)
    (s : System b numberOfTBEs) : Prop :=
  ∃ t, step (.request msg) s = .ok t ∧
    match data with
    | none => Finishes msg value ((s.line (makeLineAddress b msg.addr)).acks msg.requestor) t
    | some d =>
      Next (makeLineAddress b msg.addr) (fun _ l => l = .response d)
        (Finishes msg value ((s.line (makeLineAddress b msg.addr)).acks msg.requestor)) t

/-- How the directory handles a write: the state of its line, the data of the owner, and the value
that the line has before the write. -/
inductive Handled (s : System b numberOfTBEs) (line : Addr) :
    Option (ResponseMsg b) → DataBlock b → Prop
  | I : s.directory.getState line = .I → Handled s line none (s.memory line)
  | M (d : ResponseMsg b) : s.directory.getState line = .M → d.type = .MEMORY_DATA →
      d.addr = line → Handled s line (some d) d.dataBlk

/-! ### The steps of a write -/

abbrev RequestMsg.line (msg : RequestMsg b) : Addr := makeLineAddress b msg.addr

/-- The TBE of a DMA request. -/
def RequestMsg.tbe (msg : RequestMsg b) (state : DirState) : TBE b where
  physicalAddress := msg.addr
  tbeState := state
  dataBlk := msg.dataBlk
  len := msg.len
  requestor := msg.requestor

def RequestMsg.toMemory (msg : RequestMsg b) (sender : MachineID) : MemoryMsg MachineID b where
  addr := msg.addr
  type := .MEMORY_WB
  sender := sender
  dataBlk := msg.dataBlk
  len := msg.len

/-- The answer of memory to it. -/
def RequestMsg.answer (msg : RequestMsg b) (sender : MachineID) : MemoryResponse MachineID b where
  addr := msg.addr
  type := .MEMORY_WB
  originalRequestorMachId := sender

/-- The acknowledgement of a write. -/
def RequestMsg.ack (msg : RequestMsg b) : ResponseMsg b where
  addr := makeLineAddress b msg.addr
  type := .ACK
  destination := msg.requestor

/-- What is sent when memory has acknowledged a write: the owner gets an acknowledgement too. -/
def RequestMsg.acknowledgements (msg : RequestMsg b) (state : DirState) (sender : MachineID) :
    List (ResponseMsg b) :=
  match state with
  | .M_DWRI =>
    [{ addr := makeLineAddress b msg.addr, type := .MEMORY_ACK, sender := .Directory,
       destination := sender }, msg.ack]
  | _ => [msg.ack]

/-- A line while a write is handled. -/
structure Busy (msg : RequestMsg b) (state : DirState) (memory : DataBlock b) (acks : ℕ)
    (x : Line b) :
    Prop where
  state_eq : x.entry.directoryState = state
  tbe_eq : x.tbe = some (msg.tbe state)
  memory_eq : x.memory = memory
  acks_eq : x.acks msg.requestor = acks

section Steps

variable {s : System b numberOfTBEs} {msg : RequestMsg b} {memory : DataBlock b} {acks : ℕ}
  {state : DirState} {line : Addr} {dir : Directory b numberOfTBEs} {r : MemoryResponse MachineID b}
  {sender : MachineID}

/-- In a state without answers to wait for nothing is under way. -/
theorem Line.Inv.idle {x : Line b} (h : x.Inv line) (hx : x.entry.directoryState.pending = 0) :
  x.requests = [] ∧ x.answers = []
  := by
  have hpending := h.pending
  rw [hx, Nat.add_eq_zero_iff, length_eq_zero_iff, length_eq_zero_iff] at hpending
  apply hpending

/-- The state of a line without a TBE. -/
theorem Line.Inv.entry_of_getState (h : (s.line line).Inv line)
    (haligned : makeLineAddress b line = line) (hstate : s.directory.getState line = state)
    (htbe : state.hasTBE = false) :
  (s.directory.entries line).directoryState = state ∧ s.directory.tbes.lookup line = none
  := by
  have hentry : (s.directory.entries line).directoryState = state := by
    rw [← hstate, Directory.getState, Directory.entry, haligned]
    cases ht : s.directory.tbes.lookup line with
    | none => rfl
    | some t => exact (h.tbe_eq t ht).1.symm
  have hnone : (s.directory.tbes.lookup line).isSome = false := by
    rw [← htbe, ← hentry]
    apply h.tbe_isSome
  exact ⟨hentry, Option.isSome_eq_false_iff.mp hnone |> Option.isNone_iff_eq_none.mp⟩

/-- The change of state of a line at its own address. -/
theorem Directory.setState_line (dir : Directory b numberOfTBEs) (state : DirState)
    (haligned : makeLineAddress b line = line) :
  (dir.setState line state).entries line = { dir.entry line with directoryState := state }
    ∧ (dir.setState line state).tbes.lookup line
      = (dir.tbes.lookup line).map fun tbe => { tbe with tbeState := state }
  := by
  constructor
  · rw [setState, setEntry, haligned]
    apply Function.update_self
  · exact setState_lookup.trans (if_pos rfl)

/-- A transition runs the actions of the table and sets the next state. -/
theorem Directory.doTransition_eq {w : DirWork b numberOfTBEs} {next : DirState} {event : DirEvent}
    {actions : List DirAction} (hstate : w.toDirectory.getState w.address = state)
    (hlookup : Slicc.lookup transitions state event = some (next, actions)) :
  machine.doTransition event w
    = actions.foldlM (fun w a => perform a w) w >>= fun w =>
        .ok (some { w with toDirectory := w.toDirectory.setState w.address next })
  := by
  rw [← hstate] at hlookup
  apply Slicc.Machine.doTransition_of_lookup (fun _ => rfl) hlookup

/-- A write is taken in state `I`. -/
theorem Directory.onRequest_I (htype : msg.type = .DMA_WRITE)
    (hstate : dir.getState msg.line = .I) :
  dir.onRequest msg
    = dir.tbes.allocate msg.line (msg.tbe .I) >>= fun tbes =>
        .ok (some
          { toDirectory := { dir with tbes }.setState msg.line .ID_W
            address := msg.line
            requestIn := some msg
            memoryOut := [msg.toMemory .Directory]
            queueOps := [.popRequest] })
  := by
  rw [onRequest, htype]
  refine (doTransition_eq hstate rfl).trans ?_
  simp only [foldlM_cons, foldlM_nil, perform, Slicc.valid, ok_bind, bind_assoc]
  rfl

/-- In state `M` the owner is asked for its data. -/
theorem Directory.onRequest_M (htype : msg.type = .DMA_WRITE)
    (hstate : dir.getState msg.line = .M) :
  dir.onRequest msg
    = dir.tbes.allocate msg.line (msg.tbe .I) >>= fun tbes =>
        .ok (some
          { toDirectory := { dir with tbes }.setState msg.line .M_DWR
            address := msg.line
            requestIn := some msg
            responsesOut := [
              { addr := msg.line
                type := .INV
                sender := .Directory
                destination := (dir.entry msg.line).owner }]
            queueOps := [.popRequest] })
  := by
  rw [onRequest, htype]
  refine (doTransition_eq hstate rfl).trans ?_
  simp only [foldlM_cons, foldlM_nil, perform, Slicc.valid, ok_bind, bind_assoc]
  rfl

variable {d : ResponseMsg b} {m : MemoryMsg MachineID b} {value : DataBlock b}

/-- The data of the owner is answered by the write to memory. -/
theorem Directory.onResponse_M_DWR {tbe : TBE b} (htype : d.type = .MEMORY_DATA)
    (htbe : dir.tbes.lookup d.addr = some tbe) (hstate : tbe.tbeState = .M_DWR) :
  dir.onResponse d
    = .ok (some
        { toDirectory := dir.setState d.addr .M_DWRI
          address := d.addr
          responseIn := some d
          memoryOut := [
            { addr := tbe.physicalAddress
              type := .MEMORY_WB
              sender := d.sender
              dataBlk := tbe.dataBlk
              len := tbe.len }]
          queueOps := [.popResponse] })
  := by
  have hgetState : dir.getState d.addr = .M_DWR := by
    rw [getState, htbe, ← hstate]
  rw [onResponse, htype]
  refine (doTransition_eq hgetState rfl).trans ?_
  simp only [foldlM_cons, foldlM_nil, perform, Slicc.valid, ok_bind, DirWork.tbe, htbe, deref]
  rfl

/-- An acknowledgement of memory for an address without a TBE stops the simulator, in the states in
which a DMA write waits for it. -/
theorem Directory.onMemory_of_lookup_eq_none (htype : r.type = .MEMORY_WB)
    (htbe : dir.tbes.lookup r.addr = none)
    (hstate : (dir.entry r.addr).directoryState = .ID_W
      ∨ (dir.entry r.addr).directoryState = .M_DWRI) :
  dir.onMemory r = .error .assertion
  := by
  have hgetState : dir.getState r.addr = (dir.entry r.addr).directoryState := by
    rw [getState, htbe]
  rw [onMemory, htype]
  rcases hstate with hstate | hstate
  all_goals
    rw [hstate] at hgetState
    refine (doTransition_eq hgetState rfl).trans ?_
    simp only [foldlM_cons, perform, Slicc.valid, ok_bind, error_bind, DirWork.tbe,
      DirWork.respond, htbe]

/-- A write is acknowledged. -/
theorem Directory.onMemory_of_lookup_eq_some {tbes : TBETable (TBE b) b numberOfTBEs}
    (haligned : msg.line = msg.addr) (htbe : dir.tbes.lookup msg.addr = some (msg.tbe state))
    (htbes : dir.tbes.deallocate msg.addr = .ok tbes) (hstate : state = .ID_W ∨ state = .M_DWRI) :
  dir.onMemory (msg.answer sender)
    = .ok (some
        { toDirectory := { dir with tbes }.setState msg.addr .I
          address := msg.addr
          memoryIn := some (msg.answer sender)
          responsesOut := msg.acknowledgements state sender
          queueOps := [.popMemory, .wakeUp] })
  := by
  have hgetState : dir.getState msg.addr = state := by
    rw [getState, htbe, tbe]
  rcases hstate with rfl | rfl
  all_goals
    refine (doTransition_eq hgetState rfl).trans ?_
    simp only [foldlM_cons, foldlM_nil, perform, Slicc.valid, ok_bind, DirWork.tbe, DirWork.respond,
      answer, htbe, htbes, acknowledgements, RequestMsg.ack, haligned]
    rfl

/-- What the system has for a line after a transition. -/
theorem System.after_line (w : DirWork b numberOfTBEs) (line : Addr) :
  (s.after (some w)).line line
    = { s.line line with
        entry := w.entries line
        tbe := w.tbes.lookup line
        requests := (s.line line).requests
          ++ w.memoryOut.filter fun msg => makeLineAddress b msg.addr = line
        sent := (s.line line).sent
          ++ w.responsesOut.filter fun msg => makeLineAddress b msg.addr = line }
  := by
  simp only [System.line, System.after, filter_append]

section

variable (hs : s.Inv) (hsize : s.directory.tbes.size < numberOfTBEs)

include hs hsize

/-- A write whose line has no TBE is given one, if the table has room for it. -/
theorem exists_allocate (hstate : s.directory.getState msg.line = state)
    (hnone : state.hasTBE = false) :
  ∃ tbes, s.directory.tbes.allocate msg.line (msg.tbe .I) = .ok tbes
    ∧ ∀ (w : DirWork b numberOfTBEs) (next : DirState),
      w.toDirectory = { s.directory with tbes }.setState msg.line next →
      w.responsesOut.countP (fun m => m.type = .ACK ∧ m.destination = msg.requestor) = 0 →
      Busy msg next (s.memory msg.line) ((s.line msg.line).acks msg.requestor)
        ((s.after (some w)).line msg.line)
  := by
  have haligned := makeLineAddress_makeLineAddress (b := b) msg.addr
  obtain ⟨-, hlookup⟩ := (hs _ haligned).entry_of_getState haligned hstate hnone
  obtain ⟨tbes, htbes⟩ : ∃ tbes, s.directory.tbes.allocate msg.line
      (msg.tbe .I) = .ok tbes := exists_allocate_eq_ok_iff.mpr ⟨haligned, hlookup, hsize⟩
  obtain ⟨-, -, hafter⟩ := allocate_eq_ok htbes
  refine ⟨tbes, htbes, ?_⟩
  intro w next hw hacks
  have hset := setState_line { s.directory with tbes } next haligned
  rw [System.after_line, hw]
  constructor
  · rw [hset.1]
  · rw [hset.2, hafter, if_pos rfl]
    rfl
  · rfl
  · rw [Line.acks, countP_append, Line.acks, Nat.add_eq_left]
    apply Nat.le_zero.mp
    rw [← hacks]
    apply filter_sublist.countP_le

/-- A write is taken in state `I`. -/
theorem step_request_I (htype : msg.type = .DMA_WRITE)
    (hstate : s.directory.getState msg.line = .I) :
  ∃ t, step (.request msg) s = .ok t
    ∧ Busy msg .ID_W (s.memory msg.line) ((s.line msg.line).acks msg.requestor) (t.line msg.line)
    ∧ (t.line msg.line).requests = [msg.toMemory .Directory]
  := by
  have haligned := makeLineAddress_makeLineAddress (b := b) msg.addr
  obtain ⟨hentry, -⟩ := (hs _ haligned).entry_of_getState haligned hstate rfl
  have hidle := (hs _ haligned).idle (congrArg DirState.pending hentry)
  obtain ⟨tbes, htbes, hbusy⟩ := exists_allocate hs hsize hstate rfl
  rw [step, onRequest_I htype hstate, htbes]
  refine ⟨_, rfl, hbusy _ _ rfl rfl, ?_⟩
  rw [System.after_line]
  simp [hidle.1, toMemory]

/-- In state `M` the owner is asked for its data. -/
theorem step_request_M (htype : msg.type = .DMA_WRITE)
    (hstate : s.directory.getState msg.line = .M) :
  ∃ t, step (.request msg) s = .ok t
    ∧ Busy msg .M_DWR (s.memory msg.line) ((s.line msg.line).acks msg.requestor) (t.line msg.line)
  := by
  obtain ⟨tbes, htbes, hbusy⟩ := exists_allocate hs hsize hstate rfl
  rw [step, onRequest_M htype hstate, htbes]
  exact ⟨_, rfl, hbusy _ _ rfl (by simp)⟩

end

/-- A write is taken only if the table has room for its TBE. -/
theorem size_lt_of_step_request {t : System b numberOfTBEs} {data : Option (ResponseMsg b)}
    (htype : msg.type = .DMA_WRITE) (hhandled : Handled s msg.line data value)
    (h : step (.request msg) s = .ok t) :
  s.directory.tbes.size < numberOfTBEs
  := by
  obtain ⟨r, hr, -⟩ := map_eq_ok.mp h
  cases hhandled with
  | I hstate =>
    rw [onRequest_I htype hstate] at hr
    obtain ⟨tbes, htbes, -⟩ := bind_eq_ok.mp hr
    apply (exists_allocate_eq_ok_iff.mp ⟨tbes, htbes⟩).2.2
  | M d hstate =>
    rw [onRequest_M htype hstate] at hr
    obtain ⟨tbes, htbes, -⟩ := bind_eq_ok.mp hr
    apply (exists_allocate_eq_ok_iff.mp ⟨tbes, htbes⟩).2.2

/-- The data of the owner is answered by the write to memory. -/
theorem step_response (hs : s.Inv) (htype : d.type = .MEMORY_DATA) (haddr : d.addr = msg.line)
    (hbusy : Busy msg .M_DWR memory acks (s.line msg.line)) :
  ∃ t, step (.response d) s = .ok t
    ∧ Busy msg .M_DWRI memory acks (t.line msg.line)
    ∧ (t.line msg.line).requests = [msg.toMemory d.sender]
  := by
  have haligned := makeLineAddress_makeLineAddress (b := b) msg.addr
  have hidle := (hs _ haligned).idle (congrArg DirState.pending hbusy.state_eq)
  have hset := setState_line s.directory .M_DWRI haligned
  have htbe : s.directory.tbes.lookup msg.line = some (msg.tbe .M_DWR) :=
    hbusy.tbe_eq
  rw [← haddr] at htbe
  rw [step, onResponse_M_DWR htype htbe rfl]
  rw [haddr] at htbe ⊢
  refine ⟨_, rfl, ?_, ?_⟩
  · rw [System.after_line]
    constructor
    · rw [hset.1]
    · rw [hset.2, htbe]
      rfl
    · exact hbusy.memory_eq
    · rw [← hbusy.acks_eq]
      simp [Line.acks]
  · rw [System.after_line]
    simp [hidle.1, toMemory, tbe]

/-! ### Memory -/

section Only

variable {α : Type} {l : List α} {f : α → Addr} {a : α}

/-- The only message of a line has a position. -/
theorem exists_getElem?_of_filter_eq (h : l.filter (fun x => f x = line) = [a]) :
  ∃ i : ℕ, l[i]? = some a ∧ f a = line
  := by
  have ha : a ∈ l.filter fun x => f x = line := by
    rw [h]
    apply mem_singleton_self
  obtain ⟨hmem, hline⟩ := mem_filter.mp ha
  obtain ⟨i, hi⟩ := mem_iff_getElem?.mp hmem
  exact ⟨i, hi, of_decide_eq_true hline⟩

/-- A message of the line is the only one, and without it there is none. -/
theorem eq_of_filter_eq {i : ℕ} {a' : α} (hi : l[i]? = some a') (ha' : f a' = line)
    (h : l.filter (fun x => f x = line) = [a]) :
  a' = a ∧ (l.eraseIdx i).filter (fun x => f x = line) = []
  := by
  constructor
  · have hmem : a' ∈ l.filter fun x => f x = line :=
      mem_filter.mpr ⟨mem_of_getElem? hi, decide_eq_true ha'⟩
    rw [h] at hmem
    apply mem_singleton.mp hmem
  · have hlength := length_filter_eraseIdx hi ha'
    rw [h, length_singleton, Nat.add_eq_right] at hlength
    apply length_eq_zero_iff.mp hlength

end Only

/-- Memory serves the only request of a line. -/
theorem step_memory (hrequests : (s.line line).requests = [m]) (hl : IsMemory line s l) :
  (∀ e, m.service (s.memory line) = .error e → step l s = .error e)
    ∧ ∀ block r, m.service (s.memory line) = .ok (block, r) →
      ∃ t, step l s = .ok t
        ∧ t.line line = { s.line line with
          memory := block
          requests := []
          answers := (s.line line).answers ++ [r] }
  := by
  obtain ⟨i, rfl, hl⟩ := hl
  obtain ⟨m', hi, rfl⟩ := Option.map_eq_some_iff.mp hl
  obtain ⟨rfl, hnone⟩ := eq_of_filter_eq hi rfl hrequests
  constructor
  · intro e he
    simp only [step, hi, he, error_bind]
  · intro block r hservice
    simp only [step, hi, hservice, ok_bind]
    refine ⟨_, rfl, ?_⟩
    have hr : ∀ x ∈ [r], makeLineAddress b x.addr = makeLineAddress b m'.addr :=
      forall_mem_singleton.mpr (congrArg _ (MemoryMsg.addr_of_service hservice))
    simp only [System.line, Function.update_self, hnone, filter_append_of_eq hr]

theorem exists_isMemory (hrequests : (s.line line).requests = [m]) :
  ∃ l, IsMemory line s l
  := by
  obtain ⟨i, hi, hline⟩ := exists_getElem?_of_filter_eq hrequests
  refine ⟨.memory i, i, rfl, ?_⟩
  rw [Label.line, hi, ← hline]
  rfl

theorem exists_isMemoryResponse (hanswers : (s.line line).answers = [r]) :
  ∃ l, IsMemoryResponse line s l
  := by
  obtain ⟨i, hi, hline⟩ := exists_getElem?_of_filter_eq hanswers
  refine ⟨.memoryResponse i, i, rfl, ?_⟩
  rw [Label.line, hi, ← hline]
  rfl

/-- The directory handles the only answer of memory for a line. -/
theorem step_memoryResponse (hanswers : (s.line line).answers = [r])
    (hl : IsMemoryResponse line s l) :
  ∃ i, step l s
    = ({ s with memoryResponses := s.memoryResponses.eraseIdx i } : System b numberOfTBEs).after
      <$> s.directory.onMemory r
  := by
  obtain ⟨i, rfl, hl⟩ := hl
  obtain ⟨r', hi, rfl⟩ := Option.map_eq_some_iff.mp hl
  obtain ⟨rfl, -⟩ := eq_of_filter_eq hi rfl hanswers
  use i
  simp only [step, hi]

section

variable (hstate : state = .ID_W ∨ state = .M_DWRI)
  (hbusy : Busy msg state memory acks (s.line msg.line))
  (hanswers : (s.line msg.line).answers = [msg.answer sender]) (hl : IsMemoryResponse msg.line s l)

include hstate hbusy hanswers hl

/-- The acknowledgement of memory fails an assertion if the write does not start with its line. -/
theorem step_memoryResponse_error (hoffset : msg.line ≠ msg.addr) :
  step l s = .error .assertion
  := by
  obtain ⟨i, hstep⟩ := step_memoryResponse hanswers hl
  have htbe : s.directory.tbes.lookup msg.addr = none := by
    apply Option.eq_none_iff_forall_ne_some.mpr
    intro t ht
    apply hoffset (aligned_of_lookup ht)
  have hentry : (s.directory.entry msg.addr).directoryState = state := hbusy.state_eq
  rw [← hentry] at hstate
  rw [hstep, onMemory_of_lookup_eq_none rfl htbe hstate]
  rfl

/-- Otherwise the write is acknowledged. -/
theorem step_memoryResponse_ok (hoffset : msg.line = msg.addr) :
  ∃ t, step l s = .ok t
    ∧ t.directory.getState msg.line = .I
    ∧ (t.line msg.line).acks msg.requestor = acks + 1
    ∧ t.memory msg.line = memory
  := by
  obtain ⟨i, hstep⟩ := step_memoryResponse hanswers hl
  rw [hoffset] at hbusy ⊢
  obtain ⟨tbes, htbes⟩ := exists_deallocate_eq_ok hbusy.tbe_eq
  obtain ⟨-, hlookup⟩ := deallocate_eq_ok htbes
  have hset := setState_line { s.directory with tbes } .I hoffset
  rw [hstep, onMemory_of_lookup_eq_some hoffset hbusy.tbe_eq htbes hstate]
  refine ⟨_, rfl, ?_, ?_, hbusy.memory_eq⟩
  · simp only [System.after, getState, entry, hoffset, hset.1, hset.2, hlookup,
      if_pos, Option.map_none]
  · rw [← hbusy.acks_eq, System.after_line]
    rcases hstate with rfl | rfl
    all_goals simp [Line.acks, acknowledgements, RequestMsg.ack, hoffset, System.line]

/-! ### The whole write -/

end

theorem reqSize_toMemory_le (hoffset : (getOffset b msg.addr).toNat = 0)
    (hinside : (getOffset b msg.addr).toNat + msg.len ≤ 2 ^ b) :
  (getOffset b msg.addr).toNat + (msg.toMemory sender).reqSize ≤ 2 ^ b
  := by
  rw [hoffset, Nat.zero_add] at hinside ⊢
  rw [MemoryMsg.reqSize]
  split_ifs
  · apply hinside
  · apply le_refl

/-- When the bytes that a write leaves in memory are right. -/
theorem write_toMemory_eq_iff (sender : MachineID) (hoffset : (getOffset b msg.addr).toNat = 0) :
  (msg.toMemory sender).write memory
      = value.overlay (getOffset b msg.addr).toNat msg.len msg.dataBlk
    ↔ if msg.len = 0 then msg.dataBlk = value else ∀ i, msg.len ≤ i.val → memory i = value i
  := by
  have hwrite : (msg.toMemory sender).write memory
      = memory.overlay (getOffset b msg.addr).toNat (if 0 < msg.len then msg.len else 2 ^ b)
        msg.dataBlk := rfl
  rw [hwrite, hoffset]
  by_cases hlen : msg.len = 0
  · have hnone : value.overlay 0 msg.len msg.dataBlk = value := by
      funext i
      rw [overlay, if_neg]
      omega
    rw [if_pos hlen, if_neg (Nat.not_lt.mpr hlen.le), overlay_all, hnone]
  · rw [if_neg hlen, if_pos (Nat.pos_of_ne_zero hlen)]
    constructor
    · intro h i hi
      have hbyte := congrFun h i
      rw [overlay, overlay, if_neg, if_neg] at hbyte
      · apply hbyte
      · omega
      · omega
    · intro h
      funext i
      rw [overlay, overlay]
      split_ifs
      · rfl
      · apply h
        omega

/-- Once its request to memory is under way, a write finishes as it should exactly if it starts with
its line, and what it leaves in memory is right. -/
theorem finishes_iff (hs : s.Inv) (hinside : (getOffset b msg.addr).toNat + msg.len ≤ 2 ^ b)
    (hstate : state = .ID_W ∨ state = .M_DWRI)
    (hbusy : Busy msg state memory acks (s.line msg.line))
    (hrequests : (s.line msg.line).requests = [msg.toMemory sender]) :
  Finishes msg value acks s
    ↔ (getOffset b msg.addr).toNat = 0
      ∧ if msg.len = 0 then msg.dataBlk = value else ∀ i, msg.len ≤ i.val → memory i = value i
  := by
  rw [← and_congr_right fun hoffset => write_toMemory_eq_iff sender hoffset]
  have haligned := makeLineAddress_makeLineAddress (b := b) msg.addr
  -- What the line looks like when memory has served the request.
  have hserved : ∀ {s' : System b numberOfTBEs} {l : Label b},
      Others msg.line s s' → IsMemory msg.line s' l →
      (getOffset b msg.addr).toNat + (msg.toMemory sender).reqSize ≤ 2 ^ b →
      ∃ t, step l s' = .ok t ∧ t.Inv
        ∧ Busy msg state ((msg.toMemory sender).write memory) acks (t.line msg.line)
        ∧ (t.line msg.line).answers = [msg.answer sender] := by
    intro s' l hothers hl hfits
    obtain ⟨hs', hline⟩ := hothers.line_eq haligned hs
    rw [← hline] at hbusy hrequests
    have hmemory : s'.memory msg.line = memory := hbusy.memory_eq
    have hanswers : (s'.line msg.line).answers = [] := by
      have hpending := (hs' _ haligned).pending
      rw [hrequests, hbusy.state_eq] at hpending
      rcases hstate with rfl | rfl
      all_goals exact length_eq_zero_iff.mp (Nat.add_left_cancel hpending)
    obtain ⟨t, ht, htline⟩ := (step_memory hrequests hl).2 _ _
      ((MemoryMsg.service_write rfl).trans (if_pos hfits))
    rw [hmemory, hanswers] at htline
    refine ⟨t, ht, step_inv hs' ht, ?_, ?_⟩
    · rw [htline]
      exact ⟨hbusy.state_eq, hbusy.tbe_eq, rfl, hbusy.acks_eq⟩
    · rw [htline]
      rfl
  constructor
  · intro hfinishes
    obtain ⟨⟨l, hl⟩, hnext⟩ := hfinishes s (refl s)
    obtain ⟨t, ht, hnext⟩ := hnext l hl
    have hfits : (getOffset b msg.addr).toNat + (msg.toMemory sender).reqSize ≤ 2 ^ b := by
      by_contra hfits
      rw [(step_memory hrequests hl).1 _ ((MemoryMsg.service_write rfl).trans (if_neg hfits))] at ht
      cases ht
    obtain ⟨t', ht', -, hbusy', hanswers⟩ := hserved (refl s) hl hfits
    cases ht.symm.trans ht'
    obtain ⟨⟨l', hl'⟩, hwritten⟩ := hnext t (refl t)
    obtain ⟨u, hu, hwritten⟩ := hwritten l' hl'
    by_cases hoffset : msg.line = msg.addr
    · obtain ⟨u', hu', -, -, hmemory⟩ :=
        step_memoryResponse_ok hstate hbusy' hanswers hl' hoffset
      cases hu.symm.trans hu'
      exact ⟨makeLineAddress_eq_self_iff.mp hoffset, hmemory.symm.trans hwritten.memory_eq⟩
    · rw [step_memoryResponse_error hstate hbusy' hanswers hl' hoffset] at hu
      cases hu
  · rintro ⟨hoffset, hvalue⟩ s' hothers
    obtain ⟨-, hline⟩ := hothers.line_eq haligned hs
    constructor
    · rw [← hline] at hrequests
      apply exists_isMemory hrequests
    · intro l hl
      obtain ⟨t, ht, htinv, hbusy', hanswers⟩ :=
        hserved hothers hl (reqSize_toMemory_le hoffset hinside)
      refine ⟨t, ht, ?_⟩
      intro t' hothers'
      obtain ⟨-, hline'⟩ := hothers'.line_eq haligned htinv
      rw [← hline'] at hbusy' hanswers
      refine ⟨exists_isMemoryResponse hanswers, ?_⟩
      intro l' hl'
      obtain ⟨u, hu, hI, hacks, hmemory⟩ := step_memoryResponse_ok hstate hbusy'
        hanswers hl' (makeLineAddress_eq_self_iff.mpr hoffset)
      exact ⟨u, hu, hI, hacks, hmemory.trans hvalue⟩

/-- A DMA write is handled as it should be exactly if there is room for its TBE, it starts with its
line, and memory is right about the bytes that are not written. A write of length 0 is taken for one
of the whole line. -/
theorem dmaWrite_coherent_iff {data : Option (ResponseMsg b)} {value : DataBlock b} (hs : s.Reached)
    (htype : msg.type = .DMA_WRITE) (hinside : (getOffset b msg.addr).toNat + msg.len ≤ 2 ^ b)
    (hhandled : Handled s (makeLineAddress b msg.addr) data value) :
  Coherent msg data value s
    ↔ s.directory.tbes.size < numberOfTBEs ∧ (getOffset b msg.addr).toNat = 0
      ∧ if msg.len = 0 then msg.dataBlk = value
        else ∀ i, msg.len ≤ i.val → s.memory (makeLineAddress b msg.addr) i = value i
  := by
  have haligned := makeLineAddress_makeLineAddress (b := b) msg.addr
  have hinv := hs.inv
  by_cases hsize : s.directory.tbes.size < numberOfTBEs
  · rw [and_iff_right hsize]
    cases hhandled with
    | I hstate =>
      obtain ⟨t, ht, hbusy, hrequests⟩ := step_request_I hinv hsize htype hstate
      rw [← finishes_iff (step_inv hinv ht) hinside (Or.inl rfl) hbusy hrequests]
      constructor
      · rintro ⟨t', ht', hfinishes⟩
        cases ht.symm.trans ht'
        apply hfinishes
      · intro hfinishes
        exact ⟨t, ht, hfinishes⟩
    | M d hstate hdata haddr =>
      obtain ⟨t, ht, hbusy⟩ := step_request_M hinv hsize htype hstate
      have htinv := step_inv hinv ht
      constructor
      · rintro ⟨t', ht', hnext⟩
        cases ht.symm.trans ht'
        obtain ⟨u, hu, hfinishes⟩ := (hnext t (refl t)).2 (.response d) rfl
        obtain ⟨u', hu', hbusy', hrequests⟩ := step_response htinv hdata haddr hbusy
        cases hu.symm.trans hu'
        apply (finishes_iff (step_inv htinv hu) hinside (Or.inr rfl) hbusy' hrequests).mp hfinishes
      · intro hcond
        refine ⟨t, ht, ?_⟩
        intro t' hothers
        refine ⟨⟨.response d, rfl⟩, ?_⟩
        rintro l rfl
        obtain ⟨ht'inv, hline⟩ := hothers.line_eq haligned htinv
        rw [← hline] at hbusy
        obtain ⟨u, hu, hbusy', hrequests⟩ := step_response ht'inv hdata haddr hbusy
        refine ⟨u, hu, ?_⟩
        apply (finishes_iff (step_inv ht'inv hu) hinside (Or.inr rfl) hbusy' hrequests).mpr hcond
  · apply iff_of_false _ fun h => hsize h.1
    rintro ⟨t, ht, -⟩
    apply hsize (size_lt_of_step_request htype hhandled ht)

end Steps

/-! ### Writes that go right and writes that go wrong -/

/-- A DMA write of one byte, for lines of two bytes. -/
def byteWrite (addr : Addr) : RequestMsg 1 where
  addr := addr
  type := .DMA_WRITE
  requestor := .DMA 0
  dataBlk := fun _ => 7#8
  len := 1

/-- A write of the first byte of a line goes right. -/
theorem dmaWrite_coherent_first :
  Coherent (byteWrite 0) none DataBlock.clear ({} : System 1 1)
  := by
  apply (dmaWrite_coherent_iff ⟨_, refl _⟩ rfl (by decide) (.I rfl)).mpr
  refine ⟨by decide, by decide, ?_⟩
  intro i _
  rfl

/-- Steps after which an L2 cache has line 0. -/
def owned : List (Label 1) :=
  [.request { addr := 0, type := .GETX, requestor := .L2Cache 0 }, .memory 0, .memoryResponse 0]

/-- The data of the owner, which has written the second byte. -/
def dirty : ResponseMsg 1 where
  addr := 0
  type := .MEMORY_DATA
  sender := .L2Cache 0
  destination := .Directory
  dataBlk := fun i => if i = 1 then 9#8 else 0#8

/-- A write of the second byte of a line in state `I` fails an assertion. A write of the first byte
of a line in state `M` is acknowledged, and the byte that the owner has written is lost. -/
theorem dmaWrite_wrong :
  Lib.exec step [.request (byteWrite 1), .memory 0, .memoryResponse 0] ({} : System 1 1)
      = .error .assertion
    ∧ ∃ s t : System 1 1, Lib.exec step owned {} = .ok s ∧ s.directory.getState 0 = .M
      ∧ Lib.exec step [.request (byteWrite 0), .response dirty, .memory 0, .memoryResponse 0] s
        = .ok t
      ∧ t.directory.getState 0 = .I ∧ (t.line 0).acks (.DMA 0) = 1
      ∧ t.memory 0 1 = 0 ∧ dirty.dataBlk.overlay 0 1 (byteWrite 0).dataBlk 1 = 9
  := by
  refine ⟨rfl, _, _, rfl, rfl, rfl, rfl, rfl, rfl, rfl⟩

end Gem5Arc.MESITwoLevel
