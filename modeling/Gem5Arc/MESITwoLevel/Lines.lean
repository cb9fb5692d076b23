import Gem5Arc.Lib.Run
import Gem5Arc.MESITwoLevel.Directory

/-!
# The lines of the directory

A step of the directory or of its memory is about one line. It leaves what the system has for the
other lines as it is, and keeps an invariant of its own line (`step_line`, `step_inv`): the
state of a line tells whether it has a TBE, and whether memory owes it an answer.

Which actions allocate a TBE, give it back, need one, or send a request to memory is read off the
actions. That the transitions fit together is then a check of their table (`transitions_fit`).
-/

namespace Gem5Arc.MESITwoLevel

open Directory List Slicc TBETable

/-! ### What a state says -/

/-- Whether a line in the state has a TBE. -/
def DirState.hasTBE : DirState → Bool
  | .ID | .ID_W | .M_DRD | .M_DWR | .M_DWRI => true
  | .I | .M | .IM | .MI | .M_DRDI => false

/-- The number of answers that memory owes a line in the state. -/
def DirState.pending : DirState → ℕ
  | .ID | .ID_W | .IM | .MI | .M_DRDI | .M_DWRI => 1
  | .I | .M | .M_DRD | .M_DWR => 0

/-- The number of answers of memory that an event takes. -/
def DirEvent.answers : DirEvent → ℕ
  | .Memory_Data | .Memory_Ack => 1
  | _ => 0

namespace DirAction

/-- Whether there is a TBE after an action. -/
def tbeAfter : DirAction → Bool → Bool
  | .v_allocateTBE, _ => true
  | .w_deallocateTBE, _ => false
  | _, tbe => tbe

/-- The number of requests to memory of an action. -/
def requests : DirAction → ℕ
  | .qf_queueMemoryFetchRequest | .qw_queueMemoryWBRequest | .qf_queueMemoryFetchRequestDMA
  | qw_queueMemoryWBRequest_partial | .qw_queueMemoryWBRequest_partialTBE => 1
  | _ => 0

/-- Whether an action works on the TBE of the address of the event, which has to be the address of a
line then. -/
def needsTBE : DirAction → Bool
  | .v_allocateTBE | .w_deallocateTBE | .dr_sendDMAData | .da_sendDMAAck | .drp_sendDMAData
  | .qw_queueMemoryWBRequest_partialTBE => true
  | _ => false

end DirAction

/-- The next state says of TBE and answers what the actions leave, and a transition to another state
with a TBE works on the TBE. -/
structure Fits (state next : DirState) (event : DirEvent) (actions : List DirAction) : Prop where
  hasTBE : actions.foldl (fun tbe action => action.tbeAfter tbe) state.hasTBE = next.hasTBE
  pending : next.pending + event.answers = state.pending + (actions.map DirAction.requests).sum
  needsTBE : next.hasTBE → next = state ∨ ∃ a ∈ actions, a.needsTBE

instance (state next : DirState) (event : DirEvent) (actions : List DirAction) :
    Decidable (Fits state next event actions) :=
  decidable_of_iff (_ ∧ _ ∧ _) ⟨fun h => ⟨h.1, h.2.1, h.2.2⟩, fun h => ⟨h.1, h.2, h.3⟩⟩

theorem transitions_fit :
  ∀ t ∈ transitions, ∀ state ∈ t.states, ∀ event ∈ t.events,
    Fits state (t.next.getD state) event t.actions
  := by
  decide

variable {b numberOfTBEs : ℕ} {msg : ResponseMsg b} {t : TBE b}

/-! ### The actions of a transition -/

/-- The line of the event. -/
def DirWork.line (w : DirWork b numberOfTBEs) : Addr := makeLineAddress b w.address

/-- `Along w₀ tbe n w`: actions that have sent `n` requests to memory lead from `w₀` to `w`, where
the line of the event has a TBE if `tbe` says so. They leave the other lines alone. -/
structure Along (w₀ : DirWork b numberOfTBEs) (tbe : Bool) (n : ℕ) (w : DirWork b numberOfTBEs) :
    Prop where
  address_eq : w.address = w₀.address
  request_line : ∀ msg, w.requestIn = some msg → makeLineAddress b msg.addr = w₀.line
  memory_line : ∀ msg, w.memoryIn = some msg → makeLineAddress b msg.addr = w₀.line
  entries_eq : ∀ line, line ≠ w₀.line → w.entries line = w₀.entries line
  lookup_eq : ∀ addr, addr ≠ w₀.address → w.tbes.lookup addr = w₀.tbes.lookup addr
  tbe_isSome : (w.tbes.lookup w₀.line).isSome = tbe
  tbe_line : ∀ t, w.tbes.lookup w₀.line = some t → makeLineAddress b t.physicalAddress = w₀.line
  memoryOut_length : w.memoryOut.length = n
  memoryOut_line : ∀ msg ∈ w.memoryOut, makeLineAddress b msg.addr = w₀.line
  responsesOut_line : ∀ msg ∈ w.responsesOut, makeLineAddress b msg.addr = w₀.line

namespace Along

variable {w₀ w w' : DirWork b numberOfTBEs} {tbe : Bool} {n : ℕ} (h : Along w₀ tbe n w)

include h

theorem respond (hmsg : msg.addr = w.address) :
  Along w₀ tbe n (w.respond msg)
  where
  __ := h
  responsesOut_line := by
    apply forall_mem_append.mpr ⟨h.responsesOut_line, forall_mem_singleton.mpr _⟩
    rw [hmsg, h.address_eq, DirWork.line]

theorem queueMemory {msg : MemoryMsg MachineID b} (hmsg : makeLineAddress b msg.addr = w₀.line) :
  Along w₀ tbe (n + 1) (w.queueMemory msg)
  where
  __ := h
  memoryOut_length := by
    rw [← h.memoryOut_length]
    apply List.length_append
  memoryOut_line := by
    exact forall_mem_append.mpr ⟨h.memoryOut_line, forall_mem_singleton.mpr (by rw [hmsg])⟩

theorem queueOp (op : QueueOp) :
  Along w₀ tbe n (w.queueOp op)
  where
  __ := h

theorem setEntry {addr : Addr} {e : Entry} (haddr : makeLineAddress b addr = w₀.line) :
  Along w₀ tbe n { w with toDirectory := w.toDirectory.setEntry addr e }
  where
  __ := h
  entries_eq := by
    intro line hline
    rw [← h.entries_eq line hline]
    apply Function.update_of_ne
    rw [haddr]
    apply hline

/-- The line of an address with a TBE is the address. -/
theorem line_eq (ht : w.tbe = some t) :
  w₀.line = w₀.address
  := by
  rw [DirWork.tbe, h.address_eq] at ht
  apply aligned_of_lookup ht

variable {tbes : TBETable (TBE b) b numberOfTBEs}

/-- A change of the TBE of the line. -/
theorem setTBEs {entry : Option (TBE b)}
    (hlookup : ∀ addr, tbes.lookup addr = if addr = w₀.address then entry else w.tbes.lookup addr)
    (hline : w₀.line = w₀.address)
    (hentry : ∀ t, entry = some t → makeLineAddress b t.physicalAddress = w₀.line) :
  Along w₀ entry.isSome n { w with tbes }
  := by
  have hself := (hlookup w₀.line).trans (if_pos hline)
  refine { h with lookup_eq := ?_, tbe_isSome := ?_, tbe_line := ?_ }
  · intro addr haddr
    rw [← h.lookup_eq addr haddr]
    exact (hlookup addr).trans (if_neg haddr)
  · exact congrArg Option.isSome hself
  · intro t ht
    apply hentry t (hself.symm.trans ht)

theorem allocate (ht : makeLineAddress b t.physicalAddress = w₀.line)
    (hallocate : w.tbes.allocate w.address t = .ok tbes) :
  w₀.line = w₀.address ∧ Along w₀ true n { w with tbes }
  := by
  rw [h.address_eq] at hallocate
  obtain ⟨hline, -, hlookup⟩ := allocate_eq_ok hallocate
  refine ⟨hline, h.setTBEs hlookup hline ?_⟩
  rintro t' ⟨⟩
  apply ht

theorem deallocate (hdeallocate : w.tbes.deallocate w.address = .ok tbes) :
  w₀.line = w₀.address ∧ Along w₀ false n { w with tbes }
  := by
  obtain ⟨hsome, hlookup⟩ := deallocate_eq_ok hdeallocate
  obtain ⟨t, ht⟩ := Option.isSome_iff_exists.mp hsome
  have hline := h.line_eq ht
  rw [h.address_eq] at hlookup
  exact ⟨hline, h.setTBEs hlookup hline nofun⟩

/-- What an action does. -/
theorem perform {a : DirAction} (ha : perform a w = .ok w') :
  Along w₀ (a.tbeAfter tbe) (n + a.requests) w' ∧ (a.needsTBE → w₀.line = w₀.address)
  := by
  cases a with
  | a_sendAck | aa_sendAck | inv_sendCacheInvalidate =>
    obtain ⟨msg, -, ha⟩ := valid_bind_eq_ok.mp ha
    cases ha
    exact ⟨h.respond rfl, Bool.noConfusion⟩
  | d_sendData =>
    obtain ⟨msg, hmsg, ha⟩ := valid_bind_eq_ok.mp ha
    cases ha
    exact ⟨(h.respond rfl).setEntry (h.memory_line msg hmsg), Bool.noConfusion⟩
  | j_popIncomingRequestQueue | k_popIncomingResponseQueue | l_popMemQueue | kd_wakeUpDependents
  | z_stallAndWaitRequest | zz_recycleDMAQueue =>
    cases ha
    exact ⟨h.queueOp _, Bool.noConfusion⟩
  | qf_queueMemoryFetchRequest | qw_queueMemoryWBRequest | qf_queueMemoryFetchRequestDMA =>
    obtain ⟨msg, -, ha⟩ := valid_bind_eq_ok.mp ha
    cases ha
    refine ⟨h.queueMemory ?_, Bool.noConfusion⟩
    rw [h.address_eq, DirWork.line]
  | dr_sendDMAData | drp_sendDMAData =>
    obtain ⟨msg, -, ha⟩ := valid_bind_eq_ok.mp ha
    obtain ⟨t, ht, ha⟩ := valid_bind_eq_ok.mp ha
    cases ha
    exact ⟨h.respond rfl, fun _ => h.line_eq ht⟩
  | qw_queueMemoryWBRequest_partial =>
    obtain ⟨msg, hmsg, ha⟩ := valid_bind_eq_ok.mp ha
    cases ha
    exact ⟨h.queueMemory (h.request_line msg hmsg), Bool.noConfusion⟩
  | da_sendDMAAck =>
    obtain ⟨t, ht, ha⟩ := valid_bind_eq_ok.mp ha
    cases ha
    exact ⟨h.respond rfl, fun _ => h.line_eq ht⟩
  | v_allocateTBE =>
    obtain ⟨msg, hmsg, ha⟩ := valid_bind_eq_ok.mp ha
    obtain ⟨tbes, htbes, ha⟩ := bind_eq_ok.mp ha
    cases ha
    obtain ⟨hline, h'⟩ := h.allocate (h.request_line msg hmsg) htbes
    exact ⟨h', fun _ => hline⟩
  | qw_queueMemoryWBRequest_partialTBE =>
    obtain ⟨msg, -, ha⟩ := valid_bind_eq_ok.mp ha
    obtain ⟨t, ht, ha⟩ := deref_bind_eq_ok.mp ha
    cases ha
    have hline := h.line_eq ht
    refine ⟨h.queueMemory (h.tbe_line t ?_), fun _ => hline⟩
    rw [hline, ← h.address_eq]
    apply ht
  | w_deallocateTBE =>
    obtain ⟨tbes, htbes, ha⟩ := bind_eq_ok.mp ha
    cases ha
    obtain ⟨hline, h'⟩ := h.deallocate htbes
    exact ⟨h', fun _ => hline⟩

/-- What the actions of a transition do. -/
theorem foldlM {actions : List DirAction}
    (hactions : actions.foldlM (fun w a => Directory.perform a w) w = .ok w') :
  Along w₀ (actions.foldl (fun tbe a => a.tbeAfter tbe) tbe)
      (n + (actions.map DirAction.requests).sum) w'
    ∧ ∀ a ∈ actions, a.needsTBE → w₀.line = w₀.address
  := by
  induction actions generalizing w tbe n with
  | nil =>
    cases hactions
    exact ⟨h, fun a ha => (not_mem_nil ha).elim⟩
  | cons a actions ih =>
    obtain ⟨w₁, hw₁, hactions⟩ := bind_eq_ok.mp hactions
    obtain ⟨h₁, ha⟩ := h.perform hw₁
    obtain ⟨h', hrest⟩ := ih h₁ hactions
    rw [map_cons, sum_cons, ← Nat.add_assoc]
    exact ⟨h', forall_mem_cons.mpr ⟨ha, hrest⟩⟩

end Along

/-! ### A transition -/

namespace Directory

variable {dir : Directory b numberOfTBEs} {addr line : Addr} {state : DirState}

theorem setState_entries :
  (dir.setState addr state).entries (makeLineAddress b addr)
    = { dir.entry addr with directoryState := state }
  := Function.update_self ..

theorem setState_lookup :
  (dir.setState addr state).tbes.lookup line
    = if line = addr then (dir.tbes.lookup line).map fun tbe => { tbe with tbeState := state }
      else dir.tbes.lookup line
  := lookup_modify _

end Directory

/-- The directory has a TBE for a line exactly if the state of the line says so, and the TBE has the
state of the line and an address in it. -/
structure Directory.Agrees (dir : Directory b numberOfTBEs) (line : Addr) : Prop where
  tbe_isSome : (dir.tbes.lookup line).isSome = (dir.entries line).directoryState.hasTBE
  tbe_eq : ∀ t, dir.tbes.lookup line = some t →
    t.tbeState = (dir.entries line).directoryState ∧ makeLineAddress b t.physicalAddress = line

/-- `Begins dir line w`: a transition for an event of a line begins with `w`. -/
structure Begins (dir : Directory b numberOfTBEs) (line : Addr) (w : DirWork b numberOfTBEs) :
    Prop where
  toDirectory_eq : w.toDirectory = dir
  line_eq : w.line = line
  request_line : ∀ msg, w.requestIn = some msg → makeLineAddress b msg.addr = line
  memory_line : ∀ msg, w.memoryIn = some msg → makeLineAddress b msg.addr = line
  memoryOut_eq : w.memoryOut = []
  responsesOut_eq : w.responsesOut = []

/-- `Ends dir line answers w`: a transition for an event of a line, which takes a number of answers
of memory, ends with `w`. -/
structure Ends (dir : Directory b numberOfTBEs) (line : Addr) (answers : ℕ)
    (w : DirWork b numberOfTBEs) :
    Prop where
  agrees : w.toDirectory.Agrees line
  entries_eq : ∀ line', line' ≠ line → w.entries line' = dir.entries line'
  lookup_eq : ∀ line', makeLineAddress b line' = line' → line' ≠ line →
    w.tbes.lookup line' = dir.tbes.lookup line'
  pending : (w.entries line).directoryState.pending + answers
    = (dir.entries line).directoryState.pending + w.memoryOut.length
  memoryOut_line : ∀ msg ∈ w.memoryOut, makeLineAddress b msg.addr = line
  responsesOut_line : ∀ msg ∈ w.responsesOut, makeLineAddress b msg.addr = line

section Transition

variable {dir : Directory b numberOfTBEs} {line : Addr} {w₀ w : DirWork b numberOfTBEs}

theorem Begins.getState_eq (h : Begins dir line w₀) (hdir : dir.Agrees line) :
  w₀.toDirectory.getState w₀.address = (dir.entries line).directoryState
  := by
  rw [h.toDirectory_eq, getState, entry]
  cases ht : dir.tbes.lookup w₀.address with
  | none =>
    rw [← h.line_eq]
    rfl
  | some t =>
    have haddress := (aligned_of_lookup ht).symm.trans h.line_eq
    rw [haddress] at ht
    apply (hdir.tbe_eq t ht).1

theorem Begins.along (h : Begins dir line w₀) (hdir : dir.Agrees line) :
  Along w₀ (dir.entries line).directoryState.hasTBE 0 w₀
  := by
  obtain ⟨rfl, rfl, hrequest, hmemory, hmemoryOut, hresponsesOut⟩ := h
  refine ⟨rfl, hrequest, hmemory, fun _ _ => rfl, fun _ _ => rfl, hdir.tbe_isSome,
    fun t ht => (hdir.tbe_eq t ht).2, ?_, ?_, ?_⟩
  · rw [hmemoryOut, length_nil]
  · rw [hmemoryOut]
    apply forall_mem_nil
  · rw [hresponsesOut]
    apply forall_mem_nil

/-- The change of state after the actions. -/
theorem Along.setState {state next : DirState} {n : ℕ} (h : Along w₀ next.hasTBE n w)
    (hchange : w₀.line = w₀.address ∨ next = state ∨ next.hasTBE = false)
    (hbefore : ∀ t, w₀.tbes.lookup w₀.line = some t → t.tbeState = state) :
  (w.toDirectory.setState w.address next).Agrees w₀.line
  := by
  have hentry : (w.toDirectory.setState w.address next).entries w₀.line
      = { w.toDirectory.entry w.address with directoryState := next } := by
    rw [DirWork.line, ← h.address_eq]
    apply setState_entries
  constructor
  · rw [hentry, setState_lookup, ← h.tbe_isSome]
    split_ifs with hline
    · apply Option.isSome_map
    · rfl
  · intro t ht
    rw [hentry]
    rw [setState_lookup] at ht
    split_ifs at ht with hline
    · obtain ⟨t', ht', rfl⟩ := Option.map_eq_some_iff.mp ht
      exact ⟨rfl, h.tbe_line t' ht'⟩
    · refine ⟨?_, h.tbe_line t ht⟩
      rw [h.address_eq] at hline
      rcases hchange with haddress | rfl | hnext
      · cases hline haddress
      · apply hbefore
        rw [← h.lookup_eq _ hline]
        apply ht
      · have hsome := h.tbe_isSome
        rw [ht, hnext] at hsome
        cases hsome

variable {r : Option (DirWork b numberOfTBEs)}

/-- What a transition does. -/
theorem Begins.ends {event : DirEvent} (h : Begins dir line w₀) (hdir : dir.Agrees line)
    (hr : Directory.machine.doTransition event w₀ = .ok r) :
  ∃ w, r = some w ∧ Ends dir line event.answers w
  := by
  have hgetState : Directory.machine.getState w₀ = (dir.entries line).directoryState :=
    h.getState_eq hdir
  cases hlookup : lookup Directory.machine.transitions
      (Directory.machine.getState w₀) event with
  | none =>
    rw [Slicc.Machine.doTransition, hlookup] at hr
    cases hr
  | some nextActions =>
    obtain ⟨next, actions⟩ := nextActions
    rw [Slicc.Machine.doTransition_of_lookup (fun _ => rfl) hlookup] at hr
    rw [hgetState] at hlookup
    obtain ⟨t, ht, hstate, hevent, rfl, rfl⟩ := lookup_eq_some hlookup
    have hfits := transitions_fit t ht _ hstate event hevent
    obtain ⟨w, hw, hr⟩ := bind_eq_ok.mp hr
    cases hr
    obtain ⟨halong, hneeds⟩ := (h.along hdir).foldlM hw
    rw [hfits.hasTBE] at halong
    have hchange : w₀.line = w₀.address
        ∨ t.next.getD (dir.entries line).directoryState = (dir.entries line).directoryState
        ∨ (t.next.getD (dir.entries line).directoryState).hasTBE = false := by
      by_cases hnext : (t.next.getD (dir.entries line).directoryState).hasTBE = true
      · rcases hfits.needsTBE hnext with hsame | ⟨a, ha, hneedsTBE⟩
        · exact Or.inr (Or.inl hsame)
        · exact Or.inl (hneeds a ha hneedsTBE)
      · exact Or.inr (Or.inr (Bool.eq_false_iff.mpr hnext))
    have hbefore : ∀ tbe, w₀.tbes.lookup w₀.line = some tbe →
        tbe.tbeState = (dir.entries line).directoryState := by
      intro tbe htbe
      rw [h.toDirectory_eq, h.line_eq] at htbe
      apply (hdir.tbe_eq tbe htbe).1
    have hagrees := halong.setState hchange hbefore
    rw [h.line_eq] at hagrees
    refine ⟨_, rfl, hagrees, ?_, ?_, ?_, ?_, ?_⟩
    · intro line' hline'
      have hne : line' ≠ makeLineAddress b w.address := by
        rw [halong.address_eq, ← DirWork.line, h.line_eq]
        apply hline'
      rw [← h.line_eq] at hline'
      rw [← h.toDirectory_eq, ← halong.entries_eq line' hline']
      exact Function.update_of_ne hne ..
    · intro line' haligned hline'
      have hne : line' ≠ w₀.address := by
        rintro rfl
        apply hline'
        rw [← h.line_eq, DirWork.line, haligned]
      have hne' : line' ≠ w.address := by
        rw [halong.address_eq]
        apply hne
      rw [← h.toDirectory_eq, ← halong.lookup_eq line' hne]
      exact Directory.setState_lookup.trans (if_neg hne')
    · have hentry : ((w.toDirectory.setState w.address
          (t.next.getD (dir.entries line).directoryState)).entries line).directoryState
          = t.next.getD (dir.entries line).directoryState := by
        rw [← h.line_eq, DirWork.line, ← halong.address_eq, Directory.setState_entries]
      have hlength := halong.memoryOut_length
      have hpending := hfits.pending
      simp only [hentry]
      omega
    · rw [← h.line_eq]
      apply halong.memoryOut_line
    · rw [← h.line_eq]
      apply halong.responsesOut_line

/-- A request from the network makes a transition. -/
theorem Directory.ends_of_onRequest {msg : RequestMsg b}
    (hdir : dir.Agrees (makeLineAddress b msg.addr)) (h : dir.onRequest msg = .ok r) :
  ∃ w, r = some w ∧ Ends dir (makeLineAddress b msg.addr) 0 w
  := by
  have hself : ∀ msg', some msg = some msg' →
      makeLineAddress b msg'.addr = makeLineAddress b msg.addr := by
    rintro msg' ⟨⟩
    rfl
  rw [onRequest] at h
  split at h
  case h_6 => cases h
  case h_4 | h_5 =>
    apply Begins.ends _ hdir h
    exact ⟨rfl, makeLineAddress_makeLineAddress _, hself, nofun, rfl, rfl⟩
  all_goals
    apply Begins.ends _ hdir h
    exact ⟨rfl, rfl, hself, nofun, rfl, rfl⟩

/-- So does a response. -/
theorem Directory.ends_of_onResponse (hdir : dir.Agrees (makeLineAddress b msg.addr))
    (h : dir.onResponse msg = .ok r) :
  ∃ w, r = some w ∧ Ends dir (makeLineAddress b msg.addr) 0 w
  := by
  rw [onResponse] at h
  split at h
  · apply Begins.ends _ hdir h
    exact ⟨rfl, rfl, nofun, nofun, rfl, rfl⟩
  · apply Begins.ends _ hdir h
    exact ⟨rfl, rfl, nofun, nofun, rfl, rfl⟩
  · cases h

/-- So does an answer of memory. -/
theorem Directory.ends_of_onMemory {msg : MemoryResponse MachineID b}
    (hdir : dir.Agrees (makeLineAddress b msg.addr)) (h : dir.onMemory msg = .ok r) :
  ∃ w, r = some w ∧ Ends dir (makeLineAddress b msg.addr) 1 w
  := by
  rw [onMemory] at h
  split at h
  all_goals
    apply Begins.ends _ hdir h
    refine ⟨rfl, rfl, nofun, ?_, rfl, rfl⟩
    rintro _ ⟨⟩
    rfl

end Transition

/-! ### What the system has for a line -/

/-- The entry and the TBE of a line, its bytes in memory, what is under way between the directory
and memory for it, and what the directory has sent for it. -/
structure Line (b : ℕ) where
  entry : Entry
  tbe : Option (TBE b)
  memory : DataBlock b
  requests : List (MemoryMsg MachineID b)
  answers : List (MemoryResponse MachineID b)
  sent : List (ResponseMsg b)

def System.line (s : System b numberOfTBEs) (line : Addr) : Line b where
  entry := s.directory.entries line
  tbe := s.directory.tbes.lookup line
  memory := s.memory line
  requests := s.memoryRequests.filter fun msg => makeLineAddress b msg.addr = line
  answers := s.memoryResponses.filter fun msg => makeLineAddress b msg.addr = line
  sent := s.responses.filter fun msg => makeLineAddress b msg.addr = line

/-- The state of a line tells whether it has a TBE, and whether memory owes it an answer. -/
structure Line.Inv (line : Addr) (x : Line b) : Prop where
  tbe_isSome : x.tbe.isSome = x.entry.directoryState.hasTBE
  tbe_eq : ∀ t, x.tbe = some t →
    t.tbeState = x.entry.directoryState ∧ makeLineAddress b t.physicalAddress = line
  pending : x.requests.length + x.answers.length = x.entry.directoryState.pending

theorem Line.Inv.agrees {s : System b numberOfTBEs} {line : Addr} (h : (s.line line).Inv line) :
  s.directory.Agrees line
  := ⟨h.tbe_isSome, h.tbe_eq⟩

/-- Every line has the invariant. -/
def System.Inv (s : System b numberOfTBEs) : Prop :=
  ∀ line, makeLineAddress b line = line → (s.line line).Inv line

/-- The line that a step is about. -/
def Label.line (l : Label b) (s : System b numberOfTBEs) : Option Addr :=
  match l with
  | .request msg => some (makeLineAddress b msg.addr)
  | .response msg => some (makeLineAddress b msg.addr)
  | .memory i => s.memoryRequests[i]?.map fun msg => makeLineAddress b msg.addr
  | .memoryResponse i => s.memoryResponses[i]?.map fun msg => makeLineAddress b msg.addr

/-! ### The messages of a line -/

section Filter

variable {α : Type} {l l' : List α} {f : α → Addr} {line : Addr} {i : ℕ} {a : α}

theorem filter_append_of_ne (h : ∀ x ∈ l', f x ≠ line) :
  (l ++ l').filter (fun x => f x = line) = l.filter fun x => f x = line
  := by
  have hnil : l'.filter (fun x => f x = line) = [] := by
    apply filter_eq_nil_iff.mpr
    intro x hx
    rw [decide_eq_true_eq]
    apply h x hx
  rw [filter_append, hnil, append_nil]

theorem filter_append_of_eq (h : ∀ x ∈ l', f x = line) :
  (l ++ l').filter (fun x => f x = line) = l.filter (fun x => f x = line) ++ l'
  := by
  have hself : l'.filter (fun x => f x = line) = l' := by
    apply filter_eq_self.mpr
    intro x hx
    exact decide_eq_true (h x hx)
  rw [filter_append, hself]

theorem filter_eraseIdx_of_ne (hi : l[i]? = some a) (ha : f a ≠ line) :
  (l.eraseIdx i).filter (fun x => f x = line) = l.filter fun x => f x = line
  := by
  induction l generalizing i with
  | nil => cases hi
  | cons x l ih =>
    cases i with
    | zero =>
      cases hi
      rw [eraseIdx_cons_zero, filter_cons_of_neg]
      rw [decide_eq_true_eq]
      apply ha
    | succ i =>
      rw [eraseIdx_cons_succ, filter_cons, filter_cons, ih hi]

theorem length_filter_eraseIdx (hi : l[i]? = some a) (ha : f a = line) :
  ((l.eraseIdx i).filter fun x => f x = line).length + 1 = (l.filter fun x => f x = line).length
  := by
  obtain ⟨hlt, rfl⟩ := List.getElem?_eq_some_iff.mp hi
  have hperm := (getElem_cons_eraseIdx_perm hlt).filter fun x => f x = line
  rw [filter_cons_of_pos (p := fun x => f x = line) (decide_eq_true ha)] at hperm
  apply hperm.length_eq

end Filter

/-! ### Steps -/

section Steps

variable {s t : System b numberOfTBEs} {l : Label b} {line line' : Addr} {answers : ℕ}
  {w : DirWork b numberOfTBEs}

/-- A transition keeps the invariant of its line, if the answers it takes are gone, and leaves the
other lines alone. -/
theorem Ends.after_line (s : System b numberOfTBEs) (h : Ends s.directory line answers w)
    (hs : (s.line line).requests.length + (s.line line).answers.length + answers
      = (s.directory.entries line).directoryState.pending)
    (haligned : makeLineAddress b line' = line') :
  (some line = some line' → ((s.after (some w)).line line').Inv line')
    ∧ (some line ≠ some line' → (s.after (some w)).line line' = s.line line')
  := by
  constructor
  · rintro ⟨⟩
    refine ⟨h.agrees.tbe_isSome, h.agrees.tbe_eq, ?_⟩
    have hpending := h.pending
    simp only [System.line, System.after, filter_append_of_eq h.memoryOut_line,
      List.length_append] at hs ⊢
    omega
  · intro hne
    have hline : line' ≠ line := fun heq => hne (congrArg some heq.symm)
    have hmemory msg hmsg := (h.memoryOut_line msg hmsg).trans_ne hline.symm
    have hresponses msg hmsg := (h.responsesOut_line msg hmsg).trans_ne hline.symm
    simp only [System.line, System.after, h.entries_eq line' hline,
      h.lookup_eq line' haligned hline, filter_append_of_ne hmemory, filter_append_of_ne hresponses]

section

variable (hs : s.Inv) (h : step l s = .ok t)

include hs h

/-- A step keeps the invariant of the line it is about, and leaves the other lines alone. -/
theorem step_line (haligned : makeLineAddress b line = line) :
  (l.line s = some line → (t.line line).Inv line)
    ∧ (l.line s ≠ some line → t.line line = s.line line)
  := by
  cases l with
  | request msg =>
    obtain ⟨r, hr, rfl⟩ := map_eq_ok.mp h
    have hline := hs _ (makeLineAddress_makeLineAddress msg.addr)
    obtain ⟨w, rfl, hw⟩ := ends_of_onRequest hline.agrees hr
    apply hw.after_line s hline.pending haligned
  | response msg =>
    obtain ⟨r, hr, rfl⟩ := map_eq_ok.mp h
    have hline := hs _ (makeLineAddress_makeLineAddress msg.addr)
    obtain ⟨w, rfl, hw⟩ := ends_of_onResponse hline.agrees hr
    apply hw.after_line s hline.pending haligned
  | memory i =>
    rw [step] at h
    rw [Label.line]
    cases hi : s.memoryRequests[i]? with
    | none =>
      rw [hi] at h
      cases h
      refine ⟨?_, fun _ => rfl⟩
      rintro ⟨⟩
    | some msg =>
      rw [hi] at h
      obtain ⟨⟨block, answer⟩, hservice, h⟩ := bind_eq_ok.mp h
      cases h
      have haddr := MemoryMsg.addr_of_service hservice
      constructor
      · rintro ⟨⟩
        have hline := hs _ haligned
        have hpending := hline.pending
        have hlength := length_filter_eraseIdx (f := fun x => makeLineAddress b x.addr) hi rfl
        refine ⟨hline.tbe_isSome, hline.tbe_eq, ?_⟩
        simp only [System.line, filter_append, filter_singleton, haddr, List.length_append,
          decide_true, cond_true, length_singleton] at hpending ⊢
        omega
      · intro hl
        have hne : makeLineAddress b msg.addr ≠ line := fun heq => hl (congrArg some heq)
        simp only [System.line, Function.update_of_ne hne.symm, filter_append, filter_singleton,
          haddr, decide_eq_false hne, cond_false, append_nil,
          filter_eraseIdx_of_ne (f := fun x => makeLineAddress b x.addr) hi hne]
  | memoryResponse i =>
    rw [step] at h
    rw [Label.line]
    cases hi : s.memoryResponses[i]? with
    | none =>
      rw [hi] at h
      cases h
      refine ⟨?_, fun _ => rfl⟩
      rintro ⟨⟩
    | some msg =>
      rw [hi] at h
      obtain ⟨r, hr, rfl⟩ := map_eq_ok.mp h
      have hline := hs _ (makeLineAddress_makeLineAddress msg.addr)
      obtain ⟨w, rfl, hw⟩ := ends_of_onMemory hline.agrees hr
      have hlength := length_filter_eraseIdx (f := fun x => makeLineAddress b x.addr) hi rfl
      have hpending := hline.pending
      obtain ⟨hinv, heq⟩ := Ends.after_line
        { s with memoryResponses := s.memoryResponses.eraseIdx i } hw
        (by simp only [System.line] at hpending ⊢; omega) haligned
      refine ⟨hinv, fun hl => (heq hl).trans ?_⟩
      have hne : makeLineAddress b msg.addr ≠ line := fun heq => hl (congrArg some heq)
      simp only [System.line, filter_eraseIdx_of_ne (f := fun x => makeLineAddress b x.addr) hi hne]

/-- A step keeps the invariant. -/
theorem step_inv :
  t.Inv
  := by
  intro line haligned
  by_cases hl : l.line s = some line
  · apply (step_line hs h haligned).1 hl
  · rw [(step_line hs h haligned).2 hl]
    apply hs line haligned

end

/-- The states that the system can reach. -/
def System.Reached (s : System b numberOfTBEs) : Prop :=
  ∃ memory, Lib.Reachable (fun s l t => step l s = .ok t) { memory := memory } s

theorem System.Reached.inv (h : s.Reached) :
  s.Inv
  := by
  obtain ⟨memory, h⟩ := h
  apply h.invariant _ fun _ _ => ⟨rfl, nofun, rfl⟩
  intro s l t hs hstep
  apply step_inv hs hstep

/-- `Others line s t`: steps that are not about the line lead from `s` to `t`. -/
def Others (line : Addr) : System b numberOfTBEs → System b numberOfTBEs → Prop :=
  Lib.Reachable fun s l t => l.line s ≠ some line ∧ step l s = .ok t

/-- They leave the line as it is, and keep the invariant. -/
theorem Others.line_eq (h : Others line s t) (haligned : makeLineAddress b line = line)
    (hs : s.Inv) :
  t.Inv ∧ t.line line = s.line line
  := by
  apply h.invariant (P := fun u => u.Inv ∧ u.line line = s.line line) _ ⟨hs, rfl⟩
  rintro u l u' ⟨hu, hline⟩ ⟨hl, hstep⟩
  exact ⟨step_inv hu hstep, ((step_line hu hstep haligned).2 hl).trans hline⟩

end Steps

end Gem5Arc.MESITwoLevel
