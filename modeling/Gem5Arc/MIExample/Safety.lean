import Gem5Arc.MIExample.Simulation
import Gem5Arc.MIExample.Values

/-!
# What the MI example guarantees

Without DMA controllers, and with messages that arrive in any order, there is at most one modified
copy of the line, no controller gets an event that it has no transition for, and every load returns
the value of the line.

With DMA controllers, and with the directory's messages to a cache in order, a controller gets an
event that it has no transition for exactly if a DMA request reaches the directory during the
transaction of another one that has recalled the line.

A DMA write is sent to memory with the address of the line and not with the address of its first
byte, and what the owner of the line writes back is dropped. So DMA writes are coherent in the runs
in which each of them starts at the start of the line, and the owner has not changed any other byte.
-/

namespace Gem5Arc.MIExample

open DMARequestMsg DataBlock Function System

variable {C D : Type} {b : ℕ} {msg w : DMARequestMsg C D b} {d : D} {c : C} {i : ℕ}

/-- What a DMA write should make of the line: the bytes of the request are replaced. -/
def DMARequestMsg.intended (msg : DMARequestMsg C D b) (v : DataBlock b) : DataBlock b :=
  v.overlay (getOffset b msg.physicalAddress).toNat msg.len msg.dataBlk

/-- The request starts at the start of the line, and there is something to write. -/
def DMARequestMsg.Aligned (msg : DMARequestMsg C D b) : Prop :=
  (getOffset b msg.physicalAddress).toNat = 0 ∧ 0 < msg.len

/-- What is left in memory is right if memory and the value of the line have the same bytes after
those of the request. -/
theorem DMARequestMsg.Aligned.effect_eq (h : msg.Aligned) {memory v : DataBlock b}
    (hv : ∀ j : Fin (2 ^ b), msg.len ≤ j → v j = memory j) :
  msg.effect memory = msg.intended v
  := by
  funext j
  rw [effect, intended, h.1, if_pos h.2, overlay, overlay]
  split_ifs with hj
  · rfl
  · apply (hv j _).symm
    omega

/-- What a DMA write should do is to replace the bytes of its packet by the data of the packet. -/
theorem Issued.intended_eq {addr : Addr} (h : Issued addr d msg) :
  ∃ pkt : DMAPacket, pkt.isWrite = true ∧ makeLineAddress b pkt.addr = makeLineAddress b addr
    ∧ ∀ v (j : Fin (2 ^ b)), msg.intended v j
      = if (getOffset b pkt.addr).toNat ≤ j ∧ j < (getOffset b pkt.addr).toNat + pkt.size
        then pkt.data (j - (getOffset b pkt.addr).toNat) else v j
  := by
  obtain ⟨pkt, hwrite, hline, rfl⟩ := h
  refine ⟨pkt, hwrite, hline, ?_⟩
  intro v j
  simp only [intended, DMA.requestMsg, DMASequencer.makeRequest, overlay,
    setData, hwrite, if_true, ← getOffset_eq]
  generalize (getOffset b pkt.addr).toNat = p
  split_ifs
  all_goals first
    | rfl
    | omega

variable {V W : Type}

/-- A DMA write is sent to memory when it arrives and memory has the line, or when the owner of the
line writes it back. -/
theorem State.Step.of_dmaWrite [DecidableEq C] [DecidableEq D] {effect : W → V → V} {ordered : Bool}
    {s t : State C D V W} {act : Act C D} {m : MachineID C D} {w : W}
    (h : s.Step effect ordered act t) (hhistory : t.history = s.history ++ [.dmaWrite m w]) :
  (∃ d, act = .dmaRequest d ∧ s.home = .I ∧ (s.port d).req = some (.write w))
    ∨ ∃ d c v, act = .request c ∧ s.home = .M_DWR d c w ∧ (s.node c).req = some (.putx v)
  := by
  cases h with
  | recalledWrite d c w' v hhome hreq =>
    obtain ⟨-, rfl⟩ : MachineID.DMA d = m ∧ w' = w := by
      simpa using List.append_cancel_left hhistory
    exact .inr ⟨d, c, v, rfl, hhome, hreq⟩
  | dmaStore d w' hhome hreq =>
    obtain ⟨-, rfl⟩ : MachineID.DMA d = m ∧ w' = w := by
      simpa using List.append_cancel_left hhistory
    exact .inl ⟨d, rfl, hhome, hreq⟩
  | cache c n told hn =>
    cases List.append_cancel_left hhistory
    cases hn
  | supply | refuse | readMemory | writeMemory | issueRead =>
    simp [State.send, State.setNode, State.forward, State.take, State.setPort] at hhistory
  | issueWrite | dmaData | dmaAck => cases List.append_cancel_left hhistory
  | _ => cases List.append_cancel_left hhistory

/-! ### The value of the line in the system -/

/-- The condition for a DMA write that is sent to memory in a step: it is aligned, and the block
that the owner of the line writes back has the same bytes as memory after those of the DMA write. -/
def System.Fits (s : System C D b) : Label C D b → Prop
  | .dmaRequest d i => ∀ msg, (s.dmaRequests d)[i]? = some msg → msg.type = .WRITE →
      s.directory.getState = .I → msg.Aligned
  | .request c i => ∀ msg tbe, (s.requests c)[i]? = some msg → msg.type = .PUTX →
      s.directory.getState = .M_DWR → msg.requestor ∈ s.directory.entry.owner →
      s.directory.tbe = some tbe →
      tbe.request.Aligned ∧ ∀ j : Fin (2 ^ b), tbe.len ≤ j → msg.dataBlk j = s.memory j
  | _ => True

variable [DecidableEq C] [DecidableEq D] {addr : Addr} {ordered : Bool} {memory : DataBlock b}
  {intended : DMARequestMsg C D b → DataBlock b → DataBlock b} {s t : System C D b}
  {a : LineState C D b} {l : Label C D b}

/-- The system is in a state of the protocol that keeps the invariant and has the value of the line
where it should be. -/
def System.Sound (addr : Addr) (intended : DMARequestMsg C D b → DataBlock b → DataBlock b)
    (memory : DataBlock b) (s : System C D b) : Prop :=
  ∃ a, Rep addr s a ∧ Inv a ∧ Current intended memory a

/-- A DMA write that arrives when memory has the line. -/
theorem Rep.fits_dmaRequest (hrep : Rep addr s a) (hinv : Inv a)
    (hcurrent : Current intended memory a) (hstep : System.Leads ordered addr s (.dmaRequest d i) t)
    (hfits : s.Fits (.dmaRequest d i)) (hhome : a.home = .I)
    (hreq : (a.port d).req = some (.write w)) :
  w.effect a.memory = w.intended (current intended memory a.history)
  := by
  obtain ⟨msg, hi, -⟩ := Option.map_eq_some_iff.mp hstep
  obtain ⟨r, hr, hmsg, -, -⟩ := forall₂_toList (hrep.port d).requests hi
  rw [hreq] at hr
  cases hr
  cases hmsg with
  | write hissued =>
    have hstate : s.directory.getState = .I := by
      rw [hrep.getState_eq, hhome]
      rfl
    apply (hfits _ hi hissued.type_requestor.1 hstate).effect_eq
    intro j _
    have hchannel := hinv.channel
    rw [hhome] at hchannel
    rw [hcurrent.stored_eq]
    · rw [hhome]
      exact not_false
    · rw [hchannel]
      nofun

/-- A DMA write that the owner of the line has been waited for. -/
theorem Rep.fits_request (hrep : Rep addr s a) (hinv : Inv a) (hcurrent : Current intended memory a)
    {v : DataBlock b} (hstep : System.Leads ordered addr s (.request c i) t)
    (hfits : s.Fits (.request c i)) (hhome : a.home = .M_DWR d c w)
    (hreq : (a.node c).req = some (.putx v)) :
  w.effect a.memory = w.intended (current intended memory a.history)
  := by
  have hrequests : s.requests c = [Request.msg c (.putx v)] := by
    rw [(hrep.node c).requests, hreq]
    rfl
  obtain ⟨msg, hi, -⟩ := Option.map_eq_some_iff.mp hstep
  obtain rfl : Request.msg c (.putx v) = msg := by
    rw [hrequests] at hi
    cases i with
    | zero => exact Option.some.inj hi
    | succ i => cases hi
  have hstate : s.directory.getState = .M_DWR := by
    rw [hrep.getState_eq, hhome]
    rfl
  obtain ⟨hentry, htbe⟩ := hrep.home
  rw [hhome] at hentry htbe
  generalize hs : s.directory.tbe = tbe at htbe
  cases htbe with
  | M_DWR _ _ _ hissued =>
    have howner : (Request.msg c (.putx v) : RequestMsg C D b).requestor
        ∈ s.directory.entry.owner := by
      simp [hentry, Home.entry, Home.owner, Request.msg]
    have hrole : a.home.role c ≠ .none := by
      simp [hhome, Home.role]
    obtain ⟨haligned, hbytes⟩ := hfits _ _ hi rfl hstate howner hs
    obtain ⟨htype, -⟩ := hissued.type_requestor
    obtain ⟨type, physicalAddress, requestor, dataBlk, len⟩ := w
    cases htype
    rw [← hcurrent.putx_eq hinv hrole hreq, ← hrep.memory]
    exact haligned.effect_eq hbytes

theorem System.Sound.step (h : s.Sound addr intended memory)
    (hstep : System.Leads ordered addr s l t) (hordered : ordered = true ∨ IsEmpty D)
    (hfits : intended = DMARequestMsg.intended ∧ s.Fits l ∨ IsEmpty D) :
  t.Sound addr intended memory
  := by
  obtain ⟨a, hrep, hinv, hcurrent⟩ := h
  obtain ⟨-, t', a', hout, ha, hrep'⟩ | ⟨-, hout⟩ := hrep.step hinv hstep
  · cases hout
    rcases ha with rfl | ha
    · exact ⟨_, hrep', hinv, hcurrent⟩
    · refine ⟨a', hrep', hinv.step ha hordered, hcurrent.step hinv ?_ ha⟩
      intro m w hhistory
      obtain ⟨d, hact, hhome, hreq⟩ | ⟨d, c, v, hact, hhome, hreq⟩ := ha.of_dmaWrite hhistory
      · rcases hfits with ⟨rfl, hfits⟩ | hempty
        · cases l with
          | dmaRequest e i =>
            cases hact
            exact hrep.fits_dmaRequest hinv hcurrent hstep hfits hhome hreq
          | _ => cases hact
        · cases hempty.false d
      · rcases hfits with ⟨rfl, hfits⟩ | hempty
        · cases l with
          | request c i =>
            cases hact
            exact hrep.fits_request hinv hcurrent hstep hfits hhome hreq
          | _ => cases hact
        · cases hempty.false d
  · cases hout

theorem System.Sound.init (addr : Addr) (intended : DMARequestMsg C D b → DataBlock b → DataBlock b)
    (memory : DataBlock b) :
  System.Sound addr intended memory ({ memory := memory } : System C D b)
  := by
  refine ⟨_, Rep.init addr memory, Inv.init memory, ?_, ?_, ?_, ?_⟩
  · nofun
  · intro _
    rfl
  · nofun
  · exact Coherent.nil

theorem Shows.of_M {cache : L1Cache b} {line : Line (DataBlock b)} (h : Shows cache line)
    (hstate : cache.getState = .M) :
  ∃ v, cache.entry = some ⟨.M, v⟩ ∧ line = .M v
  := by
  cases h with
  | M v => exact ⟨v, rfl, rfl⟩
  | _ => cases hstate

/-- A cache with a modified line has the only valid copy. -/
theorem Rep.holder_of_M (hrep : Rep addr s a) (hinv : Inv a) (hstate : (s.caches c).getState = .M) :
  a.holder = some c
  := by
  obtain ⟨v, -, hline⟩ := (hrep.node c).line.of_M hstate
  obtain ⟨fwd, -, -, hholds⟩ := (hinv.caches.phase c).of_M hline
  exact hholds

/-- When the directory has no copy in a cache, memory has the value of the line. -/
theorem System.Sound.memory_eq (h : s.Sound addr intended memory)
    (hstate : s.directory.getState = .I) :
  s.memory = current intended memory s.history
  := by
  obtain ⟨a, hrep, hinv, hcurrent⟩ := h
  have hhome : a.home = .I := by
    rw [hrep.getState_eq] at hstate
    cases hhome : a.home with
    | I => rfl
    | _ =>
      rw [hhome] at hstate
      cases hstate
  have hchannel := hinv.channel
  rw [hhome] at hchannel
  rw [hrep.memory, hrep.history]
  apply hcurrent.stored_eq
  · rw [hhome]
    exact not_false
  · rw [hchannel]
    nofun

/-- A modified line has the value of the line. -/
theorem System.Sound.modified_eq (h : s.Sound addr intended memory)
    (hstate : (s.caches c).getState = .M) :
  ∃ entry, (s.caches c).entry = some entry
    ∧ entry.dataBlk = current intended memory s.history
  := by
  obtain ⟨a, hrep, hinv, hcurrent⟩ := h
  obtain ⟨v, hentry, hline⟩ := (hrep.node c).line.of_M hstate
  obtain ⟨fwd, hnode, -, hholds⟩ := (hinv.caches.phase c).of_M hline
  refine ⟨_, hentry, ?_⟩
  have hheld := hcurrent.held c hholds
  rw [hnode] at hheld
  rw [hrep.history]
  exact Option.some.inj hheld

/-! ### The main results -/

/-- Without DMA controllers: at most one cache has a modified line, nothing stops the simulator, and
every load returns the value that the stores before it have left. -/
theorem coherent_without_dma {s : System C Empty b} (h : System.Reachable false addr memory s) :
  (∀ c c', (s.caches c).getState = .M → (s.caches c').getState = .M → c = c')
    ∧ (∀ l e, System.step false addr l s ≠ some (.error e))
    ∧ ∀ before c v after, s.history = before ++ .read c v :: after →
      v = current (fun _ v => v) memory before
  := by
  have hsound : s.Sound addr (fun _ v => v) memory := by
    apply Lib.Reachable.invariant _ h (System.Sound.init addr _ memory)
    intro s l t hs hstep
    exact hs.step hstep (.inr inferInstance) (.inr inferInstance)
  obtain ⟨a, hrep, hinv, hcurrent⟩ := hsound
  refine ⟨?_, ?_, ?_⟩
  · intro c c' hc hc'
    have hholder := hrep.holder_of_M hinv hc
    rw [hrep.holder_of_M hinv hc'] at hholder
    exact (Option.some.inj hholder).symm
  · intro l e hout
    obtain ⟨-, t, a', hok, -⟩ | ⟨⟨d, -⟩, -⟩ := hrep.step hinv hout
    · cases hok
    · exact d.elim
  · rw [hrep.history]
    exact hcurrent.reads

/-- A cache loads what another one has stored. -/
theorem coherent_without_dma_load :
  ∃ s : System Bool Empty 1, System.Reachable false 0 DataBlock.clear s
    ∧ (∃ store v, s.history = [.write true store, .read false v])
    ∧ (∀ c c', (s.caches c).getState = .M → (s.caches c').getState = .M → c = c')
    ∧ (∀ l e, System.step false 0 l s ≠ some (.error e))
    ∧ ∀ before c v after, s.history = before ++ .read c v :: after →
      v = current (fun _ v => v) DataBlock.clear before
  := by
  have hrun : run (C := Bool) (D := Empty) (b := 1) false 0
      [.processor true (.store fun _ _ => 1), .request true 0, .memory 0, .memoryResponse 0,
        .response true 0, .processor false .load, .request false 0, .forward true 0,
        .response false 0]
      { memory := clear } = some _ := rfl
  have hreachable := reachable_of_run hrun
  exact ⟨_, hreachable, ⟨_, _, rfl⟩, coherent_without_dma hreachable⟩

/-- With DMA controllers, and with the directory's messages to a cache in order: the simulator stops
exactly if a DMA request arrives at the directory while the directory waits for the line to come
back for another one, or for memory to write it. -/
theorem fault_iff_blocked (h : System.Reachable true addr memory s) (l : Label C D b) (e : Fault) :
  System.step true addr l s = some (.error e) ↔ e = Slicc.invalidTransition ∧ s.Blocked l
  := by
  obtain ⟨a, hrep, hinv⟩ := h.rep (.inl rfl)
  constructor
  · intro hout
    obtain ⟨-, t, a', hok, -⟩ | ⟨hblocked, herror⟩ := hrep.step hinv hout
    · cases hok
    · cases herror
      exact ⟨rfl, hblocked⟩
  · rintro ⟨rfl, hblocked⟩
    obtain ⟨d, i, rfl, hlength, -⟩ := id hblocked
    obtain ⟨msg, hi⟩ : ∃ msg, (s.dmaRequests d)[i]? = some msg :=
      ⟨_, List.getElem?_eq_getElem hlength⟩
    have hstep : ∃ out, step true addr (.dmaRequest d i) s = some out :=
      ⟨_, Option.map_eq_some_iff.mpr ⟨msg, hi, rfl⟩⟩
    obtain ⟨out, hout⟩ := hstep
    obtain ⟨hnot, -⟩ | ⟨-, rfl⟩ := hrep.step hinv hout
    · contradiction
    · exact hout

/-- Two devices read a line that a cache has, and the directory gets the first request. -/
def twoReads : List (Label Unit Bool 1) :=
  let pkt : DMAPacket := { addr := 0, size := 1, isWrite := false, data := fun _ => 0 }
  [.processor () (.store id), .request () 0, .memory 0, .memoryResponse 0, .device true pkt,
    .device false pkt, .dmaRequest true 0]

/-- The simulator stops at the second request. -/
theorem fault_of_twoReads :
  ∃ s, System.Reachable true 0 DataBlock.clear s
    ∧ System.run true 0 twoReads { memory := DataBlock.clear } = some s
    ∧ System.step true 0 (.dmaRequest false 0) s = some (.error Slicc.invalidTransition)
  := by
  have hrun : run true 0 twoReads { memory := clear } = some _ := rfl
  exact ⟨_, reachable_of_run hrun, hrun, rfl⟩

/-- After the first request, exactly the second one can stop the simulator. -/
theorem fault_iff_blocked_twoReads :
  ∃ s, System.Reachable true 0 DataBlock.clear s
    ∧ System.run true 0 twoReads { memory := DataBlock.clear } = some s
    ∧ ∀ l e, System.step true 0 l s = some (.error e) ↔ e = Slicc.invalidTransition ∧ s.Blocked l
  := by
  have hrun : run true 0 twoReads { memory := clear } = some _ := rfl
  have hreachable := reachable_of_run hrun
  exact ⟨_, hreachable, hrun, fault_iff_blocked hreachable⟩

/-- DMA writes are coherent in the runs in which every one of them fits. Each one is sent to memory
once, after it has been issued and before it is acknowledged. The value of the line is what the
stores and the DMA writes have left, in this order: every load returns it, memory has it when no
cache has the line, and a cache with a modified line has it. -/
theorem dmaWrite_coherent (h : Lib.Reachable (fun s l t => System.Leads true addr s l t ∧ s.Fits l)
      ({ memory := memory } : System C D b) s) :
  (∀ d, ∃ stage, Follows d s.history stage)
    ∧ (∀ d msg, .dmaIssue d msg ∈ s.history →
      ∃ pkt : DMAPacket, pkt.isWrite = true ∧ makeLineAddress b pkt.addr = makeLineAddress b addr
        ∧ ∀ v (j : Fin (2 ^ b)), msg.intended v j
          = if (getOffset b pkt.addr).toNat ≤ j ∧ j < (getOffset b pkt.addr).toNat + pkt.size
            then pkt.data (j - (getOffset b pkt.addr).toNat) else v j)
    ∧ Coherent DMARequestMsg.intended memory s.history
    ∧ (s.directory.getState = .I → s.memory = current DMARequestMsg.intended memory s.history)
    ∧ ∀ c, (s.caches c).getState = .M → ∃ entry, (s.caches c).entry = some entry
      ∧ entry.dataBlk = current DMARequestMsg.intended memory s.history
  := by
  have hsound : s.Sound addr intended memory := by
    apply Lib.Reachable.invariant _ h (System.Sound.init addr _ memory)
    intro s l t hs ⟨hstep, hfits⟩
    exact hs.step hstep (.inl rfl) (.inl ⟨rfl, hfits⟩)
  refine ⟨?_, ?_, ?_, hsound.memory_eq, fun c => hsound.modified_eq⟩
  · obtain ⟨a, hrep, hinv, -⟩ := hsound
    intro d
    obtain ⟨stage, hfollows, -⟩ := hinv.ports d
    rw [hrep.history]
    exact ⟨stage, hfollows⟩
  · obtain ⟨a, hrep, -, -⟩ := hsound
    intro d msg hmem
    rw [hrep.history] at hmem
    exact (hrep.issued d msg hmem).intended_eq
  · obtain ⟨a, hrep, -, hcurrent⟩ := hsound
    rw [hrep.history]
    exact hcurrent.reads

/-- A cache gets the line and stores. -/
def acquire (store : DataBlock 1 → DataBlock 1) : List (Label Unit Unit 1) :=
  [.processor () (.store store), .request () 0, .memory 0, .memoryResponse 0, .response () 0]

def writeByte (addr : Addr) : Label Unit Unit 1 :=
  .device () { addr := addr, size := 1, isWrite := true, data := fun _ => 255 }

/-- A DMA write goes to memory, and the device gets the acknowledgement. -/
def transfer : List (Label Unit Unit 1) :=
  [.dmaRequest () 0, .memory 0, .memoryResponse 0, .dmaResponse () 0]

/-- A DMA write recalls the line, goes to memory, and the device gets the acknowledgement. -/
def recallLine : List (Label Unit Unit 1) :=
  [.dmaRequest () 0, .forward () 0, .request () 0, .memory 0, .memoryResponse 0, .dmaResponse () 0]

/-- A DMA write of the second byte of a line changes the first byte and not the second one. After a
DMA write of the first byte of a line, what a cache has stored in the second byte is lost. -/
theorem dmaWrite_not_coherent :
  (∃ s, System.run true 0 (writeByte 1 :: transfer) { memory := fun _ => 7 } = some s
    ∧ s.history.getLast? = some (.dmaAck ()) ∧ s.directory.getState = .I
    ∧ s.memory 0 = 0 ∧ s.memory 1 = 7)
  ∧ ∃ s, System.run true 0 (acquire (fun _ _ => 1) ++ writeByte 0 :: recallLine)
      { memory := fun _ => 7 } = some s
    ∧ s.history.getLast? = some (.dmaAck ()) ∧ s.directory.getState = .I
    ∧ s.memory 0 = 255 ∧ s.memory 1 = 7
  := by
  constructor
  · exact ⟨_, rfl, rfl, rfl, rfl, rfl⟩
  · exact ⟨_, rfl, rfl, rfl, rfl, rfl⟩

/-- A DMA write of the byte that a cache has stored before. -/
theorem dmaWrite_coherent_owned :
  ∃ s : System Unit Unit 1,
    Lib.Reachable (fun s l t => System.Leads true 0 s l t ∧ s.Fits l)
      { memory := DataBlock.clear } s
    ∧ s.history.getLast? = some (.dmaAck ())
    ∧ s.memory = current DMARequestMsg.intended DataBlock.clear s.history
  := by
  have hrun : Lib.Run (fun s l t => System.Leads true 0 s l t ∧ s.Fits l) { memory := clear }
      (acquire (fun v => update v 0 1) ++ writeByte 0 :: recallLine) _ :=
    .cons ⟨rfl, trivial⟩ <| .cons ⟨rfl, nofun⟩ <| .cons ⟨rfl, trivial⟩ <|
      .cons ⟨rfl, trivial⟩ <| .cons ⟨rfl, trivial⟩ <| .cons ⟨rfl, trivial⟩ <|
      .cons ⟨rfl, nofun⟩ <| .cons ⟨rfl, trivial⟩ <| .cons ⟨rfl, fun msg tbe hmsg _ _ _ htbe => by
        cases hmsg
        cases htbe
        exact ⟨⟨rfl, by decide⟩, by decide⟩⟩ <|
      .cons ⟨rfl, trivial⟩ <| .cons ⟨rfl, trivial⟩ <| .cons ⟨rfl, trivial⟩ (.nil _)
  exact ⟨_, ⟨_, hrun⟩, rfl, (dmaWrite_coherent ⟨_, hrun⟩).2.2.2.1 rfl⟩

end Gem5Arc.MIExample
