import Gem5Arc.MIExample.Invariant
import Gem5Arc.MIExample.System

/-!
# How the system represents a state of the protocol

`Rep addr s a` says that the system `s` is in the state `a` of the protocol: which entries and TBEs
the controllers have for the line, and which messages are on their way. The values of the line are
data blocks, and the DMA writes are the requests of the DMA controllers.

There is one rule for each thing that a controller does to the system.
-/

namespace Gem5Arc.MIExample

open Function List

variable {C D : Type} {b : ℕ} {addr : Addr}

/-! ### Controllers -/

/-- The entry and the TBE of a cache. -/
inductive Shows : L1Cache b → Line (DataBlock b) → Prop
  | absent : Shows {} .I
  | invalid (blk : DataBlock b) : Shows { entry := some ⟨.I, blk⟩ } .I
  | IS (blk blk' : DataBlock b) (r : ProcessorRequest b) :
      Shows { entry := some ⟨.IS, blk⟩, tbe := some ⟨.IS, blk'⟩, outstanding := some r } .IS
  | IM (blk blk' : DataBlock b) (store : DataBlock b → DataBlock b) :
      Shows
        { entry := some ⟨.IM, blk⟩, tbe := some ⟨.IM, blk'⟩, outstanding := some (.store store) }
        (.IM store)
  | M (v : DataBlock b) : Shows { entry := some ⟨.M, v⟩ } (.M v)
  | MI (v : DataBlock b) : Shows { tbe := some ⟨.MI, v⟩ } (.MI v)
  | MII (v : DataBlock b) : Shows { tbe := some ⟨.MII, v⟩ } (.MII v)
  | II (blk : DataBlock b) : Shows { tbe := some ⟨.II, blk⟩ } .II

/-- The request is the one that the DMA controller `d` makes of a packet for the line. -/
def Issued (addr : Addr) (d : D) (msg : DMARequestMsg C D b) : Prop :=
  ∃ pkt : DMAPacket, pkt.isWrite = true ∧ makeLineAddress b pkt.addr = makeLineAddress b addr
    ∧ msg = DMA.requestMsg d .WRITE (DMASequencer.makeRequest b pkt)

theorem Issued.len_le {d : D} {msg : DMARequestMsg C D b} (h : Issued addr d msg) :
  msg.len ≤ 2 ^ b
  := by
  obtain ⟨pkt, -, -, rfl⟩ := h
  simp only [DMA.requestMsg, DMASequencer.makeRequest]
  split_ifs
  · omega
  · apply Nat.sub_le

theorem Issued.type_requestor {d : D} {msg : DMARequestMsg C D b} (h : Issued addr d msg) :
  msg.type = .WRITE ∧ msg.requestor = .DMA d
  := by
  obtain ⟨pkt, -, -, rfl⟩ := h
  exact ⟨rfl, rfl⟩

/-- The TBE of the directory. -/
inductive ShowsTBE (addr : Addr) :
    Option (DirTBE C D b) → Home C D (DMARequestMsg C D b) → Prop
  | I : ShowsTBE addr none .I
  | M (c : C) : ShowsTBE addr none (.M c)
  | IM (tbe : DirTBE C D b) (c : C) : ShowsTBE addr (some { tbe with tbeState := .IM }) (.IM c)
  | MI (tbe : DirTBE C D b) (c : C) : ShowsTBE addr (some { tbe with tbeState := .MI }) (.MI c)
  | ID (tbe : DirTBE C D b) (d : D) :
      ShowsTBE addr (some { tbe with tbeState := .ID, dmaRequestor := .DMA d }) (.ID d)
  | ID_W (tbe : DirTBE C D b) (d : D) :
      ShowsTBE addr (some { tbe with tbeState := .ID_W, dmaRequestor := .DMA d }) (.ID_W d)
  | M_DRD (tbe : DirTBE C D b) (d : D) (c : C) :
      ShowsTBE addr (some { tbe with tbeState := .M_DRD, dmaRequestor := .DMA d }) (.M_DRD d c)
  | M_DWR (d : D) (c : C) (w : DMARequestMsg C D b) : Issued addr d w →
      ShowsTBE addr
        (some { physicalAddress := w.physicalAddress, tbeState := .M_DWR, dataBlk := w.dataBlk,
                len := w.len, dmaRequestor := w.requestor }) (.M_DWR d c w)
  | M_DRDI (tbe : DirTBE C D b) (c : C) :
      ShowsTBE addr (some { tbe with tbeState := .M_DRDI }) (.M_DRDI c)
  | M_DWRI (tbe : DirTBE C D b) (d : D) (c : C) :
      ShowsTBE addr (some { tbe with tbeState := .M_DWRI, dmaRequestor := .DMA d }) (.M_DWRI d c)

variable {W : Type}

/-- The state of the directory. -/
def Home.state : Home C D W → DirState
  | .I => .I
  | .IM _ => .IM
  | .M _ => .M
  | .MI _ => .MI
  | .ID _ => .ID
  | .ID_W _ => .ID_W
  | .M_DRD _ _ => .M_DRD
  | .M_DWR _ _ _ => .M_DWR
  | .M_DRDI _ => .M_DRDI
  | .M_DWRI _ _ => .M_DWRI

/-- The owner of the line. -/
def Home.owner : Home C D W → Finset (MachineID C D)
  | .IM c => {.L1Cache c}
  | .M c => {.L1Cache c}
  | .M_DRD _ c => {.L1Cache c}
  | .M_DWR _ c _ => {.L1Cache c}
  | _ => ∅

/-- The entry of the directory. -/
def Home.entry (home : Home C D W) : DirEntry C D where
  directoryState := home.state
  owner := home.owner

/-- The entry and the TBE of the directory. -/
structure ShowsHome (addr : Addr) (dir : Directory C D b)
    (home : Home C D (DMARequestMsg C D b)) : Prop where
  entry : dir.entry = home.entry
  tbe : ShowsTBE addr dir.tbe home

/-- The TBE of a DMA controller. -/
inductive ShowsDevice : DMA b → Device W → Prop
  | ready : ShowsDevice {} .ready
  | reading (blk : DataBlock b) : ShowsDevice ⟨some ⟨.BUSY_RD, blk⟩⟩ .reading
  | writing (blk : DataBlock b) (w : W) : ShowsDevice ⟨some ⟨.BUSY_WR, blk⟩⟩ (.writing w)

/-! ### Messages -/

/-- The request of cache `c`. -/
def Request.msg (c : C) : Request (DataBlock b) → RequestMsg C D b
  | .getx => { type := .GETX, requestor := .L1Cache c }
  | .putx v => { type := .PUTX, requestor := .L1Cache c, dataBlk := v }

/-- What the directory sends to cache `c`. -/
def Forward.msg (c : C) : Forward C → RequestMsg C D b
  | .getx x => { type := .GETX, requestor := .L1Cache x }
  | .ack => { type := .WB_ACK, requestor := .L1Cache c }
  | .nack => { type := .WB_NACK, requestor := .L1Cache c }
  | .inv => { type := .INV, requestor := .Directory }

/-- A block that is sent to a cache. -/
def ShowsResponse (msg : ResponseMsg C D b) (v : DataBlock b) : Prop :=
  msg.type = .DATA ∧ msg.dataBlk = v

/-- The request of the DMA controller `d`. -/
inductive ShowsDMARequest (addr : Addr) (d : D) :
    DMARequestMsg C D b → DmaRequest (DMARequestMsg C D b) → Prop
  | read {msg : DMARequestMsg C D b} : msg.type = .READ → msg.requestor = .DMA d →
      ShowsDMARequest addr d msg .read
  | write {msg : DMARequestMsg C D b} : Issued addr d msg → ShowsDMARequest addr d msg (.write msg)

/-- The answer of the directory to a DMA controller. -/
inductive ShowsDMAResponse : DMAResponseMsg C D b → DmaResponse (DataBlock b) → Prop
  | data {msg : DMAResponseMsg C D b} {v : DataBlock b} : msg.type = .DATA → msg.dataBlk = v →
      ShowsDMAResponse msg (.data v)
  | ack {msg : DMAResponseMsg C D b} : msg.type = .ACK → ShowsDMAResponse msg .ack

/-- The machine that memory answers for. -/
def Home.sender : Home C D W → MachineID C D
  | .IM c => .L1Cache c
  | .MI c => .L1Cache c
  | .M_DRDI c => .L1Cache c
  | .M_DWRI _ c => .L1Cache c
  | .ID d => .DMA d
  | .ID_W d => .DMA d
  | _ => .Directory

/-- What is on its way to memory and from memory. -/
inductive ShowsChannel (addr : Addr) (sender : MachineID C D) (memory : DataBlock b) :
    List (MemoryMsg (MachineID C D) b) → List (MemoryResponse (MachineID C D) b) →
    Channel (DataBlock b) → Prop
  | idle : ShowsChannel addr sender memory [] [] .idle
  | reading :
      ShowsChannel addr sender memory [{ addr := addr, type := .MEMORY_READ, sender := sender }] []
        .reading
  | read (v : DataBlock b) :
      ShowsChannel addr sender memory []
        [{ addr := addr, type := .MEMORY_READ, originalRequestorMachId := sender, dataBlk := v }]
        (.read v)
  | writing {msg : MemoryMsg (MachineID C D) b} {v : DataBlock b} :
      msg.service memory
        = .ok (v, { addr := addr, type := .MEMORY_WB, originalRequestorMachId := sender }) →
      ShowsChannel addr sender memory [msg] [] (.writing v)
  | written :
      ShowsChannel addr sender memory []
        [{ addr := addr, type := .MEMORY_WB, originalRequestorMachId := sender }] .written

/-- A list that represents at most one thing has at most one element. -/
theorem forall₂_toList {α β : Type} {R : α → β → Prop} {l : List α} {o : Option β} {i : ℕ} {x : α}
    (h : List.Forall₂ R l o.toList) (hi : l[i]? = some x) :
  ∃ y, o = some y ∧ R x y ∧ l = [x] ∧ i = 0
  := by
  cases o with
  | none =>
    rw [forall₂_nil_right_iff.mp h] at hi
    cases hi
  | some y =>
    obtain ⟨x', l', hxy, hl', rfl⟩ := forall₂_cons_right_iff.mp h
    cases forall₂_nil_right_iff.mp hl'
    cases i with
    | zero =>
      cases hi
      exact ⟨y, rfl, hxy, rfl, rfl⟩
    | succ i => cases hi

namespace ShowsChannel

variable {sender : MachineID C D} {memory : DataBlock b}
  {requests : List (MemoryMsg (MachineID C D) b)}
  {responses : List (MemoryResponse (MachineID C D) b)} {channel : Channel (DataBlock b)} {i : ℕ}

theorem of_idle (h : ShowsChannel addr sender memory requests responses .idle) :
  requests = [] ∧ responses = []
  := by
  cases h
  exact ⟨rfl, rfl⟩

section

variable (h : ShowsChannel addr sender memory requests responses channel)

include h

theorem of_request {msg : MemoryMsg (MachineID C D) b} (hi : requests[i]? = some msg) :
  i = 0 ∧ requests = [msg] ∧ responses = []
    ∧ (channel = .reading ∧ msg = { addr := addr, type := .MEMORY_READ, sender := sender }
      ∨ ∃ v, channel = .writing v ∧ msg.service memory
        = .ok (v, { addr := addr, type := .MEMORY_WB, originalRequestorMachId := sender }))
  := by
  cases h with
  | reading =>
    cases i with
    | succ i => cases hi
    | zero =>
      cases hi
      exact ⟨rfl, rfl, rfl, .inl ⟨rfl, rfl⟩⟩
  | writing hservice =>
    cases i with
    | succ i => cases hi
    | zero =>
      cases hi
      exact ⟨rfl, rfl, rfl, .inr ⟨_, rfl, hservice⟩⟩
  | _ => cases hi

theorem of_response {msg : MemoryResponse (MachineID C D) b} (hi : responses[i]? = some msg) :
  i = 0 ∧ requests = [] ∧ responses = [msg]
    ∧ ((∃ v, channel = .read v ∧ msg
        = { addr := addr, type := .MEMORY_READ, originalRequestorMachId := sender, dataBlk := v })
      ∨ channel = .written
        ∧ msg = { addr := addr, type := .MEMORY_WB, originalRequestorMachId := sender })
  := by
  cases h with
  | read v =>
    cases i with
    | succ i => cases hi
    | zero =>
      cases hi
      exact ⟨rfl, rfl, rfl, .inl ⟨v, rfl, rfl⟩⟩
  | written =>
    cases i with
    | succ i => cases hi
    | zero =>
      cases hi
      exact ⟨rfl, rfl, rfl, .inr ⟨rfl, rfl⟩⟩
  | _ => cases hi

end

end ShowsChannel

/-- The states of the protocol that the system can be in. -/
abbrev LineState (C D : Type) (b : ℕ) : Type :=
  State C D (DataBlock b) (DMARequestMsg C D b)

/-- A cache, with what is on its way to it and from it. -/
structure ShowsNode (c : C) (cache : L1Cache b) (requests forwards : List (RequestMsg C D b))
    (responses : List (ResponseMsg C D b)) (n : Node C (DataBlock b)) : Prop where
  line : Shows cache n.line
  requests : requests = n.req.toList.map (Request.msg c)
  forwards : forwards = n.fwd.map (Forward.msg c)
  responses : List.Forall₂ ShowsResponse responses n.data.toList

/-- A DMA controller, with what is on its way to it and from it. -/
structure ShowsPort (addr : Addr) (d : D) (dma : DMA b) (requests : List (DMARequestMsg C D b))
    (responses : List (DMAResponseMsg C D b))
    (p : Port (DataBlock b) (DMARequestMsg C D b)) : Prop where
  device : ShowsDevice dma p.device
  requests : List.Forall₂ (ShowsDMARequest addr d) requests p.req.toList
  responses : List.Forall₂ ShowsDMAResponse responses p.resp.toList

/-- The system is in a state of the protocol. -/
structure Rep (addr : Addr) (s : System C D b) (a : LineState C D b) : Prop where
  node (c : C) : ShowsNode c (s.caches c) (s.requests c) (s.forwards (.L1Cache c))
    (s.responses (.L1Cache c)) (a.node c)
  port (d : D) : ShowsPort addr d (s.dmas d) (s.dmaRequests d) (s.dmaResponses (.DMA d)) (a.port d)
  home : ShowsHome addr s.directory a.home
  channel : ShowsChannel (makeLineAddress b addr) a.home.sender s.memory s.memoryRequests
    s.memoryResponses a.channel
  memory : s.memory = a.memory
  history : s.history = a.history
  issued (d : D) (msg : DMARequestMsg C D b) : .dmaIssue d msg ∈ a.history → Issued addr d msg

/-! ### What a controller does to the system -/

namespace System

variable (s : System C D b)

@[simp]
theorem queueMemory_nil :
  s.queueMemory [] = s
  := by
  simp [queueMemory]

@[simp]
theorem tell_nil :
  s.tell [] = s
  := by
  simp [tell]

@[simp]
theorem sendDMARequests_nil [DecidableEq D] (d : D) :
  s.sendDMARequests d [] = s
  := by
  simp [sendDMARequests]

variable [DecidableEq C] [DecidableEq D]

@[simp]
theorem sendForwards_nil :
  s.sendForwards [] = s
  := by
  simp [sendForwards]

@[simp]
theorem sendResponses_nil :
  s.sendResponses [] = s
  := by
  simp [sendResponses]

@[simp]
theorem sendDMAResponses_nil :
  s.sendDMAResponses [] = s
  := by
  simp [sendDMAResponses]

end System

namespace Rep

variable {s : System C D b} {a : LineState C D b}

/-- The system is in the first state of the protocol at the start. -/
theorem init (addr : Addr) (memory : DataBlock b) :
  Rep addr ({ memory := memory } : System C D b) { memory := memory }
  where
  node _ := ⟨.absent, rfl, rfl, .nil⟩
  port _ := ⟨.ready, .nil, .nil⟩
  home := ⟨rfl, .I⟩
  channel := .idle
  memory := rfl
  history := rfl
  issued _ _ := nofun

variable (h : Rep addr s a)

include h

/-- The holder of the line is not in the system. -/
theorem holder (x : Option C) :
  Rep addr s { a with holder := x }
  := { h with }

variable {l : List (LineEvent C D b)} {c : C} {d : D}

theorem tell (hissued : ∀ d msg, .dmaIssue d msg ∈ l → Issued addr d msg) :
  Rep addr (s.tell l) { a with history := a.history ++ l }
  := by
  refine { h with history := ?_, issued := ?_ }
  · change s.history ++ l = a.history ++ l
    rw [h.history]
  · intro d msg hmem
    rcases mem_append.mp hmem with hmem | hmem
    · apply h.issued d msg hmem
    · apply hissued d msg hmem

/-- The directory and what it has asked memory for. -/
theorem turn {dir : Directory C D b} {home : Home C D (DMARequestMsg C D b)}
    {channel : Channel (DataBlock b)} {requests : List (MemoryMsg (MachineID C D) b)}
    {responses : List (MemoryResponse (MachineID C D) b)} (hhome : ShowsHome addr dir home)
    (hchannel : ShowsChannel (makeLineAddress b addr) home.sender s.memory requests responses
      channel) (hissued : ∀ d msg, .dmaIssue d msg ∉ l) :
  Rep addr
    (System.tell l
      { s with directory := dir, memoryRequests := requests, memoryResponses := responses })
    (a.turn home channel l)
  := by
  apply Rep.tell (a := { a with home, channel })
  · exact { h with home := hhome, channel := hchannel }
  · intro d msg hmem
    cases hissued d msg hmem

variable [DecidableEq C]

/-- A cache and what is on its way to it and from it. -/
theorem setNode {k : C → L1Cache b} {r : C → List (RequestMsg C D b)}
    {f : MachineID C D → List (RequestMsg C D b)} {g : MachineID C D → List (ResponseMsg C D b)}
    {n : Node C (DataBlock b)}
    (hother : ∀ q ≠ c, ShowsNode q (k q) (r q) (f (.L1Cache q)) (g (.L1Cache q)) (a.node q))
    (hn : ShowsNode c (k c) (r c) (f (.L1Cache c)) (g (.L1Cache c)) n) :
  Rep addr { s with caches := k, requests := r, forwards := f, responses := g } (a.setNode c n)
  := by
  refine { h with node := ?_ }
  intro q
  dsimp only [State.setNode]
  by_cases hq : q = c
  · rw [hq, update_self]
    apply hn
  · rw [update_of_ne hq]
    apply hother q hq

/-- The request of a cache arrives. -/
theorem take {r : Request (DataBlock b)} (hr : (a.node c).req = some r) (source : Option C) :
  Rep addr { s with requests := update s.requests c ((s.requests c).eraseIdx 0) }
    (a.setNode c { a.node c with req := none, source })
  := by
  apply h.setNode
  · intro q hq
    rw [update_of_ne hq]
    apply h.node
  · refine { h.node c with requests := ?_ }
    rw [update_self, (h.node c).requests, hr]
    rfl

variable [DecidableEq D]

/-- The directory sends a message to a cache. -/
theorem forward (c : C) (m : Forward C) :
  Rep addr (s.sendForwards [({.L1Cache c}, Forward.msg c m)]) (a.forward c m)
  := by
  apply h.setNode
  · intro q hq
    refine { h.node q with forwards := ?_ }
    simp [(h.node q).forwards, hq]
  · refine { h.node c with forwards := ?_ }
    simp [(h.node c).forwards]

/-- A block is sent to a cache. -/
theorem send {msg : ResponseMsg C D b} {v : DataBlock b} (hdata : (a.node c).data = none)
    (hmsg : ShowsResponse msg v) (hdestination : msg.destination = .L1Cache c) :
  Rep addr (s.sendResponses [msg]) (a.send c v)
  := by
  apply (h.setNode _ _).holder
  · intro q hq
    refine { h.node q with responses := ?_ }
    simpa [hdestination, hq.symm] using (h.node q).responses
  · refine { h.node c with responses := ?_ }
    have hresponses := (h.node c).responses
    rw [hdata] at hresponses
    rw [forall₂_nil_right_iff.mp hresponses]
    simpa [hdestination] using hmsg

omit [DecidableEq C] in
/-- A DMA controller and what is on its way to it and from it. -/
theorem setPort {k : D → DMA b} {r : D → List (DMARequestMsg C D b)}
    {f : MachineID C D → List (DMAResponseMsg C D b)} {p : Port (DataBlock b) (DMARequestMsg C D b)}
    (hother : ∀ e ≠ d, ShowsPort addr e (k e) (r e) (f (.DMA e)) (a.port e))
    (hp : ShowsPort addr d (k d) (r d) (f (.DMA d)) p) :
  Rep addr { s with dmas := k, dmaRequests := r, dmaResponses := f } (a.setPort d p)
  := by
  refine { h with port := ?_ }
  intro e
  dsimp only [State.setPort]
  by_cases he : e = d
  · rw [he, update_self]
    apply hp
  · rw [update_of_ne he]
    apply hother e he

omit [DecidableEq C] in
/-- The request of a DMA controller arrives. -/
theorem takeDma {r : DmaRequest (DMARequestMsg C D b)} (hr : (a.port d).req = some r) :
  Rep addr { s with dmaRequests := update s.dmaRequests d ((s.dmaRequests d).eraseIdx 0) }
    (a.takeDma d)
  := by
  apply h.setPort
  · intro e he
    rw [update_of_ne he]
    apply h.port
  · refine { h.port d with requests := ?_ }
    have hrequests := (h.port d).requests
    rw [hr] at hrequests
    obtain ⟨msg, l, -, hl, hmsg⟩ := forall₂_cons_right_iff.mp hrequests
    rw [update_self, hmsg, forall₂_nil_right_iff.mp hl]
    exact .nil

/-- The directory answers a DMA controller. -/
theorem respond {msg : DMAResponseMsg C D b} {m : DmaResponse (DataBlock b)}
    (hresp : (a.port d).resp = none) (hdestination : msg.destination = .DMA d)
    (hm : ShowsDMAResponse msg m) :
  Rep addr (s.sendDMAResponses [msg]) (a.respond d m)
  := by
  apply h.setPort
  · intro e he
    refine { h.port e with responses := ?_ }
    simpa [hdestination, he.symm] using (h.port e).responses
  · refine { h.port d with responses := ?_ }
    have hresponses := (h.port d).responses
    rw [hresp] at hresponses
    rw [forall₂_nil_right_iff.mp hresponses]
    simpa [hdestination] using hm

end Rep

end Gem5Arc.MIExample
