import Gem5Arc.Lib.Run
import Gem5Arc.MIExample.Cache
import Gem5Arc.MIExample.Directory
import Gem5Arc.MIExample.DMA

/-!
# The system

The L1 caches, the directory, the DMA controllers, memory, and the messages on their way between
them, for one line. For each network there is a list of messages for each cache or DMA controller at
one end of it, the oldest first. A step of the system is that a processor or a device makes a
request, that a message arrives, or that memory serves a request. Which message of a list arrives is
left open, except that the forward network can be ordered.
-/

namespace Gem5Arc.MIExample

variable {C D : Type} {b : ℕ}

/-- The state of the system. -/
structure System (C D : Type) (b : ℕ) where
  caches : C → L1Cache b := fun _ => {}
  directory : Directory C D b := {}
  dmas : D → DMA b := fun _ => {}
  memory : DataBlock b
  /-- The requests of each cache to the directory. -/
  requests : C → List (RequestMsg C D b) := fun _ => []
  /-- What the directory has sent to each machine on the forward network. -/
  forwards : MachineID C D → List (RequestMsg C D b) := fun _ => []
  /-- What has been sent to each machine on the response network. -/
  responses : MachineID C D → List (ResponseMsg C D b) := fun _ => []
  /-- The requests of each DMA controller to the directory. -/
  dmaRequests : D → List (DMARequestMsg C D b) := fun _ => []
  /-- What the directory has sent to each machine on the network for DMA responses. -/
  dmaResponses : MachineID C D → List (DMAResponseMsg C D b) := fun _ => []
  memoryRequests : List (MemoryMsg (MachineID C D) b) := []
  memoryResponses : List (MemoryResponse (MachineID C D) b) := []
  history : List (LineEvent C D b) := []

/-- The steps of the system. A number says which message of a list arrives. -/
inductive Label (C D : Type) (b : ℕ) where
  | processor (c : C) (r : ProcessorRequest b)
  | forward (c : C) (i : ℕ)
  | response (c : C) (i : ℕ)
  | request (c : C) (i : ℕ)
  | dmaRequest (d : D) (i : ℕ)
  | memory (i : ℕ)
  | memoryResponse (i : ℕ)
  | device (d : D) (pkt : DMAPacket)
  | dmaResponse (d : D) (i : ℕ)

namespace System

open Function

variable [DecidableEq C] [DecidableEq D]

/-- Messages are sent on the forward network, each to a set of machines. -/
def sendForwards (l : List (Finset (MachineID C D) × RequestMsg C D b)) (s : System C D b) :
    System C D b :=
  { s with forwards := fun m => s.forwards m ++ (l.filter (m ∈ ·.1)).map (·.2) }

/-- Messages are sent on the response network. -/
def sendResponses (l : List (ResponseMsg C D b)) (s : System C D b) : System C D b :=
  { s with responses := fun m => s.responses m ++ l.filter (·.destination = m) }

/-- Messages are sent to DMA controllers. -/
def sendDMAResponses (l : List (DMAResponseMsg C D b)) (s : System C D b) : System C D b :=
  { s with dmaResponses := fun m => s.dmaResponses m ++ l.filter (·.destination = m) }

/-- A cache sends requests to the directory. -/
def sendRequests (c : C) (l : List (RequestMsg C D b)) (s : System C D b) : System C D b :=
  { s with requests := update s.requests c (s.requests c ++ l) }

/-- A DMA controller sends requests to the directory. -/
def sendDMARequests (d : D) (l : List (DMARequestMsg C D b)) (s : System C D b) : System C D b :=
  { s with dmaRequests := update s.dmaRequests d (s.dmaRequests d ++ l) }

/-- The directory sends requests to memory. -/
def queueMemory (l : List (MemoryMsg (MachineID C D) b)) (s : System C D b) : System C D b :=
  { s with memoryRequests := s.memoryRequests ++ l }

/-- Something is added to the history. -/
def tell (l : List (LineEvent C D b)) (s : System C D b) : System C D b :=
  { s with history := s.history ++ l }

/-- What the transition of a cache has changed. -/
def updateCache (c : C) (w : L1Work C D b) (s : System C D b) : System C D b :=
  tell w.told (sendResponses w.responsesOut (sendRequests c w.requestsOut
    { s with caches := update s.caches c w.toL1Cache }))

/-- What the transition of the directory has changed. -/
def updateDirectory (w : DirWork C D b) (s : System C D b) : System C D b :=
  tell w.told (queueMemory w.memoryOut (sendDMAResponses w.dmaResponsesOut
    (sendResponses w.responsesOut (sendForwards w.forwardsOut
      { s with directory := w.toDirectory }))))

/-- What the transition of a DMA controller has changed. -/
def updateDMA (d : D) (w : DMAWork C D b) (s : System C D b) : System C D b :=
  tell w.told (sendDMARequests d w.requestsOut { s with dmas := update s.dmas d w.toDMA })

/-- A message arrives, and `popped` is the system without it. If the transition stalls nothing
changes, and if it does not pop the message, the message stays where it is. -/
def after {Work : Type} (isPopped : Work → Bool) (update : Work → System C D b → System C D b)
    (s popped : System C D b) : Option Work → System C D b
  | none => s
  | some w => update w (if isPopped w then popped else s)

/-- A step of the system, for the line of the given address: the state after it, or how the
simulator stops. There is none if there is no such message. -/
def step (ordered : Bool) (addr : Addr) : Label C D b → System C D b →
    Option (Except Fault (System C D b))
  | .processor c r, s => some do
      let w ← L1Cache.onProcessor c (s.caches c) r
      .ok (after L1Work.popped (updateCache c) s s w)
  | .forward c i, s =>
    if ordered = true ∧ i ≠ 0 then none
    else (s.forwards (.L1Cache c))[i]?.map fun msg => do
      let w ← L1Cache.onForward c (s.caches c) msg
      let popped := { s with
        forwards := update s.forwards (.L1Cache c) ((s.forwards (.L1Cache c)).eraseIdx i) }
      .ok (after L1Work.popped (updateCache c) s popped w)
  | .response c i, s =>
    (s.responses (.L1Cache c))[i]?.map fun msg => do
      let w ← L1Cache.onResponse c (s.caches c) msg
      let popped := { s with
        responses := update s.responses (.L1Cache c) ((s.responses (.L1Cache c)).eraseIdx i) }
      .ok (after L1Work.popped (updateCache c) s popped w)
  | .request c i, s =>
    (s.requests c)[i]?.map fun msg => do
      let w ← s.directory.onRequest (makeLineAddress b addr) msg
      let popped := { s with requests := update s.requests c ((s.requests c).eraseIdx i) }
      .ok (after DirWork.popped updateDirectory s popped w)
  | .dmaRequest d i, s =>
    (s.dmaRequests d)[i]?.map fun msg => do
      let w ← s.directory.onDMARequest (makeLineAddress b addr) msg
      let popped := { s with
        dmaRequests := update s.dmaRequests d ((s.dmaRequests d).eraseIdx i) }
      .ok (after DirWork.popped updateDirectory s popped w)
  | .memory i, s =>
    s.memoryRequests[i]?.map fun msg => do
      let (memory, response) ← msg.service s.memory
      .ok { s with
        memory := memory
        memoryRequests := s.memoryRequests.eraseIdx i
        memoryResponses := s.memoryResponses ++ [response] }
  | .memoryResponse i, s =>
    s.memoryResponses[i]?.map fun msg => do
      let w ← s.directory.onMemory (makeLineAddress b addr) msg
      let popped := { s with memoryResponses := s.memoryResponses.eraseIdx i }
      .ok (after DirWork.popped updateDirectory s popped w)
  | .device d pkt, s =>
    if makeLineAddress b pkt.addr = makeLineAddress b addr then some do
      let w ← DMA.onRequest d (s.dmas d) (DMASequencer.makeRequest b pkt)
      .ok (after DMAWork.popped (updateDMA d) s s w)
    else none
  | .dmaResponse d i, s =>
    (s.dmaResponses (.DMA d))[i]?.map fun msg => do
      let w ← DMA.onResponse d (s.dmas d) msg
      let popped := { s with
        dmaResponses := update s.dmaResponses (.DMA d)
          ((s.dmaResponses (.DMA d)).eraseIdx i) }
      .ok (after DMAWork.popped (updateDMA d) s popped w)

/-- The step leads from one state to another. -/
def Leads (ordered : Bool) (addr : Addr) (s : System C D b) (l : Label C D b)
    (t : System C D b) : Prop :=
  step ordered addr l s = some (.ok t)

/-- The states of the runs that start with the given memory and nothing in the caches. -/
def Reachable (ordered : Bool) (addr : Addr) (memory : DataBlock b) (s : System C D b) : Prop :=
  Lib.Reachable (Leads ordered addr) { memory := memory } s

/-- The state that the steps lead to. -/
def run (ordered : Bool) (addr : Addr) : List (Label C D b) → System C D b →
    Option (System C D b)
  | [], s => some s
  | l :: ls, s =>
    match step ordered addr l s with
    | some (.ok t) => run ordered addr ls t
    | _ => none

variable {ordered : Bool} {addr : Addr} {ls : List (Label C D b)} {s : System C D b}

theorem run_of_run {t : System C D b} (h : run ordered addr ls s = some t) :
  Lib.Run (Leads ordered addr) s ls t
  := by
  induction ls generalizing s with
  | nil =>
    cases h
    apply Lib.Run.nil
  | cons l ls ih =>
    rw [run] at h
    split at h
    · next u hu => exact .cons hu (ih h)
    · cases h

/-- The states that the steps lead to are reachable. -/
theorem reachable_of_run {memory : DataBlock b}
    (h : run ordered addr ls { memory := memory } = some s) :
  Reachable ordered addr memory s
  := ⟨ls, run_of_run h⟩

end System

end Gem5Arc.MIExample
