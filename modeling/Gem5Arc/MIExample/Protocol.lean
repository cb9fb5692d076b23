import Gem5Arc.Lib.Run
import Gem5Arc.MIExample.Messages

/-!
# The protocol

What the controllers do together, without the entries, the TBEs and the tables that they do it with.
The line has values of any type `V`, and DMA writes are of any type `W`; `effect w v` is what a DMA
write leaves of the value `v` in memory.

Each cache has at most one request on its way to the directory and at most one block on its way to
it, and memory is asked for one thing at a time. Two fields of the state are not in the program: the
cache that has the only valid copy of the line, and, for each cache that is to get the line from
another one, this other cache.
-/

namespace Gem5Arc.MIExample

variable {C D V W : Type}

/-- The line in a cache, with the value it has or the store that waits for it. -/
inductive Line (V : Type) where
  | I
  | IS
  | IM (store : V → V)
  | M (v : V)
  | MI (v : V)
  | MII (v : V)
  | II

/-- A request of a cache to the directory. -/
inductive Request (V : Type) where
  | getx
  | putx (v : V)

/-- A message of the directory to a cache. -/
inductive Forward (C : Type) where
  | getx (c : C)
  | ack
  | nack
  | inv

/-- A cache, with what is on its way to it and from it. -/
structure Node (C V : Type) where
  line : Line V := .I
  req : Option (Request V) := none
  data : Option V := none
  fwd : List (Forward C) := []
  /-- The cache that is to send the line to this one. -/
  source : Option C := none

/-- The directory, with the cache and the DMA controller it works for. -/
inductive Home (C D W : Type) where
  | I
  | IM (c : C)
  | M (c : C)
  | MI (c : C)
  | ID (d : D)
  | ID_W (d : D)
  | M_DRD (d : D) (c : C)
  | M_DWR (d : D) (c : C) (w : W)
  | M_DRDI (c : C)
  | M_DWRI (d : D) (c : C)

/-- What the directory has asked memory for, or what memory has answered. A write is given by the
value it leaves. -/
inductive Channel (V : Type) where
  | idle
  | reading
  | read (v : V)
  | writing (v : V)
  | written

inductive DmaRequest (W : Type) where
  | read
  | write (w : W)

inductive DmaResponse (V : Type) where
  | data (v : V)
  | ack

/-- What a DMA controller is doing. -/
inductive Device (W : Type) where
  | ready
  | reading
  | writing (w : W)

/-- A DMA controller, with what is on its way to it and from it. -/
structure Port (V W : Type) where
  device : Device W := .ready
  req : Option (DmaRequest W) := none
  resp : Option (DmaResponse V) := none

structure State (C D V W : Type) where
  node : C → Node C V := fun _ => {}
  home : Home C D W := .I
  channel : Channel V := .idle
  memory : V
  port : D → Port V W := fun _ => {}
  history : List (Event C D V W) := []
  /-- The cache that has the only valid copy of the line, or is about to get it. -/
  holder : Option C := none

/-- What happens in a step: a cache does something by itself, the request of a cache or of a DMA
controller arrives at the directory, memory does what it has been asked for, its answer arrives, or
a DMA controller does something by itself. -/
inductive Act (C D : Type) where
  | cache (c : C)
  | request (c : C)
  | dmaRequest (d : D)
  | memory
  | memoryResponse
  | device (d : D)

/-! ### The steps of a cache -/

/-- Message `i` of the forward network can arrive. -/
def Node.Arrives (ordered : Bool) (n : Node C V) (i : ℕ) (m : Forward C) : Prop :=
  n.fwd[i]? = some m ∧ (ordered = true → i = 0)

/-- The cache without message `i` of the forward network. -/
def Node.pop (n : Node C V) (i : ℕ) : Node C V := { n with fwd := n.fwd.eraseIdx i }

/-- `n.Step ordered c n' send told`: cache `c` goes from `n` to `n'`, sends a block to a cache, and
the processor is told something. -/
inductive Node.Step (ordered : Bool) (c : C) (n : Node C V) :
    Node C V → Option (C × V) → List (Event C D V W) → Prop
  | loadMiss : n.line = .I →
      Step ordered c n { n with line := .IS, req := some .getx } none []
  | storeMiss (f : V → V) : n.line = .I →
      Step ordered c n { n with line := .IM f, req := some .getx } none []
  | loadHit (v : V) : n.line = .M v →
      Step ordered c n n none [.read c v]
  | storeHit (v : V) (f : V → V) : n.line = .M v →
      Step ordered c n { n with line := .M (f v) } none [.write c f]
  | replace (v : V) : n.line = .M v →
      Step ordered c n { n with line := .MI v, req := some (.putx v) } none []
  | load (v : V) : n.line = .IS → n.data = some v →
      Step ordered c n { n with line := .M v, data := none } none [.read c v]
  | store (v : V) (f : V → V) : n.line = .IM f → n.data = some v →
      Step ordered c n { n with line := .M (f v), data := none } none [.write c f]
  | reclaim (i : ℕ) (v : V) : n.line = .M v → n.Arrives ordered i .inv →
      Step ordered c n { n with line := .MI v, req := some (.putx v) } none []
  | skip (i : ℕ) (v : V) : n.line = .MI v → n.Arrives ordered i .inv →
      Step ordered c n (n.pop i) none []
  | supplyM (i : ℕ) (x : C) (v : V) : n.line = .M v → n.Arrives ordered i (.getx x) →
      Step ordered c n { n.pop i with line := .I } (some (x, v)) []
  | supplyMI (i : ℕ) (x : C) (v : V) : n.line = .MI v → n.Arrives ordered i (.getx x) →
      Step ordered c n { n.pop i with line := .II } (some (x, v)) []
  | supplyMII (i : ℕ) (x : C) (v : V) : n.line = .MII v → n.Arrives ordered i (.getx x) →
      Step ordered c n { n.pop i with line := .I } (some (x, v)) []
  | ack (i : ℕ) (v : V) : n.line = .MI v → n.Arrives ordered i .ack →
      Step ordered c n { n.pop i with line := .I } none []
  | nackMI (i : ℕ) (v : V) : n.line = .MI v → n.Arrives ordered i .nack →
      Step ordered c n { n.pop i with line := .MII v } none []
  | nackII (i : ℕ) : n.line = .II → n.Arrives ordered i .nack →
      Step ordered c n { n.pop i with line := .I } none []

/-! ### The steps of the directory -/

/-- The directory refuses the block that a cache writes back: the line is not the cache's, and the
directory does not wait for memory before it looks at requests. -/
def Home.Refuses (c : C) : Home C D W → Prop
  | .I => True
  | .M o => o ≠ c
  | .M_DRD _ o => o ≠ c
  | .M_DWR _ o _ => o ≠ c
  | .M_DRDI _ => True
  | .M_DWRI _ _ => True
  | _ => False

namespace State

open Function

variable [DecidableEq C] [DecidableEq D]

/-- Change what belongs to a cache. -/
def setNode (s : State C D V W) (c : C) (n : Node C V) : State C D V W :=
  { s with node := update s.node c n }

/-- Change what belongs to a DMA controller. -/
def setPort (s : State C D V W) (d : D) (p : Port V W) : State C D V W :=
  { s with port := update s.port d p }

/-- The request of a cache arrives at the directory. -/
def take (s : State C D V W) (c : C) : State C D V W :=
  s.setNode c { s.node c with req := none }

/-- The directory sends a message to a cache. -/
def forward (s : State C D V W) (c : C) (m : Forward C) : State C D V W :=
  s.setNode c { s.node c with fwd := (s.node c).fwd ++ [m] }

/-- A block is sent to a cache, which then has the only valid copy. -/
def send (s : State C D V W) (c : C) (v : V) : State C D V W :=
  { s.setNode c { s.node c with data := some v, source := none } with holder := some c }

/-- The directory answers a DMA controller. -/
def respond (s : State C D V W) (d : D) (m : DmaResponse V) : State C D V W :=
  s.setPort d { s.port d with resp := some m }

/-- The request of a DMA controller arrives at the directory. -/
def takeDma (s : State C D V W) (d : D) : State C D V W :=
  s.setPort d { s.port d with req := none }

/-- The state of the directory, what it asks memory for, and what there is to tell. -/
def turn (s : State C D V W) (home : Home C D W) (channel : Channel V)
    (told : List (Event C D V W)) : State C D V W :=
  { s with home := home, channel := channel, history := s.history ++ told }

inductive Step (effect : W → V → V) (ordered : Bool) (s : State C D V W) :
    Act C D → State C D V W → Prop
  | cache (c : C) (n : Node C V) (told : List (Event C D V W)) :
      (s.node c).Step ordered c n none told →
      Step effect ordered s (.cache c) { s.setNode c n with history := s.history ++ told }
  | supply (c : C) (n : Node C V) (x : C) (v : V) (told : List (Event C D V W)) :
      (s.node c).Step ordered c n (some (x, v)) told →
      Step effect ordered s (.cache c) ((s.setNode c n).send x v)
  | fetch (c : C) : s.home = .I → (s.node c).req = some .getx →
      Step effect ordered s (.request c) ((s.take c).turn (.IM c) .reading [])
  | pass (c o : C) : s.home = .M o → (s.node c).req = some .getx →
      Step effect ordered s (.request c)
        (((s.setNode c { s.node c with req := none, source := some o }).forward o (.getx c)).turn
          (.M c) s.channel [])
  | writeback (c : C) (v : V) : s.home = .M c → (s.node c).req = some (.putx v) →
      Step effect ordered s (.request c)
        { (s.take c).turn (.MI c) (.writing v) [] with holder := none }
  | refuse (c : C) (v : V) : s.home.Refuses c → (s.node c).req = some (.putx v) →
      Step effect ordered s (.request c) ((s.take c).forward c .nack)
  | recalledRead (d : D) (c : C) (v : V) : s.home = .M_DRD d c →
      (s.node c).req = some (.putx v) →
      Step effect ordered s (.request c)
        { ((s.take c).respond d (.data v)).turn (.M_DRDI c) (.writing v) [] with holder := none }
  | recalledWrite (d : D) (c : C) (w : W) (v : V) : s.home = .M_DWR d c w →
      (s.node c).req = some (.putx v) →
      Step effect ordered s (.request c)
        { (s.take c).turn (.M_DWRI d c) (.writing (effect w s.memory)) [.dmaWrite (.DMA d) w] with
          holder := none }
  | readMemory : s.channel = .reading →
      Step effect ordered s .memory { s with channel := .read s.memory }
  | writeMemory (v : V) : s.channel = .writing v →
      Step effect ordered s .memory { s with memory := v, channel := .written }
  | fetched (c : C) (v : V) : s.home = .IM c → s.channel = .read v →
      Step effect ordered s .memoryResponse ((s.send c v).turn (.M c) .idle [])
  | writtenBack (c : C) : s.home = .MI c → s.channel = .written →
      Step effect ordered s .memoryResponse ((s.forward c .ack).turn .I .idle [])
  | dmaRead (d : D) (v : V) : s.home = .ID d → s.channel = .read v →
      Step effect ordered s .memoryResponse ((s.respond d (.data v)).turn .I .idle [])
  | dmaWritten (d : D) : s.home = .ID_W d → s.channel = .written →
      Step effect ordered s .memoryResponse ((s.respond d .ack).turn .I .idle [])
  | writtenRecalled (c : C) : s.home = .M_DRDI c → s.channel = .written →
      Step effect ordered s .memoryResponse ((s.forward c .ack).turn .I .idle [])
  | dmaWrittenRecalled (d : D) (c : C) : s.home = .M_DWRI d c → s.channel = .written →
      Step effect ordered s .memoryResponse (((s.forward c .ack).respond d .ack).turn .I .idle [])
  | dmaFetch (d : D) : s.home = .I → (s.port d).req = some .read →
      Step effect ordered s (.dmaRequest d) ((s.takeDma d).turn (.ID d) .reading [])
  | dmaStore (d : D) (w : W) : s.home = .I → (s.port d).req = some (.write w) →
      Step effect ordered s (.dmaRequest d)
        ((s.takeDma d).turn (.ID_W d) (.writing (effect w s.memory)) [.dmaWrite (.DMA d) w])
  | recallForRead (d : D) (c : C) : s.home = .M c → (s.port d).req = some .read →
      Step effect ordered s (.dmaRequest d)
        (((s.forward c .inv).takeDma d).turn (.M_DRD d c) s.channel [])
  | recallForWrite (d : D) (c : C) (w : W) : s.home = .M c → (s.port d).req = some (.write w) →
      Step effect ordered s (.dmaRequest d)
        (((s.forward c .inv).takeDma d).turn (.M_DWR d c w) s.channel [])
  | issueRead (d : D) : (s.port d).device = .ready →
      Step effect ordered s (.device d)
        (s.setPort d { s.port d with device := .reading, req := some .read })
  | issueWrite (d : D) (w : W) : (s.port d).device = .ready →
      Step effect ordered s (.device d)
        { s.setPort d { s.port d with device := .writing w, req := some (.write w) } with
          history := s.history ++ [.dmaIssue d w] }
  | dmaData (d : D) (v : V) : (s.port d).device = .reading → (s.port d).resp = some (.data v) →
      Step effect ordered s (.device d)
        { s.setPort d { s.port d with device := .ready, resp := none } with
          history := s.history ++ [.dmaData d v] }
  | dmaAck (d : D) (w : W) : (s.port d).device = .writing w → (s.port d).resp = some .ack →
      Step effect ordered s (.device d)
        { s.setPort d { s.port d with device := .ready, resp := none } with
          history := s.history ++ [.dmaAck d] }

end State

end Gem5Arc.MIExample
