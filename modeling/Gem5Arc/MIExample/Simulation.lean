import Gem5Arc.MIExample.Representation

/-!
# The system follows the protocol

Every step of the system is a step of the protocol, or changes nothing that the protocol knows of,
except that the directory has no transition for some DMA requests.
-/

namespace Gem5Arc.MIExample

open DMARequestMsg DMASequencer DirWork Function Home List MIExample.System Option

variable {C D : Type} {b : ℕ} {addr : Addr} {s : System C D b} {a : LineState C D b}
  {out : Except Fault (System C D b)} {m : Forward C}

/-- The directory has no transition for a DMA request. -/
def Home.Blocked {W : Type} : Home C D W → Prop
  | .M_DRD _ _ => True
  | .M_DWR _ _ _ => True
  | .M_DWRI _ _ => True
  | _ => False

theorem Home.blocked_iff {W : Type} (home : Home C D W) :
  home.Blocked ↔ home.state ∈ [DirState.M_DRD, .M_DWR, .M_DWRI]
  := by
  cases home with
  | _ => simp [Home.Blocked, state]

namespace Rep

section

variable (h : Rep addr s a)

include h

theorem directory_eq :
  ∃ tbe, s.directory = ⟨a.home.entry, tbe⟩ ∧ ShowsTBE addr tbe a.home
  := by
  use s.directory.tbe
  rw [← h.home.entry]
  exact ⟨rfl, h.home.tbe⟩

/-- Nothing is on its way to memory or from memory. -/
theorem idle (hc : a.channel = .idle) :
  (s.memoryRequests = [] ∧ s.memoryResponses = [])
    ∧ ∀ sender : MachineID C D,
      ShowsChannel (makeLineAddress b addr) sender s.memory [] [] a.channel
  := by
  have hchannel := h.channel
  rw [hc] at hchannel ⊢
  exact ⟨hchannel.of_idle, fun _ => .idle⟩

theorem getState_eq :
  s.directory.getState = a.home.state
  := by
  obtain ⟨tbe, hdir, htbe⟩ := h.directory_eq
  generalize a.home = home at hdir htbe
  rw [hdir]
  cases htbe with
  | _ => rfl

/-- The directory has no transition for a DMA request while it waits for the line to come back for
another one, or for memory to write it. -/
theorem onDMARequest_blocked (hblocked : a.home.Blocked) (msg : DMARequestMsg C D b) :
  s.directory.onDMARequest (makeLineAddress b addr) msg = .error Slicc.invalidTransition
  := by
  obtain ⟨tbe, hdir, htbe⟩ := h.directory_eq
  generalize a.home = home at hdir htbe hblocked
  rw [hdir]
  obtain ⟨type, physicalAddress, requestor, dataBlk, len⟩ := msg
  cases htbe with
  | M_DRD | M_DWR | M_DWRI =>
    cases type with
    | _ => rfl
  | _ => exact absurd hblocked not_false

end

variable {w : DirWork C D b} {home : Home C D (DMARequestMsg C D b)}
  {channel : Channel (DataBlock b)} {told : List (LineEvent C D b)}

/-- What the directory leaves behind: its entry and its TBE, what is on its way to memory and from
memory, and what it has told. -/
structure Leaves (addr : Addr) (s : System C D b) (w : DirWork C D b)
    (home : Home C D (DMARequestMsg C D b)) (channel : Channel (DataBlock b))
    (l : List (MemoryResponse (MachineID C D) b)) (told : List (LineEvent C D b)) : Prop where
  directory : ShowsHome addr w.toDirectory home
  memory : ShowsChannel (makeLineAddress b addr) home.sender s.memory
    (s.memoryRequests ++ w.memoryOut) l channel
  history : w.told = told
  issued : ∀ d msg, .dmaIssue d msg ∉ told

/-- The directory asks memory for nothing and tells nothing. -/
theorem Leaves.idle (hrequests : s.memoryRequests = []) (hhome : ShowsHome addr w.toDirectory home)
    (hw : w.memoryOut = [] ∧ w.told = []) :
  Leaves addr s w home .idle [] []
  := by
  refine ⟨hhome, ?_, hw.2, nofun⟩
  rw [hrequests, hw.1]
  exact .idle

/-- The directory has turned to memory while nothing was on its way. -/
theorem Leaves.of_idle (hidle : s.memoryRequests = [] ∧ s.memoryResponses = [])
    (hhome : ShowsHome addr w.toDirectory home)
    (hmemory : ShowsChannel (makeLineAddress b addr) home.sender s.memory w.memoryOut [] channel)
    (htold : w.told = told) (hissued : ∀ d msg, .dmaIssue d msg ∉ told) :
  Leaves addr s w home channel s.memoryResponses told
  := by
  refine ⟨hhome, ?_, htold, hissued⟩
  rw [hidle.1, hidle.2]
  exact hmemory

end Rep

/-- What a DMA write leaves in memory: the directory sends it with the address of the line, so that
its bytes are taken from the start of the block, and a length of 0 is a whole line. -/
def DMARequestMsg.effect (msg : DMARequestMsg C D b) (memory : DataBlock b) : DataBlock b :=
  memory.overlay 0 (if msg.len > 0 then msg.len else 2 ^ b) msg.dataBlk

variable [DecidableEq C] [DecidableEq D] {ordered : Bool}

/-- The step of the system ends in a state that the protocol can be in after `act`. -/
def Simulates (addr : Addr) (ordered : Bool) (act : Act C D) (a : LineState C D b)
    (out : Except Fault (System C D b)) : Prop :=
  ∃ t a', out = .ok t ∧ (a' = a ∨ a.Step DMARequestMsg.effect ordered act a') ∧ Rep addr t a'

theorem Directory.onRequest_putx {dir : Directory C D b} {address : Addr} {c : C} {v : DataBlock b}
    {e : DirEvent} (he : (if .L1Cache c ∈ dir.entry.owner then .PUTX else .PUTX_NotOwner) = e) :
  dir.onRequest address (Request.msg c (.putx v))
    = (machine address).doTransition e { dir with requestIn := some (Request.msg c (.putx v)) }
  := by
  rw [← he]
  split_ifs with h
  · exact if_pos h
  · exact if_neg h

variable {d : D}

/-- A DMA controller that the directory works for has not been answered yet. -/
theorem Inv.resp_eq_none (hinv : Inv a)
    (hpart : a.home.part d = .reading ∨ a.home.part d = .writing) :
  (a.port d).resp = none
  := by
  obtain ⟨stage, -, haccess⟩ := hinv.ports d
  rcases hpart with hpart | hpart
  · rw [hpart] at haccess
    rw [haccess.of_reading.2]
  · rw [hpart] at haccess
    obtain ⟨w, -, hport⟩ := haccess.of_writing
    rw [hport]

/-! ### Caches -/

namespace Rep

variable {n : Node C (DataBlock b)} {w : L1Work C D b} {c : C} {v : DataBlock b}
  {told : List (LineEvent C D b)} {i : ℕ} {msg : DMARequestMsg C D b}

section

variable (h : Rep addr s a)

include h

variable {f : MachineID C D → List (RequestMsg C D b)}

section

variable (hf : ∀ q ≠ c, f (.L1Cache q) = s.forwards (.L1Cache q))

include hf

/-- A cache that sends no block. -/
theorem updateCache {g : MachineID C D → List (ResponseMsg C D b)}
    (hg : ∀ q ≠ c, g (.L1Cache q) = s.responses (.L1Cache q))
    (hn : ShowsNode c w.toL1Cache (s.requests c ++ w.requestsOut) (f (.L1Cache c))
      (g (.L1Cache c)) n) (hresponses : w.responsesOut = [])
    (hissued : ∀ d msg, .dmaIssue d msg ∉ w.told) :
  Rep addr (System.updateCache c w { s with forwards := f, responses := g })
    { a.setNode c n with history := a.history ++ w.told }
  := by
  rw [System.updateCache, hresponses, System.sendResponses_nil]
  refine Rep.tell (h.setNode ?_ ?_) ?_
  · intro q hq
    simp only [update_of_ne hq, hf q hq, hg q hq]
    apply h.node
  · simp only [update_self]
    apply hn
  · intro d msg hmem
    cases hissued d msg hmem

/-- A cache that sends a block. -/
theorem updateCache_supply {x : C} {msg : ResponseMsg C D b}
    (hn : ShowsNode c w.toL1Cache (s.requests c ++ w.requestsOut) (f (.L1Cache c))
      (s.responses (.L1Cache c)) n) (hresponses : w.responsesOut = [msg]) (htold : w.told = [])
    (hdata : ((a.setNode c n).node x).data = none) (hmsg : ShowsResponse msg v)
    (hdestination : msg.destination = .L1Cache x) :
  Rep addr (System.updateCache c w { s with forwards := f }) ((a.setNode c n).send x v)
  := by
  rw [System.updateCache, hresponses, htold, System.tell_nil]
  refine Rep.send (h.setNode ?_ ?_) hdata hmsg hdestination
  · intro q hq
    simp only [update_of_ne hq, hf q hq]
    apply h.node
  · simp only [update_self]
    apply hn

end

/-- A transition that stalls, or that only changes what the protocol does not know of. -/
theorem same {act : Act C D} (hout : out = .ok s) :
  Simulates addr ordered act a out
  := ⟨s, a, hout, .inl rfl, h⟩

/-- A cache drops an entry. -/
theorem same_line (hline : Shows w.toL1Cache (a.node c).line)
    (hw : w.requestsOut = [] ∧ w.responsesOut = [] ∧ w.told = []) :
  Rep addr (System.updateCache c w s) a
  := by
  have hn := h.node c
  have ha : a = { a.setNode c (a.node c) with history := a.history ++ w.told } := by
    simp [State.setNode, hw.2.2]
  rw [ha]
  apply h.updateCache _ _ _ hw.2.1
  · simp [hw.2.2]
  · intro q _
    rfl
  · intro q _
    rfl
  · refine ⟨hline, ?_, hn.forwards, hn.responses⟩
    rw [hw.1, append_nil, hn.requests]

/-- The cache does a step of its own. -/
theorem reacts (hstep : (a.node c).Step ordered c n none told) (htold : w.told = told)
    (hn : ShowsNode c w.toL1Cache (s.requests c ++ w.requestsOut) (s.forwards (.L1Cache c))
      (s.responses (.L1Cache c)) n) (hresponses : w.responsesOut = [])
    (hissued : ∀ d msg, .dmaIssue d msg ∉ told) :
  Simulates addr ordered (.cache c) a (.ok (System.updateCache c w s))
  := by
  refine ⟨_, _, rfl, .inr (.cache c n told hstep), ?_⟩
  rw [← htold] at hissued ⊢
  apply h.updateCache _ _ hn hresponses hissued
  · intro q _
    rfl
  · intro q _
    rfl

theorem processor (hinv : Inv a) (c : C) (r : ProcessorRequest b) :
  Simulates addr ordered (.cache c) a (do
    let w ← L1Cache.onProcessor c (s.caches c) r
    .ok (System.after L1Work.popped (System.updateCache c) s s w))
  := by
  have hn := h.node c
  have hshows := hn.line
  generalize hcache : s.caches c = cache at hshows
  generalize hline : (a.node c).line = line at hshows
  cases hshows with
  | absent | invalid =>
    obtain ⟨hnode, -⟩ := (hinv.caches.phase c).of_I hline
    cases r with
    | load | ifetch =>
      apply h.reacts (.loadMiss hline) rfl
      · refine ⟨.IS _ _ _, ?_, hn.forwards, hn.responses⟩
        rw [hn.requests, hnode]
        rfl
      · rfl
      · nofun
    | store f =>
      apply h.reacts (.storeMiss f hline) rfl
      · refine ⟨.IM _ _ f, ?_, hn.forwards, hn.responses⟩
        rw [hn.requests, hnode]
        rfl
      · rfl
      · nofun
    | replacement =>
      refine ⟨_, a, rfl, .inl rfl, ?_⟩
      apply h.same_line _ ⟨rfl, rfl, rfl⟩
      rw [hline]
      exact .absent
  | M v =>
    obtain ⟨fwd, hnode, -⟩ := (hinv.caches.phase c).of_M hline
    cases r with
    | load | ifetch =>
      apply h.reacts (.loadHit v hline) rfl
      · refine ⟨?_, ?_, hn.forwards, hn.responses⟩
        · rw [hline]
          exact .M v
        · exact (append_nil _).trans hn.requests
      · rfl
      · simp
    | store f =>
      apply h.reacts (.storeHit v f hline) rfl
      · refine ⟨.M (f v), ?_, hn.forwards, hn.responses⟩
        exact (append_nil _).trans hn.requests
      · rfl
      · simp
    | replacement =>
      apply h.reacts (.replace v hline) rfl
      · refine ⟨.MI v, ?_, hn.forwards, hn.responses⟩
        rw [hn.requests, hnode]
        rfl
      · rfl
      · nofun
  | IS | IM | MI | MII | II =>
    apply h.same
    cases r with
    | _ => rfl

/-- The cache does a step of its own with a message of the directory. -/
theorem reactsForward (hstep : (a.node c).Step ordered c n none ([] : List (LineEvent C D b)))
    (hw : w.told = [] ∧ w.responsesOut = []) (hline : Shows w.toL1Cache n.line)
    (hreq : w.requestsOut = [] ∧ n.req = (a.node c).req) (hfwd : n.fwd = (a.node c).fwd.eraseIdx i)
    (hdata : n.data = (a.node c).data) :
  Simulates addr ordered (.cache c) a
    (.ok (System.updateCache c w { s with
        forwards := update s.forwards (.L1Cache c) ((s.forwards (.L1Cache c)).eraseIdx i) }))
  := by
  have hn := h.node c
  refine ⟨_, _, rfl, .inr (.cache c n [] hstep), ?_⟩
  rw [← hw.1]
  apply h.updateCache _ _ _ hw.2
  · rw [hw.1]
    nofun
  · intro q hq
    simp [hq]
  · intro q _
    rfl
  · refine ⟨hline, ?_, ?_, ?_⟩
    · rw [hreq.1, hreq.2, append_nil, hn.requests]
    · rw [update_self, hn.forwards, hfwd, eraseIdx_map]
    · rw [hdata]
      exact hn.responses

/-- The cache sends the block to another cache. -/
theorem suppliesForward (hinv : Inv a) {x : C}
    (hstep : (a.node c).Step ordered c n (some (x, v)) ([] : List (LineEvent C D b)))
    (hw : w.told = [] ∧ w.requestsOut = [])
    (hresponses : w.responsesOut
      = [{ type := .DATA, sender := .L1Cache c, destination := .L1Cache x, dataBlk := v }])
    (hline : Shows w.toL1Cache n.line) (hreq : n.req = (a.node c).req)
    (hfwd : n.fwd = (a.node c).fwd.eraseIdx i) (hdata : n.data = (a.node c).data) :
  Simulates addr ordered (.cache c) a
    (.ok (System.updateCache c w { s with
        forwards := update s.forwards (.L1Cache c) ((s.forwards (.L1Cache c)).eraseIdx i) }))
  := by
  have hn := h.node c
  obtain ⟨-, -, hsource, hgetx, -⟩ := (hinv.caches.phase c).supply hstep
  have hx : (a.node x).source = some c := by
    rw [← hinv.caches.source, hgetx]
  have hne : x ≠ c := by
    rintro rfl
    rw [hsource] at hx
    cases hx
  obtain ⟨line, fwd, hnode, -⟩ := (hinv.caches.phase x).of_source hx
  refine ⟨_, _, rfl, .inr (.supply c n x v [] hstep), ?_⟩
  apply h.updateCache_supply _ _ hresponses hw.1 _ ⟨rfl, rfl⟩ rfl
  · intro q hq
    simp [hq]
  · refine ⟨hline, ?_, ?_, ?_⟩
    · rw [hw.2, hreq, append_nil, hn.requests]
    · rw [update_self, hn.forwards, hfwd, eraseIdx_map]
    · rw [hdata]
      exact hn.responses
  · simp only [State.setNode, update_of_ne hne]
    rw [hnode]

theorem onForward (hinv : Inv a) {msg : RequestMsg C D b}
    (hi : (s.forwards (.L1Cache c))[i]? = some msg) (hordered : ordered = true → i = 0) :
  Simulates addr ordered (.cache c) a (do
    let w ← L1Cache.onForward c (s.caches c) msg
    .ok (System.after L1Work.popped (System.updateCache c) s
      { s with
        forwards := update s.forwards (.L1Cache c) ((s.forwards (.L1Cache c)).eraseIdx i) } w))
  := by
  have hn := h.node c
  rw [hn.forwards, getElem?_map, map_eq_some_iff] at hi
  obtain ⟨m, hi, rfl⟩ := hi
  have harr : (a.node c).Arrives ordered i m := ⟨hi, hordered⟩
  have hreaches := (hinv.caches.phase c).reaches (mem_of_getElem? hi)
  have hshows := hn.line
  generalize hcache : s.caches c = cache at hshows
  generalize hline : (a.node c).line = line at hshows hreaches
  cases hreaches with
  | getxWaits x hwaits | invWaits hwaits =>
    apply h.same
    cases hwaits with
    | _ =>
      cases hshows
      rfl
  | getxM x v =>
    cases hshows
    exact h.suppliesForward hinv (.supplyM i x v hline harr) ⟨rfl, rfl⟩ rfl (.invalid v) rfl rfl
      rfl
  | getxMI x v =>
    cases hshows
    exact h.suppliesForward hinv (.supplyMI i x v hline harr) ⟨rfl, rfl⟩ rfl (.II v) rfl rfl rfl
  | getxMII x v =>
    cases hshows
    exact h.suppliesForward hinv (.supplyMII i x v hline harr) ⟨rfl, rfl⟩ rfl .absent rfl rfl rfl
  | invM v =>
    cases hshows
    obtain ⟨fwd, hnode, -⟩ := (hinv.caches.phase c).of_M hline
    apply h.reacts (.reclaim i v hline harr) rfl
    · refine ⟨.MI v, ?_, hn.forwards, hn.responses⟩
      rw [hn.requests, hnode]
      rfl
    · rfl
    · nofun
  | invMI v =>
    cases hshows
    refine h.reactsForward (.skip i v hline harr) ⟨rfl, rfl⟩ ?_ ⟨rfl, rfl⟩ rfl rfl
    rw [Node.pop, hline]
    exact .MI v
  | ackMI v =>
    cases hshows
    exact h.reactsForward (.ack i v hline harr) ⟨rfl, rfl⟩ .absent ⟨rfl, rfl⟩ rfl rfl
  | nackMI v =>
    cases hshows
    exact h.reactsForward (.nackMI i v hline harr) ⟨rfl, rfl⟩ (.MII v) ⟨rfl, rfl⟩ rfl rfl
  | nackII =>
    cases hshows
    exact h.reactsForward (.nackII i hline harr) ⟨rfl, rfl⟩ .absent ⟨rfl, rfl⟩ rfl rfl

/-- The cache does a step of its own with a block. -/
theorem reactsResponse {msg : ResponseMsg C D b} (hstep : (a.node c).Step ordered c n none told)
    (htold : w.told = told) (hlist : s.responses (.L1Cache c) = [msg])
    (hline : Shows w.toL1Cache n.line) (hw : w.requestsOut = [] ∧ w.responsesOut = [])
    (hn : n.req = (a.node c).req ∧ n.fwd = (a.node c).fwd ∧ n.data = none)
    (hissued : ∀ d msg, .dmaIssue d msg ∉ told) :
  Simulates addr ordered (.cache c) a
    (.ok (System.updateCache c w { s with
        responses := update s.responses (.L1Cache c) ((s.responses (.L1Cache c)).eraseIdx 0) }))
  := by
  have hnode := h.node c
  refine ⟨_, _, rfl, .inr (.cache c n told hstep), ?_⟩
  rw [← htold] at hissued ⊢
  apply h.updateCache _ _ _ hw.2 hissued
  · intro q _
    rfl
  · intro q hq
    simp [hq]
  · refine ⟨hline, ?_, ?_, ?_⟩
    · rw [hw.1, hn.1, append_nil, hnode.requests]
    · rw [hn.2.1, hnode.forwards]
    · rw [update_self, hlist, hn.2.2]
      exact .nil

theorem onResponse (hinv : Inv a) {msg : ResponseMsg C D b}
    (hi : (s.responses (.L1Cache c))[i]? = some msg) :
  Simulates addr ordered (.cache c) a (do
    let w ← L1Cache.onResponse c (s.caches c) msg
    .ok (System.after L1Work.popped (System.updateCache c) s
      { s with
        responses := update s.responses (.L1Cache c)
          ((s.responses (.L1Cache c)).eraseIdx i) } w))
  := by
  have hn := h.node c
  obtain ⟨v, hdata, ⟨htype, rfl⟩, hlist, rfl⟩ := forall₂_toList hn.responses hi
  obtain ⟨line, fwd, hnode, hwaits, -⟩ := (hinv.caches.phase c).of_data hdata
  have hline : (a.node c).line = line := by
    rw [hnode]
  have hshows := hn.line
  rw [hline] at hshows
  rw [L1Cache.onResponse, htype]
  generalize hcache : s.caches c = cache at hshows
  cases hwaits with
  | IS =>
    cases hshows
    apply h.reactsResponse (.load msg.dataBlk hline hdata) rfl hlist
    · exact .M _
    · exact ⟨rfl, rfl⟩
    · exact ⟨rfl, rfl, rfl⟩
    · simp
  | IM f =>
    cases hshows
    apply h.reactsResponse (.store msg.dataBlk f hline hdata) rfl hlist
    · exact .M _
    · exact ⟨rfl, rfl⟩
    · exact ⟨rfl, rfl, rfl⟩
    · simp

end

/-! ### The directory -/

/-- The directory takes a request of a cache, which is the `i`th. -/
abbrev takeRequest (addr : Addr) (s : System C D b) (c : C) (i : ℕ) (msg : RequestMsg C D b) :
    Except Fault (System C D b) := do
  let w ← s.directory.onRequest (makeLineAddress b addr) msg
  .ok (after popped updateDirectory s
    { s with requests := update s.requests c ((s.requests c).eraseIdx i) } w)

section Directory

variable {act : Act C D} {a' : LineState C D b} {x : Option C} {w : DirWork C D b}
  {home : Home C D (DMARequestMsg C D b)} {channel : Channel (DataBlock b)}
  {l : List (MemoryResponse (MachineID C D) b)}

/-- What the directory has sent. -/
abbrev Sent (addr : Addr) (s : System C D b) (w : DirWork C D b) (a' : LineState C D b) : Prop :=
  Rep addr (((s.sendForwards w.forwardsOut).sendResponses w.responsesOut).sendDMAResponses
    w.dmaResponsesOut) a'

/-- The part of the directory in a step, after what it has sent. -/
theorem Sent.turn (h : Sent addr s w a')
    (hstep : a.Step effect ordered act { a'.turn home channel told with holder := x })
    (hw : Leaves addr s w home channel l told) :
  Simulates addr ordered act a (.ok (updateDirectory w { s with memoryResponses := l }))
  := by
  obtain ⟨hhome, hchannel, rfl, hissued⟩ := hw
  exact ⟨_, _, rfl, .inr hstep, (Rep.turn h hhome hchannel hissued).holder x⟩

section

variable (h : Rep addr s a')

include h

theorem sent_nothing (hout : w.forwardsOut = [] ∧ w.responsesOut = [] ∧ w.dmaResponsesOut = []) :
  Sent addr s w a'
  := by
  rw [Sent, hout.1, hout.2.1, hout.2.2, sendForwards_nil, sendResponses_nil, sendDMAResponses_nil]
  exact h

theorem sent_forward (hout : w.forwardsOut = [({.L1Cache c}, Forward.msg c m)]
      ∧ w.responsesOut = [] ∧ w.dmaResponsesOut = []) :
  Sent addr s w (a'.forward c m)
  := by
  rw [Sent, hout.1, hout.2.1, hout.2.2, sendResponses_nil, sendDMAResponses_nil]
  apply h.forward

theorem sent_response {msg : ResponseMsg C D b}
    (hout : w.forwardsOut = [] ∧ w.responsesOut = [msg] ∧ w.dmaResponsesOut = [])
    (hdata : (a'.node c).data = none) (hmsg : ShowsResponse msg v)
    (hdestination : msg.destination = .L1Cache c) :
  Sent addr s w (a'.send c v)
  := by
  rw [Sent, hout.1, hout.2.1, hout.2.2, sendForwards_nil, sendDMAResponses_nil]
  apply h.send hdata hmsg hdestination

section

variable {msg : DMAResponseMsg C D b} {m' : DmaResponse (DataBlock b)}
  (hresp : (a'.port d).resp = none) (hdestination : msg.destination = .DMA d)
  (hm : ShowsDMAResponse msg m')

include hresp hdestination hm

theorem sent_dmaResponse
    (hout : w.forwardsOut = [] ∧ w.responsesOut = [] ∧ w.dmaResponsesOut = [msg]) :
  Sent addr s w (a'.respond d m')
  := by
  rw [Sent, hout.1, hout.2.1, hout.2.2, sendForwards_nil, sendResponses_nil]
  apply h.respond hresp hdestination hm

theorem sent_both (hout : w.forwardsOut = [({.L1Cache c}, Forward.msg c m)]
      ∧ w.responsesOut = [] ∧ w.dmaResponsesOut = [msg]) :
  Sent addr s w ((a'.forward c m).respond d m')
  := by
  rw [Sent, hout.1, hout.2.1, hout.2.2, sendResponses_nil]
  apply (h.forward c m).respond hresp hdestination hm

end

end

end Directory

section

variable (h : Rep addr s a)

include h

/-- A request that is recycled. -/
theorem recycled {act : Act C D} {w : DirWork C D b}
    (hw : w.forwardsOut = [] ∧ w.responsesOut = [] ∧ w.dmaResponsesOut = [])
    (hdir : w.toDirectory = s.directory) (hmemory : w.memoryOut = []) (htold : w.told = []) :
  Simulates addr ordered act a (.ok (updateDirectory w s))
  := by
  apply h.same
  rw [updateDirectory, hw.1, hw.2.1, hw.2.2, sendForwards_nil, sendResponses_nil,
    sendDMAResponses_nil, hmemory, queueMemory_nil, htold, tell_nil, hdir]

theorem onGetx (hinv : Inv a) (hreq : (a.node c).req = some .getx) :
  Simulates addr ordered (.request c) a (takeRequest addr s c 0 (Request.msg c .getx))
  := by
  obtain ⟨tbe, hdir, htbe⟩ := h.directory_eq
  have huses := hinv.channel
  generalize hhome : a.home = home at hdir htbe huses
  rw [takeRequest, hdir]
  cases htbe with
  | I =>
    apply ((h.take hreq _).sent_nothing ⟨rfl, rfl, rfl⟩).turn (.fetch c hhome hreq)
    exact .of_idle (h.idle huses).1 ⟨rfl, .IM {} c⟩ .reading rfl nofun
  | M o =>
    apply ((h.take hreq (some o)).sent_forward ⟨rfl, rfl, rfl⟩).turn (.pass c o hhome hreq)
    exact .of_idle (h.idle huses).1 ⟨rfl, .M c⟩ ((h.idle huses).2 _) rfl nofun
  | _ => exact h.recycled ⟨rfl, rfl, rfl⟩ hdir.symm rfl rfl

/-- The directory refuses a block. -/
theorem refused {w : DirWork C D b} (hrefuses : a.home.Refuses c)
    (hreq : (a.node c).req = some (.putx v))
    (hw : w.forwardsOut = [({.L1Cache c}, Forward.msg c .nack)] ∧ w.responsesOut = []
      ∧ w.dmaResponsesOut = []) (hdir : w.toDirectory = s.directory) (hmemory : w.memoryOut = [])
    (htold : w.told = []) :
  Simulates addr ordered (.request c) a
    (.ok (updateDirectory w { s with requests := update s.requests c ((s.requests c).eraseIdx 0) }))
  := by
  refine ⟨_, _, rfl, .inr (.refuse c v hrefuses hreq), ?_⟩
  rw [updateDirectory, hw.1, hw.2.1, hw.2.2, sendResponses_nil,
    sendDMAResponses_nil, hmemory, queueMemory_nil, htold, tell_nil, hdir]
  exact (h.take hreq _).forward c .nack

/-- A cache that does not own the line writes it back. -/
theorem onPutx_of_not_owner (hreq : (a.node c).req = some (.putx v))
    (howner : .L1Cache c ∉ a.home.owner) :
  Simulates addr ordered (.request c) a (takeRequest addr s c 0 (Request.msg c (.putx v)))
  := by
  obtain ⟨tbe, hdir, htbe⟩ := h.directory_eq
  generalize hhome : a.home = home at hdir htbe howner
  rw [takeRequest, hdir, Directory.onRequest_putx (if_neg howner)]
  cases htbe with
  | MI | ID | ID_W | IM => exact h.recycled ⟨rfl, rfl, rfl⟩ hdir.symm rfl rfl
  | _ =>
    refine h.refused ?_ hreq ⟨rfl, rfl, rfl⟩ hdir.symm rfl rfl
    simp_all [Home.Refuses, owner, eq_comm]

/-- The owner of the line writes it back. -/
theorem onPutx_of_owner (hinv : Inv a) (hreq : (a.node c).req = some (.putx v))
    (howner : .L1Cache c ∈ a.home.owner) :
  Simulates addr ordered (.request c) a (takeRequest addr s c 0 (Request.msg c (.putx v)))
  := by
  obtain ⟨tbe, hdir, htbe⟩ := h.directory_eq
  have huses := hinv.channel
  generalize hhome : a.home = home at hdir htbe huses howner
  rw [takeRequest, hdir, Directory.onRequest_putx (if_pos howner)]
  cases htbe with
  | M o =>
    obtain rfl : c = o := by simpa [owner] using howner
    apply ((h.take hreq _).sent_nothing ⟨rfl, rfl, rfl⟩).turn (.writeback c v hhome hreq)
    exact .of_idle (h.idle huses).1 ⟨rfl, .MI { dataBlk := v } c⟩
      (.writing MemoryMsg.service_block) rfl nofun
  | M_DRD tbe d o =>
    obtain rfl : c = o := by simpa [owner] using howner
    have hresp := hinv.resp_eq_none (.inl (by rw [hhome, part, if_pos rfl]))
    apply ((h.take hreq _).sent_dmaResponse hresp rfl (.data rfl rfl) ⟨rfl, rfl, rfl⟩).turn
      (.recalledRead d c v hhome hreq)
    exact .of_idle (h.idle huses).1 ⟨rfl, .M_DRDI { tbe with dmaRequestor := .DMA d } c⟩
      (.writing MemoryMsg.service_block) rfl nofun
  | M_DWR d o w hissued =>
    obtain rfl : c = o := by simpa [owner] using howner
    have hlen := hissued.len_le
    obtain ⟨htype, hrequestor⟩ := hissued.type_requestor
    obtain ⟨type, physicalAddress, requestor, dataBlk, len⟩ := w
    cases htype
    cases hrequestor
    apply ((h.take hreq _).sent_nothing ⟨rfl, rfl, rfl⟩).turn (.recalledWrite d c _ v hhome hreq)
    refine .of_idle (h.idle huses).1 ⟨rfl, .M_DWRI { physicalAddress, dataBlk, len } d c⟩ ?_ rfl
      (by simp)
    rw [← h.memory]
    exact .writing (MemoryMsg.service_line hlen)
  | IM => exact h.recycled ⟨rfl, rfl, rfl⟩ hdir.symm rfl rfl
  | _ => simp [owner] at howner

theorem onRequest (hinv : Inv a) {msg : RequestMsg C D b} (hi : (s.requests c)[i]? = some msg) :
  Simulates addr ordered (.request c) a (takeRequest addr s c i msg)
  := by
  have hrequests : List.Forall₂ (fun msg r => msg = Request.msg c r) (s.requests c)
      (a.node c).req.toList := by
    rw [(h.node c).requests]
    simp
  obtain ⟨r, hreq, rfl, -, rfl⟩ := forall₂_toList hrequests hi
  cases r with
  | getx => exact h.onGetx hinv hreq
  | putx v =>
    by_cases howner : .L1Cache c ∈ a.home.owner
    · exact h.onPutx_of_owner hinv hreq howner
    · exact h.onPutx_of_not_owner hreq howner

theorem onDMARequest (hinv : Inv a) (hblocked : ¬ a.home.Blocked)
    (hi : (s.dmaRequests d)[i]? = some msg) :
  Simulates addr ordered (.dmaRequest d) a (do
    let w ← s.directory.onDMARequest (makeLineAddress b addr) msg
    .ok (after popped updateDirectory s
      { s with dmaRequests := update s.dmaRequests d ((s.dmaRequests d).eraseIdx i) } w))
  := by
  obtain ⟨r, hreq, hmsg, -, rfl⟩ := forall₂_toList (h.port d).requests hi
  obtain ⟨tbe, hdir, htbe⟩ := h.directory_eq
  have huses := hinv.channel
  generalize hhome : a.home = home at hdir htbe huses hblocked
  obtain ⟨type, physicalAddress, requestor, dataBlk, len⟩ := msg
  rw [hdir]
  cases hmsg with
  | read htype hrequestor =>
    cases htype
    cases hrequestor
    cases htbe with
    | I =>
      apply ((h.takeDma hreq).sent_nothing ⟨rfl, rfl, rfl⟩).turn (.dmaFetch d hhome hreq)
      exact .of_idle (h.idle huses).1 ⟨rfl, .ID {} d⟩ .reading rfl nofun
    | M c =>
      apply ((h.takeDma hreq).sent_forward ⟨rfl, rfl, rfl⟩).turn (.recallForRead d c hhome hreq)
      exact .of_idle (h.idle huses).1 ⟨rfl, .M_DRD { physicalAddress, dataBlk, len } d c⟩
        ((h.idle huses).2 _) rfl nofun
    | M_DRD | M_DWR | M_DWRI => exact absurd trivial hblocked
    | _ => exact h.recycled ⟨rfl, rfl, rfl⟩ hdir.symm rfl rfl
  | write hissued =>
    have hlen := hissued.len_le
    obtain ⟨htype, hrequestor⟩ := hissued.type_requestor
    cases htype
    cases hrequestor
    cases htbe with
    | I =>
      apply ((h.takeDma hreq).sent_nothing ⟨rfl, rfl, rfl⟩).turn (.dmaStore d _ hhome hreq)
      refine .of_idle (h.idle huses).1 ⟨rfl, .ID_W { physicalAddress, dataBlk, len } d⟩ ?_ rfl
        (by simp)
      rw [← h.memory]
      exact .writing (MemoryMsg.service_line hlen)
    | M c =>
      apply ((h.takeDma hreq).sent_forward ⟨rfl, rfl, rfl⟩).turn (.recallForWrite d c _ hhome hreq)
      exact .of_idle (h.idle huses).1 ⟨rfl, .M_DWR d c _ hissued⟩ ((h.idle huses).2 _) rfl nofun
    | M_DRD | M_DWR | M_DWRI => exact absurd trivial hblocked
    | _ => exact h.recycled ⟨rfl, rfl, rfl⟩ hdir.symm rfl rfl

theorem onMemory (hinv : Inv a) {msg : MemoryResponse (MachineID C D) b}
    (hi : s.memoryResponses[i]? = some msg) :
  Simulates addr ordered .memoryResponse a (do
    let w ← s.directory.onMemory (makeLineAddress b addr) msg
    .ok (after popped updateDirectory s
      { s with memoryResponses := s.memoryResponses.eraseIdx i } w))
  := by
  obtain ⟨rfl, hrequests, hresponses, hmsg⟩ := h.channel.of_response hi
  obtain ⟨tbe, hdir, htbe⟩ := h.directory_eq
  have huses := hinv.channel
  generalize hhome : a.home = home at hdir htbe huses hmsg
  rw [hdir, hresponses]
  rcases hmsg with ⟨v, hc, rfl⟩ | ⟨hc, rfl⟩
  · rw [hc] at huses
    cases htbe with
    | IM tbe c =>
      have hphase := hinv.caches.phase c
      rw [hhome, role, if_pos rfl] at hphase
      obtain ⟨line, hnode, -⟩ := hphase.of_fetching
      exact (h.sent_response ⟨rfl, rfl, rfl⟩ (by rw [hnode]) ⟨rfl, rfl⟩ rfl).turn
        (.fetched c v hhome hc) (.idle hrequests ⟨rfl, .M c⟩ ⟨rfl, rfl⟩)
    | ID tbe d =>
      have hresp := hinv.resp_eq_none (.inl (by rw [hhome, part, if_pos rfl]))
      exact (h.sent_dmaResponse hresp rfl (.data rfl rfl) ⟨rfl, rfl, rfl⟩).turn
        (.dmaRead d v hhome hc) (.idle hrequests ⟨rfl, .I⟩ ⟨rfl, rfl⟩)
    | _ => simp [Home.Uses] at huses
  · rw [hc] at huses
    cases htbe with
    | MI tbe c =>
      exact (h.sent_forward ⟨rfl, rfl, rfl⟩).turn (.writtenBack c hhome hc)
        (.idle hrequests ⟨rfl, .I⟩ ⟨rfl, rfl⟩)
    | M_DRDI tbe c =>
      exact (h.sent_forward ⟨rfl, rfl, rfl⟩).turn (.writtenRecalled c hhome hc)
        (.idle hrequests ⟨rfl, .I⟩ ⟨rfl, rfl⟩)
    | ID_W tbe d =>
      have hresp := hinv.resp_eq_none (.inr (by rw [hhome, part, if_pos rfl]))
      exact (h.sent_dmaResponse hresp rfl (.ack rfl) ⟨rfl, rfl, rfl⟩).turn (.dmaWritten d hhome hc)
        (.idle hrequests ⟨rfl, .I⟩ ⟨rfl, rfl⟩)
    | M_DWRI tbe d c =>
      have hresp := hinv.resp_eq_none (.inr (by rw [hhome, part, if_pos rfl]))
      exact (h.sent_both hresp rfl (.ack rfl) ⟨rfl, rfl, rfl⟩).turn
        (.dmaWrittenRecalled d c hhome hc) (.idle hrequests ⟨rfl, .I⟩ ⟨rfl, rfl⟩)
    | _ => simp [Home.Uses] at huses

/-! ### Memory -/

theorem service {msg : MemoryMsg (MachineID C D) b} (hi : s.memoryRequests[i]? = some msg) :
  Simulates addr ordered .memory a (do
    let (memory, response) ← msg.service s.memory
    .ok { s with
      memory := memory
      memoryRequests := s.memoryRequests.eraseIdx i
      memoryResponses := s.memoryResponses ++ [response] })
  := by
  obtain ⟨rfl, hrequests, hresponses, ⟨hc, rfl⟩ | ⟨v, hc, hservice⟩⟩ := h.channel.of_request hi
  · rw [hrequests, hresponses]
    refine ⟨_, _, rfl, .inr (.readMemory hc), ?_⟩
    refine { h with channel := ?_ }
    rw [← h.memory]
    exact .read s.memory
  · rw [hrequests, hresponses, hservice, ok_bind]
    refine ⟨_, _, rfl, .inr (.writeMemory v hc), ?_⟩
    exact { h with channel := .written, memory := rfl }

end

/-! ### DMA controllers -/

omit [DecidableEq C] in
/-- A DMA controller has sent what `w` says. -/
theorem updateDMA (h : Rep addr s a) {w : DMAWork C D b}
    {f : MachineID C D → List (DMAResponseMsg C D b)} {p : Port (DataBlock b) (DMARequestMsg C D b)}
    (hf : ∀ e ≠ d, f (.DMA e) = s.dmaResponses (.DMA e))
    (hp : ShowsPort addr d w.toDMA (s.dmaRequests d ++ w.requestsOut) (f (.DMA d)) p)
    (htold : w.told = told) (hissued : ∀ e msg, .dmaIssue e msg ∈ told → Issued addr e msg) :
  Rep addr (System.updateDMA d w { s with dmaResponses := f })
    { a.setPort d p with history := a.history ++ told }
  := by
  rw [System.updateDMA, htold]
  refine (h.setPort ?_ ?_).tell hissued
  · intro e he
    simp only [update_of_ne he, hf e he]
    apply h.port
  · simp only [update_self]
    apply hp

section

variable (h : Rep addr s a)

include h

/-- A request of the device that is set aside. -/
theorem setAside {act : Act C D} {w : DMAWork C D b} (hdma : w.toDMA = s.dmas d)
    (hw : w.requestsOut = [] ∧ w.told = []) :
  Simulates addr ordered act a (.ok (System.updateDMA d w s))
  := by
  apply h.same
  rw [System.updateDMA, hdma, hw.1, hw.2, update_eq_self, System.sendDMARequests_nil,
    System.tell_nil]

/-- The DMA controller sends a request of the device. -/
theorem asks {device : Device (DMARequestMsg C D b)} {r : DmaRequest (DMARequestMsg C D b)}
    {w : DMAWork C D b}
    (hstep : a.Step effect ordered (.device d)
      { a.setPort d { a.port d with device, req := some r } with
        history := a.history ++ told }) (hport : a.port d = {})
    (hdevice : ShowsDevice w.toDMA device) (hw : w.requestsOut = [msg] ∧ w.told = told)
    (hmsg : ShowsDMARequest addr d msg r)
    (hissued : ∀ e msg, .dmaIssue e msg ∈ told → Issued addr e msg) :
  Simulates addr ordered (.device d) a (.ok (System.updateDMA d w s))
  := by
  have hp := h.port d
  have hrequests := hp.requests
  rw [hport] at hrequests
  refine ⟨_, _, rfl, .inr hstep, ?_⟩
  apply h.updateDMA (fun _ _ => rfl) _ hw.2 hissued
  refine ⟨hdevice, ?_, hp.responses⟩
  rw [forall₂_nil_right_iff.mp hrequests, hw.1]
  exact .cons hmsg .nil

theorem onDevice (hinv : Inv a) {pkt : DMAPacket}
    (hline : makeLineAddress b pkt.addr = makeLineAddress b addr) :
  Simulates addr ordered (.device d) a (do
    let w ← DMA.onRequest d (s.dmas d) (makeRequest b pkt)
    .ok (System.after DMAWork.popped (System.updateDMA d) s s w))
  := by
  have hp := h.port d
  have hdevice := hp.device
  obtain ⟨stage, -, haccess⟩ := hinv.ports d
  generalize hdma : s.dmas d = dma at hdevice
  generalize hdev : (a.port d).device = device at hdevice
  cases hdevice with
  | ready =>
    obtain ⟨-, hport, -⟩ := haccess.of_ready hdev
    cases hwrite : pkt.isWrite with
    | false =>
      have htype : (makeRequest b pkt).type = .LD := by
        simp [makeRequest, hwrite]
      generalize makeRequest b pkt = msg at htype
      obtain ⟨physicalAddress, lineAddress, type, dataBlk, len⟩ := msg
      cases htype
      refine h.asks ?_ hport (.reading _) (⟨rfl, rfl⟩ : _ ∧ _ = []) (.read rfl rfl) (by simp)
      rw [append_nil]
      exact .issueRead d hdev
    | true =>
      have htype : (makeRequest b pkt).type = .ST := by
        simp [makeRequest, hwrite]
      have hissued : Issued addr d (DMA.requestMsg d .WRITE (makeRequest b pkt)
          : DMARequestMsg C D b) := ⟨pkt, hwrite, hline, rfl⟩
      generalize makeRequest b pkt = msg at htype hissued
      obtain ⟨physicalAddress, lineAddress, type, dataBlk, len⟩ := msg
      cases htype
      refine h.asks (.issueWrite d _ hdev) hport (.writing _ _) ⟨rfl, rfl⟩ (.write hissued) ?_
      intro e msg hmem
      cases mem_singleton.mp hmem
      exact hissued
  | reading blk | writing blk w =>
    generalize makeRequest b pkt = msg
    obtain ⟨physicalAddress, lineAddress, type, dataBlk, len⟩ := msg
    cases type with
    | _ => exact h.setAside hdma.symm ⟨rfl, rfl⟩

/-- The DMA controller tells its device that the transaction is over. -/
theorem completes {msg : DMAResponseMsg C D b} {w : DMAWork C D b}
    (hstep : a.Step effect ordered (.device d)
      { a.setPort d { a.port d with device := .ready, resp := none } with
        history := a.history ++ told }) (hlist : s.dmaResponses (.DMA d) = [msg]) (hi : i = 0)
    (hdma : w.toDMA = {}) (hw : w.requestsOut = [] ∧ w.told = told)
    (hissued : ∀ e msg, .dmaIssue e msg ∉ told) :
  Simulates addr ordered (.device d) a
    (.ok (System.updateDMA d w { s with
        dmaResponses := update s.dmaResponses (.DMA d)
          ((s.dmaResponses (.DMA d)).eraseIdx i) }))
  := by
  have hp := h.port d
  refine ⟨_, _, rfl, .inr hstep, ?_⟩
  apply h.updateDMA
  · intro e he
    simp [he]
  · rw [hdma, hw.1, append_nil, update_self, hlist, hi]
    exact ⟨.ready, hp.requests, .nil⟩
  · exact hw.2
  · intro e msg hmem
    cases hissued e msg hmem

theorem onDMAResponse (hinv : Inv a) {msg : DMAResponseMsg C D b}
    (hi : (s.dmaResponses (.DMA d))[i]? = some msg) :
  Simulates addr ordered (.device d) a (do
    let w ← DMA.onResponse d (s.dmas d) msg
    .ok (System.after DMAWork.popped (System.updateDMA d) s
      { s with
        dmaResponses := update s.dmaResponses (.DMA d)
          ((s.dmaResponses (.DMA d)).eraseIdx i) } w))
  := by
  have hp := h.port d
  obtain ⟨m, hresp, hmsg, hlist, hzero⟩ := forall₂_toList hp.responses hi
  obtain ⟨stage, -, haccess⟩ := hinv.ports d
  have hdevice := hp.device
  obtain ⟨type, destination, dataBlk⟩ := msg
  cases hmsg with
  | data htype hv =>
    cases htype
    cases hv
    obtain ⟨-, hport, -⟩ := haccess.of_resp_data hresp
    have hdev : (a.port d).device = .reading := by
      rw [hport]
    rw [hdev] at hdevice
    generalize s.dmas d = dma at hdevice
    cases hdevice
    apply h.completes (.dmaData d dataBlk hdev hresp) hlist hzero rfl ⟨rfl, rfl⟩
    simp
  | ack htype =>
    cases htype
    obtain ⟨w, -, hport, -⟩ := haccess.of_resp_ack hresp
    have hdev : (a.port d).device = .writing w := by
      rw [hport]
    rw [hdev] at hdevice
    generalize s.dmas d = dma at hdevice
    cases hdevice
    apply h.completes (.dmaAck d w hdev hresp) hlist hzero rfl ⟨rfl, rfl⟩
    simp

end

end Rep

/-! ### The system -/

/-- What happens in a step of the system. -/
def Label.act : Label C D b → Act C D
  | .processor c _ => .cache c
  | .forward c _ => .cache c
  | .response c _ => .cache c
  | .request c _ => .request c
  | .dmaRequest d _ => .dmaRequest d
  | .memory _ => .memory
  | .memoryResponse _ => .memoryResponse
  | .device d _ => .device d
  | .dmaResponse d _ => .device d

/-- In the step a DMA request arrives at the directory while the directory waits for the line to
come back for another one, or for memory to write it. -/
def System.Blocked (s : System C D b) (l : Label C D b) : Prop :=
  ∃ d i, l = .dmaRequest d i ∧ i < (s.dmaRequests d).length
    ∧ s.directory.getState ∈ [DirState.M_DRD, .M_DWR, .M_DWRI]

/-- Every step of the system follows the protocol, or the directory has no transition for a DMA
request. -/
theorem Rep.step (h : Rep addr s a) (hinv : Inv a) {l : Label C D b}
    (hout : System.step ordered addr l s = some out) :
  ¬ s.Blocked l ∧ Simulates addr ordered l.act a out
    ∨ s.Blocked l ∧ out = .error Slicc.invalidTransition
  := by
  cases l with
  | processor c r =>
    cases hout
    exact .inl ⟨nofun, h.processor hinv c r⟩
  | forward c i =>
    rw [System.step] at hout
    split_ifs at hout with hordered
    obtain ⟨msg, hi, rfl⟩ := map_eq_some_iff.mp hout
    refine .inl ⟨nofun, h.onForward hinv hi ?_⟩
    intro htrue
    by_contra hzero
    exact hordered ⟨htrue, hzero⟩
  | response c i =>
    obtain ⟨msg, hi, rfl⟩ := map_eq_some_iff.mp hout
    exact .inl ⟨nofun, h.onResponse hinv hi⟩
  | request c i =>
    obtain ⟨msg, hi, rfl⟩ := map_eq_some_iff.mp hout
    exact .inl ⟨nofun, h.onRequest hinv hi⟩
  | dmaRequest d i =>
    obtain ⟨msg, hi, rfl⟩ := map_eq_some_iff.mp hout
    have hlength := (List.getElem?_eq_some_iff.mp hi).1
    by_cases hblocked : a.home.Blocked
    · refine .inr ⟨⟨d, i, rfl, hlength, ?_⟩, ?_⟩
      · rw [h.getState_eq, ← blocked_iff]
        exact hblocked
      · rw [h.onDMARequest_blocked hblocked]
        rfl
    · refine .inl ⟨?_, h.onDMARequest hinv hblocked hi⟩
      rintro ⟨-, -, -, -, hstate⟩
      rw [h.getState_eq, ← blocked_iff] at hstate
      exact hblocked hstate
  | memory i =>
    obtain ⟨msg, hi, rfl⟩ := map_eq_some_iff.mp hout
    exact .inl ⟨nofun, h.service hi⟩
  | memoryResponse i =>
    obtain ⟨msg, hi, rfl⟩ := map_eq_some_iff.mp hout
    exact .inl ⟨nofun, h.onMemory hinv hi⟩
  | device d pkt =>
    rw [System.step] at hout
    split_ifs at hout with hline
    cases hout
    exact .inl ⟨nofun, h.onDevice hinv hline⟩
  | dmaResponse d i =>
    obtain ⟨msg, hi, rfl⟩ := map_eq_some_iff.mp hout
    exact .inl ⟨nofun, h.onDMAResponse hinv hi⟩

/-- Every reachable state of the system is a state of the protocol that keeps the invariant. -/
theorem System.Reachable.rep {memory : DataBlock b} (h : System.Reachable ordered addr memory s)
    (hordered : ordered = true ∨ IsEmpty D) :
  ∃ a, Rep addr s a ∧ Inv a
  := by
  apply Lib.Reachable.invariant _ h
  · exact ⟨_, Rep.init addr memory, Inv.init memory⟩
  · intro s l t ⟨a, hrep, hinv⟩ hstep
    obtain ⟨-, t', a', hout, ha, hrep'⟩ | ⟨-, hout⟩ := hrep.step hinv hstep
    · cases hout
      refine ⟨a', hrep', ?_⟩
      rcases ha with rfl | ha
      · apply hinv
      · apply hinv.step ha hordered
    · cases hout

end Gem5Arc.MIExample
