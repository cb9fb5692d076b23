import Gem5Arc.MIExample.Invariant

/-!
# The value of the line

The value of the line is what the stores and the DMA writes of the history make of the value that
memory has at the start. `intended w v` is what the DMA write `w` should make of the value `v`. The
cache that has the only valid copy has this value, and if there is none, memory has it or is about
to get it.
-/

namespace Gem5Arc.MIExample

open Function List

variable {C D V W : Type} {v : V} {c : C}

/-- What an event makes of the value of the line. -/
def Event.apply (intended : W → V → V) : Event C D V W → V → V
  | .write _ store, v => store v
  | .dmaWrite _ w, v => intended w v
  | _, v => v

/-- The value of the line after a history. -/
def current (intended : W → V → V) (init : V) (history : List (Event C D V W)) : V :=
  history.foldl (fun v e => e.apply intended v) init

/-- Every load returns the value of the line. -/
def Coherent (intended : W → V → V) (init : V) (history : List (Event C D V W)) : Prop :=
  ∀ before c v after, history = before ++ .read c v :: after → v = current intended init before

section History

variable {intended : W → V → V} {init : V} {l : List (Event C D V W)}

theorem current_concat (e : Event C D V W) :
  current intended init (l ++ [e]) = e.apply intended (current intended init l)
  := by
  simp [current]

theorem Coherent.nil :
  Coherent intended init ([] : List (Event C D V W))
  := by
  intro before c v after h
  simp at h

theorem Coherent.concat (h : Coherent intended init l) {e : Event C D V W}
    (he : ∀ c v, e = .read c v → v = current intended init l) :
  Coherent intended init (l ++ [e])
  := by
  intro before c v after heq
  induction after using List.reverseRecOn with
  | nil =>
    obtain ⟨rfl, heq⟩ := append_inj' heq rfl
    apply he c v
    simpa using heq
  | append_singleton after e' _ =>
    rw [← cons_append, ← append_assoc] at heq
    obtain ⟨heq, -⟩ := append_inj' heq rfl
    apply h before c v after heq

end History

/-- What memory has when it has written what it has been asked to write. -/
def State.stored (s : State C D V W) : V :=
  match s.channel with
  | .writing v => v
  | _ => s.memory

section Value

variable [DecidableEq C] (s : State C D V W) (c : C)

theorem State.value_setNode {n : Node C V} (hn : n.value = (s.node c).value) (q : C) :
  ((s.setNode c n).node q).value = (s.node q).value
  := by
  change (update s.node c n q).value = (s.node q).value
  by_cases hq : q = c
  · rw [hq, update_self, hn]
  · rw [update_of_ne hq]

theorem State.value_take (q : C) :
  ((s.take c).node q).value = (s.node q).value
  := by
  apply State.value_setNode
  rfl

theorem State.value_forward (m : Forward C) (q : C) :
  ((s.forward c m).node q).value = (s.node q).value
  := by
  apply State.value_setNode
  rfl

end Value

/-- The value of the line is where it should be. -/
structure Current (intended : W → V → V) (init : V) (s : State C D V W) : Prop where
  held (c : C) : s.holder = some c → (s.node c).value = some (current intended init s.history)
  stored : ¬ s.home.Lent → s.stored = current intended init s.history
  answer (v : V) : s.channel = .read v → v = s.memory
  reads : Coherent intended init s.history

namespace Current

variable {intended effect : W → V → V} {init : V} {ordered : Bool} {act : Act C D}
  {s t : State C D V W}

section

variable (h : Current intended init s)

include h

/-- The rule for a step that leaves the value of the line as it is. -/
theorem silent (hholder : t.holder = s.holder) (hnode : ∀ c, (t.node c).value = (s.node c).value)
    (hlent : t.home.Lent ↔ s.home.Lent) (hstored : t.stored = s.stored)
    (hanswer : ∀ v, t.channel = .read v → v = t.memory) (hhistory : t.history = s.history) :
  Current intended init t
  where
  held c hc := by
    rw [hnode, hhistory]
    rw [hholder] at hc
    apply h.held c hc
  stored hnot := by
    rw [hstored, hhistory]
    apply h.stored
    rwa [hlent] at hnot
  answer := hanswer
  reads := by
    rw [hhistory]
    apply h.reads

section

variable (hnode : ∀ c, (t.node c).value = (s.node c).value)

include hnode

/-- The rule for a step that leaves memory and its channel alone, too. -/
theorem quiet (hlent : t.home.Lent ↔ s.home.Lent) (hchannel : t.channel = s.channel)
    (hmemory : t.memory = s.memory) (hholder : t.holder = s.holder)
    (hhistory : t.history = s.history) :
  Current intended init t
  := by
  apply h.silent hholder hnode hlent _ _ hhistory
  · rw [State.stored, State.stored, hchannel, hmemory]
  · rw [hchannel, hmemory]
    apply h.answer

/-- The rule for a step that asks memory for the line, or takes its answer. -/
theorem served (hlent : t.home.Lent ↔ s.home.Lent) (hs : s.stored = s.memory)
    (ht : t.channel = .idle ∨ t.channel = .reading) (hmemory : t.memory = s.memory)
    (hholder : t.holder = s.holder) (hhistory : t.history = s.history) :
  Current intended init t
  := by
  apply h.silent hholder hnode hlent _ _ hhistory
  · rw [State.stored, hs, ← hmemory]
    rcases ht with ht | ht
    · rw [ht]
    · rw [ht]
  · intro v hv
    simp [hv] at ht

end

/-- The rule for a step that only tells something that is not about the value of the line. -/
theorem told (e : Event C D V W) (happly : ∀ v, e.apply intended v = v)
    (hread : ∀ c v, e ≠ .read c v) (hnode : t.node = s.node) (hhome : t.home = s.home)
    (hchannel : t.channel = s.channel) (hmemory : t.memory = s.memory)
    (hholder : t.holder = s.holder) (hhistory : t.history = s.history ++ [e]) :
  Current intended init t
  := by
  have hcurrent : current intended init t.history = current intended init s.history := by
    rw [hhistory, current_concat, happly]
  constructor
  · rw [hnode, hholder, hcurrent]
    apply h.held
  · rw [hhome, State.stored, hchannel, hmemory, hcurrent]
    apply h.stored
  · rw [hchannel, hmemory]
    apply h.answer
  · rw [hhistory]
    apply h.reads.concat
    intro c v he
    cases hread c v he

end

/-- The rule for a step after which no cache has a copy, and memory is asked to write a value. -/
theorem accept (hholder : t.holder = none) (hchannel : t.channel = .writing v)
    (hv : v = current intended init t.history) (hreads : Coherent intended init t.history) :
  Current intended init t
  where
  held c hc := by
    rw [hholder] at hc
    cases hc
  stored _ := by
    rw [State.stored, hchannel, hv]
  answer v' hv' := by
    rw [hchannel] at hv'
    cases hv'
  reads := hreads

/-- The rule for a step after which a cache has the only valid copy. -/
theorem lend (hholder : t.holder = some c)
    (hvalue : (t.node c).value = some (current intended init t.history)) (hlent : t.home.Lent)
    (hanswer : ∀ v, t.channel = .read v → v = t.memory)
    (hreads : Coherent intended init t.history) :
  Current intended init t
  where
  held q hq := by
    rw [hholder] at hq
    cases hq
    apply hvalue
  stored hnot := absurd hlent hnot
  answer := hanswer
  reads := hreads

theorem stored_eq (h : Current intended init s) (hlent : ¬ s.home.Lent)
    (hchannel : ∀ v, s.channel ≠ .writing v) :
  s.memory = current intended init s.history
  := by
  rw [← h.stored hlent, State.stored]
  cases hc : s.channel with
  | writing v => cases hchannel v hc
  | _ => rfl

variable [DecidableEq C] [DecidableEq D]

section

variable (h : Current intended init s) (hinv : Inv s)

include h hinv

/-- The block that a cache writes back to the directory that waits for it has the value of the
line. -/
theorem putx_eq (hrole : s.home.role c ≠ .none) (hreq : (s.node c).req = some (.putx v)) :
  v = current intended init s.history
  := by
  obtain ⟨fwd, hn, -, hholds⟩ | ⟨-, hnone, -⟩ := (hinv.caches.phase c).of_putx hreq
  · have hheld := h.held c hholds
    rw [hn] at hheld
    exact Option.some.inj hheld
  · contradiction

variable {n : Node C V} {told : List (Event C D V W)}

theorem cache (hn : (s.node c).Step ordered c n none told) :
  Current intended init { s.setNode c n with history := s.history ++ told }
  := by
  have hcurrent {v : V} (hholds : s.holder = some c) (hv : (s.node c).value = some v) :
      v = current intended init s.history := by
    rw [h.held c hholds] at hv
    exact (Option.some.inj hv).symm
  obtain ⟨rfl, hvalue⟩ | ⟨v, hholds, hv, rfl, hv'⟩ | ⟨v, f, hholds, hv, rfl, hv'⟩ :=
    (hinv.caches.phase c).told_cases hn
  · rw [append_nil]
    refine ⟨?_, h.stored, h.answer, h.reads⟩
    intro q hq
    change (update s.node c n q).value = _
    by_cases hqc : q = c
    · rw [hqc] at hq ⊢
      rw [update_self, hvalue hq]
      apply h.held c hq
    · rw [update_of_ne hqc]
      apply h.held q hq
  · refine lend hholds ?_ (hinv.caches.lent hholds) h.answer (h.reads.concat ?_)
    · simp only [State.setNode, update_self]
      rw [hv', current_concat, ← hcurrent hholds hv]
      rfl
    · intro c' v' heq
      cases heq
      exact hcurrent hholds hv
  · refine lend hholds ?_ (hinv.caches.lent hholds) h.answer (h.reads.concat (by simp))
    simp only [State.setNode, update_self]
    rw [hv', current_concat, ← hcurrent hholds hv]
    rfl

theorem supply {c x : C} (hn : (s.node c).Step ordered c n (some (x, v)) told) :
  Current intended init ((s.setNode c n).send x v)
  := by
  obtain ⟨hholds, hvalue, -⟩ := (hinv.caches.phase c).supply hn
  have hv := h.held c hholds
  rw [hvalue] at hv
  refine lend rfl ?_ (hinv.caches.lent hholds) h.answer h.reads
  simp only [State.send, State.setNode, update_self]
  exact hv

omit hinv in
/-- Memory serves the directory. -/
theorem memory (hstep : s.Step effect ordered .memory t) :
  Current intended init t
  := by
  cases hstep with
  | readMemory hchannel =>
    refine h.silent rfl (fun _ => rfl) Iff.rfl ?_ ?_ rfl
    · rw [State.stored, State.stored, hchannel]
    · rintro _ ⟨⟩
      rfl
  | writeMemory v hchannel =>
    refine h.silent rfl (fun _ => rfl) Iff.rfl ?_ (by simp) rfl
    rw [State.stored, State.stored, hchannel]

omit hinv in
/-- The answer of memory arrives at the directory. -/
theorem memoryResponse (hstep : s.Step effect ordered .memoryResponse t) :
  Current intended init t
  := by
  cases hstep with
  | fetched c v hhome hchannel =>
    have hmemory : s.memory = current intended init s.history := by
      apply h.stored_eq
      · rw [hhome]
        exact not_false
      · rw [hchannel]
        rintro _ ⟨⟩
    rw [← h.answer v hchannel] at hmemory
    refine lend rfl ?_ trivial (by rintro _ ⟨⟩) ?_
    · simp only [State.turn, State.send, State.setNode, update_self, append_nil]
      exact congrArg some hmemory
    · rw [State.turn, append_nil]
      apply h.reads
  | writtenBack c hhome hchannel | writtenRecalled c hhome hchannel
  | dmaWrittenRecalled d c hhome hchannel =>
    refine h.served (s.value_forward c _) ?_ ?_ (.inl rfl) rfl rfl (append_nil _)
    · rw [hhome]
      rfl
    · rw [State.stored, hchannel]
  | dmaRead d v hhome hchannel | dmaWritten d hhome hchannel =>
    refine h.served (fun _ => rfl) ?_ ?_ (.inl rfl) rfl rfl (append_nil _)
    · rw [hhome]
      rfl
    · rw [State.stored, hchannel]

variable (hfits : ∀ m w, t.history = s.history ++ [.dmaWrite m w] →
  effect w s.memory = intended w (current intended init s.history))

include hfits

/-- A message of a cache arrives at the directory. -/
theorem request {c : C} (hstep : s.Step effect ordered (.request c) t) :
  Current intended init t
  := by
  cases hstep with
  | fetch _ hhome hreq =>
    have hchannel := hinv.channel
    rw [hhome] at hchannel
    refine h.served (s.value_take c) ?_ ?_ (.inr rfl) rfl rfl (append_nil _)
    · rw [hhome]
      rfl
    · rw [State.stored, hchannel]
  | pass _ o hhome hreq =>
    refine h.quiet ?_ ?_ rfl rfl rfl (append_nil _)
    · intro q
      apply (State.value_forward _ o _ q).trans
      apply State.value_setNode
      rfl
    · rw [hhome]
      rfl
  | writeback _ v hhome hreq | recalledRead d _ v hhome hreq =>
    apply accept rfl rfl
    · rw [State.turn, append_nil]
      apply h.putx_eq hinv _ hreq
      simp [hhome, Home.role]
    · rw [State.turn, append_nil]
      apply h.reads
  | refuse _ v hrefuses hreq =>
    refine h.quiet ?_ Iff.rfl rfl rfl rfl rfl
    intro q
    apply (State.value_forward _ c _ q).trans
    apply s.value_take c
  | recalledWrite d _ w v hhome hreq =>
    apply accept rfl rfl
    · rw [State.turn, current_concat]
      apply hfits (.DMA d) w rfl
    · exact h.reads.concat (by simp)

/-- A message of a DMA controller arrives at the directory. -/
theorem dmaRequest {d : D} (hstep : s.Step effect ordered (.dmaRequest d) t) :
  Current intended init t
  := by
  cases hstep with
  | dmaFetch _ hhome hreq =>
    have hchannel := hinv.channel
    rw [hhome] at hchannel
    refine h.served (fun _ => rfl) ?_ ?_ (.inr rfl) rfl rfl (append_nil _)
    · rw [hhome]
      rfl
    · rw [State.stored, hchannel]
  | dmaStore _ w hhome hreq =>
    apply accept _ rfl
    · rw [State.turn, current_concat]
      apply hfits (.DMA d) w rfl
    · exact h.reads.concat (by simp)
    · have hholder := hinv.caches.holder
      rw [hhome] at hholder
      change s.holder = none
      simpa [Home.Lent] using hholder
  | recallForRead _ c hhome hreq | recallForWrite _ c w hhome hreq =>
    refine h.quiet (s.value_forward c _) ?_ rfl rfl rfl (append_nil _)
    rw [hhome]
    rfl

theorem step (hstep : s.Step effect ordered act t) :
  Current intended init t
  := by
  cases act with
  | cache c =>
    cases hstep with
    | cache _ n told hn => exact h.cache hinv hn
    | supply _ n x v told hn => exact h.supply hinv hn
  | request c => exact h.request hinv hfits hstep
  | memory => exact h.memory hstep
  | memoryResponse => exact h.memoryResponse hstep
  | dmaRequest d => exact h.dmaRequest hinv hfits hstep
  | device d =>
    cases hstep with
    | issueRead => exact h.quiet (fun _ => rfl) Iff.rfl rfl rfl rfl rfl
    | issueWrite | dmaData | dmaAck =>
      refine h.told _ (fun _ => rfl) ?_ rfl rfl rfl rfl rfl rfl
      simp

end

end Current

end Gem5Arc.MIExample
