import Gem5Arc.Lib.Chain
import Gem5Arc.Sim.EventQueue

/-!
# The bins of an event queue

`q.Represents bins` says which bins the pointers of a queue make up. Only the pointers that are in
use count: `nextBin` for the tops of the bins, and `nextInBin` for all queued events. A `nextBin`
inside a bin may be stale.

Each operation works at one place: the bins before it stay, up to the pointer of the last one (or
the head of the queue), and the bins from there on are replaced. `relink` redirects this pointer,
and `represents_relink` puts the two parts together again.
-/

namespace Gem5Arc

open Event Function List

/-- The events of a bin: its top, and the events below. -/
structure Bin (I : Type) where
  top : I
  rest : List I

namespace Bin

variable {I : Type}

/-- The events, from the top. -/
def items (b : Bin I) : List I := b.top :: b.rest

theorem top_mem (b : Bin I) :
  b.top ∈ b.items
  := mem_cons_self ..

end Bin

namespace EventQueue

open Lib

variable {I : Type} {q q' : EventQueue I} {p r : Option I} {b : Bin I} {bins : List (Bin I)}

/-- The pointers from event to event. -/
def nextBin (q : EventQueue I) (i : I) : Option I := (q.events i).nextBin

@[inherit_doc nextBin]
def nextInBin (q : EventQueue I) (i : I) : Option I := (q.events i).nextInBin

/-- Time and priority of an event. -/
def key (q : EventQueue I) (i : I) : ℕ ×ₗ ℤ := (q.events i).key

variable {i : I}

/-- The time of an event is part of its key. -/
theorem when_eq_of_key (h : q'.key i = q.key i) :
  (q'.events i).when = (q.events i).when
  := congrArg (fun k => (ofLex k).1) h

theorem when_le_of_key {j : I} (h : q.key i ≤ q.key j) :
  (q.events i).when ≤ (q.events j).when
  := by
  rcases Prod.Lex.toLex_le_toLex.mp h with hlt | ⟨heq, -⟩
  · apply hlt.le
  · apply heq.le

/-- The events of some bins, in the order of the queue. -/
def items (bins : List (Bin I)) : List I := bins.flatMap Bin.items

@[simp]
theorem items_cons :
  items (b :: bins) = b.items ++ items bins
  := rfl

@[simp]
theorem items_append {bins' : List (Bin I)} :
  items (bins ++ bins') = items bins ++ items bins'
  := flatMap_append

theorem mem_items :
  i ∈ items bins ↔ ∃ b ∈ bins, i ∈ b.items
  := mem_flatMap

theorem top_mem_items (hb : b ∈ bins) :
  b.top ∈ items bins
  := mem_items.mpr ⟨b, hb, b.top_mem⟩

theorem length_le_items (bins : List (Bin I)) :
  bins.length ≤ (items bins).length
  := by
  induction bins with
  | nil => apply le_refl
  | cons b bins ih =>
    rw [items_cons, List.length_append, length_cons, Bin.items, length_cons]
    omega

/-- The events of the bin are linked, and have the same key. -/
structure IsBin (q : EventQueue I) (b : Bin I) : Prop where
  stack : Seg q.nextInBin (some b.top) b.items none
  same : ∀ i ∈ b.items, q.key i = q.key b.top

/-- The bins are linked from `p` on up to `r`, and their keys increase. -/
structure Part (q : EventQueue I) (p : Option I) (bins : List (Bin I)) (r : Option I) : Prop where
  chain : Seg q.nextBin p (bins.map Bin.top) r
  isBin : ∀ b ∈ bins, q.IsBin b
  increasing : bins.Pairwise fun b c => q.key b.top < q.key c.top

/-- The queue consists of the bins. -/
def Represents (q : EventQueue I) (bins : List (Bin I)) : Prop :=
  q.Part q.head bins none

/-- The event is linked as before, and has the same key. -/
structure SameLinks (q q' : EventQueue I) (i : I) : Prop where
  nextBin : q'.nextBin i = q.nextBin i
  nextInBin : q'.nextInBin i = q.nextInBin i
  key : q'.key i = q.key i

theorem SameLinks.trans {q'' : EventQueue I} (h : SameLinks q q' i) (h' : SameLinks q' q'' i) :
  SameLinks q q'' i
  := ⟨h'.nextBin.trans h.nextBin, h'.nextInBin.trans h.nextInBin, h'.key.trans h.key⟩

namespace Part

theorem nil :
  q.Part p [] p
  := ⟨rfl, by simp, List.Pairwise.nil⟩

theorem key_eq (h : q.Part p bins r) (hi : i ∈ items bins) :
  ∃ b ∈ bins, i ∈ b.items ∧ q.key i = q.key b.top
  := by
  obtain ⟨b, hb, hi⟩ := mem_items.mp hi
  exact ⟨b, hb, hi, (h.isBin b hb).same i hi⟩

theorem congr (h : q.Part p bins r) (hsame : ∀ i ∈ items bins, SameLinks q q' i) :
  q'.Part p bins r
  := by
  have htop (b : Bin I) (hb : b ∈ bins) := hsame b.top (top_mem_items hb)
  constructor
  · apply h.chain.congr
    intro i hi
    obtain ⟨b, hb, rfl⟩ := mem_map.mp hi
    apply (htop b hb).nextBin
  · intro b hb
    have hitem (i : I) (hi : i ∈ b.items) := hsame i (mem_items.mpr ⟨b, hb, hi⟩)
    constructor
    · apply (h.isBin b hb).stack.congr
      intro i hi
      apply (hitem i hi).nextInBin
    · intro i hi
      rw [(hitem i hi).key, (htop b hb).key, (h.isBin b hb).same i hi]
  · apply h.increasing.imp_of_mem
    intro b c hb hc hlt
    rw [(htop b hb).key, (htop c hc).key]
    apply hlt

variable {bins' : List (Bin I)}

/-- Parts that fit together. -/
theorem append {s : Option I} (h : q.Part p bins s) (h' : q.Part s bins' r)
    (hlt : ∀ i ∈ items bins, ∀ j ∈ items bins', q.key i < q.key j) :
  q.Part p (bins ++ bins') r
  := by
  constructor
  · rw [map_append]
    apply seg_append.mpr ⟨s, h.chain, h'.chain⟩
  · exact forall_mem_append.mpr ⟨h.isBin, h'.isBin⟩
  · apply pairwise_append.mpr
    refine ⟨h.increasing, h'.increasing, ?_⟩
    intro b hb c hc
    apply hlt _ (top_mem_items hb) _ (top_mem_items hc)

/-- A part can be cut in two. -/
theorem of_append (h : q.Part p (bins ++ bins') r) :
  (∃ s, q.Part p bins s ∧ q.Part s bins' r)
    ∧ ∀ i ∈ items bins, ∀ j ∈ items bins', q.key i < q.key j
  := by
  have hchain := h.chain
  rw [map_append] at hchain
  obtain ⟨s, hleft, hright⟩ := seg_append.mp hchain
  obtain ⟨hbins, hbins', hlt⟩ := pairwise_append.mp h.increasing
  have hpart : q.Part p bins s :=
    ⟨hleft, (forall_mem_append.mp h.isBin).1, hbins⟩
  have hpart' : q.Part s bins' r :=
    ⟨hright, (forall_mem_append.mp h.isBin).2, hbins'⟩
  refine ⟨⟨s, hpart, hpart'⟩, ?_⟩
  intro i hi j hj
  obtain ⟨b, hb, -, hib⟩ := hpart.key_eq hi
  obtain ⟨c, hc, -, hjc⟩ := hpart'.key_eq hj
  rw [hib, hjc]
  apply hlt b hb c hc

/-- A part starts with a bin, and goes on with bins that have greater keys. -/
theorem cons_iff :
  q.Part p (b :: bins) r
    ↔ p = some b.top ∧ q.IsBin b ∧ q.Part (q.nextBin b.top) bins r
      ∧ ∀ i ∈ items bins, q.key b.top < q.key i
  := by
  constructor
  · intro h
    obtain ⟨hb, hbins⟩ := pairwise_cons.mp h.increasing
    have hrest : q.Part (q.nextBin b.top) bins r :=
      ⟨h.chain.2, (forall_mem_cons.mp h.isBin).2, hbins⟩
    refine ⟨h.chain.1, h.isBin b (mem_cons_self ..), hrest, ?_⟩
    intro i hi
    obtain ⟨c, hc, -, hkey⟩ := hrest.key_eq hi
    rw [hkey]
    apply hb c hc
  · rintro ⟨hp, hb, hbins, hlt⟩
    refine ⟨⟨hp, hbins.chain⟩, ?_, ?_⟩
    · exact forall_mem_cons.mpr ⟨hb, hbins.isBin⟩
    · apply pairwise_cons.mpr
      refine ⟨?_, hbins.increasing⟩
      intro c hc
      apply hlt _ (top_mem_items hc)

/-- The keys of a part are at least that of its first bin. -/
theorem top_le (h : q.Part p (b :: bins) r) (hi : i ∈ items (b :: bins)) :
  q.key b.top ≤ q.key i
  := by
  obtain ⟨-, hb, -, hlt⟩ := cons_iff.mp h
  rcases mem_append.mp hi with hi | hi
  · rw [hb.same i hi]
  · apply (hlt i hi).le

/-- No event is in two bins, and none is in a bin twice. -/
theorem nodup (h : q.Part p bins r) :
  (items bins).Nodup
  := by
  apply nodup_flatMap.mpr
  constructor
  · intro b hb
    apply (h.isBin b hb).stack.nodup
  · apply h.increasing.imp_of_mem
    intro b c hb hc hlt i hib hic
    rw [← (h.isBin b hb).same i hib, ← (h.isBin c hc).same i hic] at hlt
    apply lt_irrefl _ hlt

end Part

/-! ### Writing a pointer -/

section Writes

variable [DecidableEq I] {f : Event I → Event I} {pre : List (Bin I)}

/-- A field that is not written stays. -/
theorem comp_edit_eq_self {α : Type} (field : Event I → α) {k : I}
    (h : field (f (q.events k)) = field (q.events k)) :
  field ∘ (q.edit k f).events = field ∘ q.events
  := by
  rw [edit, comp_update, h]
  apply update_eq_self

section

variable (k : I)

section

variable (p : Option I) (q : EventQueue I)

@[simp]
theorem setNextBin_nextBin :
  (q.setNextBin k p).nextBin = Function.update q.nextBin k p
  := comp_update Event.nextBin ..

@[simp]
theorem setNextBin_nextInBin :
  (q.setNextBin k p).nextInBin = q.nextInBin
  := comp_edit_eq_self Event.nextInBin rfl

@[simp]
theorem setNextBin_key :
  (q.setNextBin k p).key = q.key
  := comp_edit_eq_self Event.key rfl

theorem setNextBin_squashed :
  squashed ∘ (q.setNextBin k p).events = squashed ∘ q.events
  := comp_edit_eq_self squashed rfl

end

section

variable (p : Option I) (q : EventQueue I)

@[simp]
theorem setNextInBin_nextInBin :
  (q.setNextInBin k p).nextInBin = Function.update q.nextInBin k p
  := comp_update Event.nextInBin ..

@[simp]
theorem setNextInBin_nextBin :
  (q.setNextInBin k p).nextBin = q.nextBin
  := comp_edit_eq_self Event.nextBin rfl

@[simp]
theorem setNextInBin_key :
  (q.setNextInBin k p).key = q.key
  := comp_edit_eq_self Event.key rfl

end

end

/-- Writing one event leaves the links of the others alone. -/
theorem sameLinks_edit {k : I} (hi : i ≠ k) (f : Event I → Event I) (q : EventQueue I) :
  SameLinks q (q.edit k f) i
  := by
  have hevents : (q.edit k f).events i = q.events i := update_of_ne hi ..
  constructor
  · rw [nextBin, hevents, nextBin]
  · rw [nextInBin, hevents, nextInBin]
  · rw [key, hevents, key]

/-- Writing other fields of an event leaves all links alone. -/
private theorem sameLinks_of_keeps {k : I}
    (hnextBin : (f (q.events k)).nextBin = (q.events k).nextBin)
    (hnextInBin : (f (q.events k)).nextInBin = (q.events k).nextInBin)
    (hkey : (f (q.events k)).key = (q.events k).key) (i : I) :
  SameLinks q (q.edit k f) i
  := by
  constructor
  · apply congrFun (comp_edit_eq_self Event.nextBin hnextBin)
  · apply congrFun (comp_edit_eq_self Event.nextInBin hnextInBin)
  · apply congrFun (comp_edit_eq_self Event.key hkey)

theorem sameLinks_setScheduled (k : I) (scheduled : Bool) (q : EventQueue I) (i : I) :
  SameLinks q (q.setScheduled k scheduled) i
  := sameLinks_of_keeps rfl rfl rfl i

theorem sameLinks_setSquashed (k : I) (squashed : Bool) (q : EventQueue I) (i : I) :
  SameLinks q (q.setSquashed k squashed) i
  := sameLinks_of_keeps rfl rfl rfl i

/-- Redirect the pointer behind some bins: that of the top of the last one, or the head of the
queue. -/
def relink (pre : List (Bin I)) (p : Option I) (q : EventQueue I) : EventQueue I :=
  match pre.getLast? with
  | none => { q with head := p }
  | some b => q.setNextBin b.top p

@[simp]
theorem relink_key (pre : List (Bin I)) (p : Option I) (q : EventQueue I) :
  (q.relink pre p).key = q.key
  := by
  rw [relink]
  cases pre.getLast? with
  | none => rfl
  | some b => apply setNextBin_key

@[simp]
theorem relink_curTick (pre : List (Bin I)) (p : Option I) (q : EventQueue I) :
  (q.relink pre p).curTick = q.curTick
  := by
  rw [relink]
  cases pre.getLast? with
  | none => rfl
  | some b => rfl

theorem sameLinks_relink (hi : i ∉ items pre) (p : Option I) (q : EventQueue I) :
  SameLinks q (q.relink pre p) i
  := by
  rw [relink]
  cases hlast : pre.getLast? with
  | none => exact ⟨rfl, rfl, rfl⟩
  | some b =>
    apply sameLinks_edit
    rintro rfl
    apply hi (top_mem_items (mem_of_getLast? hlast))

theorem Part.relink (h : q.Part q.head pre r) (p : Option I) :
  (q.relink pre p).Part (q.relink pre p).head pre p
  := by
  rcases eq_nil_or_concat pre with rfl | ⟨l, b, rfl⟩
  · apply Part.nil
  · have hrelink : q.relink (l ++ [b]) p = q.setNextBin b.top p := by
      rw [EventQueue.relink, getLast?_concat]
    rw [concat_eq_append] at h ⊢
    rw [hrelink]
    have hchain := h.chain
    rw [map_append] at hchain
    constructor
    · rw [map_append, setNextBin_nextBin]
      apply hchain.redirect
      intro hmem
      obtain ⟨c, hc, htop⟩ := mem_map.mp hmem
      have hlt := (pairwise_append.mp h.increasing).2.2 c hc b (mem_singleton_self b)
      rw [htop] at hlt
      apply lt_irrefl _ hlt
    · intro c hc
      have hbin := h.isBin c hc
      constructor
      · rw [setNextBin_nextInBin]
        apply hbin.stack
      · rw [setNextBin_key]
        apply hbin.same
    · rw [setNextBin_key]
      apply h.increasing

/-- The bins before some place stay, those behind it are replaced by bins that are linked from `p`
on, and then the pointer in between is redirected to `p`. -/
theorem represents_relink {post : List (Bin I)} (hpre : q.Part q.head pre r)
    (hsame : ∀ i ∈ items pre, SameLinks q q' i) (hhead : q'.head = q.head)
    (hpost : q'.Part p post none) (hlt : ∀ i ∈ items pre, ∀ j ∈ items post, q'.key i < q'.key j) :
  (q'.relink pre p).Represents (pre ++ post)
  := by
  have hpre' : q'.Part q'.head pre r := by
    rw [hhead]
    apply hpre.congr hsame
  apply (hpre'.relink p).append
  · apply hpost.congr
    intro i hi
    apply sameLinks_relink
    intro hi'
    apply lt_irrefl _ (hlt i hi' i hi)
  · rw [relink_key]
    apply hlt

end Writes

end EventQueue

end Gem5Arc
