import Gem5Arc.Sim.Bins

/-!
# What the operations of an event queue do

The operations of a queue that represents some bins, in terms of the list of its events:

* `Represents.insert`: `insert` puts an event behind the events that are before it, and in front
  of all others.
* `Represents.remove`: `remove` takes out an event.
* `Represents.serviceOne`: `serviceOne` takes out the first event.

In all cases the loops end, if they are given as many turns as there are events, and the result
does not depend on the number of turns (`Returns`).
-/

namespace Gem5Arc.EventQueue

open Event Lib List Part

variable {I : Type} {q q' : EventQueue I} {p r : Option I} {event : I}
  {b : Bin I} {bins pre post : List (Bin I)}

/-! ### The number of turns -/

section

variable {α β : Type} {n fuel : ℕ} {call : ℕ → Except Fault α} {a : α}

/-- The call returns `a`, unless it is given fewer than `n` turns and runs out of them. -/
def Returns (n : ℕ) (call : ℕ → Except Fault α) (a : α) : Prop :=
  ∀ fuel, call fuel = .ok a ∨ (fuel < n ∧ call fuel = .error .outOfFuel)

theorem Returns.eq_ok (h : Returns n call a) (hfuel : n ≤ fuel) :
  call fuel = .ok a
  := (h fuel).resolve_right fun hlt => Nat.not_lt.mpr hfuel hlt.1

theorem Returns.unique {a' : α} (h : Returns n call a) (h' : call fuel = .ok a') :
  a = a'
  := by
  rcases h fuel with hok | ⟨-, herror⟩
  · rw [hok] at h'
    apply Except.ok.inj h'
  · rw [herror] at h'
    cases h'

theorem Returns.bind {f : ℕ → α → Except Fault β} {b : β} (h : Returns n call a)
    (hf : Returns n (f · a) b) :
  Returns n (fun fuel => call fuel >>= f fuel) b
  := by
  intro fuel
  beta_reduce
  rcases h fuel with hok | ⟨hlt, herror⟩
  · rw [hok]
    apply hf fuel
  · rw [herror]
    exact .inr ⟨hlt, rfl⟩

end

/-! ### Insertion -/

/-- Every queue can be cut in front of the first bin that is not before an event. -/
theorem Part.split (h : q.Part p bins r) (event : I) :
  ∃ pre post, bins = pre ++ post ∧ (∀ i ∈ items pre, q.key i < q.key event)
    ∧ ∀ i ∈ items post, q.key event ≤ q.key i
  := by
  have hsplit : ∃ pre post, bins = pre ++ post ∧ (∀ b ∈ pre, q.key b.top < q.key event)
      ∧ ∀ b ∈ post, q.key event ≤ q.key b.top := by
    have hincreasing := h.increasing
    clear h
    induction bins with
    | nil => exact ⟨[], [], rfl, by simp, by simp⟩
    | cons b bins ih =>
      obtain ⟨hb, hbins⟩ := pairwise_cons.mp hincreasing
      rcases lt_or_ge (q.key b.top) (q.key event) with hlt | hge
      · obtain ⟨pre, post, rfl, hpre, hpost⟩ := ih hbins
        refine ⟨b :: pre, post, rfl, ?_, hpost⟩
        exact forall_mem_cons.mpr ⟨hlt, hpre⟩
      · refine ⟨[], b :: bins, rfl, by simp, ?_⟩
        exact forall_mem_cons.mpr ⟨hge, fun c hc => hge.trans (hb c hc).le⟩
  obtain ⟨pre, post, rfl, hpre, hpost⟩ := hsplit
  obtain ⟨⟨s, hleft, hright⟩, -⟩ := h.of_append
  refine ⟨pre, post, rfl, ?_, ?_⟩
  · intro i hi
    obtain ⟨b, hb, -, hkey⟩ := hleft.key_eq hi
    rw [hkey]
    apply hpre b hb
  · intro i hi
    obtain ⟨b, hb, -, hkey⟩ := hright.key_eq hi
    rw [hkey]
    apply hpost b hb

variable {fuel n : ℕ} {l m : List I} {prev curr top : I} {s : Option I}

/-- The loop passes the tops that are before the event. -/
theorem findBin_eq (h : Seg q.nextBin p (l ++ m) none) (hl : ∀ i ∈ l, q.key i < q.key event)
    (hm : ∀ i ∈ m.head?, q.key event ≤ q.key i) (hn : l.length < n) :
  Returns n (findBin event q · prev p) (l.getLast?.getD prev, m.head?)
  := by
  intro fuel
  beta_reduce
  induction fuel generalizing l p prev n with
  | zero => exact .inr ⟨Nat.zero_lt_of_lt hn, rfl⟩
  | succ fuel ih =>
    cases l with
    | nil =>
      left
      rw [h.eq_head?, nil_append]
      cases hhead : m.head? with
      | none => rfl
      | some i =>
        have hnot : ¬(q.events i).lt (q.events event) := by
          rw [lt_iff]
          apply not_lt_of_ge (hm i hhead)
        rw [findBin, if_neg hnot]
        rfl
    | cons i l =>
      obtain ⟨rfl, hseg⟩ := h
      obtain ⟨hi, hl⟩ := forall_mem_cons.mp hl
      rw [findBin, if_pos (lt_iff.mpr hi), getLast?_cons, Option.getD_some]
      apply (ih hseg hl (Nat.lt_pred_of_succ_lt hn)).imp_right
      apply And.imp_left Nat.succ_lt_of_lt_pred

/-- The loop goes on to the end of the bins that are before the event. -/
theorem findBin_part (hpre : q.Part p (b :: pre) s) (hpost : q.Part s post none)
    (hbefore : ∀ i ∈ items pre, q.key i < q.key event)
    (hafter : ∀ i ∈ items post, q.key event ≤ q.key i) (hn : pre.length < n) :
  Returns n (findBin event q · b.top (q.events b.top).nextBin) ((pre.getLast?.getD b).top, s)
  := by
  have hseg := seg_append.mpr ⟨s, hpre.chain.2, hpost.chain⟩
  have hfind : Returns n (findBin event q · b.top (q.nextBin b.top))
      ((pre.map Bin.top).getLast?.getD b.top, (post.map Bin.top).head?) := by
    apply findBin_eq hseg
    · intro i hi
      obtain ⟨c, hc, rfl⟩ := mem_map.mp hi
      apply hbefore _ (top_mem_items hc)
    · intro i hi
      obtain ⟨c, hc, rfl⟩ := mem_map.mp (mem_of_mem_head? hi)
      apply hafter _ (top_mem_items hc)
    · rw [length_map]
      apply hn
  rw [getLast?_map, Option.getD_map, ← hpost.chain.eq_head?] at hfind
  apply hfind

variable [DecidableEq I]

theorem relink_cons (b : Bin I) (pre : List (Bin I)) (p : Option I) (q : EventQueue I) :
  q.relink (b :: pre) p = q.setNextBin (pre.getLast?.getD b).top p
  := by
  rw [relink, getLast?_cons]

theorem sameLinks_setLinks {i : I} (hi : i ≠ event) (x y : Option I) (q : EventQueue I) :
  SameLinks q ((q.setNextBin event x).setNextInBin event y) i
  := (sameLinks_edit hi _ q).trans (sameLinks_edit hi _ _)

/-- Only the pointers of the event are written. -/
theorem insertBefore_eq (event : I) (p : Option I) (q : EventQueue I) :
  ∃ x y, q.insertBefore event p = (some event, (q.setNextBin event x).setNextInBin event y)
  := by
  cases p with
  | none => exact ⟨none, none, rfl⟩
  | some curr =>
    rw [insertBefore]
    split_ifs
    · exact ⟨some curr, none, rfl⟩
    · exact ⟨(q.events curr).nextBin, some curr, rfl⟩

/-- The event becomes the top of the first bin. -/
theorem Part.insertOnTop (h : q.Part p (b :: bins) none) (hnew : event ∉ items (b :: bins))
    (hkey : q.key event = q.key b.top) :
  ((q.setNextBin event (q.nextBin b.top)).setNextInBin event (some b.top)).Part (some event)
    (⟨event, b.items⟩ :: bins) none
  := by
  obtain ⟨rfl, hb, hbins, hlt⟩ := cons_iff.mp h
  apply cons_iff.mpr
  refine ⟨rfl, ⟨⟨rfl, ?_⟩, ?_⟩, ?_, ?_⟩
  · rw [setNextInBin_nextInBin, Function.update_self, setNextBin_nextInBin]
    apply hb.stack.update
    intro hevent
    apply hnew (mem_append_left _ hevent)
  · intro i hi
    rw [setNextInBin_key, setNextBin_key]
    rcases mem_cons.mp hi with rfl | hi
    · rfl
    · rw [hb.same i hi, hkey]
  · rw [setNextInBin_nextBin, setNextBin_nextBin, Function.update_self]
    apply hbins.congr
    intro i hi
    apply sameLinks_setLinks
    rintro rfl
    apply hnew (mem_append_right _ hi)
  · intro i hi
    rw [setNextInBin_key, setNextBin_key, hkey]
    apply hlt i hi

/-- The event becomes the first of all that are not before it. -/
theorem Part.insertBefore (h : q.Part p bins none) (hnew : event ∉ items bins)
    (hle : ∀ i ∈ items bins, q.key event ≤ q.key i) :
  ∃ bins', (q.insertBefore event p).2.Part (some event) bins' none
    ∧ items bins' = event :: items bins
  := by
  have hsingle (x : Option I) :
      ((q.setNextBin event x).setNextInBin event none).IsBin ⟨event, []⟩ := by
    constructor
    · simp [Bin.items]
    · simp [Bin.items]
  cases bins with
  | nil =>
    cases h.chain
    refine ⟨[⟨event, []⟩], cons_iff.mpr ⟨rfl, hsingle none, ?_, by simp [items]⟩, rfl⟩
    simp [insertBefore, nil]
  | cons b bins =>
    obtain rfl := (cons_iff.mp h).1
    have hmem : b.top ∈ items (b :: bins) := top_mem_items (mem_cons_self ..)
    rw [EventQueue.insertBefore]
    split_ifs with hbefore
    · refine ⟨⟨event, []⟩ :: b :: bins, ?_, rfl⟩
      apply cons_iff.mpr
      refine ⟨rfl, hsingle _, ?_, ?_⟩
      · rw [setNextInBin_nextBin, setNextBin_nextBin, Function.update_self]
        apply h.congr
        intro i hi
        apply sameLinks_setLinks
        rintro rfl
        apply hnew hi
      · intro i hi
        rw [setNextInBin_key, setNextBin_key]
        apply lt_of_lt_of_le (lt_iff.mp hbefore) (h.top_le hi)
    · refine ⟨⟨event, b.items⟩ :: bins, h.insertOnTop hnew ?_, rfl⟩
      rw [lt_iff] at hbefore
      apply le_antisymm (hle b.top hmem) (le_of_not_gt hbefore)

/-- The code finds the place where the event belongs. -/
theorem insert_eq (hpre : q.Part q.head pre s) (hpost : q.Part s post none)
    (hbefore : ∀ i ∈ items pre, q.key i < q.key event)
    (hafter : ∀ i ∈ items post, q.key event ≤ q.key i) (hn : pre.length < n) :
  Returns n (q.insert · event) ((q.insertBefore event s).2.relink pre (some event))
  := by
  obtain ⟨x, y, hinsert⟩ := q.insertBefore_eq event s
  cases pre with
  | nil =>
    obtain rfl : q.head = s := hpre.chain
    intro fuel
    left
    beta_reduce
    rw [insert]
    cases post with
    | nil =>
      obtain hhead : q.head = none := hpost.chain
      rw [hhead] at hinsert ⊢
      simp [hinsert, relink]
    | cons b post =>
      obtain ⟨hhead, -⟩ := hpost.chain
      have hle := le_iff.mpr (hafter _ (top_mem_items (mem_cons_self ..)))
      rw [hhead] at hinsert ⊢
      simp [hinsert, relink, hle]
  | cons b pre =>
    obtain ⟨hhead, hchain⟩ := hpre.chain
    have hnot : ¬(q.events event).le (q.events b.top) := by
      rw [le_iff]
      apply not_le_of_gt (hbefore _ (top_mem_items (mem_cons_self ..)))
    have hfind := findBin_part hpre hpost (fun i hi => hbefore i (mem_append_right _ hi))
      hafter (Nat.lt_of_succ_lt hn)
    simp only [insert, hhead, if_neg hnot]
    apply hfind.bind
    intro fuel
    left
    simp only [hinsert, relink_cons]
    rfl

/-- What `insert` does: it puts the event in front of the events that are not before it. -/
theorem Represents.insert (h : q.Represents bins) (hnew : event ∉ items bins)
    (hn : (items bins).length < n) :
  ∃ q' bins' l m, Returns n (q.insert · event) q' ∧ q'.Represents bins'
    ∧ items bins = l ++ m ∧ items bins' = l ++ event :: m
    ∧ (∀ j ∈ l, q.key j < q.key event) ∧ (∀ j ∈ m, q.key event ≤ q.key j)
    ∧ q'.key = q.key ∧ q'.curTick = q.curTick
  := by
  obtain ⟨pre, post, rfl, hbefore, hafter⟩ := h.split event
  obtain ⟨⟨s, hpre, hpost⟩, hlt⟩ := h.of_append
  rw [items_append, mem_append, not_or] at hnew
  obtain ⟨post', hpost', hitems⟩ := hpost.insertBefore hnew.2 hafter
  obtain ⟨x, y, hinsert⟩ := q.insertBefore_eq event s
  have hlength : pre.length < n := by
    apply lt_of_le_of_lt _ hn
    rw [items_append, List.length_append]
    apply (length_le_items pre).trans (Nat.le_add_right ..)
  rw [hinsert] at hpost'
  refine ⟨_, pre ++ post', items pre, items post, insert_eq hpre hpost hbefore hafter hlength, ?_,
    items_append, ?_, hbefore, hafter, ?_, ?_⟩
  · rw [hinsert]
    refine represents_relink hpre ?_ ?_ hpost' ?_
    · intro i hi
      apply sameLinks_setLinks
      rintro rfl
      apply hnew.1 hi
    · rfl
    · intro i hi j hj
      rw [setNextInBin_key, setNextBin_key]
      rw [hitems] at hj
      rcases mem_cons.mp hj with rfl | hj
      · apply hbefore i hi
      · apply hlt i hi j hj
  · rw [items_append, hitems]
  · rw [relink_key, hinsert, setNextInBin_key, setNextBin_key]
  · rw [relink_curTick, hinsert]
    rfl

/-! ### Removal -/

/-- The loop stops at the event before the one to be removed. -/
theorem findItem_eq (h : Seg q.nextInBin p (l ++ event :: m) none) (hl : event ∉ l)
    (hn : l.length < n) :
  Returns n (findItem event q · curr p) (l.getLast?.getD curr)
  := by
  intro fuel
  beta_reduce
  induction fuel generalizing l p curr n with
  | zero => exact .inr ⟨Nat.zero_lt_of_lt hn, rfl⟩
  | succ fuel ih =>
    cases l with
    | nil =>
      left
      obtain ⟨rfl, -⟩ := h
      rw [findItem, if_pos rfl]
      rfl
    | cons i l =>
      obtain ⟨rfl, hseg⟩ := h
      obtain ⟨hi, hl⟩ := not_or.mp (mem_cons.not.mp hl)
      have hne : some i ≠ some event := by
        rintro ⟨⟩
        apply hi rfl
      rw [findItem, if_neg hne, getLast?_cons, Option.getD_some]
      apply (ih hseg hl (Nat.lt_pred_of_succ_lt hn)).imp_right
      apply And.imp_left Nat.succ_lt_of_lt_pred

/-- The queues differ in the pointers of the listed events only. -/
structure Within (l : List I) (q q' : EventQueue I) : Prop where
  head : q'.head = q.head
  curTick : q'.curTick = q.curTick
  key : q'.key = q.key
  links : ∀ i, i ∉ l → SameLinks q q' i

/-- The top of a bin gives way to the next event of the bin. -/
theorem Part.dropTop {next : I} {rest : List I} (h : q.Part p (⟨top, next :: rest⟩ :: post) none) :
  (q.setNextBin next (q.nextBin top)).Part (some next) (⟨next, rest⟩ :: post) none
  := by
  obtain ⟨rfl, hb, hpost, hlt⟩ := cons_iff.mp h
  have hsame (i : I) (hi : i ∈ Bin.items ⟨next, rest⟩) : q.key i = q.key top :=
    hb.same i (mem_cons_of_mem _ hi)
  apply cons_iff.mpr
  refine ⟨rfl, ⟨⟨rfl, ?_⟩, ?_⟩, ?_, ?_⟩
  · rw [setNextBin_nextInBin]
    apply hb.stack.2.2
  · intro i hi
    rw [setNextBin_key, hsame i hi, hsame next (Bin.top_mem _)]
  · rw [setNextBin_nextBin, Function.update_self]
    apply hpost.congr
    intro i hi
    apply sameLinks_edit
    rintro rfl
    apply (hlt i hi).ne (hsame i (Bin.top_mem _)).symm
  · rw [setNextBin_key, hsame next (Bin.top_mem _)]
    apply hlt

section

variable (h : q.Part p (b :: post) none)

include h

/-- The top of a bin is removed: the next event becomes the top, or the next bin is the first. -/
theorem Part.removeTop :
  ∃ p' q' post', (∀ fuel, q.removeItem fuel b.top b.top = .ok (p', q'))
    ∧ q.pop b.top = { q' with head := p' }
    ∧ q'.Part p' post' none ∧ items post' = b.rest ++ items post ∧ Within b.items q q'
  := by
  obtain ⟨rfl, hb, hpost, -⟩ := cons_iff.mp h
  obtain ⟨top, rest⟩ := b
  cases rest with
  | nil =>
    have hnext : (q.events top).nextInBin = none := hb.stack.2
    refine ⟨q.nextBin top, q, post, ?_, ?_, hpost, rfl, rfl, rfl, rfl, ?_⟩
    · intro fuel
      rw [removeItem, if_pos rfl, hnext]
      rfl
    · rw [pop, hnext]
      rfl
    · intro i _
      exact ⟨rfl, rfl, rfl⟩
  | cons next rest =>
    have hnext : (q.events top).nextInBin = some next := hb.stack.2.1
    refine ⟨some next, q.setNextBin next (q.nextBin top), ⟨next, rest⟩ :: post, ?_, ?_,
      h.dropTop, rfl, rfl, rfl, ?_, ?_⟩
    · intro fuel
      rw [removeItem, if_pos rfl, hnext]
      rfl
    · rw [pop, hnext]
      rfl
    · apply setNextBin_key
    · intro i hi
      apply sameLinks_edit
      rintro rfl
      apply hi
      simp [Bin.items]

/-- An event below the top of a bin is removed. -/
theorem Part.removeBelow (hrest : b.rest = l ++ event :: m) (hn : l.length < n) :
  ∃ q', Returns n (q.removeItem · event b.top) (some b.top, q')
    ∧ q'.Part (some b.top) (⟨b.top, l ++ m⟩ :: post) none ∧ Within b.items q q'
  := by
  obtain ⟨rfl, hb, hpost, hlt⟩ := cons_iff.mp h
  obtain ⟨top, rest⟩ := b
  subst hrest
  have hnodup := hb.stack.nodup
  obtain ⟨htop, hevent⟩ : event ≠ top ∧ event ∉ l := by
    rw [Bin.items, ← cons_append] at hnodup
    have hdisjoint := disjoint_of_nodup_append hnodup
    apply not_or.mp
    rw [← mem_cons]
    intro hmem
    apply hdisjoint hmem (mem_cons_self ..)
  have hfind : Returns n (findItem event q · top (q.events top).nextInBin) (l.getLast?.getD top) :=
    findItem_eq hb.stack.2 hevent hn
  obtain ⟨l', hk⟩ := getLast?_eq_some_iff.mp getLast?_cons
  generalize l.getLast?.getD top = k at hk hfind
  have hitems (m' : List I) : top :: (l ++ m') = l' ++ k :: m' := by
    rw [← cons_append, hk, append_assoc, singleton_append]
  have hmem : k ∈ Bin.items ⟨top, l ++ event :: m⟩ := by
    rw [Bin.items, hitems]
    simp
  refine ⟨q.setNextInBin k (q.nextInBin event), ?_, ?_, rfl, rfl, setNextInBin_key .., ?_⟩
  · simp only [EventQueue.removeItem, if_neg htop]
    apply hfind.bind
    intro fuel
    exact .inl rfl
  · apply cons_iff.mpr
    refine ⟨rfl, ⟨?_, ?_⟩, ?_, ?_⟩
    · have hstack := hb.stack
      rw [Bin.items, hitems] at hstack hnodup ⊢
      rw [setNextInBin_nextInBin]
      obtain ⟨-, hright, hdisjoint⟩ := nodup_append'.mp hnodup
      apply hstack.skip
      · intro hk'
        apply hdisjoint hk' (mem_cons_self ..)
      · intro hk'
        apply (nodup_cons.mp hright).1 (mem_cons_of_mem _ hk')
    · intro i hi
      rw [setNextInBin_key]
      apply hb.same i
      simp only [Bin.items, mem_cons, mem_append] at hi ⊢
      tauto
    · rw [setNextInBin_nextBin]
      apply hpost.congr
      intro i hi
      apply sameLinks_edit
      rintro rfl
      apply (hlt i hi).ne (hb.same i hmem).symm
    · rw [setNextInBin_key]
      apply hlt
  · intro i hi
    apply sameLinks_edit
    rintro rfl
    apply hi hmem

/-- An event of a bin is removed. -/
theorem Part.removeItem (hmem : event ∈ b.items) (hn : b.items.length < n) :
  ∃ p' q' post', Returns n (q.removeItem · event b.top) (p', q') ∧ q'.Part p' post' none
    ∧ items post' = (items (b :: post)).erase event ∧ Within b.items q q'
  := by
  by_cases htop : event = b.top
  · obtain ⟨p', q', post', hremove, -, hpart, hitems, hwithin⟩ := h.removeTop
    refine ⟨p', q', post', ?_, hpart, ?_, hwithin⟩
    · rw [htop]
      intro fuel
      exact .inl (hremove fuel)
    · rw [hitems, htop, items_cons, Bin.items, cons_append, erase_cons_head]
  · obtain ⟨l, m, hrest⟩ := append_of_mem ((mem_cons.mp hmem).resolve_left htop)
    have hlength : l.length < n := by
      rw [Bin.items, hrest, length_cons, List.length_append] at hn
      omega
    obtain ⟨q', hremove, hpart, hwithin⟩ := h.removeBelow hrest hlength
    refine ⟨some b.top, q', _, hremove, hpart, ?_, hwithin⟩
    have hitems : items (b :: post) = (b.top :: l) ++ event :: (m ++ items post) := by
      simp [Bin.items, hrest]
    have hnot : event ∉ b.top :: l := by
      have hnodup := h.nodup
      rw [hitems] at hnodup
      intro hevent
      apply disjoint_of_nodup_append hnodup hevent (mem_cons_self ..)
    rw [hitems, erase_append_right _ hnot, erase_cons_head]
    simp [Bin.items]

end

/-- The code finds the bin of the event. -/
theorem remove_eq {p' : Option I} (hpre : q.Part q.head pre s) (hpost : q.Part s (b :: post) none)
    (hmem : event ∈ b.items) (hlt : ∀ i ∈ items pre, ∀ j ∈ items (b :: post), q.key i < q.key j)
    (hqueue : (q.events event).queue) (hn : pre.length < n)
    (hremove : Returns n (q.removeItem · event b.top) (p', q')) :
  Returns n (q.remove · event) (q'.relink pre p')
  := by
  have hkey := (hpost.isBin b (mem_cons_self ..)).same event hmem
  obtain ⟨rfl, -⟩ := hpost.chain
  cases pre with
  | nil =>
    obtain hhead : q.head = some b.top := hpre.chain
    have heq := eq_iff.mpr hkey.symm
    simp only [remove, hhead, hqueue, assert_true, ok_bind, if_pos heq]
    apply hremove.bind
    intro fuel
    exact .inl rfl
  | cons c pre =>
    obtain ⟨hhead, -⟩ := hpre.chain
    have hbefore (i : I) (hi : i ∈ items (c :: pre)) : q.key i < q.key event :=
      hlt i hi event (mem_append_left _ hmem)
    have hafter (i : I) (hi : i ∈ items (b :: post)) : q.key event ≤ q.key i := by
      rw [hkey]
      apply hpost.top_le hi
    have hne : ¬(q.events c.top).eq (q.events event) := by
      rw [eq_iff]
      apply (hbefore _ (top_mem_items (mem_cons_self ..))).ne
    have hnot : ¬(q.events b.top).ne (q.events event) := by
      rw [ne_iff, not_not]
      apply hkey.symm
    have hfind := findBin_part hpre hpost (fun i hi => hbefore i (mem_append_right _ hi))
      hafter (Nat.lt_of_succ_lt hn)
    simp only [remove, hhead, hqueue, assert_true, ok_bind, if_neg hne, relink_cons]
    apply hfind.bind
    simp only [if_neg hnot]
    apply hremove.bind
    intro fuel
    exact .inl rfl

/-- Only events of this queue are removed. -/
theorem queue_of_remove (h : q.remove fuel event = .ok q') :
  (q.events event).queue = true
  := by
  rw [remove] at h
  cases hhead : q.head with
  | none =>
    rw [hhead] at h
    cases h
  | some head =>
    rw [hhead] at h
    apply (assert_bind_eq_ok.mp h).1

/-- What `remove` does: it takes out the event, and leaves the order of the others. -/
theorem Represents.remove (h : q.Represents bins) (hmem : event ∈ items bins)
    (hqueue : (q.events event).queue) (hn : (items bins).length < n) :
  ∃ q' bins', Returns n (q.remove · event) q' ∧ q'.Represents bins'
    ∧ items bins' = (items bins).erase event
    ∧ q'.key = q.key ∧ q'.curTick = q.curTick
  := by
  obtain ⟨b, hb, hevent⟩ := mem_items.mp hmem
  obtain ⟨pre, post, rfl⟩ := append_of_mem hb
  obtain ⟨⟨s, hpre, hpost⟩, hlt⟩ := h.of_append
  have hlength : pre.length < n ∧ b.items.length < n := by
    have hpre := length_le_items pre
    simp only [items_append, items_cons, List.length_append] at hn
    omega
  obtain ⟨p', q', post', hremove, hpart, hitems, hwithin⟩ := hpost.removeItem hevent hlength.2
  refine ⟨_, pre ++ post', remove_eq hpre hpost hevent hlt hqueue hlength.1 hremove, ?_, ?_, ?_, ?_⟩
  · refine represents_relink hpre ?_ hwithin.head hpart ?_
    · intro i hi
      apply hwithin.links
      intro hi'
      apply lt_irrefl _ (hlt i hi i (mem_append_left _ hi'))
    · intro i hi j hj
      rw [hwithin.key]
      rw [hitems] at hj
      apply hlt i hi j (mem_of_mem_erase hj)
  · have hnot : event ∉ items pre := by
      intro hi
      apply lt_irrefl _ (hlt event hi event (mem_append_left _ hevent))
    rw [items_append, hitems, items_append, erase_append_right _ hnot]
  · rw [relink_key, hwithin.key]
  · rw [relink_curTick, hwithin.curTick]

/-! ### Service -/

theorem pop_squashed (event : I) (q : EventQueue I) :
  squashed ∘ (q.pop event).events = squashed ∘ q.events
  := by
  rw [pop]
  cases (q.events event).nextInBin with
  | none => rfl
  | some next => apply setNextBin_squashed

/-- What `pop` does: it takes out the first event. -/
theorem Represents.pop (h : q.Represents bins) (hitems : items bins = event :: l) :
  ∃ bins', (q.pop event).Represents bins' ∧ items bins' = l ∧ (q.pop event).key = q.key
    ∧ (q.pop event).curTick = q.curTick
  := by
  cases bins with
  | nil => cases hitems
  | cons b post =>
    obtain ⟨rfl, rfl⟩ := List.cons.inj hitems
    obtain ⟨p', q', post', -, hpop, hpart, hitems', hwithin⟩ := removeTop h
    rw [hpop]
    refine ⟨post', hpart.congr ?_, hitems', hwithin.key, hwithin.curTick⟩
    intro i _
    exact ⟨rfl, rfl, rfl⟩

/-- What `serviceOne` does: it takes out the first event, and forwards the time. -/
theorem Represents.serviceOne (h : q.Represents bins) (hitems : items bins = event :: l) :
  ∃ q' bins', q.serviceOne = .ok (event, q') ∧ q'.Represents bins' ∧ items bins' = l
    ∧ q'.key = q.key
    ∧ q'.curTick = if (q.events event).squashed then q.curTick else (q.events event).when
  := by
  have hhead : q.head = some event := by
    cases bins with
    | nil => cases hitems
    | cons b post =>
      obtain ⟨rfl, -⟩ := List.cons.inj hitems
      apply h.chain.1
  have hclear : (q.setScheduled event false).Represents bins := by
    apply congr h
    intro i _
    apply sameLinks_setScheduled
  obtain ⟨bins', hpop, hitems', hkey, hcurTick⟩ := hclear.pop hitems
  have hkey' : ((q.setScheduled event false).pop event).key = q.key := by
    rw [hkey]
    funext i
    apply (sameLinks_setScheduled event false q i).key
  have hwhen : (((q.setScheduled event false).pop event).events event).when
      = (q.events event).when := congrArg (fun k => (ofLex k).1) (congrFun hkey' event)
  have hsquashed : (((q.setScheduled event false).pop event).events event).squashed
      = (q.events event).squashed := by
    have hsame := congrFun (pop_squashed event (q.setScheduled event false)) event
    rw [setScheduled, comp_edit_eq_self squashed rfl] at hsame
    apply hsame
  rw [EventQueue.serviceOne, hhead]
  cases hcase : (q.events event).squashed with
  | true =>
    refine ⟨((q.setScheduled event false).pop event).setSquashed event false, bins', ?_, ?_,
      hitems', ?_, hcurTick⟩
    · simp only [deref, ok_bind, hsquashed, hcase, if_true]
      rfl
    · apply congr hpop
      intro i _
      apply sameLinks_setSquashed
    · rw [← hkey']
      funext i
      apply (sameLinks_setSquashed event false _ i).key
  | false =>
    refine ⟨{ (q.setScheduled event false).pop event with curTick := (q.events event).when },
      bins', ?_, ?_, hitems', hkey', rfl⟩
    · simp only [deref, ok_bind, hsquashed, hcase, Bool.false_eq_true, if_false, hwhen]
      rfl
    · apply congr hpop
      intro i _
      exact ⟨rfl, rfl, rfl⟩

end Gem5Arc.EventQueue
