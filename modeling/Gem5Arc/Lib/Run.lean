import Mathlib.Tactic

/-!
# Runs of a labelled transition system

A transition system on states `σ` with labels `α` is a relation `R s a t`. `Run R s l t`
says that the labels `l`, taken in order, lead from `s` to `t`; `Reachable R s t` that some
labels do.

* `Run.invariant`: what holds at the start and is kept by every step holds along the run.
* `Run.always_iff`: if a step keeps `P` exactly when it meets the condition `C`, then `P`
  holds in every state of a run exactly when every step of the run meets `C`.
* `exec`: the run of a function that may fail, with the first error on the way;
  `exec_ne_error_iff` says when a given error is not met.
* `Run.unwinding`: two runs whose visible labels match pairwise end in related states, and
  their visible labels are then related by what matching steps guarantee.
-/

universe u v

namespace Lib

open List

variable {σ : Type u} {α : Type v} {R : σ → α → σ → Prop} {u s : σ} {a : α}

/-- `Run R s l t`: the labels `l` lead from `s` to `t`. -/
inductive Run (R : σ → α → σ → Prop) : σ → List α → σ → Prop
  | nil (s : σ) : Run R s [] s
  | cons {s t u : σ} {a : α} {l : List α} : R s a t → Run R t l u → Run R s (a :: l) u

/-- `Reachable R s t`: some labels lead from `s` to `t`. -/
def Reachable (R : σ → α → σ → Prop) (s t : σ) : Prop :=
  ∃ l, Run R s l t

namespace Run

variable {t : σ} {m l : List α} {C : α → σ → Prop} {P : σ → Prop}

theorem append (h : Run R s l t) (h' : Run R t m u) :
  Run R s (l ++ m) u
  := by
  induction h with
  | nil => apply h'
  | cons hstep _ ih => apply Run.cons hstep (ih h')

theorem single (h : R s a t) :
  Run R s [a] t
  := Run.cons h (Run.nil t)

/-- A run whose labels are a concatenation passes through a state in between. -/
theorem of_append (h : Run R s (l ++ m) u) :
  ∃ t, Run R s l t ∧ Run R t m u
  := by
  induction l generalizing s with
  | nil => use s, Run.nil s, h
  | cons a l ih =>
    cases h with
    | cons hstep hrun =>
      obtain ⟨t, hl, hm⟩ := ih hrun
      use t, Run.cons hstep hl, hm

/-- What holds at the start of a run and is kept by every step holds at its end. -/
theorem invariant (hstep : ∀ s a t, P s → R s a t → P t) (h : Run R s l t) (h0 : P s) :
  P t
  := by
  induction h with
  | nil => apply h0
  | cons h _ ih => apply ih (hstep _ _ _ h0 h)

/-- What every step of a run keeps holds in every state of the run. -/
theorem invariant_of_prefix (h0 : P s)
    (hstep : ∀ l' a t u, l' ++ [a] <+: l → Run R s l' t → R t a u → P t → P u) {l' : List α}
    (hpre : l' <+: l) (h : Run R s l' t) :
  P t
  := by
  induction l' using List.reverseRecOn generalizing t with
  | nil =>
    cases h
    apply h0
  | append_singleton l' a ih =>
    obtain ⟨t₁, hl', ha⟩ := h.of_append
    have ht₁ := ih ((prefix_append l' [a]).trans hpre) hl'
    cases ha with
    | cons hau hnil =>
      cases hnil
      apply hstep l' a t₁ t hpre hl' hau ht₁

/-- Let `Q` hold as long as `P` does. If a step from a state with both ends in a state with `P`
exactly when it meets `C`, then `P` holds in every state of a run exactly when every step of the
run meets `C`. -/
theorem always_iff_under {Q : σ → Prop} (hstep : ∀ s a t, Q s → P s → R s a t → Q t ∧ (P t ↔ C a s))
    (hQ : Q s) (hP : P s) (l : List α) :
  (∀ l' t, l' <+: l → Run R s l' t → P t)
    ↔ ∀ l' a t u, l' ++ [a] <+: l → Run R s l' t → R t a u → C a t
  := by
  constructor
  · intro hall l' a t u hpre hrun hau
    have hpre' := (prefix_append l' [a]).trans hpre
    have hQt : Q t := by
      apply invariant_of_prefix hQ _ hpre' hrun
      intro l'' b t₁ u₁ hpre₁ hrun₁ hb hQ₁
      have hP₁ := hall l'' t₁ ((prefix_append l'' [b]).trans hpre₁) hrun₁
      exact (hstep t₁ b u₁ hQ₁ hP₁ hb).1
    apply (hstep t a u hQt (hall l' t hpre' hrun) hau).2.mp
    apply hall _ _ hpre (hrun.append (Run.single hau))
  · intro hC l' t hpre hrun
    have hboth : Q t ∧ P t := by
      apply invariant_of_prefix (P := fun t => Q t ∧ P t) ⟨hQ, hP⟩ _ hpre hrun
      rintro l'' b t₁ u₁ hpre₁ hrun₁ hb ⟨hQ₁, hP₁⟩
      obtain ⟨hQu, hPu⟩ := hstep t₁ b u₁ hQ₁ hP₁ hb
      exact ⟨hQu, hPu.mpr (hC l'' b t₁ u₁ hpre₁ hrun₁ hb)⟩
    exact hboth.2

/-- If a step from a state with `P` ends in a state with `P` exactly when it meets `C`, then
`P` holds in every state of a run exactly when every step of the run meets `C`. -/
theorem always_iff (hstep : ∀ s a t, P s → R s a t → (P t ↔ C a s)) (h0 : P s) (l : List α) :
  (∀ l' t, l' <+: l → Run R s l' t → P t)
    ↔ ∀ l' a t u, l' ++ [a] <+: l → Run R s l' t → R t a u → C a t
  := by
  apply always_iff_under (Q := fun _ => True) _ trivial h0
  intro s a t _ hP h
  exact ⟨trivial, hstep s a t hP h⟩

end Run

theorem Reachable.refl (s : σ) :
  Reachable R s s
  := ⟨[], Run.nil s⟩

variable {t : σ}

theorem Reachable.step {s u : σ} (h : Reachable R s t) (h' : R t a u) :
  Reachable R s u
  := by
  obtain ⟨l, hl⟩ := h
  use l ++ [a]
  apply hl.append (Run.single h')

variable {P : σ → Prop}

/-- What holds at the start and is kept by every step holds in every reachable state. -/
theorem Reachable.invariant (hstep : ∀ s a t, P s → R s a t → P t) (h : Reachable R s t)
    (h0 : P s) :
  P t
  := by
  obtain ⟨l, hl⟩ := h
  apply hl.invariant hstep h0

/-- A map that takes steps to steps takes reachable states to reachable states. -/
theorem Reachable.map {τ : Type*} {R' : τ → α → τ → Prop} (f : σ → τ)
    (hf : ∀ s a t, R s a t → R' (f s) a (f t)) (h : Reachable R s t) :
  Reachable R' (f s) (f t)
  := by
  obtain ⟨l, hl⟩ := h
  use l
  induction hl with
  | nil => apply Run.nil
  | cons hstep _ ih => apply Run.cons (hf _ _ _ hstep) ih

/-! ### Executing a step function -/

section Exec

variable {ε : Type*} {step : α → σ → Except ε σ}

/-- The state the labels lead to, or the first error on the way. -/
def exec (step : α → σ → Except ε σ) : List α → σ → Except ε σ
  | [], s => .ok s
  | a :: l, s =>
    match step a s with
    | .ok t => exec step l t
    | .error e => .error e

variable {l m : List α} {C A : α → σ → Prop} {Q : σ → Prop}

theorem exec_cons_eq_ok :
  exec step (a :: l) s = .ok t ↔ ∃ u, step a s = .ok u ∧ exec step l u = .ok t
  := by
  rw [exec]
  cases step a s with
  | error e => simp
  | ok u => simp

/-- Executing succeeds exactly along the runs of the relation `step a s = .ok t`. -/
theorem exec_eq_ok_iff :
  exec step l s = .ok t ↔ Run (fun s a t => step a s = .ok t) s l t
  := by
  induction l generalizing s with
  | nil =>
    constructor
    · intro h
      cases h
      apply Run.nil
    · intro h
      cases h
      rfl
  | cons a l ih =>
    rw [exec_cons_eq_ok]
    constructor
    · rintro ⟨u, hstep, h⟩
      apply Run.cons hstep (ih.mp h)
    · intro h
      cases h with
      | cons hstep hrun => exact ⟨_, hstep, ih.mpr hrun⟩

theorem exec_append_eq_ok :
  exec step (l ++ m) s = .ok t ↔ ∃ u, exec step l s = .ok u ∧ exec step m u = .ok t
  := by
  simp only [exec_eq_ok_iff]
  constructor
  · apply Run.of_append
  · rintro ⟨u, hl, hm⟩
    apply hl.append hm

theorem exec_concat (h : exec step l s = .ok t) (ha : step a t = .ok u) :
  exec step (l ++ [a]) s = .ok u
  := exec_append_eq_ok.mpr ⟨t, h, exec_cons_eq_ok.mpr ⟨u, ha, rfl⟩⟩

/-- Every step of the labels meets `C`, as far as they lead. -/
def Meets (step : α → σ → Except ε σ) (C : α → σ → Prop) : List α → σ → Prop
  | [], _ => True
  | a :: l, s => C a s ∧ ∀ t, step a s = .ok t → Meets step C l t

theorem Meets.of_cons (ha : C a s) (ht : step a s = .ok t) (hl : Meets step C l t) :
  Meets step C (a :: l) s
  := by
  refine ⟨ha, ?_⟩
  intro u hu
  cases ht.symm.trans hu
  exact hl

theorem meets_append :
  Meets step C (l ++ m) s
    ↔ Meets step C l s ∧ ∀ t, exec step l s = .ok t → Meets step C m t
  := by
  induction l generalizing s with
  | nil => simp [Meets, exec]
  | cons a l ih =>
    rw [cons_append, Meets, Meets, and_assoc]
    apply and_congr_right
    intro _
    simp only [ih, exec_cons_eq_ok]
    constructor
    · intro h
      refine ⟨fun t ht => (h t ht).1, ?_⟩
      rintro t ⟨u, hu, ht⟩
      exact (h u hu).2 t ht
    · rintro ⟨hl, hm⟩ t ht
      exact ⟨hl t ht, fun u hu => hm u ⟨t, ht, hu⟩⟩

/-- Every step of a run meets `C` exactly if the last step of every prefix does. -/
theorem meets_iff_forall_initial :
  Meets step C l s ↔ ∀ l' a t, l' ++ [a] <+: l → exec step l' s = .ok t → C a t
  := by
  induction l using List.reverseRecOn with
  | nil =>
    constructor
    · intro _ l' a t hpre
      simp at hpre
    · intro _
      trivial
  | append_singleton l b ih =>
    rw [meets_append, ih]
    constructor
    · rintro ⟨hl, hb⟩ l' a t hpre hrun
      rcases prefix_concat_iff.mp hpre with heq | hpre
      · obtain ⟨rfl, hab⟩ := append_inj' heq rfl
        cases hab
        exact (hb t hrun).1
      · exact hl l' a t hpre hrun
    · intro h
      refine ⟨fun l' a t hpre => h l' a t (hpre.trans (prefix_append l [b])), ?_⟩
      intro t ht
      exact ⟨h l b t prefix_rfl ht, fun _ _ => trivial⟩

/-- Executing does not end in the error `e` exactly when no step on the way does. -/
theorem exec_ne_error_iff {e : ε} :
  exec step l s ≠ .error e
    ↔ ∀ l' a t, l' ++ [a] <+: l → exec step l' s = .ok t → step a t ≠ .error e
  := by
  rw [← meets_iff_forall_initial (C := fun a t => step a t ≠ .error e)]
  induction l generalizing s with
  | nil => simp [exec, Meets]
  | cons a l ih =>
    rw [exec, Meets]
    cases step a s with
    | error f => simp
    | ok t => simp [ih]

theorem meets_of_forall {A : α → Prop} (h : ∀ a ∈ l, A a) (s : σ) :
  Meets step (fun a _ => A a) l s
  := by
  rw [meets_iff_forall_initial]
  intro l' a t hpre _
  exact h a (hpre.subset (by simp))

/-- Every step of the labels succeeds, and every state on the way has `P`. -/
def Always (step : α → σ → Except ε σ) (P : σ → Prop) : List α → σ → Prop
  | [], s => P s
  | a :: l, s => P s ∧ ∃ t, step a s = .ok t ∧ Always step P l t

theorem Always.start (h : Always step P l s) :
  P s
  := by
  cases l with
  | nil => apply h
  | cons a l => apply h.1

theorem Always.mono (hPQ : ∀ s, P s → Q s) (h : Always step P l s) :
  Always step Q l s
  := by
  induction l generalizing s with
  | nil => apply hPQ s h
  | cons a l ih =>
    obtain ⟨hs, t, ht, halways⟩ := h
    exact ⟨hPQ s hs, t, ht, ih halways⟩

/-- If every step that meets `A` succeeds and keeps `P`, then `P` holds all along a run whose steps
meet `A`. -/
theorem always_of_meets (hstep : ∀ s a, P s → A a s → ∃ t, step a s = .ok t ∧ P t) (hs : P s)
    (hl : Meets step A l s) :
  Always step P l s
  := by
  induction l generalizing s with
  | nil => apply hs
  | cons a l ih =>
    obtain ⟨t, ht, hPt⟩ := hstep s a hs hl.1
    exact ⟨hs, t, ht, ih hPt (hl.2 t ht)⟩

/-- If every label of a run makes a step that keeps `P`, then `P` holds all along the run. -/
theorem always_of_forall {A : α → Prop} (hstep : ∀ s a, P s → A a → ∃ t, step a s = .ok t ∧ P t)
    (hs : P s) (hl : ∀ a ∈ l, A a) :
  Always step P l s
  := by
  apply always_of_meets (A := fun a _ => A a) hstep hs
  apply meets_of_forall hl

/-- A run all along which `P` holds leads to a state with `P`. -/
theorem Always.exec (h : Always step P l s) :
  ∃ t, Lib.exec step l s = .ok t ∧ P t
  := by
  induction l generalizing s with
  | nil => exact ⟨s, rfl, h⟩
  | cons a l ih =>
    obtain ⟨-, t, ht, halways⟩ := h
    rw [Lib.exec, ht]
    apply ih halways

/-- If every step that meets `A` and succeeds keeps `P`, then a run whose steps meet `A` and that
does not fail leads to a state with `P`. -/
theorem Meets.invariant (hstep : ∀ s a t, P s → A a s → step a s = .ok t → P t) (hs : P s)
    (hl : Meets step A l s) (hrun : exec step l s = .ok t) :
  P t
  := by
  induction l generalizing s with
  | nil =>
    cases hrun
    apply hs
  | cons a l ih =>
    obtain ⟨u, ha, hrun⟩ := exec_cons_eq_ok.mp hrun
    apply ih (hstep s a u hs hl.1 ha) (hl.2 u ha) hrun

/-- Let `Q` be kept by the steps that keep `P`. If a step that is allowed succeeds and keeps `P`
exactly when it meets `C`, then every step of a run succeeds and keeps `P` exactly when every step
meets `C`. -/
theorem always_iff_meets_under
    (hstep : ∀ s a, Q s → P s → A a s → ((∃ t, step a s = .ok t ∧ P t) ↔ C a s))
    (hkeep : ∀ s a t, Q s → P s → A a s → step a s = .ok t → P t → Q t) (hQ : Q s) (hP : P s)
    (hl : Meets step A l s) :
  Always step P l s ↔ Meets step C l s
  := by
  induction l generalizing s with
  | nil =>
    exact iff_of_true hP trivial
  | cons a l ih =>
    constructor
    · rintro ⟨-, t, ht, halways⟩
      have hPt := halways.start
      refine ⟨(hstep s a hQ hP hl.1).mp ⟨t, ht, hPt⟩, ?_⟩
      intro t' ht'
      cases ht.symm.trans ht'
      exact (ih (hkeep s a t hQ hP hl.1 ht hPt) hPt (hl.2 t ht)).mp halways
    · rintro ⟨hC, hmeets⟩
      obtain ⟨t, ht, hPt⟩ := (hstep s a hQ hP hl.1).mpr hC
      have hQt := hkeep s a t hQ hP hl.1 ht hPt
      exact ⟨hP, t, ht, (ih hQt hPt (hl.2 t ht)).mpr (hmeets t ht)⟩

/-- If a step that is allowed succeeds and keeps `P` exactly when it meets `C`, then every step of a
run succeeds and keeps `P` exactly when every step meets `C`. -/
theorem always_iff_meets (hstep : ∀ s a, P s → A a s → ((∃ t, step a s = .ok t ∧ P t) ↔ C a s))
    (hs : P s) (hl : Meets step A l s) :
  Always step P l s ↔ Meets step C l s
  := by
  apply always_iff_meets_under (Q := fun _ => True) _ _ trivial hs hl
  · intro s a _ hP hA
    exact hstep s a hP hA
  · intros
    trivial

/-- Two conditions that agree as long as `Q` holds, which the allowed steps that meet the first
condition keep, are met by the same runs. -/
theorem meets_iff_meets {D : α → σ → Prop} (hiff : ∀ s a, Q s → A a s → (C a s ↔ D a s))
    (hkeep : ∀ s a t, Q s → A a s → C a s → step a s = .ok t → Q t) (hQ : Q s)
    (hl : Meets step A l s) :
  Meets step C l s ↔ Meets step D l s
  := by
  induction l generalizing s with
  | nil => rfl
  | cons a l ih =>
    rw [Meets, Meets, ← hiff s a hQ hl.1]
    apply and_congr_right
    intro hC
    apply forall_congr'
    intro t
    apply imp_congr_right
    intro ht
    apply ih (hkeep s a t hQ hl.1 hC ht) (hl.2 t ht)

end Exec

/-! ### Two runs -/

section Unwinding

variable {on : α → Bool} {S : σ → σ → Prop} {M N : α → α → Prop} {m : List α}

variable {l : List α}

/-- Two lists have the same image exactly when their elements pairwise do. -/
theorem map_eq_map_iff_forall₂ {β : Type*} {f : α → β} :
  l.map f = m.map f ↔ List.Forall₂ (fun a b => f a = f b) l m
  := by
  rw [← forall₂_eq_eq_eq, forall₂_map_left_iff, forall₂_map_right_iff]

private theorem Run.invisible (hleft : ∀ s a t u, on a = false → R s a t → S s u → S t u)
    {s t u : σ} (h : Run R s l t) (hl : l.filter on = []) (hS : S s u) :
  S t u
  := by
  induction h with
  | nil => apply hS
  | @cons s t _ a l hstep _ ih =>
    have ha : on a = false := by
      rw [List.filter_eq_nil_iff] at hl
      simpa using hl a (List.mem_cons_self ..)
    apply ih
    · simpa [ha] using hl
    · apply hleft s a t u ha hstep hS

/-- A run whose visible labels start with `b` takes invisible steps up to a step labelled
`b`, from where the other visible labels remain. -/
theorem Run.split_visible {b : α} (h : Run R s l t) (hl : l.filter on = b :: m) :
  ∃ p s' s'' q, p.filter on = [] ∧ q.filter on = m ∧ on b = true
    ∧ Run R s p s' ∧ R s' b s'' ∧ Run R s'' q t
  := by
  obtain ⟨p, q, rfl, hp, hb, hq⟩ := filter_eq_cons_iff.mp hl
  obtain ⟨s', hsp, hrest⟩ := h.of_append
  cases hrest with
  | @cons _ s'' _ _ _ hstep hrun =>
    use p, s', s'', q
    refine ⟨?_, hq, hb, hsp, hstep, hrun⟩
    rw [filter_eq_nil_iff]
    apply hp

/-- Take two runs from related states whose visible labels match pairwise. If invisible
steps on either side keep the relation, and matching visible steps keep it and relate their
labels by `N`, then the runs end in related states and their visible labels are pairwise
related by `N`. -/
theorem Run.unwinding (hsymm : ∀ s t, S s t → S t s)
    (hleft : ∀ s a t u, on a = false → R s a t → S s u → S t u)
    (hboth : ∀ s a t s' a' t', on a = true → M a a' →
      R s a t → R s' a' t' → S s s' → S t t' ∧ N a a') {s₁ t₁ s₂ t₂ : σ} {l₁ l₂ : List α}
    (h₁ : Run R s₁ l₁ t₁) (h₂ : Run R s₂ l₂ t₂) (hS : S s₁ s₂)
    (hM : List.Forall₂ M (l₁.filter on) (l₂.filter on)) :
  S t₁ t₂ ∧ List.Forall₂ N (l₁.filter on) (l₂.filter on)
  := by
  generalize hv : l₁.filter on = v at hM ⊢
  generalize hw : l₂.filter on = w at hM ⊢
  induction hM generalizing s₁ s₂ l₁ l₂ with
  | nil =>
    have h := Run.invisible hleft h₁ hv hS
    use hsymm _ _ (Run.invisible hleft h₂ hw (hsymm _ _ h))
    apply List.Forall₂.nil
  | @cons a b _ _ hab _ ih =>
    obtain ⟨p, s, s', q, hp, hq, ha, hsp, hss', hrest⟩ := h₁.split_visible hv
    obtain ⟨p', r, r', q', hp', hq', -, hrp, hrr', hrest'⟩ := h₂.split_visible hw
    have hsr := Run.invisible hleft hrp hp' (hsymm _ _ (Run.invisible hleft hsp hp hS))
    obtain ⟨hS', hN⟩ := hboth s a s' r b r' ha hab hss' hrr' (hsymm _ _ hsr)
    obtain ⟨hend, hlabels⟩ := ih hrest hrest' hS' hq hq'
    use hend
    apply List.Forall₂.cons hN hlabels

end Unwinding

end Lib
