import Gem5Arc.Lib.Run

/-!
# What has been made and not broken since

A run of a function that may fail is a list of events, each of which is a step with the states
before and after it. `Since M B h` says that an event of the history `h` makes something, and that
no later event breaks it.

If a step shows that something holds after it exactly when the step makes it, or when it held before
and the step does not break it, then it holds at the end of a run exactly when it has been made and
not broken since (`holds_iff_since`).
-/

namespace Lib

open List

universe u v

/-- A step of a run. -/
structure Event (σ : Type u) (α : Type v) where
  before : σ
  label : α
  after : σ

section Since

variable {η : Type u} {M B : η → Prop}

/-- An event makes it, and none of the later events breaks it. -/
def Since (M B : η → Prop) (h : List η) : Prop :=
  ∃ h₁ e h₂, h = h₁ ++ e :: h₂ ∧ M e ∧ ∀ e' ∈ h₂, ¬ B e'

theorem not_since_nil :
  ¬ Since M B []
  := by
  rintro ⟨h₁, e, h₂, h, -⟩
  simp at h

variable {h h₁ h₂ : List η} {e : η}

/-- The last element of a list that is split at `e` is `e`, or the last one after it. -/
theorem eq_or_concat_of_append_cons_eq {x : η} (heq : h ++ [x] = h₁ ++ e :: h₂) :
  (h = h₁ ∧ x = e ∧ h₂ = []) ∨ ∃ h₂', h₂ = h₂' ++ [x] ∧ h = h₁ ++ e :: h₂'
  := by
  induction h₂ using reverseRecOn with
  | nil =>
    left
    obtain ⟨hh, hx⟩ := append_inj' heq rfl
    exact ⟨hh, (cons.inj hx).1, rfl⟩
  | append_singleton h₂ y _ =>
    right
    rw [← cons_append, ← append_assoc] at heq
    obtain ⟨hh, hx⟩ := append_inj' heq rfl
    exact ⟨h₂, by rw [(cons.inj hx).1], hh⟩

/-- A list has at most one last element with `P`. -/
theorem last_unique {P : η → Prop} {h₁' h₂' : List η} {e' : η}
    (heq : h₁ ++ e :: h₂ = h₁' ++ e' :: h₂') (he : P e) (he' : P e') (hlast : ∀ x ∈ h₂, ¬ P x)
    (hlast' : ∀ x ∈ h₂', ¬ P x) :
  e = e'
  := by
  rcases append_eq_append_iff.mp heq with ⟨c, -, hc⟩ | ⟨c, -, hc⟩
  · cases c with
    | nil => exact (cons.inj hc).1
    | cons x c =>
      obtain ⟨-, rfl⟩ := cons.inj hc
      exact absurd he' (hlast e' (by simp))
  · cases c with
    | nil => exact (cons.inj hc).1.symm
    | cons x c =>
      obtain ⟨-, rfl⟩ := cons.inj hc
      exact absurd he (hlast' e (by simp))

/-- The last event makes it, or it has been made before and the last event does not break it. -/
theorem since_concat :
  Since M B (h ++ [e]) ↔ M e ∨ (Since M B h ∧ ¬ B e)
  := by
  constructor
  · rintro ⟨h₁, e', h₂, heq, hM, hB⟩
    rcases eq_or_concat_of_append_cons_eq heq with ⟨-, rfl, -⟩ | ⟨h₂', rfl, hh⟩
    · exact .inl hM
    · obtain ⟨hB, he⟩ := forall_mem_append.mp hB
      exact .inr ⟨⟨h₁, e', h₂', hh, hM, hB⟩, he e (mem_singleton_self e)⟩
  · rintro (hM | ⟨⟨h₁, e', h₂, rfl, hM, hB⟩, he⟩)
    · exact ⟨h, e, [], rfl, hM, by simp⟩
    · exact ⟨h₁, e', h₂ ++ [e], by simp, hM,
        forall_mem_append.mpr ⟨hB, forall_mem_singleton.mpr he⟩⟩

end Since

section Events

variable {σ : Type u} {α : Type v} {ε : Type*} {step : α → σ → Except ε σ} {l m : List α}
  {s t : σ} {a : α}

/-- The steps of a run, up to the first error. -/
def events (step : α → σ → Except ε σ) : List α → σ → List (Event σ α)
  | [], _ => []
  | a :: l, s =>
    match step a s with
    | .ok t => ⟨s, a, t⟩ :: events step l t
    | .error _ => []

/-- The steps of a run that goes on after it has reached `t`. -/
theorem events_append (h : exec step l s = .ok t) (m : List α) :
  events step (l ++ m) s = events step l s ++ events step m t
  := by
  induction l generalizing s with
  | nil =>
    cases h
    rfl
  | cons a l ih =>
    obtain ⟨u, ha, h⟩ := exec_cons_eq_ok.mp h
    rw [cons_append, events, events, ha]
    simp only [ih h, cons_append]

theorem events_concat {u : σ} (h : exec step l s = .ok t) (ha : step a t = .ok u) :
  events step (l ++ [a]) s = events step l s ++ [⟨t, a, u⟩]
  := by
  rw [events_append h, events, ha]
  rfl

variable {A : α → σ → Prop}

/-- The events of a run are steps, and meet what its steps meet. -/
theorem Meets.events (h : Meets step A l s) :
  ∀ e ∈ events step l s, A e.label e.before ∧ step e.label e.before = .ok e.after
  := by
  induction l generalizing s with
  | nil =>
    nofun
  | cons a l ih =>
    intro e he
    rw [Lib.events] at he
    cases ha : step a s with
    | error _ =>
      rw [ha] at he
      cases he
    | ok t =>
      rw [ha] at he
      rcases mem_cons.mp he with rfl | he
      · exact ⟨h.1, ha⟩
      · exact ih (h.2 t ha) e he

/-- If a step that is allowed makes `H` hold, or keeps it unless it breaks it, then after a run `H`
holds exactly if it has been made and not been broken since. -/
theorem holds_iff_since {H I : σ → Prop} {M B : Event σ α → Prop}
    (hstep : ∀ s a t, I s → A a s → step a s = .ok t → (H t ↔ M ⟨s, a, t⟩ ∨ (H s ∧ ¬ B ⟨s, a, t⟩)))
    (hkeep : ∀ s a t, I s → A a s → step a s = .ok t → I t) (hI : I s) (hH : ¬ H s)
    (hl : Meets step A l s) (hrun : exec step l s = .ok t) :
  H t ↔ Since M B (events step l s)
  := by
  induction l using reverseRecOn generalizing t with
  | nil =>
    cases hrun
    exact iff_of_false hH not_since_nil
  | append_singleton l a ih =>
    obtain ⟨u, hu, ha⟩ := exec_append_eq_ok.mp hrun
    obtain ⟨hl, hlast⟩ := meets_append.mp hl
    obtain ⟨t', ht', hnil⟩ := exec_cons_eq_ok.mp ha
    cases hnil
    have hIu := hl.invariant hkeep hI hu
    rw [events_concat hu ht', since_concat, ← ih hl hu]
    exact hstep u a t hIu (hlast u hu).1 ht'

end Events

end Lib
