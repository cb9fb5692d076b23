import Mathlib.Tactic

/-!
# Programs with state and faults

Rules for programs in `EStateM ε σ`, which read and write a state `σ` and can stop with a
fault `ε`, keeping the state they have reached.

* `Keeps P x`: from a state with `P`, the program `x` ends in a state with `P`, whether it
  returns or stops.
* `Returns P x Q`: from a state with `P`, the program `x` returns, with a result and a state
  that have `Q`.

There is one rule of each kind for every way to build a program.
-/

namespace Lib

open List

variable {ε σ α β : Type} {f : α → EStateM ε σ β}

/-- The state a program ends in, whether it returns or stops. -/
def final (x : EStateM ε σ α) (s : σ) : σ :=
  match x s with
  | .ok _ t => t
  | .error _ t => t

/-- The program keeps `P`. -/
structure Keeps (P : σ → Prop) (x : EStateM ε σ α) : Prop where
  keeps : ∀ s, P s → P (final x s)

/-- From a state with `P` the program returns a result and a state that have `Q`. -/
structure Returns (P : σ → Prop) (x : EStateM ε σ α) (Q : α → σ → Prop) : Prop where
  returns : ∀ s, P s → ∃ a t, x s = .ok a t ∧ Q a t

variable {x : EStateM ε σ α} {s t : σ} {a : α}

theorem final_of_ok (h : x s = .ok a t) :
  final x s = t
  := by
  rw [final, h]

@[simp]
theorem final_modify_bind (f : σ → σ) (g : Unit → EStateM ε σ α) (s : σ) :
  final (modify f >>= g) s = final (g ()) (f s)
  := rfl

@[simp]
theorem final_get_bind (g : σ → EStateM ε σ α) (s : σ) :
  final (get >>= g) s = final (g s) s
  := rfl

theorem get_bind_apply (g : σ → EStateM ε σ α) (s : σ) :
  (get >>= g) s = g s s
  := rfl

theorem modify_bind_apply (f : σ → σ) (g : Unit → EStateM ε σ α) (s : σ) :
  (modify f >>= g) s = g () (f s)
  := rfl

theorem bind_apply (x : EStateM ε σ α) (f : α → EStateM ε σ β) (s : σ) :
  (x >>= f) s
    = match x s with
      | .ok a t => f a t
      | .error e t => .error e t
  := rfl

theorem bind_of_ok (h : x s = .ok a t) (f : α → EStateM ε σ β) :
  (x >>= f) s = f a t
  := by
  rw [bind_apply, h]

/-- A program that returns goes through what its first part returns. -/
theorem ok_of_bind {u : σ} {b : β} (h : (x >>= f) s = .ok b u) :
  ∃ a t, x s = .ok a t ∧ f a t = .ok b u
  := by
  rw [bind_apply] at h
  cases hx : x s with
  | ok a t =>
    rw [hx] at h
    exact ⟨a, t, rfl, h⟩
  | error e t =>
    rw [hx] at h
    cases h

theorem final_bind_of_ok (h : x s = .ok a t) (f : α → EStateM ε σ β) :
  final (x >>= f) s = final (f a) t
  := by
  rw [final, bind_of_ok h]
  rfl

namespace Keeps

variable {P : σ → Prop}

theorem pure (a : α) :
  Keeps P (Pure.pure a : EStateM ε σ α)
  := ⟨fun _ h => h⟩

theorem throw (e : ε) :
  Keeps P (throw e : EStateM ε σ α)
  := ⟨fun _ h => h⟩

theorem get :
  Keeps P (MonadState.get : EStateM ε σ σ)
  := ⟨fun _ h => h⟩

theorem modify {f : σ → σ} (hf : ∀ s, P s → P (f s)) :
  Keeps P (modify f : EStateM ε σ Unit)
  := ⟨hf⟩

theorem bind (hx : Keeps P x) (hf : ∀ a, Keeps P (f a)) :
  Keeps P (x >>= f)
  := by
  constructor
  intro s hs
  have ht := hx.keeps s hs
  rw [final] at ht ⊢
  rw [bind_apply]
  cases h : x s with
  | ok a t =>
    rw [h] at ht
    apply (hf a).keeps t ht
  | error e t =>
    rw [h] at ht
    apply ht

/-- A program that first reads the state may use that it has `P`. -/
theorem get_bind {f : σ → EStateM ε σ β} (hf : ∀ s, P s → P (final (f s) s)) :
  Keeps P (MonadState.get >>= f)
  := ⟨hf⟩

theorem ite {c : Prop} [Decidable c] {y : EStateM ε σ α} (hx : Keeps P x) (hy : Keeps P y) :
  Keeps P (if c then x else y)
  := by
  split_ifs
  · apply hx
  · apply hy

end Keeps

namespace Returns

variable {P R : σ → Prop} {Q : α → σ → Prop} {T : β → σ → Prop}

theorem pure (h : ∀ s, P s → Q a s) :
  Returns P (Pure.pure a : EStateM ε σ α) Q
  := ⟨fun s hs => ⟨a, s, rfl, h s hs⟩⟩

theorem modify {f : σ → σ} {Q : Unit → σ → Prop} (hf : ∀ s, P s → Q () (f s)) :
  Returns P (modify f : EStateM ε σ Unit) Q
  := ⟨fun s hs => ⟨(), f s, rfl, hf s hs⟩⟩

theorem bind (hx : Returns P x Q) (hf : ∀ a, Returns (Q a) (f a) T) :
  Returns P (x >>= f) T
  := by
  constructor
  intro s hs
  obtain ⟨a, t, hat, hq⟩ := hx.returns s hs
  obtain ⟨b, u, hbu, ht⟩ := (hf a).returns t hq
  refine ⟨b, u, ?_, ht⟩
  rw [bind_apply, hat]
  apply hbu

/-- The states before may be fewer, and the results and states after may be more. -/
theorem weaken {Q' : α → σ → Prop} (hx : Returns R x Q) (hP : ∀ s, P s → R s)
    (hQ : ∀ a s, Q a s → Q' a s) :
  Returns P x Q'
  := by
  constructor
  intro s hs
  obtain ⟨a, t, hat, hq⟩ := hx.returns s (hP s hs)
  exact ⟨a, t, hat, hQ a t hq⟩

/-- A loop over a list, with an invariant that says what has been done for the elements so
far. -/
theorem forM {f : α → EStateM ε σ Unit} {I : List α → σ → Prop} {l : List α}
    (hf : ∀ m, ∀ a ∈ l, Returns (I m) (f a) fun _ => I (m ++ [a])) :
  Returns (I []) (ForM.forM l f) fun _ => I l
  := by
  have hloop (l' m : List α) (hl' : l' ⊆ l) :
      Returns (I m) (ForM.forM l' f) fun _ => I (m ++ l') := by
    induction l' generalizing m with
    | nil =>
      rw [append_nil]
      apply Returns.pure
      intro s hs
      apply hs
    | cons a l' ih =>
      apply Returns.bind (hf m a (hl' (mem_cons_self ..)))
      intro _
      have h := ih (m ++ [a]) (subset_of_cons_subset hl')
      rw [append_assoc, singleton_append] at h
      apply h
  apply hloop l [] (List.Subset.refl l)

/-- A loop over the numbers below `n`, with an invariant that says what has been done so
far. -/
theorem forM_range {f : ℕ → EStateM ε σ Unit} {I : ℕ → σ → Prop} {n : ℕ}
    (hf : ∀ i < n, Returns (I i) (f i) fun _ => I (i + 1)) :
  Returns (I 0) (ForM.forM (List.range n) f) fun _ => I n
  := by
  induction n with
  | zero =>
    apply Returns.pure
    intro s hs
    apply hs
  | succ n ih =>
    rw [range_succ, forM_append, forM_cons, forM_nil]
    apply Returns.bind (ih fun i hi => hf i (by omega))
    intro _
    apply Returns.bind (hf n (by omega))
    intro _
    apply Returns.pure
    intro s hs
    apply hs

end Returns

end Lib
