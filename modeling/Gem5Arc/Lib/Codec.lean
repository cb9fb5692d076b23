import Gem5Arc.Lib.Program

/-!
# Codecs that share a state

An encoder and a decoder that adapt to what they have seen: each keeps a state, and the encoding
of a symbol depends on the state. If from each state the decoder undoes what the encoder does and
both move to the same state, then they run in lockstep: a whole sequence is decoded to what was
encoded, and before each symbol the two states are the same.
-/

namespace Lib

open List

variable {ε σ α β : Type} {b : β}

/-- From each state with `I k`, for `k < n`, the encoder and the decoder undo each other and move
to the same state, which has `I (k + 1)`. -/
structure Lockstep (encode : α → EStateM ε σ β) (decode : β → EStateM ε σ α)
    (I : ℕ → σ → Prop) (n : ℕ) : Prop where
  step : ∀ k < n, ∀ s, I k s → ∀ a,
    ∃ b t, encode a s = .ok b t ∧ decode b s = .ok a t ∧ I (k + 1) t

variable {f : α → EStateM ε σ β} {a : α} {as : List α} {s t : σ}

theorem mapM_cons_of_ok {u : σ} {bs : List β} (ha : f a s = .ok b t)
    (has : as.mapM f t = .ok bs u) :
  (a :: as).mapM f s = .ok (b :: bs) u
  := by
  rw [mapM_cons, bind_of_ok ha, bind_of_ok has]
  rfl

theorem final_mapM_cons (as : List α) (ha : f a s = .ok b t) :
  final ((a :: as).mapM f) s = final (as.mapM f) t
  := by
  rw [mapM_cons, final_bind_of_ok ha, final, final, bind_apply]
  cases as.mapM f t with
  | ok bs u => rfl
  | error e u => rfl

theorem map_of_ok {x : EStateM ε σ α} (h : x s = .ok a t) (f : α → β) :
  (f <$> x) s = .ok (f a) t
  := by
  rw [map_eq_pure_bind, bind_of_ok h]
  rfl

theorem final_map (f : α → β) (x : EStateM ε σ α) (s : σ) :
  final (f <$> x) s = final x s
  := by
  rw [map_eq_pure_bind, final, final, bind_apply]
  cases x s with
  | ok a t => rfl
  | error e t => rfl

/-- A loop depends only on what it does for each element. -/
theorem mapM_eq_of_map_eq {γ : Type} {g : γ → EStateM ε σ β} {cs : List γ}
    (h : as.map f = cs.map g) :
  as.mapM f = cs.mapM g
  := by
  have hf : (as.map f).mapM id = as.mapM f := mapM_map
  have hg : (cs.map g).mapM id = cs.mapM g := mapM_map
  rw [← hf, ← hg, h]

namespace Lockstep

variable {encode : α → EStateM ε σ β} {decode : β → EStateM ε σ α} {I : ℕ → σ → Prop} {n : ℕ}

/-- Runs of the encoder and the decoder in lockstep. -/
theorem run (h : Lockstep encode decode I n) {k : ℕ} (hk : k + as.length ≤ n) (hs : I k s) :
  ∃ bs t, as.mapM encode s = .ok bs t ∧ bs.mapM decode s = .ok as t ∧ I (k + as.length) t
    ∧ ∀ i, final ((as.take i).mapM encode) s = final ((bs.take i).mapM decode) s
  := by
  induction as generalizing k s with
  | nil =>
    refine ⟨[], s, rfl, rfl, hs, ?_⟩
    intro i
    rw [take_nil, take_nil]
    rfl
  | cons a as ih =>
    rw [length_cons] at hk ⊢
    obtain ⟨b, t, hencode, hdecode, ht⟩ := h.step k (by omega) s hs a
    obtain ⟨bs, u, hencodes, hdecodes, hu, hstates⟩ := ih (by omega) ht
    refine ⟨b :: bs, u, mapM_cons_of_ok hencode hencodes, mapM_cons_of_ok hdecode hdecodes, ?_,
      ?_⟩
    · rw [show k + (as.length + 1) = k + 1 + as.length by omega]
      apply hu
    · intro i
      cases i with
      | zero => rfl
      | succ i =>
        rw [take_succ_cons, take_succ_cons, final_mapM_cons _ hencode,
          final_mapM_cons _ hdecode, hstates]

end Lockstep

end Lib
