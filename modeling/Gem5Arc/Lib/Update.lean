import Mathlib.Tactic

/-!
# Sums over an updated function

Changing a function at one argument exchanges one summand of a sum over its values.
-/

namespace Lib

/-- The new summand takes the place of the old one. -/
theorem sum_update {ι β M : Type} [Fintype ι] [DecidableEq ι] [AddCommMonoid M] (g : β → M)
    (f : ι → β) (i : ι) (x : β) :
  (∑ j, g (Function.update f i x j)) + g (f i) = (∑ j, g (f j)) + g x
  := by
  have hfun := funext (Function.apply_update (fun _ => g) f i x)
  rw [hfun, Finset.sum_update_of_mem (Finset.mem_univ i),
    Finset.sum_eq_add_sum_sdiff_singleton_of_mem (Finset.mem_univ i) (fun j => g (f j))]
  rw [add_comm (g x), add_right_comm, add_comm (g (f i))]

end Lib
