import Mathlib

/-!
# Counting the entries of a table

A reference count is right when it is the number of entries of some table that have a property.
An assignment to one entry changes that number by what the old and the new entry contribute.
-/

namespace Xv6

variable {ι β : Type} [Fintype ι] [DecidableEq ι]

/-- The number of entries with a property, after and before an assignment to one of them. -/
theorem card_update (P : β → Prop) [DecidablePred P] (v : ι → β) (a : ι) (y : β) :
    (Finset.univ.filter fun b => P (Function.update v a y b)).card + (if P (v a) then 1 else 0) =
      (Finset.univ.filter fun b => P (v b)).card + if P y then 1 else 0 := by
  rw [Finset.card_filter, Finset.card_filter, ← Finset.add_sum_erase _ _ (Finset.mem_univ a),
    ← Finset.add_sum_erase _ (fun b => if P (v b) then 1 else 0) (Finset.mem_univ a),
    Function.update_self]
  have hrest : ∑ b ∈ Finset.univ.erase a, (if P (Function.update v a y b) then 1 else 0) =
      ∑ b ∈ Finset.univ.erase a, if P (v b) then 1 else 0 := by
    refine Finset.sum_congr rfl fun b hb => ?_
    rw [Function.update_of_ne (Finset.ne_of_mem_erase hb)]
  omega

end Xv6
