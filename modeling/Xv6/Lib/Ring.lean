import Mathlib.Data.Nat.ModEq
import Mathlib.Data.BitVec

/-!
# Ring buffers with free-running counters

Two counters of `w` bits count what has been read and what has been written, and run on modulo
`2 ^ w`. The buffer has `cap` cells, where `cap` divides `2 ^ w`, and cell `n % cap` holds item `n`.
`contents` lists what is in the buffer, in order.
-/

namespace Xv6.Ring

variable {α : Type} {w cap : Nat} {data : Nat → α} {r t : BitVec w}

/-- How many items are in the buffer. -/
def count (r t : BitVec w) : Nat := (t - r).toNat

/-- The items in the buffer. -/
def contents (cap : Nat) (data : Nat → α) (r t : BitVec w) : List α :=
  (List.range (count r t)).map fun k => data ((r.toNat + k) % cap)

theorem toNat_one (h : 1 < 2 ^ w) : (1 : BitVec w).toNat = 1 := by
  show (1#w).toNat = 1
  rw [BitVec.toNat_ofNat, Nat.mod_eq_of_lt h]

theorem count_zero_iff : count r t = 0 ↔ r = t := by
  constructor
  · intro h
    have hzero : t - r = 0#w := BitVec.eq_of_toNat_eq h
    exact (sub_eq_zero.mp hzero).symm
  · rintro rfl
    simp [count]

/-- The write counter is `count` steps ahead of the read counter. -/
theorem ahead (r t : BitVec w) : (r.toNat + count r t) % 2 ^ w = t.toNat := by
  rw [count, ← BitVec.toNat_add, add_sub_cancel]

theorem count_push (h : count r t + 1 < 2 ^ w) : count r (t + 1) = count r t + 1 := by
  rw [count, add_sub_right_comm, BitVec.toNat_add, toNat_one (by omega)]
  exact Nat.mod_eq_of_lt h

theorem count_pop (h : r ≠ t) : count (r + 1) t + 1 = count r t := by
  have hpos : 0 < count r t := Nat.pos_of_ne_zero fun hzero => h (count_zero_iff.mp hzero)
  have hlt : count r t < 2 ^ w := (t - r).isLt
  have hone : (1 : BitVec w).toNat = 1 := toNat_one (by omega)
  have hle : 1 ≤ t - r := by
    rw [BitVec.le_def, hone]
    exact hpos
  rw [count, sub_add_eq_sub_sub, BitVec.toNat_sub_of_le hle, hone]
  exact Nat.sub_add_cancel hpos

section Cells

variable (hcap : cap ∣ 2 ^ w)

include hcap

theorem cell_ahead (r t : BitVec w) : t.toNat % cap = (r.toNat + count r t) % cap := by
  rw [← ahead r t, Nat.mod_mod_of_dvd _ hcap]

theorem cell_next (hone : 1 < 2 ^ w) (k : Nat) :
    ((r + 1).toNat + k) % cap = (r.toNat + (k + 1)) % cap := by
  have hmod : (r + 1).toNat % cap = (r.toNat + 1) % cap := by
    rw [BitVec.toNat_add, toNat_one hone, Nat.mod_mod_of_dvd _ hcap]
  rw [Nat.add_mod, hmod, ← Nat.add_mod, Nat.add_assoc, Nat.add_comm 1 k]

theorem contents_push (hroom : count r t < cap) (hlt : cap < 2 ^ w) (x : α) :
    contents cap (Function.update data (t.toNat % cap) x) r (t + 1) =
      contents cap data r t ++ [x] := by
  rw [contents, count_push (by omega), List.range_succ, List.map_append, List.map_singleton,
    cell_ahead hcap r t, Function.update_self, contents]
  congr 1
  refine List.map_congr_left fun k hk => Function.update_of_ne ?_ _ _
  have hk' := List.mem_range.mp hk
  intro hsame
  have hdvd : cap ∣ count r t - k := by
    have hmod : r.toNat + k ≡ r.toNat + count r t [MOD cap] := hsame
    exact (Nat.modEq_iff_dvd' hk'.le).mp (Nat.ModEq.add_left_cancel' _ hmod)
  exact absurd (Nat.le_of_dvd (by omega) hdvd) (by omega)

theorem contents_pop (h : r ≠ t) :
    contents cap data r t = data (r.toNat % cap) :: contents cap data (r + 1) t := by
  have hone : 1 < 2 ^ w := by
    have hlt : count r t < 2 ^ w := (t - r).isLt
    have hpos := count_pop h
    omega
  rw [contents, ← count_pop h, List.range_succ_eq_map, List.map_cons, List.map_map, contents]
  refine congrArg _ (List.map_congr_left fun k _ => ?_)
  show data ((r.toNat + (k + 1)) % cap) = data (((r + 1).toNat + k) % cap)
  rw [cell_next hcap hone]

end Cells

end Xv6.Ring
