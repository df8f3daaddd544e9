import Xv6.Lib.Bytes

/-!
# Bytes and bits of 64-bit words

A page of memory is read as 512 words or as 4096 bytes. `byteOf` and `withByte` read and write
one byte of a little-endian word. `hasFlag` tests a flag bit; the second half is about words made
of a number above `2^10` and flags below it, the shape of a page table entry.
-/

namespace Xv6

variable {flags low : BitVec 64} {n : Nat}

/-- The value of a 32-bit `int` after an operation with result `i`. -/
def wrap (i : Int) : Int := i.bmod (2 ^ 32)

/-! ## Bytes -/

/-- Byte `k` of a little-endian word. -/
def byteOf (w : BitVec 64) (k : Nat) : Byte := (w >>> (8 * k)).setWidth 8

/-- The word with byte `k` replaced. -/
def withByte (w : BitVec 64) (k : Nat) (b : Byte) : BitVec 64 :=
  (w &&& ~~~ ((255 : BitVec 64) <<< (8 * k))) ||| (b.setWidth 64 <<< (8 * k))

/-- The `n` little-endian bytes of a number. -/
def leBytes : Nat → Nat → List Byte
  | 0, _ => []
  | n + 1, v => BitVec.ofNat 8 v :: leBytes n (v / 256)

theorem leBytes_length (n v : Nat) : (leBytes n v).length = n := by
  induction n generalizing v with
  | zero => rfl
  | succ n ih => rw [leBytes, List.length_cons, ih]

theorem testbit_255 (i : Nat) : (255 : BitVec 64).getLsbD i = decide (i < 8) := by
  by_cases hi : i < 8
  · interval_cases i <;> rfl
  · have hbits : (255 : Nat).testBit i = false :=
      Nat.testBit_lt_two_pow (lt_of_lt_of_le (by decide : 255 < 2 ^ 8)
        (Nat.pow_le_pow_right (by decide) (not_lt.mp hi)))
    simp [BitVec.getLsbD, hbits, hi]

theorem byte_of_with_byte_same (w : BitVec 64) {k : Nat} (b : Byte) (hk : k < 8) :
    byteOf (withByte w k b) k = b := by
  apply BitVec.eq_of_getLsbD_eq
  intro i hi
  have hin : 8 * k + i < 64 := by omega
  have hge : ¬ 8 * k + i < 8 * k := by omega
  simp only [byteOf, withByte, BitVec.getLsbD_setWidth, BitVec.getLsbD_ushiftRight,
    BitVec.getLsbD_or, BitVec.getLsbD_and, BitVec.getLsbD_not, BitVec.getLsbD_shiftLeft,
    testbit_255, Nat.add_sub_cancel_left]
  simp only [hi, hin, hge, decide_true, decide_false, Bool.true_and, Bool.and_true, Bool.not_true,
    Bool.not_false, Bool.and_false, Bool.false_or]
  simp only [show i < 64 by omega, decide_true, Bool.true_and]

theorem byte_of_with_byte_ne (w : BitVec 64) {j k : Nat} (b : Byte) (hjk : j ≠ k) :
    byteOf (withByte w k b) j = byteOf w j := by
  apply BitVec.eq_of_getLsbD_eq
  intro i hi
  simp only [byteOf, withByte, BitVec.getLsbD_setWidth, BitVec.getLsbD_ushiftRight,
    BitVec.getLsbD_or, BitVec.getLsbD_and, BitVec.getLsbD_not, BitVec.getLsbD_shiftLeft,
    testbit_255]
  by_cases hin : 8 * j + i < 64
  · by_cases hlt : 8 * j + i < 8 * k
    · simp only [hlt, hi, hin, decide_true, Bool.not_true, Bool.and_false, Bool.false_and,
        Bool.not_false, Bool.and_true, Bool.or_false]
    · have hge : ¬ (8 * j + i - 8 * k < 8) := by omega
      have hout : b.getLsbD (8 * j + i - 8 * k) = false := BitVec.getLsbD_of_ge _ _ (by omega)
      simp only [hge, hout, hi, hin, decide_true, decide_false, Bool.and_false, Bool.not_false,
        Bool.and_true, Bool.or_false]
  · simp only [hi, hin, BitVec.getLsbD_of_ge w (8 * j + i) (by omega), decide_true, decide_false,
      Bool.false_and, Bool.and_false, Bool.or_false]

/-! ## Flags -/

/-- `w & flag`, as a condition. -/
def hasFlag (w flag : BitVec 64) : Bool := w &&& flag != 0

@[simp] theorem has_flag_zero (flag : BitVec 64) : hasFlag 0 flag = false := by
  simp [hasFlag]

/-- A word with number `n` above ten flag bits. -/
def tagged (n : Nat) (flags : BitVec 64) : BitVec 64 := BitVec.ofNat 64 n <<< 10 ||| flags

theorem tagged_get_low {i : Nat} (hi : i < 10) :
    (tagged n flags).getLsbD i = flags.getLsbD i := by
  simp [tagged, hi]

theorem tagged_get_high (hflags : flags.toNat < 1024) {i : Nat} (hi : 10 ≤ i) :
    (tagged n flags).getLsbD i = (decide (i < 64) && n.testBit (i - 10)) := by
  have hzero : flags.getLsbD i = false :=
    Nat.testBit_lt_two_pow (lt_of_lt_of_le hflags
      ((by decide : 1024 = 2 ^ 10) ▸ Nat.pow_le_pow_right (by decide) hi))
  have hge : ¬ i < 10 := by omega
  simp only [tagged, BitVec.getLsbD_or, BitVec.getLsbD_shiftLeft, BitVec.getLsbD_ofNat, hzero,
    hge, decide_false, Bool.not_false, Bool.and_true, Bool.or_false]
  by_cases hin : i < 64
  · have hn : i - 10 < 64 := by omega
    simp only [hin, hn, decide_true, Bool.true_and]
  · simp only [hin, decide_false, Bool.false_and]

theorem tagged_number (hflags : flags.toNat < 1024) (hn : n < 2 ^ 54) :
    (tagged n flags >>> 10).toNat = n := by
  apply Nat.eq_of_testBit_eq
  intro i
  show (tagged n flags >>> 10).getLsbD i = n.testBit i
  rw [BitVec.getLsbD_ushiftRight, tagged_get_high hflags (by omega)]
  by_cases hin : 10 + i < 64
  · simp [hin]
  · have hout : n.testBit i = false :=
      Nat.testBit_lt_two_pow (lt_of_lt_of_le hn (Nat.pow_le_pow_right (by decide) (by omega)))
    simp [hin, hout]

theorem tagged_and_low (hlow : low.toNat < 1024) :
    tagged n flags &&& low = flags &&& low := by
  apply BitVec.eq_of_getLsbD_eq
  intro i _
  rw [BitVec.getLsbD_and, BitVec.getLsbD_and]
  by_cases hi : i < 10
  · rw [tagged_get_low hi]
  · have hzero : low.getLsbD i = false :=
      Nat.testBit_lt_two_pow (lt_of_lt_of_le hlow
        ((by decide : 1024 = 2 ^ 10) ▸ Nat.pow_le_pow_right (by decide) (by omega)))
    rw [hzero, Bool.and_false, Bool.and_false]

theorem tagged_has_flag (hlow : low.toNat < 1024) :
    hasFlag (tagged n flags) low = hasFlag flags low := by
  rw [hasFlag, hasFlag, tagged_and_low hlow]

theorem tagged_or (n : Nat) (flags low : BitVec 64) :
    tagged n flags ||| low = tagged n (flags ||| low) := by
  rw [tagged, tagged, BitVec.or_assoc]

theorem tagged_and_not (hlow : low.toNat < 1024) :
    tagged n flags &&& ~~~ low = tagged n (flags &&& ~~~ low) := by
  apply BitVec.eq_of_getLsbD_eq
  intro i hi
  have hnot : (~~~ low).getLsbD i = !low.getLsbD i := by simp [hi]
  rw [BitVec.getLsbD_and, hnot]
  by_cases hlt : i < 10
  · rw [tagged_get_low hlt, tagged_get_low hlt, BitVec.getLsbD_and, hnot]
  · have hzero : low.getLsbD i = false :=
      Nat.testBit_lt_two_pow (lt_of_lt_of_le hlow
        ((by decide : 1024 = 2 ^ 10) ▸ Nat.pow_le_pow_right (by decide) (by omega)))
    have hshift : (tagged n (flags &&& ~~~ low)).getLsbD i = (tagged n flags).getLsbD i := by
      simp only [tagged, BitVec.getLsbD_or, BitVec.getLsbD_and, hnot, hzero, Bool.not_false,
        Bool.and_true]
    rw [hshift, hzero, Bool.not_false, Bool.and_true]

end Xv6
