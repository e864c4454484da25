import Mathlib.Data.Nat.Bitwise

/-!
# Fields of a bit vector

A field is read by a shift to the right and a mask, and written by a mask and a shift to the left. The
lemmas turn both into arithmetic: a vector that is put together from fields is their sum in a mixed
radix, and a field is a quotient and a remainder. The copies of the sign that an arithmetic shift brings
in are masked off (`toNat_field`), so that a field of a signed word is never negative.

With these, laws between fields are laws of linear arithmetic.
-/

namespace Rbml.Lib

variable {n k m : Nat}

/-- The mask of the `m` low bits -/
def lowMask (n m : Nat) : BitVec n := BitVec.ofNat n (2 ^ m - 1)

theorem toNat_lowMask (hm : m ≤ n) : (lowMask n m).toNat = 2 ^ m - 1 := by
  have hle : 2 ^ m ≤ 2 ^ n := Nat.pow_le_pow_right (by omega) hm
  have hpos := Nat.two_pow_pos m
  rw [lowMask, BitVec.toNat_ofNat, Nat.mod_eq_of_lt (by omega)]

/-- Masking keeps the remainder. -/
theorem toNat_and_lowMask (w : BitVec n) (hm : m ≤ n) :
    (w &&& lowMask n m).toNat = w.toNat % 2 ^ m := by
  rw [BitVec.toNat_and, toNat_lowMask hm, Nat.and_two_pow_sub_one_eq_mod]

theorem getElem_lowMask {i : Nat} (hi : i < n) : (lowMask n m)[i] = decide (i < m) := by
  rw [← BitVec.getLsbD_eq_getElem, lowMask, BitVec.getLsbD_ofNat, Nat.testBit_two_pow_sub_one,
    decide_eq_true hi, Bool.true_and]

/-- Below the mask an arithmetic shift is a shift of an unsigned number. -/
theorem sshiftRight_and_lowMask (w : BitVec n) (h : k + m ≤ n) :
    w.sshiftRight k &&& lowMask n m = w >>> k &&& lowMask n m := by
  ext i hi
  rw [BitVec.getElem_and, BitVec.getElem_and, getElem_lowMask]
  by_cases hm : i < m
  · have hbit : (w.sshiftRight k)[i] = (w >>> k)[i] := by
      have hin : k + i < n := by omega
      rw [BitVec.getElem_sshiftRight, dif_pos hin, BitVec.getElem_ushiftRight,
        BitVec.getLsbD_eq_getElem hin]
    rw [hbit]
  · rw [decide_eq_false hm, Bool.and_false, Bool.and_false]

/-- What is read of a field -/
theorem toNat_field (w : BitVec n) (h : k + m ≤ n) :
    (w.sshiftRight k &&& lowMask n m).toNat = w.toNat / 2 ^ k % 2 ^ m := by
  rw [sshiftRight_and_lowMask w h, toNat_and_lowMask _ (by omega), BitVec.toNat_ushiftRight,
    Nat.shiftRight_eq_div_pow]

/-- What is written of a field -/
theorem toNat_place (x : BitVec n) (h : k + m ≤ n) :
    ((x &&& lowMask n m) <<< k).toNat = x.toNat % 2 ^ m * 2 ^ k := by
  have hfits : x.toNat % 2 ^ m * 2 ^ k < 2 ^ n := by
    calc x.toNat % 2 ^ m * 2 ^ k
        < 2 ^ m * 2 ^ k := Nat.mul_lt_mul_of_pos_right (Nat.mod_lt _ (Nat.two_pow_pos m))
          (Nat.two_pow_pos k)
      _ = 2 ^ (k + m) := by rw [← Nat.pow_add, Nat.add_comm]
      _ ≤ 2 ^ n := Nat.pow_le_pow_right (by omega) h
  rw [BitVec.toNat_shiftLeft, toNat_and_lowMask _ (by omega), Nat.shiftLeft_eq,
    Nat.mod_eq_of_lt hfits]

/-- Parts that do not overlap are added. -/
theorem toNat_or_of_dvd {high low : BitVec n} (hhigh : 2 ^ k ∣ high.toNat)
    (hlow : low.toNat < 2 ^ k) : (high ||| low).toNat = high.toNat + low.toNat := by
  obtain ⟨a, ha⟩ := hhigh
  rw [BitVec.toNat_or, ha, Nat.two_pow_add_eq_or_of_lt hlow]

/-- Fields that stand side by side -/
theorem toNat_append (high : BitVec n) (low : BitVec m) :
    (high ++ low).toNat = high.toNat * 2 ^ m + low.toNat := by
  rw [BitVec.toNat_append, ← Nat.shiftLeft_add_eq_or_of_lt low.isLt, Nat.shiftLeft_eq]

/-- One of the fields that stand side by side -/
theorem toNat_slice (w : BitVec n) (k m : Nat) :
    (w.extractLsb' k m).toNat = w.toNat / 2 ^ k % 2 ^ m := by
  rw [BitVec.extractLsb'_toNat, Nat.shiftRight_eq_div_pow]

/-- Clearing the low bits shifts them out. -/
theorem and_not_lowMask (w : BitVec n) : w &&& ~~~lowMask n m = w >>> m <<< m := by
  ext i hi
  rw [BitVec.getElem_and, BitVec.getElem_not, getElem_lowMask, BitVec.getElem_shiftLeft]
  by_cases hm : i < m
  · rw [decide_eq_true hm, Bool.not_true, Bool.and_false, Bool.false_and]
  · have hback : m + (i - m) = i := by omega
    rw [decide_eq_false hm, Bool.not_false, Bool.and_true, Bool.true_and, BitVec.getElem_ushiftRight,
      hback, BitVec.getLsbD_eq_getElem hi]

theorem toNat_and_not_lowMask (w : BitVec n) (m : Nat) :
    (w &&& ~~~lowMask n m).toNat = w.toNat / 2 ^ m * 2 ^ m := by
  have hfits : w.toNat / 2 ^ m * 2 ^ m < 2 ^ n :=
    Nat.lt_of_le_of_lt (Nat.div_mul_le_self _ _) w.isLt
  rw [and_not_lowMask, BitVec.toNat_shiftLeft, BitVec.toNat_ushiftRight, Nat.shiftRight_eq_div_pow,
    Nat.shiftLeft_eq, Nat.mod_eq_of_lt hfits]

/-- A masked number is its remainder, also if it is negative. -/
theorem toInt_and_lowMask (x : Int) (hm : m < n) :
    (BitVec.ofInt n x &&& lowMask n m).toInt = x % 2 ^ m := by
  have hdvd : (2 ^ m : Int) ∣ 2 ^ n := pow_dvd_pow 2 (Nat.le_of_lt hm)
  have hnonneg : 0 ≤ x % 2 ^ n := Int.emod_nonneg _ (Int.pow_ne_zero (by decide))
  have hnat : (BitVec.ofInt n x &&& lowMask n m).toNat = (x % 2 ^ n).toNat % 2 ^ m := by
    rw [toNat_and_lowMask _ (Nat.le_of_lt hm), BitVec.toNat_ofInt]
    norm_cast
  have hsmall : 2 * (BitVec.ofInt n x &&& lowMask n m).toNat < 2 ^ n := by
    have hlt : (x % 2 ^ n).toNat % 2 ^ m < 2 ^ m := Nat.mod_lt _ (Nat.two_pow_pos m)
    have hle : 2 ^ (m + 1) ≤ 2 ^ n := Nat.pow_le_pow_right (by omega) hm
    rw [Nat.pow_succ] at hle
    omega
  rw [BitVec.toInt_eq_toNat_of_lt hsmall, hnat, Int.natCast_mod, Int.toNat_of_nonneg hnonneg,
    Int.natCast_pow]
  exact Int.emod_emod_of_dvd x hdvd

end Rbml.Lib
