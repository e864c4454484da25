import Mathlib.Algebra.BigOperators.Group.List.Basic
import Mathlib.Algebra.Order.Ring.Int
import Mathlib.Logic.Function.Iterate

/-!
# Signed words

A word of `w` bits is read as a signed number with `toInt`. An operation on words is the operation on
numbers reduced to the word, and the two agree on the numbers that the word can hold (`FitsSigned`).

A program that tests for overflow before it adds or multiplies cannot form the result. It compares an
operand with the room that the other leaves, which is a difference for a sum and a truncated quotient
for a product. The guard lemmas say what these comparisons mean for the exact result. The quotient of
two negative numbers is the one that is not exact: it tells how often the factor fits the range, so
that the comparison is about the next multiple.
-/

namespace Rbml.Lib

variable {w : Nat}

/-- `i` is a signed number of `w` bits. -/
def FitsSigned (w : Nat) (i : Int) : Prop := -2 ^ (w - 1) ≤ i ∧ i < 2 ^ (w - 1)

instance (w : Nat) (i : Int) : Decidable (FitsSigned w i) := inferInstanceAs (Decidable (_ ∧ _))

theorem fitsSigned_toInt (a : BitVec w) : FitsSigned w a.toInt := ⟨a.le_toInt, BitVec.toInt_lt⟩

theorem toInt_ofInt_of_fits (hw : 0 < w) {i : Int} (h : FitsSigned w i) :
    (BitVec.ofInt w i).toInt = i :=
  BitVec.toInt_ofInt_eq_self hw h.1 h.2

theorem add_eq_ofInt (a b : BitVec w) : a + b = BitVec.ofInt w (a.toInt + b.toInt) := by
  rw [BitVec.ofInt_add, BitVec.ofInt_toInt, BitVec.ofInt_toInt]

theorem mul_eq_ofInt (a b : BitVec w) : a * b = BitVec.ofInt w (a.toInt * b.toInt) := by
  rw [BitVec.ofInt_mul, BitVec.ofInt_toInt, BitVec.ofInt_toInt]

theorem sub_eq_ofInt (a b : BitVec w) : a - b = BitVec.ofInt w (a.toInt - b.toInt) := by
  apply BitVec.eq_of_toInt_eq
  rw [BitVec.toInt_sub, BitVec.toInt_ofInt]

theorem toInt_add_of_fits (hw : 0 < w) {a b : BitVec w} (h : FitsSigned w (a.toInt + b.toInt)) :
    (a + b).toInt = a.toInt + b.toInt := by
  rw [add_eq_ofInt, toInt_ofInt_of_fits hw h]

theorem toInt_sub_of_fits (hw : 0 < w) {a b : BitVec w} (h : FitsSigned w (a.toInt - b.toInt)) :
    (a - b).toInt = a.toInt - b.toInt := by
  rw [sub_eq_ofInt, toInt_ofInt_of_fits hw h]

/-! ## The guard of a sum -/

/-- Above a positive `a` there is room up to `intMax w - a`. -/
theorem intMax_sub_slt_iff (hw : 0 < w) {a b : BitVec w} (ha : 0 < a.toInt) :
    (BitVec.intMax w - a).slt b = true ↔ 2 ^ (w - 1) ≤ a.toInt + b.toInt := by
  have hlt : a.toInt < 2 ^ (w - 1) := (fitsSigned_toInt a).2
  have hroom : FitsSigned w ((BitVec.intMax w).toInt - a.toInt) := by
    rw [BitVec.toInt_intMax]
    constructor <;> omega
  rw [BitVec.slt_iff_toInt_lt, toInt_sub_of_fits hw hroom, BitVec.toInt_intMax]
  omega

/-- Below a negative `a` there is room down to `intMin w - a`. -/
theorem slt_intMin_sub_iff (hw : 0 < w) {a b : BitVec w} (ha : a.toInt < 0) :
    b.slt (BitVec.intMin w - a) = true ↔ a.toInt + b.toInt < -2 ^ (w - 1) := by
  have hle : -2 ^ (w - 1) ≤ a.toInt := (fitsSigned_toInt a).1
  have hroom : FitsSigned w ((BitVec.intMin w).toInt - a.toInt) := by
    rw [BitVec.toInt_intMin_of_pos hw]
    constructor <;> omega
  rw [BitVec.slt_iff_toInt_lt, toInt_sub_of_fits hw hroom, BitVec.toInt_intMin_of_pos hw]
  omega

/-- The two guards together are exact for the sum. -/
theorem sum_guard_iff (hw : 0 < w) (a b : BitVec w) :
    ((0 < a.toInt ∧ (BitVec.intMax w - a).slt b = true) ∨
      (a.toInt < 0 ∧ b.slt (BitVec.intMin w - a) = true)) ↔
      ¬ FitsSigned w (a.toInt + b.toInt) := by
  have hb := fitsSigned_toInt b
  unfold FitsSigned at hb ⊢
  rcases lt_trichotomy a.toInt 0 with ha | ha | ha
  · rw [slt_intMin_sub_iff hw ha]
    omega
  · rw [ha]
    omega
  · rw [intMax_sub_slt_iff hw ha]
    omega

/-! ## The guard of a product -/

/-- For a positive factor the quotient of the upper bound is exact. -/
theorem intMax_sdiv_slt_iff (hw : 0 < w) {a b : BitVec w} (ha : 0 < a.toInt) :
    ((BitVec.intMax w).sdiv a).slt b = true ↔ 2 ^ (w - 1) ≤ a.toInt * b.toInt := by
  have hne : a ≠ -1#w := by
    rintro rfl
    rw [BitVec.neg_one_eq_allOnes, BitVec.toInt_allOnes, if_pos hw] at ha
    omega
  have hmax : 0 ≤ (2 : Int) ^ (w - 1) - 1 := by
    have := Int.pow_pos (n := 2) (m := w - 1) (by omega)
    omega
  rw [BitVec.slt_iff_toInt_lt, BitVec.toInt_sdiv_of_ne_or_ne _ _ (.inr hne), BitVec.toInt_intMax,
    Int.tdiv_eq_ediv_of_nonneg hmax, Int.ediv_lt_iff_lt_mul ha, Int.mul_comm b.toInt]
  omega

/-- For a negative factor the quotient of the lower bound counts the multiples in range, so that the
guard asks for the next one. -/
theorem slt_intMin_sdiv_iff (hw : 0 < w) {a b : BitVec w} (ha : a.toInt < 0) (hne : a ≠ -1#w) :
    b.slt ((BitVec.intMin w).sdiv a) = true ↔ -2 ^ (w - 1) ≤ a.toInt * (b.toInt + 1) := by
  have hpow : 0 ≤ (2 : Int) ^ (w - 1) := Int.le_of_lt (Int.pow_pos (by omega))
  have hquotient : (-2 ^ (w - 1) : Int).tdiv a.toInt = 2 ^ (w - 1) / -a.toInt := by
    rw [Int.neg_tdiv, ← Int.tdiv_neg, Int.tdiv_eq_ediv_of_nonneg hpow]
  rw [BitVec.slt_iff_toInt_lt, BitVec.toInt_sdiv_of_ne_or_ne _ _ (.inr hne),
    BitVec.toInt_intMin_of_pos hw, hquotient, ← Int.add_one_le_iff,
    Int.le_ediv_iff_mul_le (by omega), Int.mul_neg, Int.mul_comm (b.toInt + 1)]
  omega

/-! ## Truncated quotients with the operands exchanged -/

theorem tdiv_swap_iff {a b : Int} (ha : a ≠ 0) (hb : b ≠ 0) :
    a.tdiv b = b.tdiv a ↔ a.natAbs = b.natAbs := by
  have hapos : 0 < a.natAbs := Int.natAbs_pos.mpr ha
  have hbpos : 0 < b.natAbs := Int.natAbs_pos.mpr hb
  constructor
  · intro h
    have habs : a.natAbs / b.natAbs = b.natAbs / a.natAbs := by
      have := congrArg Int.natAbs h
      rwa [Int.natAbs_tdiv, Int.natAbs_tdiv] at this
    -- of two different numbers the smaller by the larger is 0, and not the other way round
    rcases Nat.lt_trichotomy a.natAbs b.natAbs with hlt | heq | hlt
    · rw [Nat.div_eq_of_lt hlt] at habs
      have := Nat.div_pos hlt.le hapos
      omega
    · exact heq
    · rw [Nat.div_eq_of_lt hlt] at habs
      have := Nat.div_pos hlt.le hbpos
      omega
  · intro h
    rcases Int.natAbs_eq_natAbs_iff.mp h with rfl | rfl
    · rfl
    · rw [Int.neg_tdiv, Int.tdiv_neg]

theorem tmod_swap_iff {a b : Int} (ha : a ≠ 0) (hb : b ≠ 0) :
    a.tmod b = b.tmod a ↔ a.natAbs = b.natAbs := by
  have hapos : 0 < a.natAbs := Int.natAbs_pos.mpr ha
  have hbpos : 0 < b.natAbs := Int.natAbs_pos.mpr hb
  constructor
  · intro h
    have habs : a.natAbs % b.natAbs = b.natAbs % a.natAbs := by
      have := congrArg Int.natAbs h
      rwa [Int.natAbs_tmod, Int.natAbs_tmod] at this
    -- a remainder is smaller than the divisor, and a smaller dividend is its own remainder
    have halt := Nat.mod_lt b.natAbs hapos
    have hblt := Nat.mod_lt a.natAbs hbpos
    rcases Nat.lt_trichotomy a.natAbs b.natAbs with hlt | heq | hlt
    · rw [Nat.mod_eq_of_lt hlt] at habs
      omega
    · exact heq
    · rw [Nat.mod_eq_of_lt hlt] at habs
      omega
  · intro h
    rcases Int.natAbs_eq_natAbs_iff.mp h with rfl | rfl
    · rfl
    · rw [Int.neg_tmod, Int.tmod_neg, Int.tmod_self, Int.neg_zero]

/-! ## Sums of many words -/

/-- A left fold of additions is the exact sum, reduced to the word. -/
theorem foldl_add_eq_ofInt (a : BitVec w) (xs : List (BitVec w)) :
    xs.foldl (· + ·) a = BitVec.ofInt w (a.toInt + (xs.map BitVec.toInt).sum) := by
  induction xs generalizing a with
  | nil => simp
  | cons x xs ih =>
    rw [List.foldl_cons, ih, List.map_cons, List.sum_cons, ← Int.add_assoc, BitVec.ofInt_add,
      BitVec.ofInt_toInt, BitVec.ofInt_add (a.toInt + x.toInt), ← add_eq_ofInt]

/-! ## Repeated shifts -/

/-- `n` shifts to the left by one position are one by `n`. -/
theorem shiftLeft_one_iterate (a : BitVec w) (n : Nat) :
    (fun x : BitVec w => x <<< 1)^[n] a = a <<< n := by
  induction n with
  | zero => simp
  | succ n ih => rw [Function.iterate_succ_apply', ih, BitVec.shiftLeft_add]

/-- `n` arithmetic shifts to the right by one position are one by `n`. -/
theorem sshiftRight_one_iterate (a : BitVec w) (n : Nat) :
    (fun x : BitVec w => x.sshiftRight 1)^[n] a = a.sshiftRight n := by
  induction n with
  | zero => simp
  | succ n ih => rw [Function.iterate_succ_apply', ih, BitVec.sshiftRight_add]

theorem shiftLeft_eq_ofInt (a : BitVec w) (n : Nat) :
    a <<< n = BitVec.ofInt w (a.toInt * 2 ^ n) := by
  induction n with
  | zero => simp
  | succ n ih =>
    have htwo : BitVec.twoPow w 1 = BitVec.ofInt w 2 := by
      apply BitVec.eq_of_toNat_eq
      simp
    rw [BitVec.shiftLeft_add, ih, Int.pow_succ, ← Int.mul_assoc, BitVec.ofInt_mul _ 2,
      BitVec.shiftLeft_eq_mul_twoPow, htwo]

end Rbml.Lib
