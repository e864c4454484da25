import Mathlib.Data.Nat.Digits.Defs
import Rbml.Asm.Literals

/-!
# Decimal numerals

The decimal text of a natural number has digits only and no leading zero, so that it is one lexeme of
`NUMBER` and C reads it as the number, in base 10 and not in base 8. A minus sign before it makes it a
C literal of the negative number, but no lexeme: `NUMBER` has signs before hexadecimal digits alone.
-/

namespace Rbml.Asm

open Rbml.Lib

/-- The decimal text of a number -/
def decimalDigits (n : Nat) : List Char := Nat.toDigits 10 n

theorem decimalDigits_ne_nil (n : Nat) : decimalDigits n ≠ [] := Nat.toDigits_ne_nil

theorem isDigit_of_mem_decimalDigits {n : Nat} {c : Char} (hc : c ∈ decimalDigits n) :
    c.isDigit = true :=
  Nat.isDigit_of_mem_toDigits (Nat.succ_pos 9) (Nat.le_refl 10) hc

/-- A numeral other than `0` does not begin with a zero. -/
theorem decimalDigits_head {n : Nat} (hn : n ≠ 0) (rest : List Char) :
    decimalDigits n ≠ '0' :: rest := by
  induction n using Nat.strongRecOn generalizing rest with
  | ind n ih =>
    intro heq
    by_cases hsmall : n < 10
    · rw [decimalDigits, Nat.toDigits_of_lt_base hsmall] at heq
      have hchar := congrArg Char.toNat (List.cons.inj heq).1
      rw [Nat.toNat_digitChar_of_lt_ten hsmall] at hchar
      change 48 + n = 48 at hchar
      omega
    · rw [decimalDigits, Nat.toDigits_of_base_le (by decide) (by omega)] at heq
      obtain ⟨c, front, hfront⟩ := List.exists_cons_of_ne_nil (decimalDigits_ne_nil (n / 10))
      have hc : decimalDigits (n / 10) = '0' :: front := by
        rw [hfront]
        rw [decimalDigits] at hfront
        rw [hfront, List.cons_append] at heq
        rw [(List.cons.inj heq).1]
      exact ih (n / 10) (by omega) (by omega) front hc

theorem valueIn_decimalDigits (n : Nat) : valueIn 10 (decimalDigits n) = n := by
  have hfold : valueIn 10 (decimalDigits n) = Nat.ofDigitChars 10 (decimalDigits n) 0 := by
    rw [Nat.ofDigitChars_eq_foldl, valueIn]
    refine List.foldl_ext _ _ 0 fun k c hc => ?_
    rw [digitValue, if_pos (isDigit_of_mem_decimalDigits hc)]
    rfl
  rw [hfold, decimalDigits, Nat.ofDigitChars_ten_toDigits]

/-- Digits are one lexeme of `NUMBER`. -/
theorem isNumber_of_digits {text : List Char} (hne : text ≠ [])
    (hdigits : ∀ c ∈ text, c.isDigit = true) : IsNumber text := by
  refine ⟨hne, ?_⟩
  rw [numberLength, List.takeWhile_eq_self_iff.mpr hdigits]
  exact max_eq_right (hexLength_le text)

theorem isNumber_decimalDigits (n : Nat) : IsNumber (decimalDigits n) :=
  isNumber_of_digits (decimalDigits_ne_nil n) fun _ hc => isDigit_of_mem_decimalDigits hc

theorem cConstant_decimalDigits (n : Nat) : cConstant (decimalDigits n) = some n := by
  by_cases hn : n = 0
  · subst hn
    rfl
  · rw [cConstant.eq_2 _ fun x rest => decimalDigits_head hn (x :: rest), digitsDenote, if_pos,
      ← valueIn_eq_ofDigits, valueIn_decimalDigits]
    exact ⟨decimalDigits_ne_nil n,
      List.all_eq_true.mpr fun c hc => isDigit_of_mem_decimalDigits hc⟩

/-- A numeral has no sign. -/
theorem decimalDigits_ne_sign {c : Char} (hc : c.isDigit = false) (n : Nat) (rest : List Char) :
    decimalDigits n ≠ c :: rest := by
  intro heq
  have hdigit := @isDigit_of_mem_decimalDigits n c (heq ▸ List.mem_cons_self)
  exact Bool.false_ne_true (hc.symm.trans hdigit)

theorem cLiteral_decimalDigits (n : Nat) : cLiteral (decimalDigits n) = some (n : Int) := by
  rw [cLiteral.eq_3 _ (decimalDigits_ne_sign (by decide) n) (decimalDigits_ne_sign (by decide) n),
    cConstant_decimalDigits]
  rfl

/-- A sign is no part of a decimal lexeme. -/
theorem numberLength_sign_decimal {sign : Char} (hsign : sign.isDigit = false) {n : Nat}
    (hn : n ≠ 0) (rest : List Char) : numberLength (sign :: (decimalDigits n ++ rest)) = 0 := by
  obtain ⟨c, front, hfront⟩ := List.exists_cons_of_ne_nil (decimalDigits_ne_nil n)
  have hunsigned : unsignedHexLength (decimalDigits n ++ rest) = 0 := by
    rw [hfront, List.cons_append, unsignedHexLength]
    intro x input heq
    obtain rfl := (List.cons.inj heq).1
    exact decimalDigits_head hn front hfront
  have hzero : sign ≠ '0' := by
    rintro rfl
    cases hsign
  have hhex : hexLength (sign :: (decimalDigits n ++ rest)) = 0 := by
    rw [hexLength]
    split
    · rw [hunsigned]
      rfl
    · rw [unsignedHexLength]
      intro x input heq
      exact hzero (List.cons.inj heq).1
  rw [numberLength, hhex, List.takeWhile_cons_of_neg (by rw [hsign]; exact Bool.false_ne_true)]
  rfl

end Rbml.Asm
