import Rbml.Asm.Numerals
import Rbml.Machine.Step

/-!
# Printed numbers as source text

What the emulator prints for a word in numeric mode is put after `WORD` and given to the compiler. The
compiler emits the word again where it is not negative. The minus sign of any other begins no lexeme
and is reported as an unexpected character (`reassembles_iff`).
-/

namespace Rbml

open Rbml.Asm
open Rbml.Machine

/-- The bytes of a file, as the characters that the scanner reads -/
def sourceText (bytes : List UInt8) : List Char := bytes.map fun b => Char.ofNat b.toNat

/-- What the numeric console write prints for `w` compiles without an error to `w`, as the operand of
a `WORD` line. -/
def Reassembles (w : Word) : Prop :=
  ∀ (N : Nat) (m : State N) (printed : List UInt8) (inputFile : String),
    (cwrite 0 w m).stdout = m.stdout ++ printed →
      ∃ c, compile (rbmlParse (wordText (sourceText printed))) inputFile = ⟨some c, 0, true⟩ ∧
        c.text = [w]

theorem cwrite_numeric {N : Nat} (w : Word) (m : State N) :
    (cwrite 0 w m).stdout = m.stdout ++ (decimalText w.toInt ++ [newline]) := by
  rw [← List.append_assoc]
  rfl

theorem sourceText_digits (n : Nat) :
    sourceText ((Nat.toDigits 10 n).map fun c => UInt8.ofNat c.toNat) = decimalDigits n := by
  have hbyte : ∀ c ∈ decimalDigits n, Char.ofNat (UInt8.ofNat c.toNat).toNat = c := by
    intro c hc
    have hhigh : c.toNat ≤ 57 := (isDigit_iff.mp (isDigit_of_mem_decimalDigits hc)).2
    rw [UInt8.toNat_ofNat_of_lt' (Nat.lt_of_le_of_lt hhigh (by decide)), Char.ofNat_toNat]
  rw [sourceText, List.map_map, ← decimalDigits]
  exact (List.map_congr_left hbyte).trans (List.map_id _)

/-- The line that is printed for a number: a sign, digits and a newline -/
theorem sourceText_decimalText (i : Int) :
    sourceText (decimalText i ++ [newline]) =
      (if i < 0 then ['-'] else []) ++ (decimalDigits i.natAbs ++ ['\n']) := by
  rw [decimalText, sourceText, List.map_append]
  split
  · rw [List.map_cons, ← sourceText, sourceText_digits]
    rfl
  · rw [← sourceText, sourceText_digits]
    rfl

/-- A number without a sign is accepted. -/
theorem lex_wordText_digits (n : Nat) :
    lex (wordText (decimalDigits n ++ ['\n'])) =
      [.token .word, .skip, .token (.number (decimalDigits n)), .token .newline] := by
  have hsemi : ';' ∉ decimalDigits n := fun h =>
    absurd (isDigit_of_mem_decimalDigits h) (by decide)
  rw [wordText, List.singleton_append, lex_word (by decide), lex_separator (by decide),
    lex_split (by decide) (.inr hsemi), lex_number (isNumber_decimalDigits n), lex_newline]
  rfl

/-- A minus sign before a number is not. -/
theorem unexpected_of_negative {n : Nat} (hn : n ≠ 0) :
    .unexpected ∈ lex (wordText ('-' :: (decimalDigits n ++ ['\n']))) := by
  rw [wordText, List.singleton_append, lex_word (by decide), lex_separator (by decide),
    lex_single (by decide) (numberLength_sign_decimal (by decide) hn _) (by decide)]
  exact List.mem_cons_of_mem _ (List.mem_cons_of_mem _ List.mem_cons_self)

theorem numberValue_natAbs {w : Word} (hw : 0 ≤ w.toInt) :
    numberValue (decimalDigits w.toInt.natAbs) = w := by
  have hlt := @BitVec.toInt_lt 32 w
  have hvalue : (w.toInt.natAbs : Int) = w.toInt := Int.natAbs_of_nonneg hw
  rw [numberValue_of_literal (cLiteral_decimalDigits _) ⟨by omega, by omega⟩, hvalue,
    BitVec.ofInt_toInt]

theorem not_reassembles_of_negative {w : Word} (hneg : w.toInt < 0) : ¬ Reassembles w := by
  intro h
  obtain ⟨c, hcompile, -⟩ := h 0 (initialState (fun _ => 0) []) _ "" (cwrite_numeric w _)
  have hwritten := congrArg Compiled.written hcompile
  obtain ⟨lines, ⟨-, -, hunexpected⟩, -⟩ := program_of_accepted hwritten
  rw [sourceText_decimalText, if_pos hneg] at hunexpected
  exact hunexpected (unexpected_of_negative (by omega))

/-- A word reassembles from what is printed for it exactly if it is not negative. -/
theorem reassembles_iff (w : Word) : Reassembles w ↔ 0 ≤ w.toInt := by
  constructor
  · intro h
    by_contra hneg
    exact not_reassembles_of_negative (Int.not_le.mp hneg) h
  · intro hw N m printed inputFile hprinted
    obtain rfl := List.append_cancel_left ((cwrite_numeric w m).symm.trans hprinted)
    have hcompile : compile (rbmlParse (wordText (decimalDigits w.toInt.natAbs ++ ['\n']))) inputFile =
        ⟨some (codeEmit codeAlloc (numberValue (decimalDigits w.toInt.natAbs))), 0, true⟩ := by
      rw [compile, rbmlParse, lex_wordText_digits]
      rfl
    refine ⟨codeEmit codeAlloc (numberValue (decimalDigits w.toInt.natAbs)), ?_,
      congrArg (fun v => [v]) (numberValue_natAbs hw)⟩
    rw [sourceText_decimalText, if_neg (Int.not_lt.mpr hw), List.nil_append, hcompile]

/-- -5 is printed as `-5`, which is no operand of `WORD`. -/
theorem minus_five_not_reassembled : ¬ Reassembles (-5) := not_reassembles_of_negative (by decide)

end Rbml
