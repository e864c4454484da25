import Mathlib.Data.List.TakeWhile
import Mathlib.Data.Nat.Digits.Defs
import Rbml.Asm.Program
import Rbml.Asm.Scanning

/-!
# Numeric literals

The pattern of `NUMBER` says which texts are one lexeme, `strtol` says which value a lexeme has, and
the two have different grammars. `cLiteral` is the value that a text denotes in C notation, if it is a
literal as a whole, and is stated apart from both.

On a literal that fits a word, signed or unsigned, the scanner's value is the literal's
(`numberValue_of_literal`). The scanner reports no error on any other lexeme: a text with `WORD` and
the lexeme is accepted, whatever the lexeme is (`compile_wordText`). The lexemes that are no literals
are those of digits after a `0` with an `8` or a `9` among them (`cLiteral_eq_none_iff`).
-/

namespace Rbml.Asm

open Rbml.Lib

/-! ## C notation -/

def isOctalDigit (c : Char) : Bool := '0' ≤ c && c ≤ '7'

/-- The number that digits denote in a base, if there is at least one and they all belong to it -/
def digitsDenote (isDigit : Char → Bool) (base : Nat) (digits : List Char) : Option Nat :=
  if digits ≠ [] ∧ digits.all isDigit then
    some (Nat.ofDigits base (digits.reverse.map digitValue))
  else none

/-- The integer constants of C: hexadecimal after `0x`, octal after `0`, else decimal -/
def cConstant : List Char → Option Nat
  | '0' :: x :: rest =>
    if sameLetter 'x' x then digitsDenote Char.isHexDigit 16 rest
    else digitsDenote isOctalDigit 8 (x :: rest)
  | text => digitsDenote Char.isDigit 10 text

/-- The integer that a text denotes as a whole: a constant, after a sign or not -/
def cLiteral : List Char → Option Int
  | '-' :: text => (cConstant text).map fun n : Nat => - (n : Int)
  | '+' :: text => (cConstant text).map Int.ofNat
  | text => (cConstant text).map Int.ofNat

/-- The value fits a word of 32 bits, signed or unsigned. -/
def FitsWord (v : Int) : Prop := - 2 ^ 31 ≤ v ∧ v < 2 ^ 32

/-- The text is a literal as a whole, and its value fits a word. -/
def IsWordLiteral (text : List Char) : Prop := ∃ v, cLiteral text = some v ∧ FitsWord v

/-! ## The value that the scanner takes -/

theorem valueIn_eq_ofDigits (base : Nat) (digits : List Char) :
    valueIn base digits = Nat.ofDigits base (digits.reverse.map digitValue) := by
  rw [Nat.ofDigits_eq_foldr, List.map_reverse, List.foldr_reverse, List.foldl_map, valueIn]
  refine congrArg (fun f => List.foldl f 0 digits) ?_
  funext n d
  exact Nat.add_comm _ _

theorem takeWhile_of_digitsDenote {isDigit : Char → Bool} {base n : Nat} {digits : List Char}
    (h : digitsDenote isDigit base digits = some n) :
    digits ≠ [] ∧ digits.takeWhile isDigit = digits ∧ valueIn base digits = n := by
  unfold digitsDenote at h
  split at h
  next hall =>
    cases h
    refine ⟨hall.1, ?_, valueIn_eq_ofDigits base digits⟩
    exact List.takeWhile_eq_self_iff.mpr fun c hc => List.all_eq_true.mp hall.2 c hc
  · cases h

theorem strtolDigits_of_constant {text : List Char} {n : Nat} (h : cConstant text = some n) :
    strtolDigits text = n := by
  unfold cConstant at h
  split at h
  next x rest =>
    split at h
    next hx =>
      obtain ⟨hne, htake, hvalue⟩ := takeWhile_of_digitsDenote h
      have hhead : rest.head?.any Char.isHexDigit := by
        cases rest with
        | nil => exact absurd rfl hne
        | cons c rest =>
          have hc := List.takeWhile_eq_self_iff.mp htake c List.mem_cons_self
          simpa using hc
      simp only [strtolDigits, hx, hhead, and_self, if_true, htake, hvalue]
    next hx =>
      obtain ⟨-, htake, hvalue⟩ := takeWhile_of_digitsDenote h
      rw [strtolDigits, if_neg fun h => hx h.1]
      exact (congrArg (valueIn 8) htake).trans hvalue
  next htext =>
    obtain ⟨-, htake, hvalue⟩ := takeWhile_of_digitsDenote h
    rw [strtolDigits.eq_2 text htext, htake, hvalue]

theorem literalValue_of_literal {text : List Char} {v : Int} (h : cLiteral text = some v) :
    literalValue text = v := by
  unfold cLiteral at h
  split at h
  next text =>
    obtain ⟨n, hn, rfl⟩ := Option.map_eq_some_iff.mp h
    simp only [literalValue, strtolDigits_of_constant hn]
  next text =>
    obtain ⟨n, hn, rfl⟩ := Option.map_eq_some_iff.mp h
    simp only [literalValue, strtolDigits_of_constant hn, Int.ofNat_eq_natCast]
  next hminus hplus =>
    obtain ⟨n, hn, rfl⟩ := Option.map_eq_some_iff.mp h
    rw [literalValue.eq_3 text hminus hplus, strtolDigits_of_constant hn, Int.ofNat_eq_natCast]

theorem numberValue_of_literal {text : List Char} {v : Int} (h : cLiteral text = some v)
    (hfits : FitsWord v) : numberValue text = BitVec.ofInt 32 v := by
  obtain ⟨hlow, hhigh⟩ := hfits
  rw [numberValue, literalValue_of_literal h, min_eq_left (by omega), max_eq_right (by omega)]

/-! ## How `WORD` and a lexeme are scanned -/

/-- `WORD` and a lexeme -/
def wordText (lexeme : List Char) : List Char := ['W', 'O', 'R', 'D'] ++ ([' '] ++ lexeme)

theorem lex_wordText {lexeme : List Char} (h : IsNumber lexeme) :
    lex (wordText lexeme) = [.token .word, .skip, .token (.number lexeme)] := by
  rw [wordText, List.singleton_append, lex_word (by decide),
    lex_separator (by decide), lex_number h]
  rfl

/-- The compiler accepts `WORD` and a lexeme, and emits the scanner's value of it. -/
theorem compile_wordText {lexeme : List Char} (h : IsNumber lexeme) (inputFile : String) :
    ∃ c, (compile (rbmlParse (wordText lexeme)) inputFile).written = some c ∧
      c.text = [numberValue lexeme] := by
  refine ⟨codeEmit codeAlloc (numberValue lexeme), ?_, rfl⟩
  rw [compile, rbmlParse, lex_wordText h]
  rfl

theorem writtenAs_wordText {lexeme : List Char} (h : IsNumber lexeme) :
    WrittenAs (wordText lexeme) [⟨none, some (.word lexeme)⟩] := by
  refine ⟨List.cons_ne_nil _ _, ?_, ?_⟩
  · rw [tokens, lex_wordText h]
    rfl
  · rw [lex_wordText h]
    simp

/-! ## Which lexemes are literals -/

theorem all_of_takeWhile_length {p : Char → Bool} {l : List Char}
    (h : (l.takeWhile p).length = l.length) : ∀ c ∈ l, p c = true :=
  List.takeWhile_eq_self_iff.mp ((List.takeWhile_prefix p).eq_of_length h)

theorem unsignedHex_of_length {text : List Char} (hne : text ≠ [])
    (h : unsignedHexLength text = text.length) :
    ∃ x digits, text = '0' :: x :: digits ∧ sameLetter 'x' x = true ∧ digits ≠ [] ∧
      ∀ c ∈ digits, c.isHexDigit = true := by
  unfold unsignedHexLength at h
  split at h
  next x digits =>
    simp only at h
    split at h
    next hx =>
      simp only [List.length_cons] at h
      refine ⟨x, digits, rfl, hx.1, ?_, all_of_takeWhile_length (by omega)⟩
      intro hnil
      subst hnil
      exact absurd hx.2 (Nat.lt_irrefl 0)
    · cases h
  · exact absurd (List.length_eq_zero_iff.mp h.symm) hne

/-- The two alternatives of `NUMBER` -/
theorem number_cases {text : List Char} (h : IsNumber text) :
    (∀ c ∈ text, c.isDigit = true) ∨
      ∃ signs x digits, text = signs ++ '0' :: x :: digits ∧ signs ∈ [[], ['+'], ['-']] ∧
        sameLetter 'x' x = true ∧ digits ≠ [] ∧ ∀ c ∈ digits, c.isHexDigit = true := by
  obtain ⟨hne, hlength⟩ := h
  rcases max_choice (hexLength text) (text.takeWhile Char.isDigit).length with hmax | hmax
  · right
    rw [numberLength, hmax] at hlength
    obtain ⟨c, l, rfl⟩ := List.exists_cons_of_ne_nil hne
    rw [hexLength] at hlength
    split at hlength
    next hsign =>
      simp only at hlength
      split at hlength
      next hpos =>
        have hl : l ≠ [] := by
          intro hl
          subst hl
          exact absurd hpos (Nat.lt_irrefl 0)
        obtain ⟨x, digits, rfl, hhex⟩ := unsignedHex_of_length hl (Nat.succ_inj.mp hlength)
        refine ⟨[c], x, digits, rfl, ?_, hhex⟩
        rcases hsign with rfl | rfl <;> simp
      · cases hlength
    · obtain ⟨x, digits, htext, hhex⟩ := unsignedHex_of_length hne hlength
      exact ⟨[], x, digits, htext, by simp, hhex⟩
  · left
    rw [numberLength, hmax] at hlength
    exact all_of_takeWhile_length hlength

theorem isOctalDigit_of_isDigit {c : Char} (hc : c.isDigit = true) :
    isOctalDigit c = false ↔ c = '8' ∨ c = '9' := by
  obtain ⟨hlow, hhigh⟩ := isDigit_iff.mp hc
  simp only [isOctalDigit, Char.le_def, UInt32.le_iff_toNat_le, Char.ext_iff, ← UInt32.toNat_inj]
  show (decide (48 ≤ c.val.toNat) && decide (c.val.toNat ≤ 55)) = false ↔
    c.val.toNat = 56 ∨ c.val.toNat = 57
  simp only [Bool.and_eq_false_iff, decide_eq_false_iff_not]
  omega

theorem digitsDenote_eq_none {isDigit : Char → Bool} {base : Nat} {digits : List Char}
    (hne : digits ≠ []) :
    digitsDenote isDigit base digits = none ↔ ∃ c ∈ digits, isDigit c = false := by
  unfold digitsDenote
  split
  next h =>
    refine iff_of_false (by simp) ?_
    rintro ⟨c, hc, hnot⟩
    exact Bool.false_ne_true (hnot.symm.trans (List.all_eq_true.mp h.2 c hc))
  next h =>
    refine iff_of_true rfl ?_
    simpa [hne] using h

/-- Digits are no constant where they are read as octal and an `8` or a `9` is among them. -/
theorem cConstant_eq_none_iff {text : List Char} (hne : text ≠ [])
    (hdigits : ∀ c ∈ text, c.isDigit = true) :
    cConstant text = none ↔
      ∃ rest, text = '0' :: rest ∧ (∀ c ∈ rest, c.isDigit = true) ∧ ∃ c ∈ rest, c = '8' ∨ c = '9' := by
  obtain ⟨c, l, rfl⟩ := List.exists_cons_of_ne_nil hne
  have hl : ∀ d ∈ l, d.isDigit = true := fun d hd => hdigits d (List.mem_cons_of_mem _ hd)
  by_cases hzero : c = '0'
  · subst hzero
    cases l with
    | nil => exact iff_of_false (by decide) (by simp)
    | cons x rest =>
      have hx : sameLetter 'x' x = false := sameLetter_of_not_identStart
        (isIdentStart_of_isDigit (hl x List.mem_cons_self)) (by decide)
      rw [cConstant, hx, if_neg Bool.false_ne_true, digitsDenote_eq_none (List.cons_ne_nil _ _)]
      constructor
      · rintro ⟨d, hd, hnot⟩
        exact ⟨_, rfl, hl, d, hd, (isOctalDigit_of_isDigit (hl d hd)).mp hnot⟩
      · rintro ⟨_, heq, -, d, hd, hd'⟩
        obtain rfl := (List.cons.inj heq).2
        exact ⟨d, hd, (isOctalDigit_of_isDigit (hl d hd)).mpr hd'⟩
  · refine iff_of_false ?_ ?_
    · rw [cConstant.eq_2 (c :: l) fun x rest heq => hzero (List.cons.inj heq).1]
      intro hnone
      obtain ⟨d, hd, hnot⟩ := (digitsDenote_eq_none (List.cons_ne_nil _ _)).mp hnone
      exact Bool.false_ne_true (hnot.symm.trans (hdigits d hd))
    · rintro ⟨_, heq, -⟩
      exact hzero (List.cons.inj heq).1

/-- The lexemes that are no literals: digits after a `0` with an `8` or a `9` among them -/
theorem cLiteral_eq_none_iff {text : List Char} (h : IsNumber text) :
    cLiteral text = none ↔
      ∃ rest, text = '0' :: rest ∧ (∀ c ∈ rest, c.isDigit = true) ∧ ∃ c ∈ rest, c = '8' ∨ c = '9' := by
  rcases number_cases h with hdigits | ⟨signs, x, digits, rfl, hsigns, hx, hne, hhex⟩
  · have hliteral : cLiteral text = (cConstant text).map Int.ofNat := by
      refine cLiteral.eq_3 text ?_ ?_
      · intro rest heq
        exact absurd (hdigits '-' (heq ▸ List.mem_cons_self)) (by decide)
      · intro rest heq
        exact absurd (hdigits '+' (heq ▸ List.mem_cons_self)) (by decide)
    rw [hliteral, Option.map_eq_none_iff, cConstant_eq_none_iff h.1 hdigits]
  · simp only [List.mem_cons, List.not_mem_nil, or_false] at hsigns
    refine iff_of_false ?_ ?_
    · have hsome : digitsDenote Char.isHexDigit 16 digits ≠ none := by
        intro hnone
        obtain ⟨d, hd, hnot⟩ := (digitsDenote_eq_none hne).mp hnone
        exact Bool.false_ne_true (hnot.symm.trans (hhex d hd))
      rcases hsigns with rfl | rfl | rfl <;> simpa [cLiteral, cConstant, hx] using hsome
    · intro ⟨rest, heq, hall, _⟩
      rcases hsigns with rfl | rfl | rfl
      · obtain rfl := (List.cons.inj heq).2
        have hdigit := @sameLetter_of_not_identStart 'x' _
          (isIdentStart_of_isDigit (hall x List.mem_cons_self)) (by decide)
        exact Bool.false_ne_true (hdigit.symm.trans hx)
      · exact absurd (List.cons.inj heq).1 (by decide)
      · exact absurd (List.cons.inj heq).1 (by decide)

/-! ## Which literals keep their value -/

/-- Wherever a text that the compiler accepts has `WORD` and the lexeme, the lexeme is a literal that
fits a word, and the word emitted for it is the value of the literal modulo `2 ^ 32`. -/
def KeepsLiteral (lexeme : List Char) : Prop :=
  ∀ (inputFile : String) (text : List Char) (c : Code) (lines : List SourceLine) (i : Nat),
    (compile (rbmlParse text) inputFile).written = some c →
    WrittenAs text lines → (statements lines)[i]? = some (Statement.word lexeme) →
      ∃ v, cLiteral lexeme = some v ∧ FitsWord v ∧ c.text[i]? = some (BitVec.ofInt 32 v)

theorem isWordLiteral_of_keeps {lexeme : List Char} (h : IsNumber lexeme)
    (hkeeps : KeepsLiteral lexeme) : IsWordLiteral lexeme := by
  obtain ⟨c, hwritten, -⟩ := compile_wordText h ""
  obtain ⟨v, hv, hfits, -⟩ := hkeeps "" _ c _ 0 hwritten (writtenAs_wordText h) rfl
  exact ⟨v, hv, hfits⟩

/-- The value of a numeric literal survives exactly where the lexeme is a literal in C that fits a
word. Every other lexeme is accepted as well. -/
theorem literal_kept_iff {lexeme : List Char} (h : IsNumber lexeme) :
    KeepsLiteral lexeme ↔ IsWordLiteral lexeme := by
  constructor
  · exact isWordLiteral_of_keeps h
  · intro hliteral inputFile text c lines i hwritten hlines hi
    obtain ⟨v, hv, hfits⟩ := hliteral
    obtain ⟨lines', hlines', hcompiles⟩ := program_of_accepted hwritten
    obtain rfl := writtenAs_unique hlines hlines'
    refine ⟨v, hv, hfits, ?_⟩
    rw [hcompiles.text, List.getElem?_map, hi, ← numberValue_of_literal hv hfits]
    rfl

theorem literal_kept_hex :
    KeepsLiteral ['-', '0', 'x', 'F', 'f'] ↔ IsWordLiteral ['-', '0', 'x', 'F', 'f'] :=
  literal_kept_iff ⟨by decide, by decide⟩

/-- `WORD 089` is accepted, where the lexeme is no literal, and so is `WORD 0x100000000`, where its
value fits no word. -/
theorem literal_not_kept :
    ¬ KeepsLiteral ['0', '8', '9'] ∧
      ¬ KeepsLiteral ['0', 'x', '1', '0', '0', '0', '0', '0', '0', '0', '0'] := by
  refine ⟨?_, ?_⟩
  · intro h
    obtain ⟨v, hv, -⟩ := isWordLiteral_of_keeps ⟨by decide, by decide⟩ h
    cases hv
  · intro h
    obtain ⟨v, hv, -, hhigh⟩ := isWordLiteral_of_keeps ⟨by decide, by decide⟩ h
    have hvalue : v = 2 ^ 32 := by
      have hliteral : cLiteral ['0', 'x', '1', '0', '0', '0', '0', '0', '0', '0', '0'] =
          some (2 ^ 32) := by decide
      exact Option.some.inj (hv.symm.trans hliteral)
    omega

end Rbml.Asm
