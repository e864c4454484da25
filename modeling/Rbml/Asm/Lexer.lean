import Mathlib.Order.MinMax
import Rbml.Lib.Scanner
import Rbml.Word

/-!
# The scanner (`rbml_lex.l`)

The rules of the scanner in the order of the source. A source text is a list of characters, one for
each byte of the file. A pattern is the length of its longest match, and letters are compared without
regard to case (`%option case-insensitive`).

`yylineno` counts newlines in the matches of the rules that can match one, which is only the rule of
the control characters. Every match, blanks and comments included, sets the line number of the
parser (`YY_USER_ACTION`), and a newline is counted before it does.
-/

namespace Rbml.Asm

open Rbml.Lib

/-- The classes of mnemonics: the tokens `INST0` to `INST2NR` -/
inductive Form where
  | inst0 | inst1a | inst1r | inst2rr | inst2ra | inst2nr
  deriving DecidableEq, Repr

/-- The tokens, with their semantic values. The value of a `NUMBER` is `numberValue` of its text. -/
inductive Token where
  | word
  | reg (number : Word)
  | disk (number : Word)
  | number (text : List Char)
  | ident (ident : String)
  | inst (form : Form) (opcode : Opcode)
  | colon
  | comma
  | newline
  deriving DecidableEq, Repr

/-- What a rule does with its match: return a token, go on, or report an unexpected character -/
inductive Lexed where
  | token (t : Token)
  | skip
  | unexpected
  deriving DecidableEq, Repr

/-! ## Patterns -/

/-- Two characters that differ in case at most -/
def sameLetter (a b : Char) : Bool := a.toLower == b.toLower

/-- The length of a fixed text where the input begins with it, in either case -/
def literalLength : List Char → List Char → Option Nat
  | [], _ => some 0
  | _ :: _, [] => none
  | c :: cs, a :: input => if sameLetter c a then (literalLength cs input).map (· + 1) else none

/-- `{ID}`: the alternatives, in order -/
def ids : List (List Char) :=
  [['0'], ['1'], ['2'], ['3'], ['4'], ['5'], ['6'], ['7'], ['8'], ['9'],
   ['1', '0'], ['1', '1'], ['1', '2'], ['1', '3'], ['1', '4'], ['1', '5']]

/-- The longest of some alternatives, 0 if none matches -/
def longestOf (alternatives : List (List Char)) (input : List Char) : Nat :=
  (alternatives.filterMap fun s => literalLength s input).foldr max 0

/-- A letter, then `{ID}` -/
def letterIdLength (letter : Char) : List Char → Nat
  | [] => 0
  | a :: input =>
    if sameLetter letter a ∧ 0 < longestOf ids input then longestOf ids input + 1 else 0

/-- `0x[0-9A-F]+` -/
def unsignedHexLength : List Char → Nat
  | '0' :: x :: input =>
    let n := (input.takeWhile Char.isHexDigit).length
    if sameLetter 'x' x ∧ 0 < n then n + 2 else 0
  | _ => 0

/-- `[+-]?0x[0-9A-F]+` -/
def hexLength : List Char → Nat
  | [] => 0
  | c :: input =>
    if c = '+' ∨ c = '-' then
      let n := unsignedHexLength input
      if 0 < n then n + 1 else 0
    else unsignedHexLength (c :: input)

/-- `{NUMBER}`: the longer of its two alternatives -/
def numberLength (input : List Char) : Nat :=
  max (hexLength input) (input.takeWhile Char.isDigit).length

def isIdentStart (c : Char) : Bool := c == '_' || ('a' ≤ c.toLower && c.toLower ≤ 'z')

def isIdentRest (c : Char) : Bool := isIdentStart c || c.isDigit

/-- `{IDENT}` -/
def identLength : List Char → Nat
  | [] => 0
  | c :: input => if isIdentStart c then (input.takeWhile isIdentRest).length + 1 else 0

/-- One character of a class -/
def classLength (p : Char → Bool) : List Char → Nat
  | [] => 0
  | c :: _ => if p c then 1 else 0

/-- `;.*` -/
def commentLength : List Char → Nat
  | ';' :: input => (input.takeWhile (· ≠ '\n')).length + 1
  | _ => 0

/-! ## Numbers -/

/-- The value of a digit of any base up to 16 -/
def digitValue (c : Char) : Nat :=
  if c.isDigit then c.toNat - 48 else c.toLower.toNat - 87

/-- The number that digits denote in a base -/
def valueIn (base : Nat) (digits : List Char) : Nat :=
  digits.foldl (fun n d => base * n + digitValue d) 0

/-- `atoi` of a text without a sign -/
def atoi (text : List Char) : Word := BitVec.ofNat 32 (valueIn 10 (text.takeWhile Char.isDigit))

/-- The digits that `strtol` reads without a sign in base 0, as their value: hexadecimal after `0x`,
octal after `0`, else decimal -/
def strtolDigits : List Char → Nat
  | '0' :: x :: rest =>
    if sameLetter 'x' x ∧ (rest.head?.any Char.isHexDigit) then valueIn 16 (rest.takeWhile Char.isHexDigit)
    else valueIn 8 ((x :: rest).takeWhile fun c => '0' ≤ c && c ≤ '7')
  | text => valueIn 10 (text.takeWhile Char.isDigit)

/-- The integer that `strtol(text, NULL, 0)` reads, before it is brought into the range of `long` -/
def literalValue : List Char → Int
  | '-' :: text => - (strtolDigits text : Int)
  | '+' :: text => strtolDigits text
  | text => strtolDigits text

/-- `strtol(yytext, NULL, 0)` as the `int` it is assigned to. Out of the range of a `long` of 64
bits it is the nearest `long`. -/
def numberValue (text : List Char) : Word :=
  BitVec.ofInt 32 (max (-(2 ^ 63)) (min (literalValue text) (2 ^ 63 - 1)))

/-! ## The rules -/

/-- The mnemonic rules -/
def mnemonics : List (String × Form × Opcode) :=
  [("END", .inst0, .end), ("HALT", .inst0, .halt), ("HERR", .inst0, .herr),
   ("BRAN", .inst1a, .bran), ("BRGT", .inst1a, .brgt), ("BRLT", .inst1a, .brlt),
   ("BREQ", .inst1a, .breq), ("BRGE", .inst1a, .brge), ("BRLE", .inst1a, .brle),
   ("CALL", .inst1a, .call), ("CAGT", .inst1a, .cagt), ("CALT", .inst1a, .calt),
   ("CAEQ", .inst1a, .caeq), ("CAGE", .inst1a, .cage), ("CALE", .inst1a, .cale),
   ("COMP", .inst1r, .comp),
   ("ADD", .inst2rr, .add), ("SUB", .inst2rr, .sub), ("DIV", .inst2rr, .div),
   ("MULT", .inst2rr, .mult), ("MOD", .inst2rr, .mod), ("CJNT", .inst2rr, .cjnt),
   ("DJNT", .inst2rr, .djnt), ("CMP", .inst2rr, .cmp), ("LSFT", .inst2rr, .lsft),
   ("RSFT", .inst2rr, .rsft), ("MOV", .inst2rr, .mov),
   ("STO", .inst2ra, .sto), ("LOD", .inst2ra, .lod),
   ("CRDR", .inst2nr, .crdr), ("WRIT", .inst2nr, .writ), ("MOVA", .inst2nr, .mova)]

/-- A rule that returns one token for a fixed text -/
def literalRule (text : String) (t : Token) : Rule Char Lexed where
  length input := (literalLength text.toList input).getD 0
  action _ := .token t

/-- `return *yytext` -/
def controlAction : List Char → Lexed
  | ':' :: _ => .token .colon
  | ',' :: _ => .token .comma
  | _ => .token .newline

/-- The rules of the scanner -/
def lexRules : List (Rule Char Lexed) :=
  mnemonics.map (fun (text, form, opcode) => literalRule text (.inst form opcode)) ++
  [literalRule "WORD" .word,
   ⟨letterIdLength 'R', fun text => .token (.reg (atoi (text.drop 1)))⟩,
   ⟨letterIdLength 'D', fun text => .token (.disk (atoi (text.drop 1)))⟩,
   ⟨numberLength, fun text => .token (.number text)⟩,
   ⟨identLength, fun text => .token (.ident (String.ofList text))⟩,
   ⟨classLength fun c => c == ':' || c == ',' || c == '\n', controlAction⟩,
   ⟨commentLength, fun _ => .skip⟩,
   ⟨classLength fun c => c == ' ' || c == '\t', fun _ => .skip⟩,
   ⟨classLength (· ≠ '\n'), fun _ => .unexpected⟩]

/-- What the scanner makes of a text -/
def lex (text : List Char) : List Lexed := scan lexRules text

/-! ## The tokens that the scanner returns -/

/-- The bounds that the rules establish: a register or disk has a number below 16, and a mnemonic
comes with its own class and operation. -/
def Token.Lexical : Token → Prop
  | .reg n | .disk n => n.toNat < 16
  | .inst form opcode => ∃ text, (text, form, opcode) ∈ mnemonics
  | _ => True

/-- The operation of a mnemonic is the one of its name. -/
theorem mnemonics_name : ∀ entry ∈ mnemonics, entry.2.2.name = entry.1 := by decide

theorem isDigit_iff {c : Char} : c.isDigit = true ↔ 48 ≤ c.val.toNat ∧ c.val.toNat ≤ 57 := by
  rw [Char.isDigit, Bool.and_eq_true, decide_eq_true_iff, decide_eq_true_iff, ge_iff_le,
    UInt32.le_iff_toNat_le, UInt32.le_iff_toNat_le]
  exact Iff.rfl

theorem toLower_of_not_upper {c : Char} (h : ¬ (65 ≤ c.val.toNat ∧ c.val.toNat ≤ 90)) :
    c.toLower = c := by
  refine dif_neg fun hupper => h ?_
  have hlow := UInt32.le_iff_toNat_le.mp hupper.1
  have hhigh := UInt32.le_iff_toNat_le.mp hupper.2
  exact ⟨hlow, hhigh⟩

theorem toNat_toLower_of_upper {c : Char} (h : 65 ≤ c.val.toNat ∧ c.val.toNat ≤ 90) :
    c.toLower.val.toNat = c.val.toNat + 32 := by
  have hupper : c.val ≥ 'A'.val ∧ c.val ≤ 'Z'.val :=
    ⟨UInt32.le_iff_toNat_le.mpr h.1, UInt32.le_iff_toNat_le.mpr h.2⟩
  have hlower : c.toLower = ⟨c.val + ('a'.val - 'A'.val), _⟩ := dif_pos hupper
  rw [hlower, UInt32.toNat_add]
  change (_ + 32) % 2 ^ 32 = _
  omega

/-- A character that is no letter is the same only as itself. -/
theorem eq_of_sameLetter {c a : Char} (hc : c.isDigit = true) (h : sameLetter c a = true) :
    a = c := by
  have hdigit := isDigit_iff.mp hc
  have hsame : c.toLower = a.toLower := eq_of_beq h
  rw [toLower_of_not_upper (by omega)] at hsame
  by_cases ha : 65 ≤ a.val.toNat ∧ a.val.toNat ≤ 90
  · have hlower := toNat_toLower_of_upper ha
    rw [← hsame] at hlower
    omega
  · rw [hsame, toLower_of_not_upper ha]

theorem take_of_literalLength {cs input : List Char} {n : Nat} (hcs : ∀ c ∈ cs, c.isDigit = true)
    (h : literalLength cs input = some n) : input.take n = cs := by
  induction cs generalizing input n with
  | nil =>
    cases h
    rfl
  | cons c cs ih =>
    cases input with
    | nil => cases h
    | cons a input =>
      simp only [literalLength] at h
      split at h
      next hsame =>
        obtain ⟨k, hk, rfl⟩ := Option.map_eq_some_iff.mp h
        rw [List.take_succ_cons, ih (fun x hx => hcs x (List.mem_cons_of_mem _ hx)) hk,
          eq_of_sameLetter (hcs c List.mem_cons_self) hsame]
      · cases h

/-- A longest match that is not empty is one of the alternatives. -/
theorem take_longestOf {alternatives : List (List Char)} {input : List Char}
    (hdigits : ∀ s ∈ alternatives, ∀ c ∈ s, c.isDigit = true)
    (hpos : 0 < longestOf alternatives input) :
    input.take (longestOf alternatives input) ∈ alternatives := by
  have hmem : ∀ l : List Nat, 0 < l.foldr max 0 → l.foldr max 0 ∈ l := by
    intro l
    induction l with
    | nil => exact fun h => absurd h (Nat.lt_irrefl 0)
    | cons x l ih =>
      intro h
      rw [List.foldr_cons] at h ⊢
      rcases max_choice x (l.foldr max 0) with hmax | hmax
      · rw [hmax]
        exact List.mem_cons_self
      · rw [hmax] at h ⊢
        exact List.mem_cons_of_mem _ (ih h)
  obtain ⟨s, hs, hlength⟩ := List.mem_filterMap.mp (hmem _ hpos)
  have htake : input.take (longestOf alternatives input) = s :=
    take_of_literalLength (hdigits s hs) hlength
  rw [htake]
  exact hs

theorem ids_digits : ∀ s ∈ ids, ∀ c ∈ s, c.isDigit = true := by simp [ids]

theorem atoi_ids : ∀ s ∈ ids, (atoi s).toNat < 16 := by decide +kernel

theorem atoi_letterId {letter : Char} {input : List Char} (h : 0 < letterIdLength letter input) :
    (atoi ((input.take (letterIdLength letter input)).drop 1)).toNat < 16 := by
  cases input with
  | nil => cases h
  | cons a input =>
    simp only [letterIdLength] at h ⊢
    split at h
    next hid =>
      rw [if_pos hid, List.take_succ_cons, List.drop_one, List.tail_cons]
      exact atoi_ids _ (take_longestOf ids_digits hid.2)
    · cases h

theorem lex_lexical {text : List Char} {t : Token} (h : .token t ∈ lex text) : t.Lexical := by
  have hall : ∀ x ∈ lex text, ∀ t : Token, x = .token t → t.Lexical := by
    refine scan_forall (P := fun x => ∀ t : Token, x = Lexed.token t → t.Lexical) ?_
    intro r hr input _ hpos t ht
    rcases List.mem_append.mp hr with hr | hr
    · obtain ⟨⟨name, form, opcode⟩, hmem, rfl⟩ := List.mem_map.mp hr
      cases ht
      exact ⟨name, hmem⟩
    · simp only [List.mem_cons, List.not_mem_nil, or_false] at hr
      rcases hr with rfl | rfl | rfl | rfl | rfl | rfl | rfl | rfl | rfl
      · cases ht
        trivial
      · cases ht
        exact atoi_letterId hpos
      · cases ht
        exact atoi_letterId hpos
      · cases ht
        trivial
      · cases ht
        trivial
      · simp only [controlAction] at ht
        split at ht <;> cases ht <;> trivial
      · cases ht
      · cases ht
      · cases ht
  exact hall _ h t rfl

end Rbml.Asm
