import Rbml.Asm.MpcGrammar
import Rbml.Mpc.Constructors

/-!
# The parsers of the other front end (`rbml_parser_mpc.c`)

The graph of parsers that `parser_init` has `mpca_lang` make of its grammar string: the rules in the order
of the string, each with the parsers that the functions of `mpca_lang` and `mpc_re` allocate for it. The
names are the arguments of `mpca_lang` in their order, by which a reference finds its rule.

Each rule computes what the definition of the same name in `Rbml.Asm.MpcGrammar` does
(`realizes_rule`), taken in an order in which a rule comes after those that it refers to. So `mpc_parse`
of a line ends, with a tree that stands for the one of `MpcGrammar.line` or with an error where it has
none.
-/

namespace Rbml.Asm.MpcGraph

open Rbml.Lib Rbml.Mpc Rbml.Mpc.Graph

/-! ## The rules -/

def names : List String :=
  ["line", "label", "instruction", "word", "inst0", "inst1a", "inst1r", "inst2rr", "inst2ra", "reg",
    "disk", "ident", "number", "hex", "dec"]

/-- `mpca_grammar_find_parser` -/
def mpcaGrammarFindParser (x : String) : Ptr := names.idxOf x

/-- A reference to a rule -/
def refer (x : String) : Alloc := mpcafGrammarId x (mpcaGrammarFindParser x)

/-- Alternatives that are strings -/
def strings (s : String) (ss : List String) : Alloc :=
  mpcafGrammarOr [mpcafGrammarString s] (ss.map fun s => [mpcafGrammarString s])

/-- A class of characters in a regular expression -/
def range (s : String) : Alloc := mpcfReRange s.toList

/-- `[+-]?` -/
def signRe : Alloc := mpcMaybeLift (range "+-") mpcfCtorStr

/-- `line: /^/ <label>? <instruction>? /$/` -/
def line : Alloc :=
  mpcafGrammarAnd [mpcafGrammarRegex (mpcfReAnd [mpcfReEscape '^']), mpcMaybe (refer "label"),
    mpcMaybe (refer "instruction"), mpcafGrammarRegex (mpcfReAnd [mpcfReEscape '$'])]

/-- `label: <ident> ':'` -/
def label : Alloc := mpcafGrammarAnd [refer "ident", mpcafGrammarChar ':']

/-- `instruction: (<word>|<inst0>|<inst1a>|<inst1r>|<inst2rr>|<inst2ra>)` -/
def instruction : Alloc :=
  mpcafGrammarAnd [mpcafGrammarOr [refer "word"]
    [[refer "inst0"], [refer "inst1a"], [refer "inst1r"], [refer "inst2rr"], [refer "inst2ra"]]]

/-- `word: "WORD" <number>` -/
def word : Alloc := mpcafGrammarAnd [mpcafGrammarString "WORD", refer "number"]

/-- `inst0: ("END"|"HALT"|"HERR")` -/
def inst0 : Alloc := mpcafGrammarAnd [strings "END" ["HALT", "HERR"]]

/-- `inst1a: ("BRAN"|"BRGT"|...) <ident>` -/
def inst1a : Alloc :=
  mpcafGrammarAnd [strings "BRAN"
      ["BRGT", "BRLT", "BREQ", "BRGE", "BRLE", "BRER", "BROF", "BRIO", "BRDZ",
       "CALL", "CAGT", "CALT", "CAEQ", "CAGE", "CALE", "CAER", "CAOF", "CAIO", "CADZ"],
    refer "ident"]

/-- `inst1r: ("COMP") <reg>` -/
def inst1r : Alloc := mpcafGrammarAnd [strings "COMP" [], refer "reg"]

/-- `inst2rr: ("ADD"|"SUB"|...) <reg> ',' <reg>` -/
def inst2rr : Alloc :=
  mpcafGrammarAnd [strings "ADD"
      ["SUB", "DIV", "MULT", "MOD", "MOV", "CJNT", "DJNT", "LSFT", "RSFT", "CMP"],
    refer "reg", mpcafGrammarChar ',', refer "reg"]

/-- `inst2ra: ("STO"|"LOD") <reg> ',' <ident>` -/
def inst2ra : Alloc :=
  mpcafGrammarAnd [strings "STO" ["LOD"], refer "reg", mpcafGrammarChar ',', refer "ident"]

/-- `reg: /[rR][0-9]+/` -/
def reg : Alloc :=
  mpcafGrammarAnd [mpcafGrammarRegex (mpcfReAnd [range "rR", mpcMany1 mpcfStrfold (range "0-9")])]

/-- `disk: /[dD][0-9]+/` -/
def disk : Alloc :=
  mpcafGrammarAnd [mpcafGrammarRegex (mpcfReAnd [range "dD", mpcMany1 mpcfStrfold (range "0-9")])]

/-- `ident: /[_a-zA-Z][_a-zA-Z0-9]*/` -/
def ident : Alloc :=
  mpcafGrammarAnd
    [mpcafGrammarRegex (mpcfReAnd [range "_a-zA-Z", mpcMany mpcfStrfold (range "_a-zA-Z0-9")])]

/-- `number: (<hex>|<dec>)` -/
def number : Alloc := mpcafGrammarAnd [mpcafGrammarOr [refer "hex"] [[refer "dec"]]]

/-- `hex: /[+-]?0x[0-9a-fA-F]+/` -/
def hex : Alloc :=
  mpcafGrammarAnd [mpcafGrammarRegex (mpcfReAnd [signRe, mpcfReEscape '0', mpcfReEscape 'x',
    mpcMany1 mpcfStrfold (range "0-9a-fA-F")])]

/-- `dec: /[+-]?[0-9]+/` -/
def dec : Alloc :=
  mpcafGrammarAnd [mpcafGrammarRegex (mpcfReAnd [signRe, mpcMany1 mpcfStrfold (range "0-9")])]

def rules : List Alloc :=
  [line, label, instruction, word, inst0, inst1a, inst1r, inst2rr, inst2ra, reg, disk, ident, number,
    hex, dec]

/-- The graph that `parser_init` makes -/
def parserInit : Ptr → MpcParser Val := mpcaLang rules

/-! ## Classes of characters -/

/-- A class is given by its ASCII characters. -/
theorem class_of_ascii {cs : List Char} {cond : Char → Bool}
    (hascii : ∀ n < 128, cs.contains (Char.ofNat n) = cond (Char.ofNat n))
    (hcs : cs.all (fun c => c.toNat < 128) = true) (hcond : ∀ c : Char, 128 ≤ c.toNat → cond c = false) :
    (fun c => cs.contains c) = cond := by
  funext c
  by_cases hc : c.toNat < 128
  · have hsame := hascii c.toNat hc
    rwa [Char.ofNat_toNat] at hsame
  · have hnot : c ∉ cs := fun hmem => hc (of_decide_eq_true (List.all_eq_true.mp hcs c hmem))
    rw [hcond c (Nat.le_of_not_lt hc)]
    exact List.contains_eq_mem c cs ▸ decide_eq_false hnot

theorem not_le_of_ascii {c d : Char} (hc : 128 ≤ c.toNat) (hd : d.toNat < 128) :
    ¬ c.val ≤ d.val := by
  intro hle
  have hnat : c.toNat ≤ d.toNat := UInt32.le_iff_toNat_le.mp hle
  omega

theorem beq_ascii {c d : Char} (hc : 128 ≤ c.toNat) (hd : d.toNat < 128) : (c == d) = false := by
  rw [beq_eq_false_iff_ne]
  rintro rfl
  omega

theorem isDigit_eq_false {c : Char} (hc : 128 ≤ c.toNat) : c.isDigit = false := by
  rw [Char.isDigit, decide_eq_false (not_le_of_ascii (d := '9') hc (by decide)), Bool.and_false]

theorem toLower_eq {c : Char} (hc : 128 ≤ c.toNat) : c.toLower = c :=
  dif_neg fun h => not_le_of_ascii (d := 'Z') hc (by decide) h.2

theorem isIdentStart_eq_false {c : Char} (hc : 128 ≤ c.toNat) : isIdentStart c = false := by
  have hle : ¬ c ≤ 'z' := not_le_of_ascii hc (by decide)
  rw [isIdentStart, toLower_eq hc, beq_ascii hc (by decide), decide_eq_false hle, Bool.and_false]
  rfl

/-- `[0-9]` -/
theorem class_digit : (fun c => (rangeChars none "0-9".toList).contains c) = Char.isDigit :=
  class_of_ascii (by decide) (by decide) fun _ hc => isDigit_eq_false hc

/-- `[0-9a-fA-F]` -/
theorem class_hexDigit :
    (fun c => (rangeChars none "0-9a-fA-F".toList).contains c) = Char.isHexDigit := by
  refine class_of_ascii (by decide) (by decide) fun c hc => ?_
  have hf := not_le_of_ascii (d := 'f') hc (by decide)
  have hF := not_le_of_ascii (d := 'F') hc (by decide)
  rw [Char.isHexDigit, isDigit_eq_false hc]
  simp only [decide_eq_false hf, decide_eq_false hF, Bool.and_false, Bool.or_false]

/-- `[_a-zA-Z]` -/
theorem class_identStart :
    (fun c => (rangeChars none "_a-zA-Z".toList).contains c) = isIdentStart :=
  class_of_ascii (by decide) (by decide) fun _ hc => isIdentStart_eq_false hc

/-- `[_a-zA-Z0-9]` -/
theorem class_identRest :
    (fun c => (rangeChars none "_a-zA-Z0-9".toList).contains c) = isIdentRest := by
  refine class_of_ascii (by decide) (by decide) fun c hc => ?_
  rw [isIdentRest, isIdentStart_eq_false hc, isDigit_eq_false hc]
  rfl

/-- `[+-]` -/
theorem class_sign :
    (fun c => (rangeChars none "+-".toList).contains c) = fun c => c == '+' || c == '-' := by
  refine class_of_ascii (by decide) (by decide) fun c hc => ?_
  rw [beq_ascii hc (by decide), beq_ascii hc (by decide)]
  rfl

/-- `[rR]` -/
theorem class_reg :
    (fun c => (rangeChars none "rR".toList).contains c) = fun c => c == 'r' || c == 'R' := by
  refine class_of_ascii (by decide) (by decide) fun c hc => ?_
  rw [beq_ascii hc (by decide), beq_ascii hc (by decide)]
  rfl

/-! ## What the rules compute -/

section
variable {nodes : Ptr → MpcParser Val}

theorem makes_range {s : String} {cond : Char → Bool}
    (hs : mpcfReRange s.toList = Graph.mpcOneof (rangeChars none s.toList))
    (hclass : (fun c => (rangeChars none s.toList).contains c) = cond) :
    Makes nodes (range s) (Mpc.mpcOneof cond) IsText := by
  rw [range, hs, ← hclass]
  exact makes_oneof _

theorem makes_signRe : Makes nodes signRe MpcGrammar.signRe IsText :=
  makes_maybeLift (makes_range rfl class_sign) rfl

theorem makes_digits :
    Makes nodes (mpcMany1 mpcfStrfold (range "0-9")) (Mpc.mpcMany1 Char.isDigit) IsText :=
  makes_many1 (makes_range rfl class_digit)

theorem makes_anchorRe {a : Alloc} {q : Mpc.Parser Unit} (ha : Makes nodes a q fun _ v => v = .null) :
    Makes nodes (mpcfReAnd [mpcAnd mpcfSnd a (mpcLift mpcfCtorStr)]) (MpcGrammar.anchorRe q) IsText :=
  makes_reAnd (.cons (makes_and ha (makes_lift rfl) fun _ _ _ _ _ hv => hv) .nil)

theorem makes_strings (s : String) (ss : List String) :
    Makes nodes (strings s ss) (MpcGrammar.strings s ss) Stands := by
  refine makes_grammarOr (.cons (makes_grammarString s) .nil) ?_
  rw [List.forall₂_map_left_iff, List.forall₂_map_right_iff]
  exact List.forall₂_same.mpr fun s _ => .cons (makes_grammarString s) .nil

end

/-- The rule of this name computes `q`. -/
def Computes (name : String) (q : Mpc.Parser (Option Ast)) : Prop :=
  Realizes vals parserInit (mpcaGrammarFindParser name) q Stands

theorem Computes.refer {name : String} {q : Mpc.Parser (Option Ast)} (h : Computes name q) :
    Makes parserInit (refer name) (grammarId name q) Stands :=
  makes_grammarId h name

/-- A rule computes its factors in order. -/
theorem computes_rule {name : String} {xs : List Alloc} {qs : List (Mpc.Parser (Option Ast))}
    (hrule : rules[mpcaGrammarFindParser name]? = some (mpcafGrammarAnd xs))
    (h : List.Forall₂ (fun a q => Makes parserInit a q Stands) xs qs) :
    Computes name (grammarAnd qs) :=
  realizes_rule hrule (makes_grammarAnd h)

theorem computes_dec : Computes "dec" MpcGrammar.dec :=
  computes_rule rfl
    (.cons (makes_grammarRegex (makes_reAnd (.cons makes_signRe (.cons makes_digits .nil)))) .nil)

theorem computes_hex : Computes "hex" MpcGrammar.hex := by
  have hdigits : Makes parserInit (mpcMany1 mpcfStrfold (range "0-9a-fA-F"))
      (Mpc.mpcMany1 Char.isHexDigit) IsText :=
    makes_many1 (makes_range rfl class_hexDigit)
  have hre := makes_reAnd (.cons makes_signRe (.cons (makes_char '0') (.cons (makes_char 'x')
    (.cons hdigits .nil))))
  exact computes_rule rfl (.cons (makes_grammarRegex hre) .nil)

theorem computes_number : Computes "number" MpcGrammar.number := by
  have hor := makes_grammarOr (.cons computes_hex.refer .nil) (.cons (.cons computes_dec.refer .nil) .nil)
  exact computes_rule rfl (.cons hor .nil)

theorem computes_ident : Computes "ident" MpcGrammar.ident := by
  have hrest : Makes parserInit (mpcMany mpcfStrfold (range "_a-zA-Z0-9")) (Mpc.mpcMany isIdentRest)
      IsText :=
    makes_many (makes_range rfl class_identRest)
  have hre := makes_reAnd (.cons (makes_range rfl class_identStart) (.cons hrest .nil))
  exact computes_rule rfl (.cons (makes_grammarRegex hre) .nil)

theorem computes_reg : Computes "reg" MpcGrammar.reg :=
  computes_rule rfl (.cons (makes_grammarRegex (makes_reAnd (.cons (makes_range rfl class_reg)
    (.cons makes_digits .nil)))) .nil)

theorem computes_inst2ra : Computes "inst2ra" MpcGrammar.inst2ra :=
  computes_rule rfl (.cons (makes_strings _ _) (.cons computes_reg.refer
    (.cons (makes_grammarChar ',') (.cons computes_ident.refer .nil))))

theorem computes_inst2rr : Computes "inst2rr" MpcGrammar.inst2rr :=
  computes_rule rfl (.cons (makes_strings _ _) (.cons computes_reg.refer
    (.cons (makes_grammarChar ',') (.cons computes_reg.refer .nil))))

theorem computes_inst1r : Computes "inst1r" MpcGrammar.inst1r :=
  computes_rule rfl (.cons (makes_strings _ _) (.cons computes_reg.refer .nil))

theorem computes_inst1a : Computes "inst1a" MpcGrammar.inst1a :=
  computes_rule rfl (.cons (makes_strings _ _) (.cons computes_ident.refer .nil))

theorem computes_inst0 : Computes "inst0" MpcGrammar.inst0 :=
  computes_rule rfl (.cons (makes_strings _ _) .nil)

theorem computes_word : Computes "word" MpcGrammar.word :=
  computes_rule rfl (.cons (makes_grammarString "WORD") (.cons computes_number.refer .nil))

theorem computes_instruction : Computes "instruction" MpcGrammar.instruction := by
  have hor := makes_grammarOr (.cons computes_word.refer .nil)
    (.cons (.cons computes_inst0.refer .nil) (.cons (.cons computes_inst1a.refer .nil)
      (.cons (.cons computes_inst1r.refer .nil) (.cons (.cons computes_inst2rr.refer .nil)
        (.cons (.cons computes_inst2ra.refer .nil) .nil)))))
  exact computes_rule rfl (.cons hor .nil)

theorem computes_label : Computes "label" MpcGrammar.label :=
  computes_rule rfl (.cons computes_ident.refer (.cons (makes_grammarChar ':') .nil))

theorem computes_line : Computes "line" MpcGrammar.line :=
  computes_rule rfl (.cons (makes_grammarRegex (makes_anchorRe makes_soi))
    (.cons (makes_maybe computes_label.refer) (.cons (makes_maybe computes_instruction.refer)
      (.cons (makes_grammarRegex (makes_anchorRe makes_eoi)) .nil))))

/-! ## Lines -/

/-- `mpc_parse` of a line without `\0` ends: with a tree that stands for the one that the grammar gives,
or, where it gives none, with an error. -/
theorem mpcParseString_line (filename : String) {s : List Char} (hs : '\x00' ∉ s) :
    (∀ x, mpcParse MpcGrammar.line s = some x → ∃ v, Stands x v ∧
      Settles (fun fuel => mpcParseString vals parserInit fuel filename s (mpcaGrammarFindParser "line"))
        (.output v)) ∧
    (mpcParse MpcGrammar.line s = none → ∃ e,
      Settles (fun fuel => mpcParseString vals parserInit fuel filename s (mpcaGrammarFindParser "line"))
        (.error e)) :=
  computes_line.settles filename hs

theorem mpcParseString_line_end :
    (∃ x v, mpcParse MpcGrammar.line "END".toList = some x ∧ Stands x v ∧
      Settles (fun fuel => mpcParseString vals parserInit fuel "a" "END".toList
        (mpcaGrammarFindParser "line")) (.output v)) ∧
    mpcParse MpcGrammar.line "END ,".toList = none ∧
    ∃ e, Settles (fun fuel => mpcParseString vals parserInit fuel "a" "END ,".toList
      (mpcaGrammarFindParser "line")) (.error e) := by
  have hsome : (mpcParse MpcGrammar.line "END".toList).isSome = true := by decide
  have hnone : (mpcParse MpcGrammar.line "END ,".toList).isNone = true := by decide
  obtain ⟨x, hx⟩ := Option.isSome_iff_exists.mp hsome
  obtain ⟨v, hv, hend⟩ := (mpcParseString_line "a" (by decide)).1 x hx
  have hnil := Option.isNone_iff_eq_none.mp hnone
  exact ⟨⟨x, v, hx, hv, hend⟩, hnil, (mpcParseString_line "a" (by decide)).2 hnil⟩

end Rbml.Asm.MpcGraph
