import Mathlib.Data.List.Forall2
import Rbml.Asm.Lexer
import Rbml.Mpc.Ast

/-!
# The grammar of the other front end (`rbml_parser_mpc.c`)

The rules of the grammar string of `parser_init`, in its order, from below. The rule `disk` is in the
string, and no other rule refers to it.

`mpcParse_line` says what a line that is parsed consists of and which tree it gives: an optional
label and an optional instruction, each with blanks after it. Of the instructions only `WORD` and its
number are taken apart. The others are told from it by the mnemonic that they begin with.
-/

namespace Rbml.Asm.MpcGrammar

open Rbml.Mpc

/-! ## The rules -/

/-- `[+-]?` -/
def signRe : Mpc.Parser (List Char) := mpcMaybeLift [] (mpcOneof fun c => c == '+' || c == '-')

/-- `dec: /[+-]?[0-9]+/` -/
def dec : Mpc.Parser (Option Ast) :=
  grammarAnd [grammarRegex (mpcReAnd [signRe, mpcMany1 Char.isDigit])]

/-- `hex: /[+-]?0x[0-9a-fA-F]+/` -/
def hex : Mpc.Parser (Option Ast) :=
  grammarAnd [grammarRegex
    (mpcReAnd [signRe, mpcChar '0', mpcChar 'x', mpcMany1 Char.isHexDigit])]

/-- `number: (<hex>|<dec>)` -/
def number : Mpc.Parser (Option Ast) :=
  grammarAnd [grammarOr [grammarId "hex" hex] [[grammarId "dec" dec]]]

/-- `ident: /[_a-zA-Z][_a-zA-Z0-9]*/` -/
def ident : Mpc.Parser (Option Ast) :=
  grammarAnd [grammarRegex (mpcReAnd [mpcOneof isIdentStart, mpcMany isIdentRest])]

/-- `reg: /[rR][0-9]+/` -/
def reg : Mpc.Parser (Option Ast) :=
  grammarAnd [grammarRegex (mpcReAnd [mpcOneof fun c => c == 'r' || c == 'R', mpcMany1 Char.isDigit])]

/-- Alternatives that are strings -/
def strings (s : String) (ss : List String) : Mpc.Parser (Option Ast) :=
  grammarOr [grammarString s] (ss.map fun s => [grammarString s])

/-- `inst2ra: ("STO"|"LOD") <reg> ',' <ident>` -/
def inst2ra : Mpc.Parser (Option Ast) :=
  grammarAnd [strings "STO" ["LOD"], grammarId "reg" reg, grammarChar ',', grammarId "ident" ident]

/-- `inst2rr: ("ADD"|"SUB"|...) <reg> ',' <reg>` -/
def inst2rr : Mpc.Parser (Option Ast) :=
  grammarAnd [strings "ADD"
      ["SUB", "DIV", "MULT", "MOD", "MOV", "CJNT", "DJNT", "LSFT", "RSFT", "CMP"],
    grammarId "reg" reg, grammarChar ',', grammarId "reg" reg]

/-- `inst1r: ("COMP") <reg>` -/
def inst1r : Mpc.Parser (Option Ast) := grammarAnd [strings "COMP" [], grammarId "reg" reg]

/-- `inst1a: ("BRAN"|"BRGT"|...) <ident>` -/
def inst1a : Mpc.Parser (Option Ast) :=
  grammarAnd [strings "BRAN"
      ["BRGT", "BRLT", "BREQ", "BRGE", "BRLE", "BRER", "BROF", "BRIO", "BRDZ",
       "CALL", "CAGT", "CALT", "CAEQ", "CAGE", "CALE", "CAER", "CAOF", "CAIO", "CADZ"],
    grammarId "ident" ident]

/-- `inst0: ("END"|"HALT"|"HERR")` -/
def inst0 : Mpc.Parser (Option Ast) := grammarAnd [strings "END" ["HALT", "HERR"]]

/-- `word: "WORD" <number>` -/
def word : Mpc.Parser (Option Ast) := grammarAnd [grammarString "WORD", grammarId "number" number]

/-- `instruction: (<word>|<inst0>|<inst1a>|<inst1r>|<inst2rr>|<inst2ra>)` -/
def instruction : Mpc.Parser (Option Ast) :=
  grammarAnd [grammarOr [grammarId "word" word]
    [[grammarId "inst0" inst0], [grammarId "inst1a" inst1a], [grammarId "inst1r" inst1r],
     [grammarId "inst2rr" inst2rr], [grammarId "inst2ra" inst2ra]]]

/-- `label: <ident> ':'` -/
def label : Mpc.Parser (Option Ast) := grammarAnd [grammarId "ident" ident, grammarChar ':']

/-- An anchor as a regular expression: it reads nothing. -/
def anchorRe (p : Mpc.Parser Unit) : Mpc.Parser (List Char) :=
  mpcReAnd [mpcAnd (fun _ x => x) p (mpcLift [])]

/-- `line: /^/ <label>? <instruction>? /$/` -/
def line : Mpc.Parser (Option Ast) :=
  grammarAnd [grammarRegex (anchorRe mpcSoi), mpcMaybe (grammarId "label" label),
    mpcMaybe (grammarId "instruction" instruction), grammarRegex (anchorRe mpcEoi)]

/-! ## What the rules read -/

/-- An optional sign -/
def SignText (s : List Char) : Prop := s = [] ∨ s = ['+'] ∨ s = ['-']

/-- The texts of `number` -/
inductive NumberText : List Char → Prop
  | dec {s digits : List Char} (hs : SignText s) (hne : digits ≠ [])
      (hdigits : ∀ c ∈ digits, c.isDigit = true) : NumberText (s ++ digits)
  | hex {s digits : List Char} (hs : SignText s) (hne : digits ≠ [])
      (hdigits : ∀ c ∈ digits, c.isHexDigit = true) : NumberText (s ++ '0' :: 'x' :: digits)

def White (w : List Char) : Prop := ∀ c ∈ w, isWhitespace c = true

/-- A leaf and the blanks after its text -/
def ReadsLeaf (L : List Char → Prop) (m : List Char) (x : Option Ast) (_ : List Char) : Prop :=
  ∃ tag t w, m = t ++ w ∧ L t ∧ White w ∧ x = some (.node tag t [])

theorem reads_regex {re : Mpc.Parser (List Char)} {L : List Char → Prop}
    (h : Reads re fun m x _ => x = m ∧ L m) : Reads (grammarRegex re) (ReadsLeaf L) := by
  refine (reads_leafOf h "regex").mono ?_
  intro m x _ ⟨t, w, hm, ht, hw, hx⟩
  exact ⟨_, t, w, hm, ht, hw, hx⟩

theorem reads_grammarString (s : String) :
    Reads (grammarString s) (ReadsLeaf fun t => t = s.toList) := by
  refine (reads_leafOf (reads_string s.toList) "string").mono ?_
  intro m x _ ⟨t, w, hm, ht, hw, hx⟩
  exact ⟨_, t, w, hm, ht, hw, hx⟩

theorem reads_char (c : Char) : Reads (mpcChar c) fun m x _ => x = m ∧ m = [c] := by
  refine (reads_oneof (· == c)).mono ?_
  intro m x _ ⟨hx, d, hm, hd⟩
  exact ⟨hx, by rw [hm, eq_of_beq hd]⟩

theorem reads_grammarChar (c : Char) : Reads (grammarChar c) (ReadsLeaf fun t => t = [c]) := by
  refine (reads_leafOf (reads_char c) "char").mono ?_
  intro m x _ ⟨t, w, hm, ht, hw, hx⟩
  exact ⟨_, t, w, hm, ht, hw, hx⟩

/-- A reference to a rule that gives a leaf gives a leaf. -/
theorem reads_id_leaf {p : Mpc.Parser (Option Ast)} {L : List Char → Prop}
    (h : Reads p (ReadsLeaf L)) (name : String) : Reads (grammarId name p) (ReadsLeaf L) := by
  refine (reads_grammarId h name).mono ?_
  intro m y _ ⟨x, ⟨tag, t, w, hm, ht, hw, hx⟩, hy⟩
  exact ⟨_, t, w, hm, ht, hw, by rw [hy, hx]; rfl⟩

theorem readsLeaf_mono {L L' : List Char → Prop} {p : Mpc.Parser (Option Ast)}
    (h : Reads p (ReadsLeaf L)) (hL : ∀ t, L t → L' t) : Reads p (ReadsLeaf L') := by
  refine h.mono ?_
  intro m x _ ⟨tag, t, w, hm, ht, hw, hx⟩
  exact ⟨tag, t, w, hm, hL t ht, hw, hx⟩

theorem reads_sign : Reads signRe fun m x _ => x = m ∧ SignText m := by
  refine ((reads_oneof _).maybeLift []).mono ?_
  intro m x _ h
  rcases h with ⟨hx, c, hm, hc⟩ | ⟨hm, hx⟩
  · refine ⟨hx, ?_⟩
    simp only [Bool.or_eq_true, beq_iff_eq] at hc
    rcases hc with rfl | rfl
    · exact .inr (.inl hm)
    · exact .inr (.inr hm)
  · exact ⟨hx.trans hm.symm, .inl hm⟩

theorem reads_dec : Reads dec (ReadsLeaf NumberText) := by
  refine reads_grammarAnd_singleton (reads_regex ((reads_reAnd
    (.cons reads_sign (.cons (reads_many1 _) .nil))).mono ?_))
  intro m x _ ⟨hx, ms, hms, hm⟩
  cases hms with
  | cons hs hms =>
    cases hms with
    | cons hdigits hms =>
      cases hms
      refine ⟨hx, ?_⟩
      rw [hm]
      simpa using NumberText.dec hs hdigits.1 hdigits.2

theorem reads_hex : Reads hex (ReadsLeaf NumberText) := by
  have hparts := reads_reAnd (.cons reads_sign (.cons (reads_char '0') (.cons (reads_char 'x')
    (.cons (reads_many1 Char.isHexDigit) .nil))))
  refine reads_grammarAnd_singleton (reads_regex (hparts.mono ?_))
  intro m x _ ⟨hx, ms, hms, hm⟩
  cases hms with
  | cons hs hms =>
    cases hms with
    | cons h0 hms =>
      cases hms with
      | cons hx' hms =>
        cases hms with
        | cons hdigits hms =>
          cases hms
          refine ⟨hx, ?_⟩
          rw [hm, h0, hx']
          simpa using NumberText.hex hs hdigits.1 hdigits.2

theorem reads_number : Reads number (ReadsLeaf NumberText) := by
  refine reads_grammarAnd_singleton (reads_grammarOr
    (reads_grammarAnd_singleton (reads_id_leaf reads_hex "hex")) ?_)
  intro t ht
  obtain rfl := List.mem_singleton.mp ht
  exact reads_grammarAnd_singleton (reads_id_leaf reads_dec "dec")

/-- A character of one class, and then characters of another one -/
theorem reads_classes {p r : Char → Bool} {q : Mpc.Parser (List Char)}
    (hq : Reads q fun m x _ => x = m ∧ ∀ c ∈ m, r c = true) (hp : p ':' = false)
    (hr : r ':' = false) :
    Reads (grammarAnd [grammarRegex (mpcReAnd [mpcOneof p, q])]) (ReadsLeaf fun t => ':' ∉ t) := by
  refine reads_grammarAnd_singleton (reads_regex ((reads_reAnd
    (.cons (reads_oneof p) (.cons hq .nil))).mono ?_))
  intro m x _ ⟨hx, ms, hms, hm⟩
  cases hms with
  | cons hfirst hms =>
    cases hms with
    | cons hrest hms =>
      cases hms
      refine ⟨hx, ?_⟩
      obtain ⟨c, rfl, hc⟩ := hfirst
      intro hmem
      rw [hm] at hmem
      rcases List.mem_cons.mp hmem with rfl | hmem
      · exact Bool.false_ne_true (hp.symm.trans hc)
      · rw [List.flatten_singleton] at hmem
        exact Bool.false_ne_true (hr.symm.trans (hrest _ hmem))

theorem reads_ident : Reads ident (ReadsLeaf fun t => ':' ∉ t) :=
  reads_classes (reads_many isIdentRest) (by decide) (by decide)

theorem reads_reg : Reads reg (ReadsLeaf fun t => ':' ∉ t) :=
  reads_classes ((reads_many1 Char.isDigit).mono fun _ _ _ h => ⟨h.1, h.2.2⟩) (by decide)
    (by decide)

theorem reads_strings (s : String) (ss : List String) :
    Reads (strings s ss) (ReadsLeaf fun t => ∃ u ∈ s :: ss, t = u.toList) := by
  have hstring : ∀ u ∈ s :: ss,
      Reads (grammarAnd [grammarString u]) (ReadsLeaf fun t => ∃ u ∈ s :: ss, t = u.toList) :=
    fun u hu => reads_grammarAnd_singleton
      (readsLeaf_mono (reads_grammarString u) fun t ht => ⟨u, hu, ht⟩)
  refine reads_grammarOr (hstring s List.mem_cons_self) ?_
  intro t ht
  obtain ⟨u, hu, rfl⟩ := List.mem_map.mp ht
  exact hstring u (List.mem_cons_of_mem _ hu)

/-! ## The instructions -/

/-- The mnemonics of the instructions other than `WORD` -/
def mpcMnemonics : List String :=
  ["STO", "LOD", "ADD", "SUB", "DIV", "MULT", "MOD", "MOV", "CJNT", "DJNT", "LSFT", "RSFT", "CMP",
   "COMP", "BRAN", "BRGT", "BRLT", "BREQ", "BRGE", "BRLE", "BRER", "BROF", "BRIO", "BRDZ",
   "CALL", "CAGT", "CALT", "CAEQ", "CAGE", "CALE", "CAER", "CAOF", "CAIO", "CADZ",
   "END", "HALT", "HERR"]

/-- Another instruction than `WORD`, from its mnemonic on -/
def OtherText (m : List Char) : Prop := (∃ u ∈ mpcMnemonics, u.toList <+: m) ∧ ':' ∉ m

/-- A tree that is nothing to the loop of `parser_parse_line` that emits words -/
def OtherTag (tag : String) : Prop := tag ≠ "word|>" ∧ tag ≠ "label|>"

theorem otherTag_append {name : String} (t : String)
    (hname : name.toList.head?.any fun c => c != 'w' && c != 'l') : OtherTag (name ++ t) := by
  obtain ⟨c, l, hl⟩ : ∃ c l, name.toList = c :: l := by
    cases h : name.toList with
    | nil =>
      rw [h] at hname
      cases hname
    | cons c l => exact ⟨c, l, rfl⟩
  have hc : c ≠ 'w' ∧ c ≠ 'l' := by simpa [hl] using hname
  refine ⟨?_, ?_⟩
  · intro h
    have hchars := congrArg String.toList h
    rw [String.toList_append, hl] at hchars
    exact hc.1 (List.cons.inj hchars).1
  · intro h
    have hchars := congrArg String.toList h
    rw [String.toList_append, hl] at hchars
    exact hc.2 (List.cons.inj hchars).1

/-- The tree of another instruction: a leaf, or one part -/
def OtherTree (x : Option Ast) : Prop :=
  ∃ a, x = some a ∧ (a.children = [] ∨ ∃ b, a.children = [b] ∧ OtherTag b.tag)

theorem white_colon {w : List Char} (hw : White w) : ':' ∉ w :=
  fun h => absurd (hw ':' h) (by decide)

theorem readsLeaf_colon {L : List Char → Prop} {p : Mpc.Parser (Option Ast)}
    (h : Reads p (ReadsLeaf L)) (hL : ∀ t, L t → ':' ∉ t) : Reads p fun m _ _ => ':' ∉ m := by
  refine h.mono ?_
  intro m x _ ⟨tag, t, w, hm, ht, hw, hx⟩
  rw [hm, List.mem_append, not_or]
  exact ⟨hL t ht, white_colon hw⟩

theorem mpcMnemonics_colon : ∀ u ∈ mpcMnemonics, ':' ∉ u.toList := by decide

/-- A mnemonic and operands -/
theorem reads_form {s : String} {ss : List String} {ps : List (Mpc.Parser (Option Ast))}
    {name : String} (hss : ∀ u ∈ s :: ss, u ∈ mpcMnemonics) (hne : ps ≠ [])
    (hps : ∀ p ∈ ps, Reads p (ReadsLeaf fun t => ':' ∉ t))
    (hname : name.toList.head?.any fun c => c != 'w' && c != 'l') :
    Reads (grammarId name (grammarAnd (strings s ss :: ps))) fun m x _ =>
      OtherText m ∧ OtherTree x := by
  have hhead : Reads (strings s ss) (ReadsLeaf fun t => ':' ∉ t) :=
    readsLeaf_mono (reads_strings s ss) fun t ⟨u, hu, ht⟩ =>
      ht ▸ mpcMnemonics_colon u (hss u hu)
  have hall : ∀ p ∈ strings s ss :: ps, Reads p (ReadsLeaf fun t => ':' ∉ t) := by
    intro p hp
    rcases List.mem_cons.mp hp with rfl | hp
    · exact hhead
    · exact hps p hp
  have hcolon : Reads (grammarAnd (strings s ss :: ps)) fun m _ _ => ':' ∉ m := by
    refine reads_grammarAnd List.not_mem_nil ?_ fun p hp =>
      readsLeaf_colon (hall p hp) fun _ ht => ht
    intro m m' hm hm'
    rw [List.mem_append, not_or]
    exact ⟨hm, hm'⟩
  have hmnemonic : Reads (grammarAnd (strings s ss :: ps)) fun m _ _ =>
      ∃ t, t <+: m ∧ ∃ u ∈ mpcMnemonics, u.toList <+: t := by
    refine reads_grammarAnd_head ((reads_strings s ss).mono ?_)
      fun p hp => (hps p hp).mono fun _ _ _ _ => trivial
    intro m _ _ ⟨_, t, w, hm, ⟨u, hu, ht⟩, _⟩
    exact ⟨u, hss u hu, by rw [hm, ht]; exact List.prefix_append _ _⟩
  have hleaves := reads_grammarAnd_leaves fun p hp => (hall p hp).mono
    fun m x _ ⟨tag, t, w, hm, ht, hw, hx⟩ => ⟨tag, t, hx⟩
  refine (reads_grammarId ((hcolon.both hmnemonic).both hleaves) name).mono ?_
  intro m y _ ⟨x, ⟨⟨hm, t, ht, u, hu, hut⟩, hparts⟩, hy⟩
  refine ⟨⟨⟨u, hu, hut.trans ht⟩, hm⟩, ?_⟩
  have hlength : 2 ≤ (partsOf x).length := by
    rw [hparts, List.length_cons]
    exact Nat.succ_le_succ (List.length_pos_iff.mpr hne)
  cases x with
  | none => exact absurd hlength (by decide)
  | some a =>
    obtain ⟨tag, contents, children⟩ := a
    have hchildren : ¬ children.length ≤ 1 := by
      intro hle
      match children with
      | [] => simp [partsOf, Ast.parts] at hlength
      | [c] => simp [partsOf, Ast.parts] at hlength
    refine ⟨_, hy, .inr ⟨mpcAstAddTag name (.node tag contents children), ?_, ?_⟩⟩
    · simp [mpcAstAddRoot, mpcAstAddTag, hchildren]
    · show OtherTag (name ++ "|" ++ tag)
      rw [String.append_assoc]
      exact otherTag_append _ hname

theorem reads_inst0 :
    Reads (grammarId "inst0" inst0) fun m x _ => OtherText m ∧ OtherTree x := by
  refine (reads_id_leaf (reads_grammarAnd_singleton (reads_strings "END" ["HALT", "HERR"]))
    "inst0").mono ?_
  intro m x _ ⟨tag, t, w, hm, ⟨u, hu, ht⟩, hw, hx⟩
  have hsub : ∀ u ∈ ["END", "HALT", "HERR"], u ∈ mpcMnemonics := by decide
  have hmem := hsub u hu
  refine ⟨⟨⟨u, hmem, ?_⟩, ?_⟩, _, hx, .inl rfl⟩
  · rw [hm, ht]
    exact List.prefix_append _ _
  · rw [hm, ht, List.mem_append, not_or]
    exact ⟨mpcMnemonics_colon u hmem, white_colon hw⟩

/-- What is read of an instruction, if there is one, and the parts that its tree gives to the line -/
inductive ReadsInstruction : List Char → List Ast → Prop
  | none : ReadsInstruction [] []
  | word {w v w' : List Char} {tag tag' : String} (hw : White w) (hv : NumberText v)
      (hw' : White w') :
      ReadsInstruction ("WORD".toList ++ w ++ (v ++ w'))
        [.node "word|>" [] [.node tag "WORD".toList [], .node tag' v []]]
  | other {m : List Char} {a : Ast} (hm : OtherText m) (ha : OtherTag a.tag) :
      ReadsInstruction m [a]

theorem reads_word : Reads (grammarId "word" word) fun m x _ => ∃ w v w' tag tag',
    m = "WORD".toList ++ w ++ (v ++ w') ∧ White w ∧ NumberText v ∧ White w' ∧
      x = some (.node ">" []
        [.node "word|>" [] [.node tag "WORD".toList [], .node tag' v []]]) := by
  have hword := (reads_pass.and (reads_grammarString "WORD") mpcfFoldAst).and
    (reads_id_leaf reads_number "number") mpcfFoldAst
  refine (reads_grammarId hword "word").mono ?_
  intro m y _ ⟨x, ⟨_, _, _, _, hm, ⟨_, _, _, _, hm₁, ⟨h0, hx0⟩, ⟨tag, t, w, hm₂, ht, hw, hx₁⟩, hx₂⟩,
    ⟨tag', v, w', hm₃, hv, hw', hx₃⟩, hx⟩, hy⟩
  refine ⟨w, v, w', tag, tag', ?_, hw, hv, hw', ?_⟩
  · rw [hm, hm₁, h0, hm₂, hm₃, ht, List.nil_append]
  · rw [hy, hx, hx₂, hx₁, hx₃, hx0, ht]
    rfl

/-- The tree of an instruction other than `WORD`, under the name of the rule -/
theorem reads_other {p : Mpc.Parser (Option Ast)}
    (hp : Reads p fun m x _ => OtherText m ∧ OtherTree x) :
    Reads (grammarAnd [p]) fun m x _ => ReadsInstruction m
      (partsOf (x.map fun a => mpcAstAddRoot (mpcAstAddTag "instruction" a))) := by
  refine reads_grammarAnd_singleton (hp.mono ?_)
  intro m x _ ⟨hm, a, hx, ha⟩
  obtain ⟨tag, contents, children⟩ := a
  subst hx
  rcases ha with hleaf | ⟨b, hb, htag⟩
  · obtain rfl : children = [] := hleaf
    refine .other (a := .node ("instruction" ++ "|" ++ tag) contents []) hm ?_
    show OtherTag ("instruction" ++ "|" ++ tag)
    rw [String.append_assoc]
    exact otherTag_append _ (by decide)
  · obtain rfl : children = [b] := hb
    exact .other hm htag

theorem reads_instruction : Reads (mpcMaybe (grammarId "instruction" instruction))
    fun m x _ => ReadsInstruction m (partsOf x) := by
  have hword : Reads (grammarAnd [grammarId "word" word]) fun m x _ => ReadsInstruction m
      (partsOf (x.map fun a => mpcAstAddRoot (mpcAstAddTag "instruction" a))) := by
    refine reads_grammarAnd_singleton (reads_word.mono ?_)
    intro m x _ ⟨w, v, w', tag, tag', hm, hw, hv, hw', hx⟩
    rw [hm, hx]
    exact .word hw hv hw'
  have hcolon : ∀ {t : List Char}, t = [','] → ':' ∉ t := by
    rintro _ rfl
    decide
  have hident := reads_id_leaf reads_ident "ident"
  have hreg := reads_id_leaf reads_reg "reg"
  have hcomma := readsLeaf_mono (reads_grammarChar ',') fun _ ht => hcolon ht
  have hinstruction : Reads instruction fun m x _ => ReadsInstruction m
      (partsOf (x.map fun a => mpcAstAddRoot (mpcAstAddTag "instruction" a))) := by
    refine reads_grammarAnd_singleton (reads_grammarOr hword ?_)
    simp only [List.forall_mem_cons, List.not_mem_nil, false_implies, implies_true, and_true]
    refine ⟨reads_other reads_inst0, reads_other ?_, reads_other ?_, reads_other ?_, reads_other ?_⟩
    · refine reads_form (by decide) (List.cons_ne_nil _ _) ?_ (by decide)
      simpa using hident
    · refine reads_form (by decide) (List.cons_ne_nil _ _) ?_ (by decide)
      simpa using hreg
    · refine reads_form (by decide) (List.cons_ne_nil _ _) ?_ (by decide)
      simp [hreg, hcomma]
    · refine reads_form (by decide) (List.cons_ne_nil _ _) ?_ (by decide)
      simp [hreg, hcomma, hident]
  refine ((reads_grammarId hinstruction "instruction").maybeLift none).mono ?_
  intro m y _ h
  rcases h with ⟨x, hx, hy⟩ | ⟨hm, hy⟩
  · rw [hy]
    exact hx
  · rw [hm, hy]
    exact .none

/-- What is read of a label, if there is one, and the parts that its tree gives to the line -/
inductive ReadsLabel : List Char → List Ast → Prop
  | none : ReadsLabel [] []
  | label {name w w' : List Char} {tag tag' : String} (hw : White w) (hw' : White w') :
      ReadsLabel (name ++ w ++ (':' :: w'))
        [.node "label|>" [] [.node tag name [], .node tag' [':'] []]]

theorem reads_label : Reads (mpcMaybe (grammarId "label" label))
    fun m x _ => ReadsLabel m (partsOf x) := by
  have hlabel := (reads_pass.and (reads_id_leaf reads_ident "ident") mpcfFoldAst).and
    (reads_grammarChar ':') mpcfFoldAst
  refine ((reads_grammarId hlabel "label").maybeLift none).mono ?_
  intro m y _ h
  rcases h with ⟨x, ⟨_, _, _, _, hm, ⟨_, _, _, _, hm₁, ⟨h0, hx0⟩, ⟨tag, name, w, hm₂, _, hw, hx₁⟩, hx₂⟩,
    ⟨tag', t, w', hm₃, ht, hw', hx₃⟩, hx⟩, hy⟩ | ⟨hm, hy⟩
  · rw [hy, hx, hx₂, hx₁, hx₃, hx0, hm, hm₁, h0, hm₂, hm₃, ht]
    exact .label hw hw'
  · rw [hm, hy]
    exact .none

/-! ## Lines -/

/-- An anchor gives a leaf, and reads the blanks after it. -/
theorem reads_anchor {p : Mpc.Parser Unit} {P : List Char → Prop}
    (h : Reads p fun m _ rest => m = [] ∧ P rest) :
    Reads (grammarRegex (anchorRe p)) fun m x rest => White m ∧ P (m ++ rest) ∧
      x = some (.node "regex" [] []) := by
  have hlift : Reads (mpcLift ([] : List Char)) fun m x _ => m = [] ∧ x = [] := by
    intro i x i' hrun
    cases hrun
    exact ⟨[], rfl, rfl, rfl⟩
  have hre : Reads (anchorRe p) fun m x rest => m = [] ∧ x = [] ∧ P rest := by
    refine (hlift.and (h.and hlift fun _ x => x) (· ++ ·)).mono ?_
    intro m z rest ⟨_, _, _, _, hm, ⟨hm₁, hx⟩, ⟨_, _, _, _, hm₂, ⟨hm₃, hP⟩, ⟨hm₄, hy⟩, hz⟩, hx'⟩
    rw [hm₄] at hP
    exact ⟨by rw [hm, hm₁, hm₂, hm₃, hm₄]; rfl, by rw [hx', hx, hz, hy]; rfl, hP⟩
  refine (hre.tok.apply fun t => some (Ast.node "regex" t [])).mono ?_
  intro m y rest ⟨x, ⟨t, w, hm, ⟨ht, hx, hP⟩, hw⟩, hy⟩
  rw [ht, List.nil_append] at hm
  exact ⟨hm ▸ hw, hm ▸ hP, by rw [hy, hx]⟩

/-- A line that is parsed, and its tree -/
theorem mpcParse_line {s : List Char} {x : Option Ast} (h : mpcParse line s = some x) :
    ∃ w ml mi pl pi a, s = w ++ (ml ++ mi) ∧ White w ∧ ReadsLabel ml pl ∧
      ReadsInstruction mi pi ∧ x = some a ∧
        a.children = .node "regex" [] [] :: (pl ++ pi) ++ [.node "regex" [] []] := by
  have hsoi : Reads mpcSoi fun m _ _ => m = [] ∧ True :=
    reads_soi.mono fun _ _ _ hm => ⟨hm, trivial⟩
  have hline := (((reads_pass.and (reads_anchor hsoi) mpcfFoldAst).and reads_label
    mpcfFoldAst).and reads_instruction mpcfFoldAst).and (reads_anchor reads_eoi) mpcfFoldAst
  obtain ⟨m, rest, hs, _, we, z, y, hm, ⟨_, mi, z₂, yi, hm₂, ⟨_, ml, z₁, yl, hm₁, ⟨_, w, z₀, y₀, hm₀,
    ⟨hnil, hz₀⟩, ⟨hw, -, hy₀⟩, hz₁⟩, hl, hz₂⟩, hi, hz⟩, ⟨-, hend, hy⟩, hx⟩ := hline.parse h
  obtain ⟨rfl, rfl⟩ := List.append_eq_nil_iff.mp hend
  have hparts : partsOf z = .node "regex" [] [] :: (partsOf yl ++ partsOf yi) := by
    rw [hz, hz₂, hz₁, partsOf_foldAst, partsOf_foldAst, partsOf_foldAst, hz₀, hy₀]
    simp [partsOf, Ast.parts]
  cases z with
  | none => cases hparts
  | some a =>
    refine ⟨w, ml, mi, partsOf yl, partsOf yi, .node ">" [] (a.parts ++ [.node "regex" [] []]), ?_,
      hw, hl, hi, ?_, ?_⟩
    · rw [hs, hm, hm₂, hm₁, hm₀, hnil]
      simp
    · rw [hx, hy]
      rfl
    · have ha : a.parts = .node "regex" [] [] :: (partsOf yl ++ partsOf yi) := hparts
      rw [Ast.children_node, ha]

end Rbml.Asm.MpcGrammar
