import Rbml.Mpc.Ast
import Rbml.Mpc.Kinds

/-!
# Graphs of parsers (`mpc.c`)

The constructor functions of `mpc`, with those that `mpca_lang` uses for the parts of a grammar. They
allocate parsers one after the other: an `Alloc` gives the parser that it makes, and all that it has
allocated from an address on. `mpca_lang` defines the rules of a grammar, which were allocated before, and
which its bodies refer to by their address.

`Makes` says what an allocated parser computes, wherever it is allocated, and there is one rule for each
constructor. So the grammars of `Rbml.Mpc.Ast` are what the engine computes on the graph.
-/

namespace Rbml.Mpc.Graph

open Rbml.Lib

/-! ## Values -/

/-- `mpc_ast_t` -/
inductive Tree where
  | node (tag : String) (contents : List Char) (state : MpcState) (children : List Tree)

def Tree.tag : Tree → String
  | .node tag _ _ _ => tag

def Tree.contents : Tree → List Char
  | .node _ contents _ _ => contents

def Tree.state : Tree → MpcState
  | .node _ _ state _ => state

def Tree.children : Tree → List Tree
  | .node _ _ _ children => children

mutual

/-- The tree without the positions -/
def Tree.forget : Tree → Ast
  | .node tag contents _ children => .node tag contents (Tree.forgetAll children)

def Tree.forgetAll : List Tree → List Ast
  | [] => []
  | a :: as => a.forget :: Tree.forgetAll as

end

theorem Tree.forgetAll_eq (as : List Tree) : Tree.forgetAll as = as.map Tree.forget := by
  induction as with
  | nil => rfl
  | cons a as ih => rw [Tree.forgetAll, ih, List.map_cons]

/-- What a `mpc_val_t *` points to: a text of its own, a state, a tree, or a name -/
inductive Val where
  | null
  | text (s : List Char)
  | state (s : MpcState)
  | ast (a : Tree)
  | name (s : String)

/-- The values that the engine makes -/
def vals : Values Val := ⟨.null, .text, .state⟩

/-- `mpcf_fst` -/
def mpcfFst (xs : List Val) : Val := xs.getD 0 .null

/-- `mpcf_snd` -/
def mpcfSnd (xs : List Val) : Val := xs.getD 1 .null

/-- `mpcf_free` -/
def mpcfFree (_ : Val) : Val := .null

/-- `mpcf_ctor_null` -/
def mpcfCtorNull : Val := .null

/-- `mpcf_ctor_str` -/
def mpcfCtorStr : Val := .text []

def textOf : Val → List Char
  | .text s => s
  | _ => []

/-- `mpcf_strfold` -/
def mpcfStrfold (xs : List Val) : Val := .text (xs.flatMap textOf)

/-- `mpc_ast_new` -/
def mpcAstNew (tag : String) (contents : List Char) : Tree := .node tag contents mpcStateNew []

/-- `mpcf_str_ast` -/
def mpcfStrAst (c : Val) : Val := .ast (mpcAstNew "" (textOf c))

/-- `mpc_ast_tag` -/
def mpcAstTag (a t : Val) : Val :=
  match a, t with
  | .ast (.node _ contents state children), .name t => .ast (.node t contents state children)
  | a, _ => a

/-- `mpc_ast_add_tag` -/
def mpcAstAddTag (a t : Val) : Val :=
  match a, t with
  | .ast (.node tag contents state children), .name t =>
    .ast (.node (t ++ "|" ++ tag) contents state children)
  | a, _ => a

/-- `mpc_ast_add_root` -/
def mpcAstAddRoot (a : Val) : Val :=
  match a with
  | .ast a => if a.children.length ≤ 1 then .ast a else .ast (.node ">" [] mpcStateNew [a])
  | a => a

/-- `mpcf_state_ast` -/
def mpcfStateAst (xs : List Val) : Val :=
  match xs with
  | [.state s, .ast (.node tag contents _ children)] => .ast (.node tag contents s children)
  | xs => xs.getD 1 .null

/-- The trees that `mpcf_fold_ast` adds to its result for one of its arguments -/
def childrenOf : Val → List Tree
  | .ast a => if a.children.length > 0 then a.children else [a]
  | _ => []

/-- `mpcf_fold_ast` -/
def mpcfFoldAst (xs : List Val) : Val :=
  match xs with
  | [] => .null
  | [x] => x
  | [x, .null] => x
  | [.null, y] => y
  | xs =>
    let children := xs.flatMap childrenOf
    .ast (.node ">" [] ((children.head?.map Tree.state).getD mpcStateNew) children)

/-! ## Constructor functions -/

/-- Parsers that are allocated from an address on, and the one that was asked for -/
abbrev Alloc := Ptr → Ptr × List (MpcParser Val)

/-- A parser that is there already -/
def ref (p : Ptr) : Alloc := fun _ => (p, [])

/-- `mpc_undefined`, with what the constructor function sets -/
def new (p : MpcParser Val) : Alloc := fun base => (base, [p])

/-- The same for a parser that runs another one -/
def new1 (p : Ptr → MpcParser Val) (a : Alloc) : Alloc := fun base =>
  let (x, xs) := a base
  (base + xs.length, xs ++ [p x])

/-- The same for a parser that runs two others -/
def new2 (p : Ptr → Ptr → MpcParser Val) (a b : Alloc) : Alloc := fun base =>
  let (x, xs) := a base
  let (y, ys) := b (base + xs.length)
  (base + xs.length + ys.length, xs ++ ys ++ [p x y])

/-- `mpc_expect` -/
def mpcExpect (a : Alloc) (expected : String) : Alloc := new1 (fun x => .expect x expected) a

/-- `mpc_char` -/
def mpcChar (c : Char) : Alloc := mpcExpect (new (.single c)) ("'" ++ c.toString ++ "'")

/-- `mpc_oneof` -/
def mpcOneof (s : List Char) : Alloc :=
  mpcExpect (new (.oneof s)) ("one of '" ++ String.ofList s ++ "'")

/-- `mpc_noneof` -/
def mpcNoneof (s : List Char) : Alloc :=
  mpcExpect (new (.noneof s)) ("one of '" ++ String.ofList s ++ "'")

/-- `mpc_any` -/
def mpcAny : Alloc := mpcExpect (new .any) "any character"

/-- `mpc_fail` -/
def mpcFail (m : String) : Alloc := new (.fail m)

/-- `mpc_string` -/
def mpcString (s : List Char) : Alloc :=
  mpcExpect (new (.string s)) ("\"" ++ String.ofList s ++ "\"")

/-- `mpc_pass` -/
def mpcPass : Alloc := new .pass

/-- `mpc_lift` -/
def mpcLift (lf : Val) : Alloc := new (.lift lf)

/-- `mpc_state` -/
def mpcState : Alloc := new .state

/-- `mpc_apply` -/
def mpcApply (a : Alloc) (f : Val → Val) : Alloc := new1 (fun x => .apply x f) a

/-- `mpc_apply_to` -/
def mpcApplyTo (a : Alloc) (f : Val → Val → Val) (d : Val) : Alloc :=
  new1 (fun x => .applyTo x f d) a

/-- `mpc_maybe_lift` -/
def mpcMaybeLift (a : Alloc) (lf : Val) : Alloc := new1 (fun x => .maybe x lf) a

/-- `mpc_maybe` -/
def mpcMaybe (a : Alloc) : Alloc := mpcMaybeLift a mpcfCtorNull

/-- `mpc_many` -/
def mpcMany (f : List Val → Val) (a : Alloc) : Alloc := new1 (fun x => .many f x) a

/-- `mpc_many1` -/
def mpcMany1 (f : List Val → Val) (a : Alloc) : Alloc := new1 (fun x => .many1 f x) a

/-- `mpc_or` of two parsers -/
def mpcOr (a b : Alloc) : Alloc := new2 (fun x y => .or [x, y]) a b

/-- `mpc_and` of two parsers -/
def mpcAnd (f : List Val → Val) (a b : Alloc) : Alloc := new2 (fun x y => .and f [x, y]) a b

/-- `mpc_soi` -/
def mpcSoi : Alloc := mpcExpect (new (.anchor mpcSoiAnchor)) "start of input"

/-- `mpc_eoi` -/
def mpcEoi : Alloc := mpcExpect (new (.anchor mpcEoiAnchor)) "end of input"

/-- `mpc_whitespace` -/
def mpcWhitespace : Alloc := mpcExpect (mpcOneof [' ', '\x0c', '\n', '\r', '\t', '\x0b']) "whitespace"

/-- `mpc_whitespaces` -/
def mpcWhitespaces : Alloc := mpcExpect (mpcMany mpcfStrfold mpcWhitespace) "spaces"

/-- `mpc_blank` -/
def mpcBlank : Alloc := mpcExpect (mpcApply mpcWhitespaces mpcfFree) "whitespace"

/-- `mpc_tok` -/
def mpcTok (a : Alloc) : Alloc := mpcAnd mpcfFst a mpcBlank

/-! ## Regular expressions -/

/-- `mpcf_re_escape`, of a character that is not escaped -/
def mpcfReEscape : Char → Alloc
  | '.' => mpcAny
  | '^' => mpcAnd mpcfSnd mpcSoi (mpcLift mpcfCtorStr)
  | '$' => mpcAnd mpcfSnd mpcEoi (mpcLift mpcfCtorStr)
  | c => mpcChar c

/-- `mpc_re_range_escape_char` -/
def mpcReRangeEscapeChar : Char → Option (List Char)
  | '-' => some ['-']
  | 'a' => some ['\x07']
  | 'f' => some ['\x0c']
  | 'n' => some ['\n']
  | 'r' => some ['\r']
  | 't' => some ['\t']
  | 'v' => some ['\x0b']
  | 'b' => some ['\x08']
  | 'd' => some "0123456789".toList
  | 's' => some [' ', '\x0c', '\n', '\r', '\t', '\x0b']
  | 'w' => some "abcdefghijklmnopqrstuvwxyzABCDEFGHIJKLMNOPQRSTUVWXYZ0123456789_".toList
  | _ => none

/-- The characters between two others -/
def charsBetween (c d : Char) : List Char :=
  (List.range' (c.toNat + 1) (d.toNat - 1 - c.toNat)).map Char.ofNat

/-- The loop of `mpcf_re_range`, with the character before the one that it is at -/
def rangeChars (before : Option Char) : List Char → List Char
  | [] => []
  | ['\\'] => []
  | '\\' :: c :: s => (mpcReRangeEscapeChar c).getD [c] ++ rangeChars (some c) s
  | '-' :: s =>
    -- a dash at either end is one itself
    match before, s with
    | some c, d :: _ => charsBetween c d ++ rangeChars (some '-') s
    | _, _ => '-' :: rangeChars (some '-') s
  | c :: s => c :: rangeChars (some c) s

/-- `mpcf_re_range` -/
def mpcfReRange : List Char → Alloc
  | [] => mpcFail "Invalid Regex Range Expression"
  | ['^'] => mpcFail "Invalid Regex Range Expression"
  | '^' :: s => mpcNoneof (rangeChars (some '^') s)
  | s => mpcOneof (rangeChars none s)

/-- `mpcf_re_and` -/
def mpcfReAnd (xs : List Alloc) : Alloc := xs.foldl (mpcAnd mpcfStrfold) (mpcLift mpcfCtorStr)

/-! ## Grammars -/

/-- `mpca_state` -/
def mpcaState (a : Alloc) : Alloc := mpcAnd mpcfStateAst mpcState a

/-- `mpca_tag` -/
def mpcaTag (a : Alloc) (t : String) : Alloc := mpcApplyTo a mpcAstTag (.name t)

/-- `mpca_add_tag` -/
def mpcaAddTag (a : Alloc) (t : String) : Alloc := mpcApplyTo a mpcAstAddTag (.name t)

/-- `mpca_root` -/
def mpcaRoot (a : Alloc) : Alloc := mpcApply a mpcAstAddRoot

/-- `mpcaf_grammar_string` -/
def mpcafGrammarString (y : String) : Alloc :=
  mpcaState (mpcaTag (mpcApply (mpcTok (mpcString y.toList)) mpcfStrAst) "string")

/-- `mpcaf_grammar_char` -/
def mpcafGrammarChar (y : Char) : Alloc :=
  mpcaState (mpcaTag (mpcApply (mpcTok (mpcChar y)) mpcfStrAst) "char")

/-- `mpcaf_grammar_regex`, of what `mpc_re` makes of the regular expression -/
def mpcafGrammarRegex (re : Alloc) : Alloc :=
  mpcaState (mpcaTag (mpcApply (mpcTok re) mpcfStrAst) "regex")

/-- `mpcaf_grammar_id`, of a parser with a name -/
def mpcafGrammarId (name : String) (p : Ptr) : Alloc :=
  mpcaState (mpcaRoot (mpcaAddTag (ref p) name))

/-- `mpcaf_grammar_and` -/
def mpcafGrammarAnd (xs : List Alloc) : Alloc := xs.foldl (mpcAnd mpcfFoldAst) mpcPass

/-- `mpcaf_grammar_or`, of terms with these factors -/
def mpcafGrammarOr (factors : List Alloc) : List (List Alloc) → Alloc
  | [] => mpcafGrammarAnd factors
  | factors' :: terms => mpcOr (mpcafGrammarAnd factors) (mpcafGrammarOr factors' terms)

/-! ## Rules -/

/-- The bodies of rules, one after the other -/
def allocAll : Ptr → List Alloc → List (Ptr × List (MpcParser Val))
  | _, [] => []
  | base, rule :: rules =>
    let body := rule base
    body :: allocAll (base + body.2.length) rules

/-- `mpca_lang`: the rules are at the first addresses, with the bodies behind them. `mpc_define` gives a
rule the type and the data of its body. -/
def mpcaLang (rules : List Alloc) (p : Ptr) : MpcParser Val :=
  let bodies := allocAll rules.length rules
  let parsers := bodies.flatMap Prod.snd
  match bodies[p]? with
  | some (root, _) => parsers.getD (root - rules.length) .undefined
  | none => parsers.getD (p - rules.length) .undefined

end Rbml.Mpc.Graph
