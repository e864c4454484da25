import Rbml.Mpc.Parser

/-!
# Syntax trees and grammars (`mpc.c`)

The parsers that `mpca_lang` makes of the parts of a grammar string, and the trees that they build. A
tree without a parent of its own (its tag is `>`) gives its children to the tree it becomes a part of,
a leaf gives itself: `Ast.parts`. A reference to a rule puts the name of the rule before the tag, and
puts a tree with at least two children under a root, so that it stays together (`mpc_ast_add_root`).

The positions of the parts are left out.
-/

namespace Rbml.Mpc

/-- `mpc_ast_t` -/
inductive Ast where
  | node (tag : String) (contents : List Char) (children : List Ast)

def Ast.tag : Ast → String
  | .node tag _ _ => tag

def Ast.contents : Ast → List Char
  | .node _ contents _ => contents

def Ast.children : Ast → List Ast
  | .node _ _ children => children

@[simp] theorem Ast.tag_node (tag : String) (contents : List Char) (children : List Ast) :
    (Ast.node tag contents children).tag = tag := rfl

@[simp] theorem Ast.contents_node (tag : String) (contents : List Char) (children : List Ast) :
    (Ast.node tag contents children).contents = contents := rfl

@[simp] theorem Ast.children_node (tag : String) (contents : List Char) (children : List Ast) :
    (Ast.node tag contents children).children = children := rfl

/-- `mpc_ast_add_root` -/
def mpcAstAddRoot (a : Ast) : Ast :=
  if a.children.length ≤ 1 then a else .node ">" [] [a]

/-- `mpc_ast_add_tag` -/
def mpcAstAddTag (t : String) : Ast → Ast
  | .node tag contents children => .node (t ++ "|" ++ tag) contents children

/-- What a tree gives to the tree that it becomes a part of -/
def Ast.parts (a : Ast) : List Ast := if a.children = [] then [a] else a.children

/-- The parts of a tree that may be `NULL` -/
def partsOf (x : Option Ast) : List Ast := (x.map Ast.parts).getD []

/-- `mpcf_fold_ast` of two trees -/
def mpcfFoldAst : Option Ast → Option Ast → Option Ast
  | x, none => x
  | none, y => y
  | some a, some b => some (.node ">" [] (a.parts ++ b.parts))

theorem Ast.parts_ne_nil (a : Ast) : a.parts ≠ [] := by
  unfold Ast.parts
  split
  · exact List.cons_ne_nil _ _
  · assumption

/-- Parts are collected from left to right. -/
theorem partsOf_foldAst (x y : Option Ast) :
    partsOf (mpcfFoldAst x y) = partsOf x ++ partsOf y := by
  cases x with
  | none => cases y <;> rfl
  | some a =>
    cases y with
    | none => simp [mpcfFoldAst, partsOf]
    | some b =>
      have hne : a.parts ++ b.parts ≠ [] := List.append_ne_nil_of_left_ne_nil a.parts_ne_nil _
      exact if_neg hne

/-! ## Grammars -/

/-- A literal of a grammar, as a leaf -/
def leafOf (tag : String) (p : Parser (List Char)) : Parser (Option Ast) :=
  mpcApply (fun t => some (.node tag t [])) (mpcTok p)

/-- `mpcaf_grammar_string` -/
def grammarString (s : String) : Parser (Option Ast) := leafOf "string" (mpcString s.toList)

/-- `mpcaf_grammar_char` -/
def grammarChar (c : Char) : Parser (Option Ast) := leafOf "char" (mpcChar c)

/-- `mpcaf_grammar_regex`, of what `mpc_re` makes of the regular expression -/
def grammarRegex (re : Parser (List Char)) : Parser (Option Ast) := leafOf "regex" re

/-- `mpcaf_grammar_id` -/
def grammarId (name : String) (p : Parser (Option Ast)) : Parser (Option Ast) :=
  mpcApply (Option.map fun a => mpcAstAddRoot (mpcAstAddTag name a)) p

/-- `mpcaf_grammar_and` -/
def grammarAnd (ps : List (Parser (Option Ast))) : Parser (Option Ast) :=
  ps.foldl (mpcAnd mpcfFoldAst) mpcPass

/-- `mpcaf_grammar_or`, of terms with these factors -/
def grammarOr (factors : List (Parser (Option Ast))) :
    List (List (Parser (Option Ast))) → Parser (Option Ast)
  | [] => grammarAnd factors
  | factors' :: terms => mpcOr (grammarAnd factors) (grammarOr factors' terms)

/-! ## What they read -/

section
variable {p : Parser (Option Ast)} {ps : List (Parser (Option Ast))}

theorem reads_leafOf {re : Parser (List Char)} {L : List Char → Prop}
    (h : Reads re fun m x _ => x = m ∧ L m) (tag : String) :
    Reads (leafOf tag re) fun m x _ => ∃ t w, m = t ++ w ∧ L t ∧
      (∀ c ∈ w, isWhitespace c = true) ∧ x = some (.node tag t []) := by
  refine (h.tok.apply _).mono ?_
  intro m y rest ⟨x, ⟨t, w, hm, ⟨hx, ht⟩, hw⟩, hy⟩
  exact ⟨t, w, hm, ht, hw, by rw [hy, hx]⟩

theorem reads_grammarId {R : List Char → Option Ast → List Char → Prop} (h : Reads p R)
    (name : String) :
    Reads (grammarId name p) fun m y rest => ∃ x, R m x rest ∧
      y = x.map fun a => mpcAstAddRoot (mpcAstAddTag name a) :=
  h.apply _

/-- A property of what is read that holds of nothing and of two texts in a row -/
theorem reads_grammarAnd {C : List Char → Prop} (hnil : C [])
    (happend : ∀ m m', C m → C m' → C (m ++ m')) (h : ∀ p ∈ ps, Reads p fun m _ _ => C m) :
    Reads (grammarAnd ps) fun m _ _ => C m := by
  suffices ∀ q, Reads q (fun m _ _ => C m) →
      Reads (ps.foldl (mpcAnd mpcfFoldAst) q) fun m _ _ => C m from
    this _ (reads_pass.mono fun m _ _ h => h.1 ▸ hnil)
  induction ps with
  | nil => exact fun q hq => hq
  | cons p ps ih =>
    intro q hq
    apply ih fun p hp => h p (List.mem_cons_of_mem _ hp)
    refine (hq.and (h p List.mem_cons_self) _).mono ?_
    intro m _ _ ⟨m₁, m₂, _, _, hm, h₁, h₂, _⟩
    exact hm ▸ happend m₁ m₂ h₁ h₂

/-- A term begins with what its first factor reads. -/
theorem reads_grammarAnd_head {P : List Char → Prop} (h : Reads p fun m _ _ => P m)
    (hps : ∀ q ∈ ps, Reads q fun _ _ _ => True) :
    Reads (grammarAnd (p :: ps)) fun m _ _ => ∃ t, t <+: m ∧ P t := by
  suffices ∀ q, Reads q (fun m _ _ => ∃ t, t <+: m ∧ P t) →
      Reads (ps.foldl (mpcAnd mpcfFoldAst) q) fun m _ _ => ∃ t, t <+: m ∧ P t by
    refine this _ ((reads_pass.and h mpcfFoldAst).mono ?_)
    intro m _ _ ⟨m₁, m₂, _, _, hm, ⟨hm₁, _⟩, h₂, _⟩
    exact ⟨m₂, by rw [hm, hm₁]; exact List.prefix_rfl, h₂⟩
  induction ps with
  | nil => exact fun q hq => hq
  | cons p' ps ih =>
    intro q hq
    apply ih fun q hq => hps q (List.mem_cons_of_mem _ hq)
    refine (hq.and (hps p' List.mem_cons_self) _).mono ?_
    intro m _ _ ⟨m₁, m₂, _, _, hm, ⟨t, ht, hP⟩, _⟩
    exact ⟨t, hm ▸ ht.trans (List.prefix_append m₁ m₂), hP⟩

theorem reads_grammarOr {factors : List (Parser (Option Ast))}
    {terms : List (List (Parser (Option Ast)))} {R : List Char → Option Ast → List Char → Prop}
    (hfactors : Reads (grammarAnd factors) R) (hterms : ∀ t ∈ terms, Reads (grammarAnd t) R) :
    Reads (grammarOr factors terms) R := by
  induction terms generalizing factors with
  | nil => exact hfactors
  | cons factors' terms ih =>
    have hrest := ih (hterms factors' List.mem_cons_self)
      fun t ht => hterms t (List.mem_cons_of_mem _ ht)
    refine (hfactors.or hrest).mono ?_
    intro _ _ _ hor
    exact hor.elim id id

/-- One factor is read as it is. -/
theorem reads_grammarAnd_singleton {R : List Char → Option Ast → List Char → Prop} (h : Reads p R) :
    Reads (grammarAnd [p]) R := by
  refine (reads_pass.and h mpcfFoldAst).mono ?_
  intro m z rest ⟨m₁, m₂, x, y, hm, ⟨hm₁, hx⟩, hy, hz⟩
  have hfold : mpcfFoldAst none y = y := by cases y <;> rfl
  rw [hm, hm₁, List.nil_append, hz, hx, hfold]
  exact hy

/-- A term of leaves has as many parts. -/
theorem reads_grammarAnd_leaves
    (h : ∀ p ∈ ps, Reads p fun _ x _ => ∃ tag t, x = some (.node tag t [])) :
    Reads (grammarAnd ps) fun _ x _ => (partsOf x).length = ps.length := by
  suffices ∀ q n, Reads q (fun _ x _ => (partsOf x).length = n) →
      Reads (ps.foldl (mpcAnd mpcfFoldAst) q) fun _ x _ => (partsOf x).length = n + ps.length by
    refine (this mpcPass 0 (reads_pass.mono fun _ x _ h => by rw [h.2]; rfl)).mono ?_
    intro _ _ _ hx
    rw [hx, Nat.zero_add]
  induction ps with
  | nil => exact fun q n hq => hq
  | cons p ps ih =>
    intro q n hq
    have hand : Reads (mpcAnd mpcfFoldAst q p) fun _ x _ => (partsOf x).length = n + 1 := by
      refine (hq.and (h p List.mem_cons_self) _).mono ?_
      intro _ z _ ⟨_, _, x, y, _, hx, ⟨tag, t, hy⟩, hz⟩
      rw [hz, partsOf_foldAst, List.length_append, hx, hy]
      rfl
    refine (ih (fun p hp => h p (List.mem_cons_of_mem _ hp)) _ _ hand).mono ?_
    intro _ _ _ hx
    rw [hx, List.length_cons]
    omega

end

end Rbml.Mpc
