import Mathlib.Data.List.Forall2
import Rbml.Mpc.Graph

/-!
# What the constructor functions make

`Makes nodes a q enc`: wherever `a` is allocated in the graph, the parser that it gives computes `q`. The
constructor functions make what the combinators of the same names are, and the parts of a grammar what is
in `Rbml.Mpc.Ast`, where a tree stands for the one without its positions (`Stands`).

A rule of `mpca_lang` computes what its body makes (`realizes_rule`), so that the rules of a grammar can be
taken one after the other, those that are referred to first.
-/

namespace Rbml.Mpc.Graph

open Rbml.Lib

variable {nodes : Ptr → MpcParser Val} {α β γ : Type}

/-! ## Allocated parsers -/

/-- The parsers are in the graph, from an address on. -/
def Holds (nodes : Ptr → MpcParser Val) (base : Ptr) (ps : List (MpcParser Val)) : Prop :=
  ∀ k (h : k < ps.length), nodes (base + k) = ps[k]

/-- Two lists of parsers stand in the graph one behind the other. -/
theorem holds_append {base : Ptr} {ps qs : List (MpcParser Val)} (h : Holds nodes base (ps ++ qs)) :
    Holds nodes base ps ∧ Holds nodes (base + ps.length) qs := by
  constructor
  · intro k hk
    have hlt : k < (ps ++ qs).length := by
      rw [List.length_append]
      omega
    rw [h k hlt, List.getElem_append_left hk]
  · intro k hk
    have hlt : ps.length + k < (ps ++ qs).length := by
      rw [List.length_append]
      omega
    rw [Nat.add_assoc, h (ps.length + k) hlt, List.getElem_append_right (Nat.le_add_right _ _)]
    simp only [Nat.add_sub_cancel_left]

/-- A single parser is at its address. -/
theorem holds_singleton {base : Ptr} {p : MpcParser Val} (h : Holds nodes base [p]) : nodes base = p :=
  h 0 Nat.one_pos

/-- Wherever `a` is allocated, it computes `q`. -/
def Makes (nodes : Ptr → MpcParser Val) (a : Alloc) (q : Parser α) (enc : α → Val → Prop) : Prop :=
  ∀ base, Holds nodes base (a base).2 → Realizes vals nodes (a base).1 q enc

section
variable {a b : Alloc} {q q' : Parser α} {q₂ : Parser β} {enc : α → Val → Prop}
  {enc' : α → Val → Prop} {enc₂ : β → Val → Prop} {enc₃ : γ → Val → Prop} {q₃ : Parser γ}

theorem makes_ref {p : Ptr} (h : Realizes vals nodes p q enc) : Makes nodes (ref p) q enc :=
  fun _ _ => h

/-- The rule for an allocation: the parser is some address of the graph. -/
theorem makes_new {p : MpcParser Val} (h : ∀ x, nodes x = p → Realizes vals nodes x q enc) :
    Makes nodes (new p) q enc :=
  fun base hholds => h base (holds_singleton hholds)

/-- The rule for a parser over another one, which is allocated before it -/
theorem makes_new1 {p : Ptr → MpcParser Val} (ha : Makes nodes a q enc)
    (h : ∀ x y, nodes y = p x → Realizes vals nodes x q enc → Realizes vals nodes y q₂ enc₂) :
    Makes nodes (new1 p a) q₂ enc₂ := by
  intro base hholds
  obtain ⟨hx, hp⟩ := holds_append hholds
  exact h _ _ (holds_singleton hp) (ha base hx)

/-- The rule for a parser over two others -/
theorem makes_new2 {p : Ptr → Ptr → MpcParser Val} (ha : Makes nodes a q enc) (hb : Makes nodes b q₂ enc₂)
    (h : ∀ x y z, nodes z = p x y → Realizes vals nodes x q enc → Realizes vals nodes y q₂ enc₂ →
      Realizes vals nodes z q₃ enc₃) : Makes nodes (new2 p a b) q₃ enc₃ := by
  intro base hholds
  obtain ⟨hxy, hp⟩ := holds_append hholds
  obtain ⟨hx, hy⟩ := holds_append hxy
  rw [List.length_append, ← Nat.add_assoc] at hp
  exact h _ _ _ (holds_singleton hp) (ha base hx) (hb _ hy)

/-- `mpca_tag` and `mpca_add_tag` change only what a result stands for. -/
theorem apply_id : Mpc.mpcApply id q = q := by
  funext i
  rw [Mpc.mpcApply]
  cases q i <;> rfl

/-- A parser that reads nothing may stand before any other. -/
theorem and_lift : Mpc.mpcAnd (fun (_ : Unit) y => y) (Mpc.mpcLift ()) q = q := by
  funext i
  rw [Mpc.mpcAnd]
  simp only [Mpc.mpcLift, Option.bind_eq_bind, Option.bind_some]
  cases q i <;> rfl

/-! ## Constructor functions -/

/-- Texts stand for themselves. -/
def IsText (s : List Char) (v : Val) : Prop := v = .text s

/-- An expectation changes no result. -/
theorem makes_expect {m : String} (ha : Makes nodes a q enc) : Makes nodes (mpcExpect a m) q enc :=
  makes_new1 ha fun _ _ hp hx => realizes_expect hp hx

/-- `mpc_oneof` is the combinator of its set of characters. -/
theorem makes_oneof (s : List Char) :
    Makes nodes (mpcOneof s) (Mpc.mpcOneof fun c => s.contains c) IsText :=
  makes_expect (makes_new fun _ hp => realizes_oneof (by rw [hp]; rfl))

/-- `mpc_char` is a set of one character. -/
theorem makes_char (c : Char) : Makes nodes (mpcChar c) (Mpc.mpcChar c) IsText :=
  makes_expect (makes_new fun _ hp => realizes_oneof (by rw [hp]; rfl))

/-- `mpc_string` is the combinator of the same name. -/
theorem makes_string (s : List Char) : Makes nodes (mpcString s) (Mpc.mpcString s) IsText :=
  makes_expect (makes_new fun _ hp => realizes_string hp)

/-- `mpc_soi` gives `NULL` at the start of the input, and `mpc_eoi` at the end of it. -/
theorem makes_soi : Makes nodes mpcSoi Mpc.mpcSoi fun _ v => v = .null :=
  makes_expect (makes_new fun _ hp => realizes_soi hp)

theorem makes_eoi : Makes nodes mpcEoi Mpc.mpcEoi fun _ v => v = .null :=
  makes_expect (makes_new fun _ hp => realizes_eoi hp)

/-- `mpc_apply` of a function that does to the values what `g` does to what they stand for -/
theorem makes_apply {f : Val → Val} {g : α → β} (ha : Makes nodes a q enc)
    (hf : ∀ x v, enc x v → enc₂ (g x) (f v)) :
    Makes nodes (mpcApply a f) (Mpc.mpcApply g q) enc₂ :=
  makes_new1 ha fun _ _ hp hx => realizes_apply hp hx hf

/-- `mpc_maybe_lift` of a value that stands for the one of the combinator -/
theorem makes_maybeLift {x : α} {lf : Val} (ha : Makes nodes a q enc) (hx : enc x lf) :
    Makes nodes (mpcMaybeLift a lf) (Mpc.mpcMaybeLift x q) enc :=
  makes_new1 ha fun _ _ hp ha => realizes_maybe hp ha hx

/-- `mpc_and` of two parsers, with a fold that joins the values as `g` joins what they stand for -/
theorem makes_and {f : List Val → Val} {g : α → β → γ} (ha : Makes nodes a q enc)
    (hb : Makes nodes b q₂ enc₂) (hf : ∀ x y v v', enc x v → enc₂ y v' → enc₃ (g x y) (f [v, v'])) :
    Makes nodes (mpcAnd f a b) (Mpc.mpcAnd g q q₂) enc₃ :=
  makes_new2 ha hb fun _ _ _ hp ha hb => realizes_and hp ha hb hf

/-- `mpc_or` of two parsers whose values stand for the same kind of thing -/
theorem makes_or (ha : Makes nodes a q enc) (hb : Makes nodes b q' enc) :
    Makes nodes (mpcOr a b) (Mpc.mpcOr q q') enc :=
  makes_new2 ha hb fun _ _ _ hp ha hb => realizes_or hp ha hb

/-- The texts of single characters are joined to the whole text. -/
theorem strfold_texts {cs : List Char} {vs : List Val}
    (h : List.Forall₂ (fun c v => IsText [c] v) cs vs) : IsText cs (mpcfStrfold vs) := by
  induction h with
  | nil => rfl
  | @cons c v cs vs hc _ ih =>
    obtain rfl : v = .text [c] := hc
    have htext : mpcfStrfold vs = .text cs := ih
    rw [mpcfStrfold] at htext ⊢
    rw [List.flatMap_cons, (Val.text.inj htext : vs.flatMap textOf = cs)]
    rfl

/-- `mpc_many` of a character class, folded to a text. `mpc_many1` is folded in the same way. -/
theorem makes_many {cond : Char → Bool} (ha : Makes nodes a (Mpc.mpcOneof cond) IsText) :
    Makes nodes (mpcMany mpcfStrfold a) (Mpc.mpcMany cond) IsText :=
  makes_new1 ha fun _ _ hp ha => realizes_many hp ha fun _ _ h => strfold_texts h

theorem makes_many1 {cond : Char → Bool} (ha : Makes nodes a (Mpc.mpcOneof cond) IsText) :
    Makes nodes (mpcMany1 mpcfStrfold a) (Mpc.mpcMany1 cond) IsText :=
  makes_new1 ha fun _ _ hp ha => realizes_many1 hp ha fun _ _ h => strfold_texts h

/-- `mpc_pass` gives `NULL`. -/
theorem makes_pass {x : α} (hx : enc x .null) : Makes nodes mpcPass (Mpc.mpcLift x) enc :=
  makes_new fun _ hp => realizes_constant fun _ => ⟨.null, hx, by rw [hp]; rfl⟩

theorem makes_lift {x : α} {lf : Val} (hx : enc x lf) : Makes nodes (mpcLift lf) (Mpc.mpcLift x) enc :=
  makes_new fun _ hp => realizes_constant fun _ => ⟨lf, hx, by rw [hp]; rfl⟩

/-- `mpc_state` gives a position, which stands for nothing. -/
theorem makes_state : Makes nodes mpcState (Mpc.mpcLift ()) fun _ v => ∃ s, v = .state s :=
  makes_new fun _ hp => realizes_constant fun w =>
    ⟨.state w.input.state, ⟨_, rfl⟩, by rw [hp]; rfl⟩

/-- `mpc_apply_to` of a function that does with its argument what `g` does -/
theorem makes_applyTo {f : Val → Val → Val} {d : Val} {g : α → β} (ha : Makes nodes a q enc)
    (hf : ∀ x v, enc x v → enc₂ (g x) (f v d)) :
    Makes nodes (mpcApplyTo a f d) (Mpc.mpcApply g q) enc₂ :=
  makes_new1 ha fun _ _ hp hx => realizes_applyTo hp hx hf

/-- A position is put on what a parser gives, which stands for the same with it. -/
theorem makes_mpcaState (ha : Makes nodes a q enc)
    (hf : ∀ x s v, enc x v → enc' x (mpcfStateAst [.state s, v])) : Makes nodes (mpcaState a) q enc' := by
  have hand : Makes nodes (mpcaState a) (Mpc.mpcAnd (fun _ y => y) (Mpc.mpcLift ()) q) enc' := by
    refine makes_and makes_state ha ?_
    rintro _ x _ v ⟨s, rfl⟩ hv
    exact hf x s v hv
  rwa [and_lift] at hand

/-- `mpc_whitespace` is the class of the six white characters. -/
theorem makes_whitespace :
    Makes nodes mpcWhitespace (Mpc.mpcOneof isWhitespace) IsText := by
  have hclass : (fun c => [' ', '\x0c', '\n', '\r', '\t', '\x0b'].contains c) = isWhitespace := by
    funext c
    simp only [List.contains_cons, List.contains_nil, Bool.or_false, isWhitespace, Bool.or_assoc]
  exact hclass ▸ makes_expect (makes_oneof _)

/-- `mpc_tok` drops the blanks behind what it has read. -/
theorem makes_tok (ha : Makes nodes a q enc) : Makes nodes (mpcTok a) (Mpc.mpcTok q) enc := by
  have hblank : Makes nodes mpcBlank (Mpc.mpcApply id (Mpc.mpcMany isWhitespace)) fun _ _ => True :=
    makes_expect (makes_apply (makes_expect (makes_many makes_whitespace)) fun _ _ _ => trivial)
  rw [apply_id] at hblank
  exact makes_and ha hblank fun _ _ _ _ hx _ => hx

/-- `mpcf_re_and` joins the texts of its parsers, from the left. -/
theorem makes_reAnd {xs : List Alloc} {qs : List (Parser (List Char))}
    (h : List.Forall₂ (fun a q => Makes nodes a q IsText) xs qs) :
    Makes nodes (mpcfReAnd xs) (mpcReAnd qs) IsText := by
  suffices ∀ a q, Makes nodes a q IsText →
      Makes nodes (xs.foldl (mpcAnd mpcfStrfold) a) (qs.foldl (Mpc.mpcAnd (· ++ ·)) q) IsText from
    this _ _ (makes_lift rfl)
  induction h with
  | nil => exact fun a q ha => ha
  | @cons b q' xs qs hb _ ih =>
    intro a q ha
    refine ih _ _ (makes_and ha hb ?_)
    rintro x y _ _ rfl rfl
    exact congrArg Val.text (by rw [List.flatMap_cons, List.flatMap_singleton]; rfl)

/-! ## Trees -/

/-- A tree and `NULL` stand for the tree without its positions. -/
inductive Stands : Option Ast → Val → Prop
  | null : Stands none .null
  | ast (a : Tree) : Stands (some a.forget) (.ast a)

/-- Only a tree stands for a tree. -/
theorem Stands.exists_tree {a : Ast} {v : Val} (h : Stands (some a) v) :
    ∃ t : Tree, t.forget = a ∧ v = .ast t := by
  cases h with
  | ast t => exact ⟨t, rfl, rfl⟩

/-- The children of a tree without its positions -/
theorem children_forget (a : Tree) : a.forget.children = a.children.map Tree.forget := by
  cases a
  rw [Tree.forget, Tree.forgetAll_eq]
  rfl

/-- What `mpcf_fold_ast` takes of a tree: its children, or the tree itself where it has none -/
theorem parts_forget (a : Tree) : a.forget.parts = (childrenOf (.ast a)).map Tree.forget := by
  rw [Ast.parts, childrenOf, children_forget]
  cases a.children <;> rfl

/-- `mpcf_state_ast` changes nothing but the position. -/
theorem Stands.state {x : Option Ast} {v : Val} (h : Stands x v) (s : MpcState) :
    Stands x (mpcfStateAst [.state s, v]) := by
  cases h with
  | null => exact .null
  | ast a =>
    cases a with
    | node tag contents _ children => exact .ast (.node tag contents s children)

/-- `mpc_ast_add_tag` puts the name before the tag on both sides. -/
theorem Stands.addTag {x : Option Ast} {v : Val} (h : Stands x v) (name : String) :
    Stands (x.map (Mpc.mpcAstAddTag name)) (mpcAstAddTag v (.name name)) := by
  cases h with
  | null => exact .null
  | ast a =>
    cases a with
    | node tag contents state children => exact .ast (.node (name ++ "|" ++ tag) contents state children)

/-- `mpc_ast_add_root` puts a root above the trees that have more than one child. -/
theorem Stands.addRoot {x : Option Ast} {v : Val} (h : Stands x v) :
    Stands (x.map Mpc.mpcAstAddRoot) (mpcAstAddRoot v) := by
  cases h with
  | null => exact .null
  | ast a =>
    have hlength : a.forget.children.length = a.children.length := by
      rw [children_forget, List.length_map]
    rw [Option.map_some, Mpc.mpcAstAddRoot, mpcAstAddRoot, hlength]
    split
    · exact .ast a
    · exact .ast (.node ">" [] mpcStateNew [a])

/-- `mpcf_fold_ast` of two trees -/
theorem Stands.fold {x y : Option Ast} {v v' : Val} (hx : Stands x v) (hy : Stands y v') :
    Stands (Mpc.mpcfFoldAst x y) (mpcfFoldAst [v, v']) := by
  cases hx with
  | null =>
    cases hy with
    | null => exact .null
    | ast b => exact .ast b
  | ast a =>
    cases hy with
    | null => exact .ast a
    | ast b =>
      have hparts : a.forget.parts ++ b.forget.parts =
          ([.ast a, .ast b].flatMap childrenOf).map Tree.forget := by
        rw [parts_forget, parts_forget, ← List.map_append]
        simp only [List.flatMap_cons, List.flatMap_nil, List.append_nil]
      have hfold : Mpc.mpcfFoldAst (some a.forget) (some b.forget) =
          some (Tree.node ">" [] ((([.ast a, .ast b].flatMap childrenOf).head?.map Tree.state).getD
            mpcStateNew) ([.ast a, .ast b].flatMap childrenOf)).forget := by
        rw [Tree.forget, Tree.forgetAll_eq, ← hparts]
        rfl
      rw [hfold]
      exact .ast _

/-! ## Parts of a grammar -/

/-- A leaf of the grammar: a token, made a tree, with a tag and a position -/
theorem makes_leaf {p : Parser (List Char)} (ha : Makes nodes a p IsText) (tag : String) :
    Makes nodes (mpcaState (mpcaTag (mpcApply (mpcTok a) mpcfStrAst) tag)) (leafOf tag p) Stands := by
  have hstr : Makes nodes (mpcApply (mpcTok a) mpcfStrAst) (leafOf tag p)
      fun x v => ∃ t, x = some (.node tag t []) ∧ v = .ast (mpcAstNew "" t) := by
    refine makes_apply (makes_tok ha) ?_
    rintro t _ rfl
    exact ⟨t, rfl, rfl⟩
  have htag : Makes nodes (mpcaTag (mpcApply (mpcTok a) mpcfStrAst) tag)
      (Mpc.mpcApply id (leafOf tag p)) Stands := by
    refine makes_applyTo hstr ?_
    rintro _ _ ⟨t, rfl, rfl⟩
    exact .ast (.node tag t mpcStateNew [])
  rw [apply_id] at htag
  exact makes_mpcaState htag fun _ s _ hx => hx.state s

/-- A string of the grammar is a leaf, and so are a character and a regular expression. -/
theorem makes_grammarString (y : String) :
    Makes nodes (mpcafGrammarString y) (grammarString y) Stands :=
  makes_leaf (makes_string y.toList) "string"

theorem makes_grammarChar (y : Char) : Makes nodes (mpcafGrammarChar y) (grammarChar y) Stands :=
  makes_leaf (makes_char y) "char"

theorem makes_grammarRegex {p : Parser (List Char)} (ha : Makes nodes a p IsText) :
    Makes nodes (mpcafGrammarRegex a) (grammarRegex p) Stands :=
  makes_leaf ha "regex"

/-- A reference of the grammar: the tree of the rule, with the name of the rule before its tag -/
theorem makes_grammarId {p : Ptr} {r : Parser (Option Ast)} (h : Realizes vals nodes p r Stands)
    (name : String) : Makes nodes (mpcafGrammarId name p) (grammarId name r) Stands := by
  have htag : Makes nodes (mpcaAddTag (ref p) name) (Mpc.mpcApply id r)
      fun x v => Stands (x.map (Mpc.mpcAstAddTag name)) v :=
    makes_applyTo (makes_ref h) fun _ _ hx => hx.addTag name
  rw [apply_id] at htag
  have hroot : Makes nodes (mpcaRoot (mpcaAddTag (ref p) name)) (grammarId name r) Stands := by
    refine makes_apply htag ?_
    intro x v hx
    have hmap : (x.map fun a => Mpc.mpcAstAddRoot (Mpc.mpcAstAddTag name a)) =
        (x.map (Mpc.mpcAstAddTag name)).map Mpc.mpcAstAddRoot := by
      cases x <;> rfl
    exact hmap ▸ hx.addRoot
  exact makes_mpcaState hroot fun _ s _ hx => hx.state s

/-- `mpc_maybe` gives `NULL` where its parser fails. -/
theorem makes_maybe {r : Parser (Option Ast)} (ha : Makes nodes a r Stands) :
    Makes nodes (mpcMaybe a) (Mpc.mpcMaybe r) Stands :=
  makes_maybeLift ha .null

/-- A term of the grammar folds the trees of its factors, from the left. -/
theorem makes_grammarAnd {xs : List Alloc} {rs : List (Parser (Option Ast))}
    (h : List.Forall₂ (fun a r => Makes nodes a r Stands) xs rs) :
    Makes nodes (mpcafGrammarAnd xs) (grammarAnd rs) Stands := by
  suffices ∀ a r, Makes nodes a r Stands →
      Makes nodes (xs.foldl (mpcAnd mpcfFoldAst) a) (rs.foldl (Mpc.mpcAnd Mpc.mpcfFoldAst) r) Stands from
    this _ _ (makes_pass .null)
  induction h with
  | nil => exact fun a r ha => ha
  | cons hb _ ih =>
    intro a r ha
    exact ih _ _ (makes_and ha hb fun _ _ _ _ hx hy => hx.fold hy)

/-- The alternatives of a rule, the first one outermost -/
theorem makes_grammarOr {factors : List Alloc} {terms : List (List Alloc)}
    {rs : List (Parser (Option Ast))} {rss : List (List (Parser (Option Ast)))}
    (hfactors : List.Forall₂ (fun a r => Makes nodes a r Stands) factors rs)
    (hterms : List.Forall₂ (List.Forall₂ fun a r => Makes nodes a r Stands) terms rss) :
    Makes nodes (mpcafGrammarOr factors terms) (grammarOr rs rss) Stands := by
  induction hterms generalizing factors rs with
  | nil => exact makes_grammarAnd hfactors
  | cons hterm _ ih => exact makes_or (makes_grammarAnd hfactors) (ih hterm)

end

/-! ## Rules -/

/-- Each rule has a body. -/
theorem length_allocAll (base : Ptr) (rules : List Alloc) :
    (allocAll base rules).length = rules.length := by
  induction rules generalizing base with
  | nil => rfl
  | cons rule rules ih => rw [allocAll, List.length_cons, List.length_cons, ih]

/-- A body is between those of the rules before it and those of the rules behind it. -/
theorem allocAll_append (base : Ptr) (rules : List Alloc) (rule : Alloc) (rules' : List Alloc) :
    ∃ (base' : Nat) (before behind : List _),
      allocAll base (rules ++ rule :: rules') = before ++ rule base' :: behind ∧
      before.length = rules.length ∧ base' = base + (before.flatMap Prod.snd).length := by
  induction rules generalizing base with
  | nil => exact ⟨base, [], _, rfl, rfl, rfl⟩
  | cons rule₀ rules ih =>
    obtain ⟨base', before, behind, hall, hlength, hbase⟩ := ih (base + (rule₀ base).2.length)
    refine ⟨base', rule₀ base :: before, behind, ?_, ?_, ?_⟩
    · rw [List.cons_append, allocAll, hall, List.cons_append]
    · rw [List.length_cons, List.length_cons, hlength]
    · rw [hbase, List.flatMap_cons, List.length_append, Nat.add_assoc]

/-- The parser that is asked for is one of those that are allocated. -/
def Rooted (a : Alloc) : Prop := ∀ base, Nat.le base (a base).1

/-- A parser over two others is allocated behind them. -/
theorem rooted_new2 (p : Ptr → Ptr → MpcParser Val) (a b : Alloc) : Rooted (new2 p a b) := by
  intro base
  exact Nat.le_trans (Nat.le_add_right _ _) (Nat.le_add_right _ _)

/-- The body of a rule has its root among its own parsers. -/
theorem rooted_grammarAnd (xs : List Alloc) : Rooted (mpcafGrammarAnd xs) := by
  suffices ∀ a, Rooted a → Rooted (xs.foldl (mpcAnd mpcfFoldAst) a) from
    this mpcPass fun _ => Nat.le_refl _
  induction xs with
  | nil => exact fun a ha => ha
  | cons b xs ih => exact fun a _ => ih _ (rooted_new2 _ a b)

/-- Behind the rules the graph is what was allocated, and a rule has what is at the root of its body. -/
theorem mpcaLang_body {rules before behind : List Alloc} {rule : Alloc}
    (hrules : rules = before ++ rule :: behind) (hrooted : Rooted rule) :
    ∃ base, Holds (mpcaLang rules) base (rule base).2 ∧
      mpcaLang rules before.length = mpcaLang rules (rule base).1 := by
  obtain ⟨base, bodies, bodies', hall, hlength, hbase⟩ :=
    allocAll_append rules.length before rule behind
  rw [← hrules] at hall
  have hcount : (bodies ++ rule base :: bodies').length = rules.length := by
    rw [← hall, length_allocAll]
  have hflat : (bodies ++ rule base :: bodies').flatMap Prod.snd =
      bodies.flatMap Prod.snd ++ ((rule base).2 ++ bodies'.flatMap Prod.snd) := by
    rw [List.flatMap_append, List.flatMap_cons]
  have hbehind : ∀ p : Nat, rules.length ≤ p → mpcaLang rules p =
      ((bodies ++ rule base :: bodies').flatMap Prod.snd).getD (p - rules.length) .undefined := by
    intro p hp
    have hnone : (bodies ++ rule base :: bodies')[p]? = none :=
      List.getElem?_eq_none (hcount ▸ hp)
    simp only [mpcaLang, hall, hnone]
  have hle : rules.length ≤ base := hbase ▸ Nat.le_add_right _ _
  refine ⟨base, ?_, ?_⟩
  · intro k hk
    have hplace : base + k - rules.length = (bodies.flatMap Prod.snd).length + k := by omega
    rw [hbehind (base + k) (Nat.le_trans hle (Nat.le_add_right _ _)), hflat, hplace,
      List.getD_eq_getElem?_getD, List.getElem?_append_right (Nat.le_add_right _ _),
      Nat.add_sub_cancel_left, List.getElem?_append_left hk, List.getElem?_eq_getElem hk,
      Option.getD_some]
  · rw [hbehind _ (Nat.le_trans hle (hrooted base))]
    have hsome : (bodies ++ rule base :: bodies')[before.length]? = some (rule base) := by
      rw [← hlength, List.getElem?_append_right (Nat.le_refl _), Nat.sub_self]
      rfl
    simp only [mpcaLang, hall, hsome]

/-- A rule computes what its body makes. -/
theorem realizes_rule {rules : List Alloc} {i : Nat} {xs : List Alloc} {q : Parser α}
    {enc : α → Val → Prop} (hi : rules[i]? = some (mpcafGrammarAnd xs))
    (h : Makes (mpcaLang rules) (mpcafGrammarAnd xs) q enc) : Realizes vals (mpcaLang rules) i q enc := by
  obtain ⟨hlt, hget⟩ := List.getElem?_eq_some_iff.mp hi
  have hrules : rules = rules.take i ++ mpcafGrammarAnd xs :: rules.drop (i + 1) := by
    rw [← hget, ← List.drop_eq_getElem_cons hlt, List.take_append_drop]
  obtain ⟨base, hholds, hroot⟩ := mpcaLang_body hrules (rooted_grammarAnd xs)
  rw [List.length_take, Nat.min_eq_left (Nat.le_of_lt hlt)] at hroot
  exact (h base hholds).congr hroot

end Rbml.Mpc.Graph
