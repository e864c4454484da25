import Rbml.Asm.MpcFrontEnd
import Rbml.Asm.MpcGraph

/-!
# The other front end on the engine (`rbml_parser_mpc.c`)

`parser_parse_line` with the `mpc_parse` of `mpc.c`: it runs on the graph of parsers, its trees have the
positions of their parts, and the error of a line that is not parsed is printed with the number of the
line. What `mpc_err_print` writes of it is its `mpcErrString`, and the run goes on from it in any case,
also where that is undefined. Each line that `parser_read_line` gives is a string without a null byte, so
that `mpc_parse` ends on it.

The run of a file and that of `Rbml.Asm.MpcFrontEnd` do the same line after line: `Follows` says what
they share.
-/

namespace Rbml.Asm.MpcEngine

open Rbml.Lib Rbml.Mpc Rbml.Mpc.Graph Rbml.Asm.MpcGraph
open Rbml.Asm.MpcFrontEnd (parserReadLine parseLabel)

/-! ## Parsing a file -/

/-- What is printed: an error by `mpc_err_print`, or a tree by `mpc_ast_print` -/
inductive Printed where
  | error (e : MpcErr)
  | tree (a : Tree)

/-- The run of `parser_parse`: the session, what is left of the file, and what it printed -/
structure Run where
  session : Session
  input : List Char
  printed : List Printed

/-- `a->children[i]->contents` -/
def childContents (a : Tree) (i : Nat) : List Char := (a.children[i]?.map Tree.contents).getD []

/-- One turn of the loop of `parser_parse_line`, by the tag of a part of the line -/
def parseChild (b : Run) (a : Tree) : Run :=
  if a.tag = "label|>" then
    { b with session := parseLabel (String.ofList (childContents a 0)) b.session }
  else if a.tag = "word|>" then
    { b with session.code := codeEmit b.session.code (numberValue (childContents a 1)) }
  else if a.tag = "regex" then b
  else if a.tag = "instruction|inst0|string" then b
  else { b with printed := b.printed ++ [.tree a] }

/-- `r.error->state.row = p->line_num - 1` -/
def atLine (lineNum : Nat) (e : MpcErr) : MpcErr :=
  { e with state := e.state.map fun s => { s with row := lineNum - 1 } }

/-- `parser_parse_line`, where the run of `mpc_parse` may take `n` turns -/
def parserParseLine (n : Nat) (line : List Char) (b : Run) : Option Run := do
  match ← mpcParseString vals parserInit n b.session.parser.inputFile line
      (mpcaGrammarFindParser "line") with
  | .error e =>
    let p := { b.session.parser with numErrors := b.session.parser.numErrors + 1 }
    some { b with session.parser := p, printed := b.printed ++ [.error (atLine p.lineNum e)] }
  | .output (.ast ast) => some (ast.children.foldl parseChild b)
  | .output _ => none

/-- One turn of the loop of `parser_parse` -/
def parserTurn (n : Nat) (b : Run) : Option (Run ⊕ Run) :=
  match parserReadLine b.session.parser b.input with
  | .eof => some (.inr b)
  | .line line p rest =>
    (parserParseLine n line { b with session.parser := p, input := rest }).map .inl
  | .hangs => none

/-- `parser_parse` -/
def parserParse (text : List Char) (st : Session) (n : Nat) : Option Run :=
  loop parserTurn n ⟨st, text, []⟩

/-! ## Lines -/

theorem beforeLastNewline_subset (s : List Char) : MpcFrontEnd.beforeLastNewline s ⊆ s := by
  intro c hc
  have htail := (List.tail_sublist _).subset (List.mem_reverse.mp hc)
  exact List.mem_reverse.mp ((List.dropWhile_sublist _).subset htail)

/-- A string of C has no null byte. -/
theorem not_mem_cString (buf : List Char) : '\x00' ∉ MpcFrontEnd.cString buf := by
  intro hmem
  have hne := List.mem_takeWhile_imp hmem
  exact of_decide_eq_true hne rfl

/-- A line is a string. -/
theorem not_mem_of_readLine {p p' : Asm.Parser} {input line rest : List Char}
    (h : parserReadLine p input = .line line p' rest) : '\x00' ∉ line := by
  have hstrip : ∀ s : List Char, '\x00' ∉ s → '\x00' ∉ MpcFrontEnd.stripComment s :=
    fun s hs hmem => hs ((List.takeWhile_sublist _).subset hmem)
  simp only [parserReadLine] at h
  split at h
  · cases h
  · split at h
    · cases h
      exact hstrip _ fun hmem => not_mem_cString _ (beforeLastNewline_subset _ hmem)
    · split at h
      · cases h
        exact hstrip _ (not_mem_cString _)
      · split at h
        · cases h
        · cases h
          exact List.not_mem_nil

/-! ## What the two runs share -/

/-- The tree that is printed, without its positions -/
def Printed.ast : Printed → Option Ast
  | .error _ => none
  | .tree a => some a.forget

/-- The same session, the same rest of the file, and the same trees printed -/
structure Follows (b' : Run) (b : MpcFrontEnd.Run) : Prop where
  session : b'.session = b.session
  input : b'.input = b.input
  printed : b'.printed.filterMap Printed.ast = b.printed

/-- A tree keeps its tag without the positions. -/
theorem tag_forget (a : Tree) : a.forget.tag = a.tag := by
  cases a
  rfl

theorem contents_forget (a : Tree) : a.forget.contents = a.contents := by
  cases a
  rfl

/-- A tree keeps the texts of its parts without the positions. -/
theorem childContents_forget (a : Tree) (i : Nat) :
    MpcFrontEnd.childContents a.forget i = childContents a i := by
  rw [MpcFrontEnd.childContents, childContents, children_forget, List.getElem?_map, Option.map_map]
  cases a.children[i]? with
  | none => rfl
  | some c => exact contents_forget c

/-- The two runs do the same with a part of a line. -/
theorem Follows.parseChild {b' : Run} {b : MpcFrontEnd.Run} (h : Follows b' b) (a : Tree) :
    Follows (parseChild b' a) (MpcFrontEnd.parseChild b a.forget) := by
  obtain ⟨hsession, hinput, hprinted⟩ := h
  rw [MpcEngine.parseChild, MpcFrontEnd.parseChild, tag_forget, childContents_forget,
    childContents_forget, hsession]
  split
  · exact ⟨rfl, hinput, hprinted⟩
  split
  · exact ⟨rfl, hinput, hprinted⟩
  split
  · exact ⟨hsession, hinput, hprinted⟩
  split
  · exact ⟨hsession, hinput, hprinted⟩
  · refine ⟨rfl, hinput, ?_⟩
    rw [List.filterMap_append, hprinted]
    rfl

/-- The two runs do the same with all parts of a line. -/
theorem Follows.parseChildren {b' : Run} {b : MpcFrontEnd.Run} (h : Follows b' b) (children : List Tree) :
    Follows (children.foldl MpcEngine.parseChild b')
      ((children.map Tree.forget).foldl MpcFrontEnd.parseChild b) := by
  induction children generalizing b' b with
  | nil => exact h
  | cons a children ih => exact ih (h.parseChild a)

/-! ## Turns -/

/-- What `mpc_parse` returns does not depend on the turns it may take. -/
theorem steady_mpcParseString {V : Type} (vals : Values V) (nodes : Mpc.Ptr → MpcParser V)
    (filename : String) (s : List Char) (p : Mpc.Ptr) :
    Steady fun fuel => mpcParseString vals nodes fuel filename s p := by
  intro n r h
  obtain ⟨out, hout, rfl⟩ := Option.map_eq_some_iff.mp h
  exact Option.map_eq_some_iff.mpr ⟨out, steady_loop_turn _ _ n out hout, rfl⟩

theorem steady_parserParseLine (line : List Char) (b : Run) :
    Steady fun n => parserParseLine n line b :=
  (steady_mpcParseString _ _ _ _ _).bind fun _ => steady_const _

/-- What a turn leaves does not depend on the turns that `mpc_parse` may take. -/
theorem steady_parserTurn (b : Run) : Steady fun n => parserTurn n b := by
  intro n r h
  simp only [parserTurn] at h ⊢
  split at h
  · exact h
  · obtain ⟨b₁, hb₁, rfl⟩ := Option.map_eq_some_iff.mp h
    exact Option.map_eq_some_iff.mpr ⟨b₁, steady_parserParseLine _ _ n b₁ hb₁, rfl⟩
  · cases h

/-- A line on which `mpc_parse` fails -/
theorem parserParseLine_error {n : Nat} {line : List Char} {b : Run} {e : MpcErr}
    (h : mpcParseString vals parserInit n b.session.parser.inputFile line
      (mpcaGrammarFindParser "line") = some (.error e)) :
    parserParseLine n line b = some { b with
      session.parser := { b.session.parser with numErrors := b.session.parser.numErrors + 1 }
      printed := b.printed ++ [.error (atLine b.session.parser.lineNum e)] } := by
  rw [parserParseLine, h]
  rfl

/-- A line of which `mpc_parse` makes a tree -/
theorem parserParseLine_output {n : Nat} {line : List Char} {b : Run} {a : Tree}
    (h : mpcParseString vals parserInit n b.session.parser.inputFile line
      (mpcaGrammarFindParser "line") = some (.output (.ast a))) :
    parserParseLine n line b = some (a.children.foldl parseChild b) := by
  rw [parserParseLine, h]
  rfl

/-- A line that is not in the grammar is counted as an error. -/
theorem grammar_error {line : List Char} {b : MpcFrontEnd.Run}
    (h : mpcParse MpcGrammar.line line = none) : MpcFrontEnd.parserParseLine line b = { b with
      session.parser := { b.session.parser with numErrors := b.session.parser.numErrors + 1 } } := by
  unfold MpcFrontEnd.parserParseLine
  generalize mpcParse MpcGrammar.line line = r at h
  rw [h]

/-- Of a line that is in the grammar the parts are read one after the other. -/
theorem grammar_output {line : List Char} {b : MpcFrontEnd.Run} {a : Ast}
    (h : mpcParse MpcGrammar.line line = some (some a)) :
    MpcFrontEnd.parserParseLine line b = a.children.foldl MpcFrontEnd.parseChild b := by
  unfold MpcFrontEnd.parserParseLine
  generalize mpcParse MpcGrammar.line line = r at h
  rw [h]
  rfl

/-- A line is parsed by the engine as by the grammar. -/
theorem Follows.parserParseLine {b' : Run} {b : MpcFrontEnd.Run} (h : Follows b' b) {line : List Char}
    (hline : '\x00' ∉ line) : ∃ b₁, Settles (fun n => MpcEngine.parserParseLine n line b') b₁ ∧
      Follows b₁ (MpcFrontEnd.parserParseLine line b) := by
  obtain ⟨houtput, herror⟩ := computes_line.settles b'.session.parser.inputFile hline
  rcases Option.eq_none_or_eq_some (mpcParse MpcGrammar.line line) with hparse | ⟨x, hparse⟩
  · obtain ⟨e, n, hn⟩ := herror hparse
    have hrun := parserParseLine_error (b := b') hn
    refine ⟨_, ⟨n, hrun⟩, ?_⟩
    rw [grammar_error hparse]
    refine ⟨by rw [h.session], h.input, ?_⟩
    rw [List.filterMap_append, h.printed]
    exact List.append_nil _
  · obtain ⟨-, -, -, -, -, a, -, -, -, -, rfl, -⟩ := MpcGrammar.mpcParse_line hparse
    obtain ⟨v, hv, n, hn⟩ := houtput _ hparse
    obtain ⟨t, rfl, rfl⟩ := hv.exists_tree
    have hrun := parserParseLine_output (b := b') hn
    refine ⟨_, ⟨n, hrun⟩, ?_⟩
    rw [grammar_output hparse, children_forget]
    exact h.parseChildren t.children

/-- What the two do at the same place of a file: they are at its end, they go on from a line, or reading
it does not return. -/
theorem Follows.turn_cases {b' : Run} {b : MpcFrontEnd.Run} (h : Follows b' b) :
    (MpcFrontEnd.parserTurn b = some (.inr b) ∧ ∀ n, parserTurn n b' = some (.inr b')) ∨
      (∃ b₁ b₁', MpcFrontEnd.parserTurn b = some (.inl b₁) ∧
        Settles (fun n => parserTurn n b') (.inl b₁') ∧ Follows b₁' b₁) ∨
      (MpcFrontEnd.parserTurn b = none ∧ ∀ n, parserTurn n b' = none) := by
  have hread : parserReadLine b'.session.parser b'.input =
      parserReadLine b.session.parser b.input := by rw [h.session, h.input]
  simp only [MpcFrontEnd.parserTurn, parserTurn, hread]
  cases hline : parserReadLine b.session.parser b.input with
  | eof => exact .inl ⟨rfl, fun _ => rfl⟩
  | line line p rest =>
    have hnext : Follows { b' with session.parser := p, input := rest }
        { b with session.parser := p, input := rest } :=
      ⟨by rw [h.session], rfl, h.printed⟩
    obtain ⟨b₁', ⟨n, hn⟩, hfollows⟩ := hnext.parserParseLine (not_mem_of_readLine hline)
    exact .inr (.inl ⟨_, b₁', rfl, ⟨n, Option.map_eq_some_iff.mpr ⟨b₁', hn, rfl⟩⟩, hfollows⟩)
  | hangs => exact .inr (.inr ⟨rfl, fun _ => rfl⟩)

/-! ## Files -/

/-- Where the run of the combinator form ends, the other one ends and follows it. -/
theorem Follows.loop {n : Nat} {b' : Run} {b c : MpcFrontEnd.Run} (h : Follows b' b)
    (hloop : Lib.loop (fun _ => MpcFrontEnd.parserTurn) n b = some c) :
    ∃ c', Settles (fun n => Lib.loop parserTurn n b') c' ∧ Follows c' c := by
  induction n generalizing b' b with
  | zero => cases hloop
  | succ n ih =>
    rcases h.turn_cases with ⟨hturn, hturn'⟩ | ⟨b₁, b₁', hturn, ⟨k, hk⟩, hfollows⟩ | ⟨hturn, -⟩
    · rw [loop_inr hturn] at hloop
      cases hloop
      exact ⟨b', settles_loop_inr (hturn' 0), h⟩
    · rw [loop_inl hturn] at hloop
      obtain ⟨c', hc', hlast⟩ := ih hfollows hloop
      have hinl : ∀ n, k ≤ n → parserTurn n b' = some (.inl b₁') :=
        fun n hn => (steady_parserTurn b').le hn hk
      exact ⟨c', (settles_loop_inl steady_parserTurn hinl).mpr hc', hlast⟩
    · rw [Lib.loop, hturn] at hloop
      cases hloop

/-- Where the run on the engine ends, it has followed the other one. -/
theorem Follows.loop_back {n : Nat} {b' c' : Run} {b : MpcFrontEnd.Run} (h : Follows b' b)
    (hloop : Lib.loop parserTurn n b' = some c') :
    ∃ c, Settles (fun n => Lib.loop (fun _ => MpcFrontEnd.parserTurn) n b) c ∧ Follows c' c := by
  induction n generalizing b' b with
  | zero => cases hloop
  | succ n ih =>
    rcases h.turn_cases with ⟨hturn, hturn'⟩ | ⟨b₁, b₁', hturn, hk, hfollows⟩ | ⟨-, hturn'⟩
    · rw [loop_inr (hturn' n)] at hloop
      cases hloop
      exact ⟨b, settles_loop_inr (n := 0) hturn, h⟩
    · rcases loop_cases hloop with hlast | ⟨b₂, hnext, hrest⟩
      · cases (steady_parserTurn b').unique ⟨n, hlast⟩ hk
      · obtain rfl := Sum.inl.inj ((steady_parserTurn b').unique ⟨n, hnext⟩ hk)
        obtain ⟨c, hc, hlast⟩ := ih hfollows hrest
        exact ⟨c, (settles_loop_turn hturn).mpr hc, hlast⟩
    · rw [Lib.loop, hturn' n] at hloop
      cases hloop

/-- **The other front end runs on the engine.** Where one of the two ends, so does the other, with the
same session, and it has printed the same trees. -/
theorem parserParse_follows (text : List Char) (st : Session) :
    (∀ c, Settles (MpcFrontEnd.parserParse text st) c →
      ∃ c', Settles (parserParse text st) c' ∧ Follows c' c) ∧
    (∀ c', Settles (parserParse text st) c' →
      ∃ c, Settles (MpcFrontEnd.parserParse text st) c ∧ Follows c' c) := by
  have hstart : Follows ⟨st, text, []⟩ ⟨st, text, []⟩ := ⟨rfl, rfl, rfl⟩
  constructor
  · rintro c ⟨n, h⟩
    exact hstart.loop h
  · rintro c' ⟨n, h⟩
    exact hstart.loop_back h

end Rbml.Asm.MpcEngine
