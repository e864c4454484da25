import Rbml.Asm.Acceptance
import Rbml.Asm.MpcGrammar
import Rbml.Lib.Loop

/-!
# The other front end (`rbml_parser_mpc.c`)

`parser_parse` of the front end that `rbmlc-mpc` is linked with. The file is read line by line into a
buffer of 1024 bytes, and every line is parsed by itself. What a line means is decided by the tags of
the parts of its tree: a label is added to the code, a `WORD` is emitted, and of every other
instruction the tree is printed, or not even that.

`Emits` is what a run without an error has read and emitted. Its lines end where the newlines of the
file are, and `lineText` is what the parser gets of each: nothing from a comment on, and nothing from a
null byte on, where the string in the buffer ends.

What `mpc_err_print` writes is left out, and so are the paths on which the program dies.
-/

namespace Rbml.Asm.MpcFrontEnd

open Rbml.Lib
open Rbml.Mpc

/-! ## Reading a line -/

/-- What `fgets` leaves: the characters in the buffer, whether it met the end of the file, and what is
left of the file -/
structure Gets where
  buf : List Char
  eof : Bool
  rest : List Char

/-- `fgets`, which reads `n` characters at most -/
def fgets : Nat → List Char → Gets
  | 0, input => ⟨[], false, input⟩
  | _ + 1, [] => ⟨[], true, []⟩
  | n + 1, c :: input =>
    if c = '\n' then ⟨[c], false, input⟩
    else
      let g := fgets n input
      { g with buf := c :: g.buf }

/-- The string in a buffer -/
def cString (buf : List Char) : List Char := buf.takeWhile (· ≠ '\x00')

/-- The string before its last newline: `strrchr`, and a null byte in its place -/
def beforeLastNewline (s : List Char) : List Char := (s.reverse.dropWhile (· ≠ '\n')).tail.reverse

/-- The string before its first semicolon: `strchr`, and a null byte in its place -/
def stripComment (s : List Char) : List Char := s.takeWhile (· ≠ ';')

/-- `while (fgetc(p->fp) != '\n')`, which does not end where there is no newline -/
def skipToNewline : List Char → Option (List Char)
  | [] => none
  | c :: input => if c = '\n' then some input else skipToNewline input

/-- What `parser_read_line` does: it returns 0, it returns a line, or it does not return -/
inductive ReadLine where
  | eof
  | line (line : List Char) (p : Asm.Parser) (rest : List Char)
  | hangs

/-- `sizeof(line)`, less the null byte -/
def bufSize : Nat := 1023

/-- `parser_read_line` -/
def parserReadLine (p : Asm.Parser) (input : List Char) : ReadLine :=
  let g := fgets bufSize input
  if g.buf = [] then .eof
  else
    let p := { p with lineNum := p.lineNum + 1 }
    let s := cString g.buf
    if '\n' ∈ s then .line (stripComment (beforeLastNewline s)) p g.rest
    else if g.eof then .line (stripComment s) (parserWarning p "No newline at end of file") g.rest
    else
      match skipToNewline g.rest with
      | none => .hangs
      | some rest => .line [] (parserError p "Line too long") rest

/-! ## Parsing a line -/

/-- The run of `parser_parse`: the session, what is left of the file, and the trees that it printed -/
structure Run where
  session : Session
  input : List Char
  printed : List Ast

/-- `a->children[i]->contents` -/
def childContents (a : Ast) (i : Nat) : List Char := (a.children[i]?.map Ast.contents).getD []

/-- The part of a line that is a label -/
def parseLabel (name : String) (st : Session) : Session :=
  match codeSymbolLookup st.code name with
  | some s => { st with parser := parserError st.parser (redefinedMessage name s.lineNum) }
  | none => { st with code := (codeSymbolAdd st.code name st.parser.lineNum).1 }

/-- One turn of the loop of `parser_parse_line`, by the tag of a part of the line -/
def parseChild (b : Run) (a : Ast) : Run :=
  if a.tag = "label|>" then
    { b with session := parseLabel (String.ofList (childContents a 0)) b.session }
  else if a.tag = "word|>" then
    { b with session.code := codeEmit b.session.code (numberValue (childContents a 1)) }
  else if a.tag = "regex" then b
  else if a.tag = "instruction|inst0|string" then b
  else { b with printed := b.printed ++ [a] }

/-- `parser_parse_line` -/
def parserParseLine (line : List Char) (b : Run) : Run :=
  match mpcParse MpcGrammar.line line with
  | none =>
    { b with session.parser := { b.session.parser with numErrors := b.session.parser.numErrors + 1 } }
  | some ast => ((ast.map Ast.children).getD []).foldl parseChild b

/-- One turn of the loop of `parser_parse`. It has no result where `parser_read_line` does not
return. -/
def parserTurn (b : Run) : Option (Run ⊕ Run) :=
  match parserReadLine b.session.parser b.input with
  | .eof => some (.inr b)
  | .line line p rest =>
    some (.inl (parserParseLine line { b with session.parser := p, input := rest }))
  | .hangs => none

/-- `parser_parse`, in at most `n` turns -/
def parserParse (text : List Char) (st : Session) (n : Nat) : Option Run :=
  loop (fun _ => parserTurn) n ⟨st, text, []⟩

/-- `compile` of the program that is linked with this front end -/
def compileMpc (inputFile : String) (text : List Char) (n : Nat) : Option Compiled :=
  (parserParse text ⟨parserAlloc inputFile, codeAlloc⟩ n).map fun b =>
    compile (fun _ => b.session) inputFile

/-! ## What a line is -/

/-- What `fgets` has read: a line and its newline, or a part of the file without one, which is all of
it where the end was met -/
theorem fgets_cases (n : Nat) (input : List Char) :
    (∃ l, '\n' ∉ l ∧ (fgets n input).buf = l ++ ['\n'] ∧ (fgets n input).eof = false ∧
        input = l ++ '\n' :: (fgets n input).rest) ∨
      ('\n' ∉ (fgets n input).buf ∧ input = (fgets n input).buf ++ (fgets n input).rest ∧
        ((fgets n input).eof = true → (fgets n input).rest = [])) := by
  induction n generalizing input with
  | zero => exact .inr ⟨List.not_mem_nil, rfl, Bool.noConfusion⟩
  | succ n ih =>
    cases input with
    | nil => exact .inr ⟨List.not_mem_nil, rfl, fun _ => rfl⟩
    | cons c input =>
      rw [fgets]
      by_cases hc : c = '\n'
      · subst hc
        exact .inl ⟨[], List.not_mem_nil, rfl, rfl, rfl⟩
      · rw [if_neg hc]
        rcases ih input with ⟨l, hl, hbuf, heof, hinput⟩ | ⟨hbuf, hinput, heof⟩
        · refine .inl ⟨c :: l, ?_, congrArg (c :: ·) hbuf, heof, congrArg (c :: ·) hinput⟩
          rw [List.mem_cons, not_or]
          exact ⟨Ne.symm hc, hl⟩
        · refine .inr ⟨?_, congrArg (c :: ·) hinput, heof⟩
          rw [List.mem_cons, not_or]
          exact ⟨Ne.symm hc, hbuf⟩

/-- What the parser gets of a line of the file -/
def lineText (l : List Char) : List Char := stripComment (cString l)

theorem beforeLastNewline_append (l : List Char) : beforeLastNewline (l ++ ['\n']) = l := by
  rw [beforeLastNewline, List.reverse_append, List.reverse_singleton, List.singleton_append,
    List.dropWhile_cons_of_neg (by decide), List.tail_cons, List.reverse_reverse]

/-- A string that has the newline at the end of its buffer is the whole of it. -/
theorem cString_append {l : List Char} (hl : '\n' ∉ l) (h : '\n' ∈ cString (l ++ ['\n'])) :
    cString l = l ∧ cString (l ++ ['\n']) = l ++ ['\n'] := by
  unfold cString at h ⊢
  rw [List.takeWhile_append] at h ⊢
  split at h
  next hlength =>
    rw [if_pos hlength]
    exact ⟨(List.takeWhile_prefix _).eq_of_length hlength, rfl⟩
  · exact absurd ((List.takeWhile_sublist _).subset h) hl

/-- A line that is read without an error ends where the next newline of the file is. -/
theorem parserReadLine_line {p p' : Asm.Parser} {input line rest : List Char}
    (h : parserReadLine p input = .line line p' rest) (hok : p'.numErrors = 0) :
    p.numErrors = 0 ∧ ∃ l, '\n' ∉ l ∧ line = lineText l ∧
      (input = l ++ '\n' :: rest ∨ (l ≠ [] ∧ input = l ∧ rest = [])) := by
  simp only [parserReadLine] at h
  split at h
  · cases h
  next hne =>
    split at h
    next hnewline =>
      cases h
      refine ⟨hok, ?_⟩
      rcases fgets_cases bufSize input with ⟨l, hl, hbuf, -, hinput⟩ | ⟨hbuf, -⟩
      · rw [hbuf] at hnewline ⊢
        have hstring := cString_append hl hnewline
        refine ⟨l, hl, ?_, .inl hinput⟩
        rw [hstring.2, beforeLastNewline_append, lineText, hstring.1]
      · exact absurd ((List.takeWhile_sublist _).subset hnewline) hbuf
    · split at h
      next heof =>
        cases h
        rcases fgets_cases bufSize input with ⟨l, -, -, hnot, -⟩ | ⟨hbuf, hinput, hend⟩
        · exact absurd (hnot.symm.trans heof) Bool.false_ne_true
        · refine ⟨hok, (fgets bufSize input).buf, hbuf, rfl, .inr ⟨hne, ?_, hend heof⟩⟩
          rw [hend heof, List.append_nil] at hinput
          exact hinput
      · split at h
        · cases h
        · cases h
          cases hok

/-- `parser_read_line` returns 0 at the end of the file only. -/
theorem parserReadLine_eof {p : Asm.Parser} {input : List Char} (h : parserReadLine p input = .eof) :
    input = [] := by
  cases input with
  | nil => rfl
  | cons c input =>
    have hbuf : (fgets bufSize (c :: input)).buf ≠ [] := by
      show (fgets (1022 + 1) (c :: input)).buf ≠ []
      rw [fgets]
      split <;> exact List.cons_ne_nil _ _
    simp only [parserReadLine, if_neg hbuf] at h
    split at h
    · cases h
    · split at h
      · cases h
      · split at h <;> cases h

/-! ## What a run emits -/

/-- The word that a part of a line emits -/
def childWord (a : Ast) : Option Word :=
  if a.tag = "word|>" then some (numberValue (childContents a 1)) else none

theorem parseLabel_spec (name : String) (st : Session) :
    st.parser.numErrors ≤ (parseLabel name st).parser.numErrors ∧
      (parseLabel name st).code.text = st.code.text := by
  unfold parseLabel
  split
  · exact ⟨Nat.le_succ _, rfl⟩
  · exact ⟨Nat.le_refl _, rfl⟩

theorem parseChild_spec (b : Run) (a : Ast) :
    b.session.parser.numErrors ≤ (parseChild b a).session.parser.numErrors ∧
      (parseChild b a).session.code.text = b.session.code.text ++ (childWord a).toList ∧
      (parseChild b a).input = b.input := by
  unfold parseChild childWord
  by_cases hlabel : a.tag = "label|>"
  · have hword : a.tag ≠ "word|>" := by
      rw [hlabel]
      decide
    obtain ⟨herrors, htext⟩ := parseLabel_spec (String.ofList (childContents a 0)) b.session
    rw [if_pos hlabel, if_neg hword, Option.toList_none, List.append_nil]
    exact ⟨herrors, htext, rfl⟩
  · rw [if_neg hlabel]
    split
    · exact ⟨Nat.le_refl _, rfl, rfl⟩
    · rw [Option.toList_none, List.append_nil]
      split
      · exact ⟨Nat.le_refl _, rfl, rfl⟩
      · split <;> exact ⟨Nat.le_refl _, rfl, rfl⟩

theorem parseChildren (children : List Ast) (b : Run) :
    b.session.parser.numErrors ≤ (children.foldl parseChild b).session.parser.numErrors ∧
      (children.foldl parseChild b).session.code.text =
        b.session.code.text ++ children.filterMap childWord ∧
      (children.foldl parseChild b).input = b.input := by
  induction children generalizing b with
  | nil => exact ⟨Nat.le_refl _, (List.append_nil _).symm, rfl⟩
  | cons a children ih =>
    obtain ⟨herrors, htext, hinput⟩ := parseChild_spec b a
    obtain ⟨herrors', htext', hinput'⟩ := ih (parseChild b a)
    refine ⟨Nat.le_trans herrors herrors', ?_, hinput'.trans hinput⟩
    rw [List.foldl_cons, htext', htext, List.append_assoc, List.filterMap_cons]
    cases childWord a <;> rfl

/-- A line that is parsed without an error, and what its parts emit -/
theorem parserParseLine_clean {line : List Char} {b : Run}
    (hok : (parserParseLine line b).session.parser.numErrors = 0) :
    b.session.parser.numErrors = 0 ∧ (parserParseLine line b).input = b.input ∧
      ∃ a, mpcParse MpcGrammar.line line = some (some a) ∧
        (parserParseLine line b).session.code.text =
          b.session.code.text ++ a.children.filterMap childWord := by
  unfold parserParseLine at hok ⊢
  split at hok
  · cases hok
  next x hx =>
    obtain ⟨-, -, -, -, -, a, -, -, -, -, rfl, -⟩ := MpcGrammar.mpcParse_line hx
    obtain ⟨herrors, htext, hinput⟩ := parseChildren a.children b
    exact ⟨Nat.eq_zero_of_le_zero (hok ▸ herrors), hinput, a, hx, htext⟩

/-- The line is parsed, and these are the words that its parts emit. -/
def EmitsLine (l : List Char) (ws : List Word) : Prop :=
  ∃ a, mpcParse MpcGrammar.line (lineText l) = some (some a) ∧ ws = a.children.filterMap childWord

/-- What a run without an error makes of a file: the words of its lines -/
inductive Emits : List Char → List Word → Prop
  | eof : Emits [] []
  | last {l : List Char} {ws : List Word} (hne : l ≠ []) (hl : '\n' ∉ l) (hline : EmitsLine l ws) :
    Emits l ws
  | line {l rest : List Char} {ws ws' : List Word} (hl : '\n' ∉ l) (hline : EmitsLine l ws)
      (hrest : Emits rest ws') : Emits (l ++ '\n' :: rest) (ws ++ ws')

theorem Emits.of_nil {ws : List Word} (h : Emits [] ws) : ws = [] := by
  generalize htext : ([] : List Char) = text at h
  cases h with
  | eof => rfl
  | last hne => exact absurd htext.symm hne
  | line => exact absurd htext.symm (List.append_ne_nil_of_right_ne_nil _ (List.cons_ne_nil _ _))

/-- One turn without an error, at the end of the file or at a line -/
theorem parserTurn_clean {b : Run} {next : Run ⊕ Run}
    (h : parserTurn b = some next) :
    (next = .inr b ∧ b.input = []) ∨ ∃ b₁, next = .inl b₁ ∧ (b₁.session.parser.numErrors = 0 →
      b.session.parser.numErrors = 0 ∧ ∃ l ws, '\n' ∉ l ∧ EmitsLine l ws ∧
        b₁.session.code.text = b.session.code.text ++ ws ∧
        (b.input = l ++ '\n' :: b₁.input ∨ (l ≠ [] ∧ b.input = l ∧ b₁.input = []))) := by
  unfold parserTurn at h
  split at h
  next hread =>
    cases h
    exact .inl ⟨rfl, parserReadLine_eof hread⟩
  next line p rest hread =>
    cases h
    refine .inr ⟨_, rfl, fun hok => ?_⟩
    obtain ⟨hread', hrest, a, hparse, htext⟩ := parserParseLine_clean hok
    obtain ⟨hok₀, l, hl, rfl, hinput⟩ := parserReadLine_line hread hread'
    refine ⟨hok₀, l, _, hl, ⟨a, hparse, rfl⟩, htext, ?_⟩
    rw [hrest]
    exact hinput
  · cases h

/-- The code of a run without an error is what the run started with and the words of the lines. -/
theorem loop_emits {n : Nat} {b b' : Run} (h : loop (fun _ => parserTurn) n b = some b')
    (hok : b'.session.parser.numErrors = 0) :
    b.session.parser.numErrors = 0 ∧
      ∃ ws, Emits b.input ws ∧ b'.session.code.text = b.session.code.text ++ ws := by
  induction n generalizing b with
  | zero => cases h
  | succ n ih =>
    rcases loop_cases h with hturn | ⟨b₁, hturn, hloop⟩
    · rcases parserTurn_clean hturn with ⟨hresult, hinput⟩ | ⟨b₂, hresult, -⟩
      · cases hresult
        exact ⟨hok, [], hinput ▸ .eof, (List.append_nil _).symm⟩
      · cases hresult
    · rcases parserTurn_clean hturn with ⟨hresult, -⟩ | ⟨b₂, hresult, hline⟩
      · cases hresult
      · cases hresult
        obtain ⟨hok₁, ws', hrest, htext'⟩ := ih hloop
        obtain ⟨hok₀, l, ws, hl, hemits, htext, hinput⟩ := hline hok₁
        refine ⟨hok₀, ?_⟩
        rcases hinput with hinput | ⟨hne, hinput, hend⟩
        · refine ⟨ws ++ ws', hinput ▸ .line hl hemits hrest, ?_⟩
          rw [htext', htext, List.append_assoc]
        · obtain rfl := (hend ▸ hrest).of_nil
          refine ⟨ws, hinput ▸ .last hne hl hemits, ?_⟩
          rw [htext', htext, List.append_nil]

/-- The code that is written is the words of the lines. -/
theorem compileMpc_emits {inputFile : String} {text : List Char} {r : Compiled} {c : Code}
    (hr : Settles (compileMpc inputFile text) r) (h : r.written = some c) : Emits text c.text := by
  obtain ⟨n, hn⟩ := hr
  obtain ⟨b, hb, rfl⟩ := Option.map_eq_some_iff.mp hn
  simp only [compile] at h
  split at h
  next hok =>
    obtain rfl := Option.some.inj h
    rw [codeCheckRefs_eq] at hok
    obtain ⟨-, ws, hemits, htext⟩ := loop_emits hb (Nat.eq_zero_of_add_eq_zero hok).1
    rw [htext]
    exact hemits
  · cases h

end Rbml.Asm.MpcFrontEnd
