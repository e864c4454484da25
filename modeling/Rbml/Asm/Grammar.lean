import Rbml.Asm.Source

/-!
# The generated parser (`rbml_parser.y`)

The parser that bison makes of the grammar, as an automaton over tokens. A line is read token by
token. The actions of `label` and `instruction` run as soon as their last token has been shifted,
since the states they are reduced in have nothing else to do and do not wait for a lookahead.

A token that the automaton cannot shift is a syntax error. It is reported unless one of the last
three shifted tokens followed another error (`errStatus`, which is `yyerrstatus`). Then the line is
an `error`, after which only a newline or the end of the file can be shifted: every other token is
discarded. `YYERROR` in the action of `label` does the same without a report of its own. What bison
adds to the text `syntax error` about expected tokens is left out.
-/

namespace Rbml.Asm

/-- Where the parser is in a line -/
inductive Stage where
  | start
  /-- after `IDENT` -/
  | ident (name : String)
  /-- after a `label` -/
  | label
  /-- after `WORD` -/
  | word
  /-- after a mnemonic that takes operands -/
  | inst (form : Form) (op : Opcode)
  /-- after a first operand, a register, that another one follows -/
  | reg (form : Form) (op : Opcode) (reg : Word)
  | regComma (form : Form) (op : Opcode) (reg : Word)
  /-- after a first operand, a number -/
  | number (op : Opcode) (text : List Char)
  | numberComma (op : Opcode) (text : List Char)
  /-- after a `line` that is not empty -/
  | done
  deriving DecidableEq, Repr

/-- What is reduced when a token has been shifted: nothing with an action, a label, or an
instruction -/
inductive Reduction where
  | none
  | label (name : String)
  | instruction (stmt : Statement)
  deriving DecidableEq, Repr

/-- A token at the beginning of a statement -/
def shiftMnemonic : Token → Option (Stage × Reduction)
  | .word => some (.word, .none)
  | .inst .inst0 op => some (.done, .instruction (.inst0 op))
  | .inst form op => some (.inst form op, .none)
  | _ => none

/-- The shifts of the automaton, with the reductions that follow at once -/
def shift : Stage → Token → Option (Stage × Reduction)
  | .start, .newline | .label, .newline | .done, .newline => some (.start, .none)
  | .start, .ident name => some (.ident name, .none)
  | .start, t | .label, t => shiftMnemonic t
  | .ident name, .colon => some (.label, .label name)
  | .word, .number text => some (.done, .instruction (.word text))
  | .inst .inst1a op, .ident name => some (.done, .instruction (.inst1a op name))
  | .inst .inst1r op, .reg r => some (.done, .instruction (.inst1r op r))
  | .inst .inst2rr op, .reg r => some (.reg .inst2rr op r, .none)
  | .inst .inst2ra op, .reg r => some (.reg .inst2ra op r, .none)
  | .inst .inst2nr op, .number text => some (.number op text, .none)
  | .reg form op r, .comma => some (.regComma form op r, .none)
  | .regComma .inst2rr op r, .reg r' => some (.done, .instruction (.inst2rr op r r'))
  | .regComma .inst2ra op r, .ident name => some (.done, .instruction (.inst2ra op r name))
  | .number op text, .comma => some (.numberComma op text, .none)
  | .numberComma op text, .reg r => some (.done, .instruction (.inst2nr op text r))
  | _, _ => none

/-- The parser between two tokens, with the scanner's count of lines -/
structure ParseState where
  yylineno : Nat
  stage : Stage
  errStatus : Nat
  session : Session

/-- The text of every syntax error -/
def syntaxErrorMessage : String := "syntax error"

/-- The text for a character that no other rule of the scanner matches -/
def unexpectedMessage : String := "Unexpected character"

/-- A report, unless an error was met a short while ago -/
def reportSyntaxError (b : ParseState) : Session :=
  if b.errStatus = 0 then
    { b.session with parser := parserError b.session.parser syntaxErrorMessage }
  else b.session

/-- A token that cannot be shifted: a report and recovery, which shifts a newline and discards any
other token -/
def syntaxError (t : Token) (b : ParseState) : ParseState :=
  let session := reportSyntaxError b
  match t with
  | .newline => { b with stage := .start, errStatus := 2, session }
  | _ => { b with stage := .done, errStatus := 3, session }

/-- One token -/
def feed (t : Token) (b : ParseState) : ParseState :=
  match shift b.stage t with
  | none => syntaxError t b
  | some (stage, .none) => { b with stage, errStatus := b.errStatus - 1 }
  | some (stage, .label name) =>
    match labelAction name b.session with
    | (true, session) => { b with stage, errStatus := b.errStatus - 1, session }
    | (false, session) => { b with stage := .done, errStatus := 3, session }
  | some (stage, .instruction stmt) =>
    { b with
      stage
      errStatus := b.errStatus - 1
      session := instructionAction stmt.instruction b.session }

/-- `line_num = yylineno` -/
def atLine (lineNum : Nat) (st : Session) : Session :=
  { st with parser := { st.parser with lineNum } }

/-- A match of the scanner moves the count of lines, and the parser's line number with it. -/
def ParseState.moveTo (b : ParseState) (yylineno : Nat) : ParseState :=
  { b with yylineno, session := atLine yylineno b.session }

/-- One match of the scanner -/
def lexStep (b : ParseState) (x : Lexed) : ParseState :=
  let b := b.moveTo (if x = .token .newline then b.yylineno + 1 else b.yylineno)
  match x with
  | .token t => feed t b
  | .skip => b
  | .unexpected =>
    { b with
      session := { b.session with parser := parserError b.session.parser unexpectedMessage } }

/-- The end of the file -/
def parseEnd (b : ParseState) : Session :=
  match b.stage with
  | .start | .label | .done => b.session
  | _ => reportSyntaxError b

/-- `rbml_parse` -/
def rbmlParse (text : List Char) (st : Session) : Session :=
  parseEnd ((lex text).foldl lexStep ⟨1, .start, 0, st⟩)

/-- The token that a match returns -/
def Lexed.token? : Lexed → Option Token
  | .token t => some t
  | _ => none

/-- The tokens of a text -/
def tokens (text : List Char) : List Token := (lex text).filterMap Lexed.token?

theorem mem_tokens {text : List Char} {t : Token} : t ∈ tokens text ↔ .token t ∈ lex text := by
  rw [tokens, List.mem_filterMap]
  constructor
  · rintro ⟨x, hx, hxt⟩
    cases x with
    | token t' =>
      cases hxt
      exact hx
    | skip => cases hxt
    | unexpected => cases hxt
  · intro h
    exact ⟨_, h, rfl⟩

@[simp] theorem ParseState.moveTo_stage (b : ParseState) (yylineno : Nat) :
    (b.moveTo yylineno).stage = b.stage := rfl

theorem lexStep_skip (b : ParseState) : lexStep b .skip = b.moveTo b.yylineno := rfl

theorem lexStep_token {t : Token} (ht : t ≠ .newline) (b : ParseState) :
    lexStep b (.token t) = feed t (b.moveTo b.yylineno) := by
  have hne : Lexed.token t ≠ .token .newline := fun h => ht (Lexed.token.inj h)
  simp only [lexStep, if_neg hne]

end Rbml.Asm
