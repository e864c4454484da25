import Rbml.Asm.Code

/-!
# The parser's actions (`rbml_parser.y`)

A source line is an optional label and an optional instruction. Reducing a label looks the symbol
up, then adds it, defines it, or refuses it; reducing an instruction refers to the symbol it names,
if it names one, and emits one word. Both actions run before the parser has read past the line
they stand on, so `parser->line_num` is the number of that line.

A refused label ends in `YYERROR`. The parser then drops the rest of the line (the `error`
alternative of `line`) and goes on with the next one, so the instruction after a refused label is
never reduced.
-/

namespace Rbml.Asm

/-- The right-hand sides of `instruction`, with their semantic values -/
inductive Instruction where
  /-- `WORD NUMBER` -/
  | word (number : Word)
  /-- `INST0` -/
  | inst0 (opcode : Word)
  /-- `INST1A IDENT` -/
  | inst1a (opcode : Word) (ident : String)
  /-- `INST1R REG` -/
  | inst1r (opcode reg : Word)
  /-- `INST2RR REG ',' REG` -/
  | inst2rr (opcode reg₁ reg₂ : Word)
  /-- `INST2RA REG ',' IDENT` -/
  | inst2ra (opcode reg : Word) (ident : String)
  /-- `INST2NR NUMBER ',' REG` -/
  | inst2nr (opcode number reg : Word)
  deriving DecidableEq, Repr

/-- A well-formed source line, with its number -/
structure Line where
  lineNum : Nat
  label : Option String
  instruction : Option Instruction
  deriving DecidableEq, Repr

/-- The two parameters of the parser: the parser record and the code it fills -/
structure Session where
  parser : Parser
  code : Code

/-- The text of the diagnostic for a label that is defined already -/
def redefinedMessage (name : String) (lineNum : Nat) : String :=
  s!"Symbol `{name}' already defined at line {lineNum}"

/-- The action of `label`. The result is `false` where the action ends in `YYERROR`. -/
def labelAction (ident : String) (st : Session) : Bool × Session :=
  match codeSymbolLookup st.code ident with
  | none => (true, { st with code := (codeSymbolAdd st.code ident st.parser.lineNum).1 })
  | some s =>
    if s.lineNum ≠ 0 then
      (false, { st with parser := parserError st.parser (redefinedMessage s.name s.lineNum) })
    else (true, { st with code := codeSymbolDefine st.code s st.parser.lineNum })

/-- `s->offset` as the `unsigned` it is -/
def Symbol.address (s : Symbol) : Word := BitVec.ofNat 32 s.offset

/-- The actions of `instruction` -/
def instructionAction (ins : Instruction) (st : Session) : Session :=
  match ins with
  | .word number => { st with code := codeEmit st.code number }
  | .inst0 opcode => { st with code := codeEmit st.code (rbmlInst opcode 0 0 0) }
  | .inst1a opcode ident =>
    let (code, s) := codeSymbolRef st.code ident st.parser.lineNum
    { st with code := codeEmit code (rbmlInst opcode 0 0 s.address) }
  | .inst1r opcode reg => { st with code := codeEmit st.code (rbmlInst opcode reg 0 0) }
  | .inst2rr opcode reg₁ reg₂ => { st with code := codeEmit st.code (rbmlInst opcode reg₁ reg₂ 0) }
  | .inst2ra opcode reg ident =>
    let (code, s) := codeSymbolRef st.code ident st.parser.lineNum
    { st with code := codeEmit code (rbmlInst opcode reg 0 s.address) }
  | .inst2nr opcode number reg => { st with code := codeEmit st.code (rbmlInst opcode number reg 0) }

/-- An optional instruction -/
def instructionOpt (ins : Option Instruction) (st : Session) : Session :=
  match ins with
  | none => st
  | some ins => instructionAction ins st

/-- One line: the scanner has set the line number (`YY_USER_ACTION`), then the reductions run. -/
def parseLine (l : Line) (st : Session) : Session :=
  let st := { st with parser := { st.parser with lineNum := l.lineNum } }
  match l.label with
  | none => instructionOpt l.instruction st
  | some ident =>
    match labelAction ident st with
    | (false, st) => st
    | (true, st) => instructionOpt l.instruction st

/-- All lines, in order -/
def parseLines (lines : List Line) (st : Session) : Session :=
  lines.foldl (fun st l => parseLine l st) st

/-- `parser_parse` on a file of well-formed lines, from a fresh record and fresh code -/
def parserParse (inputFile : String) (lines : List Line) : Session :=
  parseLines lines ⟨parserAlloc inputFile, codeAlloc⟩

/-- `parser_parse`, then `code_check_refs` -/
def assemble (inputFile : String) (lines : List Line) : Session :=
  let st := parserParse inputFile lines
  { st with parser := codeCheckRefs st.code st.parser }

/-! ## One action, one shape

Every instruction emits one word, and the forms with a symbol refer to it first. The lemmas below
state that once, so that no later proof takes the seven forms apart. -/

/-- The symbol an instruction names -/
def Instruction.ident? : Instruction → Option String
  | .inst1a _ ident | .inst2ra _ _ ident => some ident
  | _ => none

/-- The word of an instruction when the symbol it names has address `addr` -/
def Instruction.encode (addr : Word) : Instruction → Word
  | .word number => number
  | .inst0 opcode => rbmlInst opcode 0 0 0
  | .inst1a opcode _ => rbmlInst opcode 0 0 addr
  | .inst1r opcode reg => rbmlInst opcode reg 0 0
  | .inst2rr opcode reg₁ reg₂ => rbmlInst opcode reg₁ reg₂ 0
  | .inst2ra opcode reg _ => rbmlInst opcode reg 0 addr
  | .inst2nr opcode number reg => rbmlInst opcode number reg 0

theorem instructionAction_none {ins : Instruction} (h : ins.ident? = none) (st : Session)
    (addr : Word) :
    instructionAction ins st = { st with code := codeEmit st.code (ins.encode addr) } := by
  cases ins with
  | inst1a op ident => cases h
  | inst2ra op reg ident => cases h
  | _ => rfl

theorem instructionAction_some {ins : Instruction} {ident : String} (h : ins.ident? = some ident)
    (st : Session) :
    instructionAction ins st =
      { st with
        code := codeEmit (codeSymbolRef st.code ident st.parser.lineNum).1
          (ins.encode (codeSymbolRef st.code ident st.parser.lineNum).2.address) } := by
  cases ins with
  | inst1a op name => cases h; rfl
  | inst2ra op reg name => cases h; rfl
  | _ => cases h

/-- The address is a field of the word, so patching it re-encodes the instruction. -/
theorem encode_of_ident? {ins : Instruction} {ident : String} (h : ins.ident? = some ident) :
    ∃ op a1, ∀ addr, ins.encode addr = rbmlInst op a1 0 addr := by
  cases ins with
  | inst1a op name => exact ⟨op, 0, fun _ => rfl⟩
  | inst2ra op reg name => exact ⟨op, reg, fun _ => rfl⟩
  | _ => cases h

theorem encode_congr {ins : Instruction} (h : ins.ident? = none) (addr addr' : Word) :
    ins.encode addr = ins.encode addr' := by
  cases ins with
  | inst1a op ident => cases h
  | inst2ra op reg ident => cases h
  | _ => rfl

@[simp] theorem parser_instructionAction (ins : Instruction) (st : Session) :
    (instructionAction ins st).parser = st.parser := by
  cases ins <;> rfl

@[simp] theorem parser_instructionOpt (ins : Option Instruction) (st : Session) :
    (instructionOpt ins st).parser = st.parser := by
  cases ins with
  | none => rfl
  | some ins => exact parser_instructionAction ins st

end Rbml.Asm
