import Rbml.Asm.Actions
import Rbml.Asm.Lexer

/-!
# Source programs

A source program is a list of lines, each an optional label and an optional statement. A statement
is what the source says: its operation, its registers, the text of its number and the name of its
symbol. `sourceTokens` are the tokens that such a program is written with, and `linesFrom` are the
lines that the actions of the parser see, where a number is what the scanner makes of its text.
-/

namespace Rbml.Asm

/-- The right-hand sides of `instruction`, as they are written -/
inductive Statement where
  /-- `WORD NUMBER` -/
  | word (text : List Char)
  /-- `INST0` -/
  | inst0 (op : Opcode)
  /-- `INST1A IDENT` -/
  | inst1a (op : Opcode) (ident : String)
  /-- `INST1R REG` -/
  | inst1r (op : Opcode) (reg : Word)
  /-- `INST2RR REG ',' REG` -/
  | inst2rr (op : Opcode) (reg₁ reg₂ : Word)
  /-- `INST2RA REG ',' IDENT` -/
  | inst2ra (op : Opcode) (reg : Word) (ident : String)
  /-- `INST2NR NUMBER ',' REG` -/
  | inst2nr (op : Opcode) (text : List Char) (reg : Word)
  deriving DecidableEq, Repr

structure SourceLine where
  label : Option String
  statement : Option Statement
  deriving DecidableEq, Repr

/-- The tokens of a statement -/
def Statement.tokens : Statement → List Token
  | .word text => [.word, .number text]
  | .inst0 op => [.inst .inst0 op]
  | .inst1a op ident => [.inst .inst1a op, .ident ident]
  | .inst1r op reg => [.inst .inst1r op, .reg reg]
  | .inst2rr op reg₁ reg₂ => [.inst .inst2rr op, .reg reg₁, .comma, .reg reg₂]
  | .inst2ra op reg ident => [.inst .inst2ra op, .reg reg, .comma, .ident ident]
  | .inst2nr op text reg => [.inst .inst2nr op, .number text, .comma, .reg reg]

/-- The tokens of a label -/
def labelTokens : Option String → List Token
  | none => []
  | some name => [.ident name, .colon]

/-- The tokens of a line -/
def SourceLine.tokens (l : SourceLine) : List Token :=
  labelTokens l.label ++ (l.statement.map Statement.tokens).getD []

/-- The tokens of a program: its lines, with newlines between them -/
def sourceTokens (lines : List SourceLine) : List Token :=
  List.intercalate [.newline] (lines.map SourceLine.tokens)

/-- A statement with the semantic values that the scanner gives its parts -/
def Statement.instruction : Statement → Instruction
  | .word text => .word (numberValue text)
  | .inst0 op => .inst0 op.code
  | .inst1a op ident => .inst1a op.code ident
  | .inst1r op reg => .inst1r op.code reg
  | .inst2rr op reg₁ reg₂ => .inst2rr op.code reg₁ reg₂
  | .inst2ra op reg ident => .inst2ra op.code reg ident
  | .inst2nr op text reg => .inst2nr op.code (numberValue text) reg

/-- A line with its number, as the actions of the parser see it -/
def SourceLine.line (l : SourceLine) (lineNum : Nat) : Line :=
  ⟨lineNum, l.label, l.statement.map Statement.instruction⟩

/-- The lines of a program, numbered from `n` -/
def linesFrom (n : Nat) : List SourceLine → List Line
  | [] => []
  | l :: lines => l.line n :: linesFrom (n + 1) lines

/-- The statements of a program, in order -/
def statements (lines : List SourceLine) : List Statement := lines.filterMap SourceLine.statement

/-- The position of a label: how many statements stand before its line. The statement at this
position is the first one at or after the label. -/
def position : List SourceLine → String → Option Nat
  | [], _ => none
  | l :: lines, name =>
    if l.label = some name then some 0
    else (position lines name).map (· + l.statement.toList.length)

/-- The symbol that a statement names -/
def Statement.ident? (stmt : Statement) : Option String := stmt.instruction.ident?

theorem position_le {lines : List SourceLine} {name : String} {n : Nat}
    (h : position lines name = some n) : n ≤ (statements lines).length := by
  induction lines generalizing n with
  | nil => cases h
  | cons l lines ih =>
    simp only [position] at h
    split at h
    · cases h
      exact Nat.zero_le _
    · obtain ⟨k, hk, rfl⟩ := Option.map_eq_some_iff.mp h
      have hle := ih hk
      cases hl : l.statement <;> simp [statements, hl] <;> exact hle

theorem linesFrom_append (n : Nat) (lines : List SourceLine) (l : SourceLine) :
    linesFrom n (lines ++ [l]) = linesFrom n lines ++ [l.line (n + lines.length)] := by
  induction lines generalizing n with
  | nil => rfl
  | cons l' lines ih =>
    rw [List.cons_append, linesFrom, linesFrom, ih, List.cons_append, List.length_cons,
      Nat.add_right_comm, Nat.add_assoc]

theorem sourceTokens_append (lines : List SourceLine) (l : SourceLine) :
    sourceTokens (lines ++ [l]) =
      (lines.flatMap fun l => l.tokens ++ [.newline]) ++ l.tokens := by
  induction lines with
  | nil => exact List.intercalate_singleton
  | cons l' lines ih =>
    have hne : (lines ++ [l]).map SourceLine.tokens ≠ [] := by simp
    rw [sourceTokens] at ih
    rw [List.cons_append, sourceTokens, List.map_cons, List.intercalate_cons_of_ne_nil hne, ih,
      List.flatMap_cons]
    simp only [List.append_assoc]

/-- Line numbers are positive. -/
theorem linesFrom_pos {n : Nat} (hn : 0 < n) (lines : List SourceLine) :
    ∀ l ∈ linesFrom n lines, 0 < l.lineNum := by
  induction lines generalizing n with
  | nil =>
    intro l hl
    cases hl
  | cons l' lines ih =>
    intro l hl
    rcases List.mem_cons.mp hl with rfl | hl
    · exact hn
    · exact ih (Nat.succ_pos n) l hl

theorem instructions_linesFrom (n : Nat) (lines : List SourceLine) :
    (linesFrom n lines).filterMap Line.instruction =
      (statements lines).map Statement.instruction := by
  induction lines generalizing n with
  | nil => rfl
  | cons l lines ih =>
    cases h : l.statement <;>
      simp [linesFrom, SourceLine.line, statements, h, ih]

end Rbml.Asm
