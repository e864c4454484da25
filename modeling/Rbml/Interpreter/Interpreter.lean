import Rbml.Asm.Fields
import Rbml.Interpreter.Processor

/-!
# The source-level interpreter

What a source program does, without the words of its instructions. Control is a position in the list
of statements, and a label stands for the position of the first statement at or after it. A branch
goes to its label. `END` goes on behind the statement whose position is in the jump register. `STO`
and `LOD` access the cell at their label: every statement has a cell, of which only those of the
`WORD` statements may be written. On registers and flags every operation has the effect that it has
in the emulator.

A run ends as one of the emulator does, or because it leaves the discipline of the source language:
`STO` to a cell that is not of a `WORD` statement, or control at a position without an instruction.
A statement that is not of the language at all, such as one that names no label of the program or a
register above 15, is `illFormed`.
-/

namespace Rbml.Interpreter

open Lib Machine Asm

structure Config where
  position : Nat
  cells : Nat → Word
  processor : Processor

/-- The end of a run -/
inductive Ending where
  /-- `HALT` and `HERR` -/
  | exit (status : Nat) (s : Config)
  | fault (f : Fault)
  /-- a store to a cell that is not of a `WORD` statement -/
  | store (position : Nat)
  /-- a position without an instruction statement -/
  | control (position : Nat)
  | illFormed

/-- The ends that leave the discipline of the source language -/
def Ending.Undisciplined : Ending → Prop
  | .store _ | .control _ => True
  | _ => False

/-- The processor with its counter at the current statement -/
def Config.located (s : Config) : Processor :=
  { s.processor with instructionCounter := BitVec.ofNat 32 s.position }

/-- What an operation of the emulator does to the processor at the current statement -/
def Config.effect (s : Config) (op : Processor → Except (Stop 0) Processor) :
    Except Ending Processor :=
  match op s.located with
  | .ok p => .ok p
  | .error (.exit status p) => .error (.exit status { s with processor := p })
  | .error (.fault f) => .error (.fault f)
  | .error (.outOfMemoryRegion _) => .error .illFormed

/-- Go on with the statement at a position. -/
def Config.goto (s : Config) (position : Nat) (processor : Processor) : Config :=
  { s with position, processor }

/-- An operand as the number of a register or as a control number -/
def operand (i : Int) : Except Ending (Fin 16) :=
  match cIndex 16 i with
  | none => .error .illFormed
  | some k => .ok k

/-- The position that a label stands for -/
def target (lines : List SourceLine) (ident : String) : Except Ending Nat :=
  match position lines ident with
  | none => .error .illFormed
  | some n => .ok n

/-- The statement at a position is a `WORD` statement. -/
def isWord (lines : List SourceLine) (n : Nat) : Bool :=
  match (statements lines)[n]? with
  | some (.word _) => true
  | _ => false

/-- One statement -/
def execute (lines : List SourceLine) (env : Env) (s : Config) : Statement → Except Ending Config
  | .word _ => .error (.control s.position)
  | .inst0 op => do
    let p ← s.effect (handler op env 0 0 0)
    if op = .end then .ok (s.goto (p.instructionCounter.toNat + 1) p)
    else .ok (s.goto (s.position + 1) p)
  | .inst1a op ident => do
    let n ← target lines ident
    if kind op = .call then
      if test op s.processor then do
        let p ← s.effect saveReturn
        .ok (s.goto n p)
      else .ok (s.goto (s.position + 1) s.processor)
    else if kind op = .branch then
      .ok (s.goto (if test op s.processor then n else s.position + 1) s.processor)
    else .error .illFormed
  | .inst1r op reg => do
    let r ← operand reg.toNat
    let p ← s.effect (handler op env r 0 0)
    .ok (s.goto (s.position + 1) p)
  | .inst2rr op reg₁ reg₂ => do
    let r₁ ← operand reg₁.toNat
    let r₂ ← operand reg₂.toNat
    let p ← s.effect (handler op env r₁ r₂ 0)
    .ok (s.goto (s.position + 1) p)
  | .inst2ra op reg ident => do
    let r ← operand reg.toNat
    let n ← target lines ident
    match op with
    | .sto =>
      if isWord lines n then
        .ok { s.goto (s.position + 1) s.processor with
          cells := Function.update s.cells n (s.processor.reg r) }
      else .error (.store s.position)
    | .lod => .ok (s.goto (s.position + 1) (s.processor.setReg r (s.cells n)))
    | _ => .error .illFormed
  | .inst2nr op text reg => do
    let fcontrol ← operand (literalValue text)
    let r ← operand reg.toNat
    let p ← s.effect (handler op env fcontrol r 0)
    .ok (s.goto (s.position + 1) p)

/-- One step of the interpreter -/
def interpret (lines : List SourceLine) (s : Config) (env : Env) : Except Ending Config :=
  match (statements lines)[s.position]? with
  | none => .error (.control s.position)
  | some stmt => execute lines env s stmt

/-- The cells before a run: the number of a `WORD` statement, the word of an instruction, and zeros
behind the last statement -/
def initialCells (lines : List SourceLine) (k : Nat) : Word :=
  match (statements lines)[k]? with
  | none => 0
  | some stmt => stmt.encoded lines

/-- The interpreter before a run -/
def start (lines : List SourceLine) (stdin : List UInt8) : Config :=
  ⟨0, initialCells lines, initialState Fin.elim0 stdin⟩

end Rbml.Interpreter
