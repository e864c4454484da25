import Mathlib.Logic.Equiv.Basic
import Rbml.Asm.Acceptance

/-!
# Symbols under other names

The names of a program matter only for which of them are equal. A renaming that keeps different names of
the program different gives the same words, accepted or not, the same number of errors, and each error
on the line where it was (`assemble_rename`). The reports of pending references come in the order of the
symbol table, which the new names change, and so the diagnostics are compared as multisets.
-/

namespace Rbml.Asm

open Rbml.Lib

variable {S : Set String} {f : String → String}

/-! ## Renaming -/

/-- The instruction with its name replaced -/
def Instruction.rename (f : String → String) : Instruction → Instruction
  | .inst1a opcode ident => .inst1a opcode (f ident)
  | .inst2ra opcode reg ident => .inst2ra opcode reg (f ident)
  | ins => ins

/-- The line with its names replaced -/
def Line.rename (f : String → String) (l : Line) : Line :=
  ⟨l.lineNum, l.label.map f, l.instruction.map (Instruction.rename f)⟩

/-- The symbol under its other name -/
def Symbol.rename (f : String → String) (s : Symbol) : Symbol := { s with name := f s.name }

/-- The names on a line -/
def Line.names (l : Line) : List String :=
  l.label.toList ++ (l.instruction.bind Instruction.ident?).toList

/-- Where a diagnostic is reported, and how severe it is -/
def Diagnostic.place (d : Diagnostic) : Severity × String × Nat := (d.severity, d.inputFile, d.lineNum)

theorem Instruction.ident?_rename (ins : Instruction) :
    (ins.rename f).ident? = ins.ident?.map f := by
  cases ins <;> rfl

/-- The word does not depend on the name. -/
theorem Instruction.encode_rename (ins : Instruction) (addr : Word) :
    (ins.rename f).encode addr = ins.encode addr := by
  cases ins <;> rfl

/-- The same code under other names -/
structure CodeRenames (S : Set String) (f : String → String) (c c' : Code) : Prop where
  text : c'.text = c.text
  allocated : c'.allocated = c.allocated
  symbolTable : Table.Rekeys S (Symbol.rename f) c.symbolTable c'.symbolTable

/-- The same session under other names -/
structure SessionRenames (S : Set String) (f : String → String) (st st' : Session) : Prop where
  lineNum : st'.parser.lineNum = st.parser.lineNum
  inputFile : st'.parser.inputFile = st.parser.inputFile
  numErrors : st'.parser.numErrors = st.parser.numErrors
  stderr : st'.parser.stderr.map Diagnostic.place = st.parser.stderr.map Diagnostic.place
  code : CodeRenames S f st.code st'.code

/-! ## The symbol table -/

section Code

variable {c c' : Code}

theorem CodeRenames.size (h : CodeRenames S f c c') : c'.size = c.size :=
  congrArg List.length h.text

/-- A name that stands for one symbol finds it under the other name too. -/
theorem CodeRenames.lookup (h : CodeRenames S f c c') (hf : Set.InjOn f S) {name : String}
    (hname : name ∈ S) :
    codeSymbolLookup c' (f name) = (codeSymbolLookup c name).map (Symbol.rename f) :=
  h.symbolTable.find? (fun _ => rfl) hf hname

/-- A word that is emitted is the same in both. -/
theorem CodeRenames.emit (h : CodeRenames S f c c') (w : Word) :
    CodeRenames S f (codeEmit c w) (codeEmit c' w) := by
  refine ⟨?_, ?_, h.symbolTable⟩
  · rw [codeEmit_text, codeEmit_text, h.text]
  · simp only [codeEmit, h.allocated, h.size]

/-- A new symbol is added under both names. -/
theorem CodeRenames.add (h : CodeRenames S f c c') (hf : Set.InjOn f S) {name : String}
    (hname : name ∈ S) (hnew : codeSymbolLookup c name = none) (lineNum : Nat) :
    CodeRenames S f (codeSymbolAdd c name lineNum).1 (codeSymbolAdd c' (f name) lineNum).1 := by
  refine ⟨h.text, h.allocated, ?_⟩
  have hsymbol : symbolAlloc (f name) lineNum c'.size =
      (symbolAlloc name lineNum c.size).rename f := by
    rw [h.size]
    rfl
  rw [codeSymbolAdd, codeSymbolAdd, hsymbol]
  exact h.symbolTable.insert (fun _ => rfl) hf hname hnew

/-- A reference is added to the symbol of either name. -/
theorem CodeRenames.addRef (h : CodeRenames S f c c') (hf : Set.InjOn f S) {s : Symbol}
    (hname : s.name ∈ S) (lineNum : Nat) :
    CodeRenames S f (c.addRef s lineNum).1 (c'.addRef (s.rename f) lineNum).1 := by
  refine ⟨h.text, h.allocated, ?_⟩
  have hcomm : ∀ a : Symbol, (symbolRef lineNum c.size a).rename f =
      symbolRef lineNum c'.size (a.rename f) := by
    intro a
    rw [h.size]
    rfl
  exact h.symbolTable.update (fun _ => rfl) hf hname (symbolRef_name lineNum c.size)
    (symbolRef_name lineNum c'.size) hcomm

/-- The symbol that it is added to is the same under its other name. -/
theorem CodeRenames.addRef_snd (h : CodeRenames S f c c') (s : Symbol) (lineNum : Nat) :
    (c'.addRef (s.rename f) lineNum).2 = (c.addRef s lineNum).2.rename f := by
  simp only [Code.addRef, h.size]
  rfl

/-- A definition patches the same words in both. -/
theorem CodeRenames.define (h : CodeRenames S f c c') (hf : Set.InjOn f S) {s : Symbol}
    (hname : s.name ∈ S) (lineNum : Nat) :
    CodeRenames S f (codeSymbolDefine c s lineNum) (codeSymbolDefine c' (s.rename f) lineNum) := by
  refine ⟨?_, h.allocated, ?_⟩
  · rw [codeSymbolDefine_text, codeSymbolDefine_text, h.size, h.text]
    rfl
  · have hcomm : ∀ a : Symbol, (symbolDefine a lineNum c.size c.text).1.rename f =
        (symbolDefine (a.rename f) lineNum c'.size c'.text).1 := by
      intro a
      rw [h.size]
      rfl
    have hkey : ∀ (c : Code) (a : Symbol), (symbolDefine a lineNum c.size c.text).1.name = a.name :=
      fun _ _ => rfl
    exact h.symbolTable.update (fun _ => rfl) hf hname (hkey c) (hkey c') hcomm

/-- A reference under the other name gives the symbol under the other name. -/
theorem CodeRenames.ref (h : CodeRenames S f c c') (hf : Set.InjOn f S) {name : String}
    (hname : name ∈ S) (lineNum : Nat) :
    CodeRenames S f (codeSymbolRef c name lineNum).1 (codeSymbolRef c' (f name) lineNum).1 ∧
      (codeSymbolRef c' (f name) lineNum).2 = (codeSymbolRef c name lineNum).2.rename f := by
  have hlookup := h.lookup hf hname
  cases hs : codeSymbolLookup c name with
  | none =>
    rw [hs, Option.map_none] at hlookup
    have hadd := h.add hf hname hs 0
    have hsymbol : symbolAlloc (f name) 0 c'.size = (symbolAlloc name 0 c.size).rename f := by
      rw [h.size]
      rfl
    simp only [codeSymbolRef, hs, hlookup, codeSymbolAdd, symbolAlloc_lineNum, if_true]
    rw [codeSymbolAdd, codeSymbolAdd] at hadd
    rw [hsymbol] at hadd ⊢
    exact ⟨hadd.addRef hf (show (symbolAlloc name 0 c.size).name ∈ S from hname) lineNum,
      hadd.addRef_snd _ lineNum⟩
  | some s =>
    obtain rfl := name_of_lookup hs
    rw [hs, Option.map_some] at hlookup
    by_cases hline : s.lineNum = 0
    · have hline' : (s.rename f).lineNum = 0 := hline
      simp only [codeSymbolRef, hs, hlookup, if_pos hline, if_pos hline']
      exact ⟨h.addRef hf hname lineNum, h.addRef_snd s lineNum⟩
    · have hline' : (s.rename f).lineNum ≠ 0 := hline
      simp only [codeSymbolRef, hs, hlookup, if_neg hline, if_neg hline']
      exact ⟨h, trivial⟩

end Code

/-! ## Sessions -/

section Session

variable {st st' : Session}

theorem SessionRenames.parserError (h : SessionRenames S f st st') (message message' : String) :
    SessionRenames S f { st with parser := Asm.parserError st.parser message }
      { st' with parser := Asm.parserError st'.parser message' } := by
  refine ⟨h.lineNum, h.inputFile, congrArg (· + 1) h.numErrors, ?_, h.code⟩
  simp only [Asm.parserError, List.map_append, h.stderr, List.map_cons, List.map_nil,
    Diagnostic.place, h.inputFile, h.lineNum]

/-- A label under the other name is accepted or refused as the label is. -/
theorem SessionRenames.label (h : SessionRenames S f st st') (hf : Set.InjOn f S) {name : String}
    (hname : name ∈ S) :
    (labelAction (f name) st').1 = (labelAction name st).1 ∧
      SessionRenames S f (labelAction name st).2 (labelAction (f name) st').2 := by
  have hlookup := h.code.lookup hf hname
  cases hs : codeSymbolLookup st.code name with
  | none =>
    rw [hs, Option.map_none] at hlookup
    simp only [labelAction, hs, hlookup, h.lineNum]
    exact ⟨trivial, h.lineNum, h.inputFile, h.numErrors, h.stderr, h.code.add hf hname hs _⟩
  | some s =>
    obtain rfl := name_of_lookup hs
    rw [hs, Option.map_some] at hlookup
    by_cases hline : s.lineNum = 0
    · have hline' : ¬ (s.rename f).lineNum ≠ 0 := not_not.mpr hline
      simp only [labelAction, hs, hlookup, if_neg (not_not.mpr hline), if_neg hline', h.lineNum]
      exact ⟨trivial, h.lineNum, h.inputFile, h.numErrors, h.stderr, h.code.define hf hname _⟩
    · have hline' : (s.rename f).lineNum ≠ 0 := hline
      simp only [labelAction, hs, hlookup]
      rw [if_pos hline, if_pos hline']
      exact ⟨rfl, h.parserError _ _⟩

/-- An instruction is assembled alike under both names. -/
theorem SessionRenames.instruction (h : SessionRenames S f st st') (hf : Set.InjOn f S)
    {ins : Instruction} (hnames : ∀ name, ins.ident? = some name → name ∈ S) :
    SessionRenames S f (instructionAction ins st) (instructionAction (ins.rename f) st') := by
  have hident := ins.ident?_rename (f := f)
  cases hname : ins.ident? with
  | none =>
    rw [hname, Option.map_none] at hident
    rw [instructionAction_none hname st 0, instructionAction_none hident st' 0, ins.encode_rename]
    exact ⟨h.lineNum, h.inputFile, h.numErrors, h.stderr, h.code.emit _⟩
  | some name =>
    rw [hname, Option.map_some] at hident
    obtain ⟨hcode, hsymbol⟩ := h.code.ref hf (hnames name hname) st.parser.lineNum
    rw [instructionAction_some hname, instructionAction_some hident, ins.encode_rename, h.lineNum,
      hsymbol]
    exact ⟨h.lineNum, h.inputFile, h.numErrors, h.stderr, hcode.emit _⟩

theorem SessionRenames.instructionOpt (h : SessionRenames S f st st') (hf : Set.InjOn f S)
    {ins : Option Instruction} (hnames : ∀ name, ins.bind Instruction.ident? = some name → name ∈ S) :
    SessionRenames S f (Asm.instructionOpt ins st)
      (Asm.instructionOpt (ins.map (Instruction.rename f)) st') := by
  cases ins with
  | none => exact h
  | some ins => exact h.instruction hf hnames

/-- The step lemma: a line under the other names -/
theorem SessionRenames.parseLine (h : SessionRenames S f st st') (hf : Set.InjOn f S) {l : Line}
    (hnames : ∀ name ∈ l.names, name ∈ S) :
    SessionRenames S f (Asm.parseLine l st) (Asm.parseLine (l.rename f) st') := by
  have hins : ∀ name, l.instruction.bind Instruction.ident? = some name → name ∈ S := by
    intro name hname
    apply hnames
    rw [Line.names, hname]
    exact List.mem_append_right _ (List.mem_singleton_self name)
  have hmoved : SessionRenames S f { st with parser := { st.parser with lineNum := l.lineNum } }
      { st' with parser := { st'.parser with lineNum := l.lineNum } } :=
    ⟨rfl, h.inputFile, h.numErrors, h.stderr, h.code⟩
  cases hlabel : l.label with
  | none =>
    simp only [Asm.parseLine, Line.rename, hlabel, Option.map_none]
    exact hmoved.instructionOpt hf hins
  | some ident =>
    have hident : ident ∈ S := by
      apply hnames
      rw [Line.names, hlabel]
      exact List.mem_append_left _ (List.mem_singleton_self ident)
    obtain ⟨haccepts, haction⟩ := hmoved.label hf hident
    simp only [Asm.parseLine, Line.rename, hlabel, Option.map_some]
    revert haccepts haction
    generalize labelAction ident { st with parser := { st.parser with lineNum := l.lineNum } } = r
    generalize labelAction (f ident) { st' with parser := { st'.parser with lineNum := l.lineNum } } =
      r'
    obtain ⟨accepts, st₁⟩ := r
    obtain ⟨accepts', st₁'⟩ := r'
    rintro rfl haction
    cases accepts' with
    | true => exact haction.instructionOpt hf hins
    | false => exact haction

/-- Some lines are parsed alike. -/
theorem SessionRenames.parseLines (h : SessionRenames S f st st') (hf : Set.InjOn f S)
    {lines : List Line} (hnames : ∀ l ∈ lines, ∀ name ∈ l.names, name ∈ S) :
    SessionRenames S f (Asm.parseLines lines st) (Asm.parseLines (lines.map (Line.rename f)) st') := by
  induction lines generalizing st st' with
  | nil => exact h
  | cons l lines ih =>
    apply ih (h.parseLine hf (hnames l List.mem_cons_self))
    exact fun l' hl' => hnames l' (List.mem_cons_of_mem l hl')

end Session

/-! ## The check of the references -/

/-- The reports of pending references are on the same lines, in some order. -/
theorem CodeRenames.pendingReports {c c' : Code} (h : CodeRenames S f c c') (inputFile : String) :
    ((Asm.pendingReports c' inputFile).map Diagnostic.place).Perm
      ((Asm.pendingReports c inputFile).map Diagnostic.place) := by
  have hplaces : ∀ s : Symbol, (s.symbolRefs.map fun ref =>
      (⟨.error, inputFile, ref.lineNum, unreferencedMessage s.name⟩ : Diagnostic)).map
        Diagnostic.place = s.symbolRefs.map fun ref => (.error, inputFile, ref.lineNum) := by
    intro s
    rw [List.map_map]
    rfl
  have hwalk := h.symbolTable.entries.flatMap_right fun s =>
    s.symbolRefs.map fun ref => (Severity.error, inputFile, ref.lineNum)
  rw [List.flatMap_map] at hwalk
  simp only [Asm.pendingReports, List.map_flatMap, hplaces]
  exact hwalk

/-- **Names do not matter.** A renaming that keeps the different names of the lines different gives the
same text and the same number of errors, and every diagnostic is one on the same line. -/
theorem assemble_rename (inputFile : String) (lines : List Line) {f : String → String}
    (hf : Set.InjOn f {name | ∃ l ∈ lines, name ∈ l.names}) :
    (assemble inputFile (lines.map (Line.rename f))).code.text =
        (assemble inputFile lines).code.text ∧
      (assemble inputFile (lines.map (Line.rename f))).parser.numErrors =
        (assemble inputFile lines).parser.numErrors ∧
      ((assemble inputFile (lines.map (Line.rename f))).parser.stderr.map Diagnostic.place).Perm
        ((assemble inputFile lines).parser.stderr.map Diagnostic.place) := by
  have halloc : SessionRenames {name | ∃ l ∈ lines, name ∈ l.names} f
      ⟨parserAlloc inputFile, codeAlloc⟩ ⟨parserAlloc inputFile, codeAlloc⟩ :=
    ⟨rfl, rfl, rfl, rfl, rfl, rfl, Table.rekeys_empty⟩
  have hparse : SessionRenames {name | ∃ l ∈ lines, name ∈ l.names} f (parserParse inputFile lines)
      (parserParse inputFile (lines.map (Line.rename f))) :=
    halloc.parseLines hf fun l hl name hname => ⟨l, hl, hname⟩
  have hreports := hparse.code.pendingReports (parserParse inputFile lines).parser.inputFile
  refine ⟨hparse.code.text, ?_, ?_⟩
  · have hlength := hreports.length_eq
    rw [List.length_map, List.length_map] at hlength
    simp only [assemble_parser_eq, hparse.inputFile, hparse.numErrors, hlength]
  · simp only [assemble_parser_eq, hparse.inputFile, List.map_append, hparse.stderr]
    exact hreports.append_left _

/-- `tests/forward_ref.asm` with its two names exchanged -/
theorem assemble_rename_forwardRef :
    (assemble "" (forwardRef.map (Line.rename (Equiv.swap "v" "l")))).code.text =
        (assemble "" forwardRef).code.text ∧
      (assemble "" (forwardRef.map (Line.rename (Equiv.swap "v" "l")))).parser.numErrors =
        (assemble "" forwardRef).parser.numErrors ∧
      ((assemble "" (forwardRef.map (Line.rename (Equiv.swap "v" "l")))).parser.stderr.map
        Diagnostic.place).Perm ((assemble "" forwardRef).parser.stderr.map Diagnostic.place) :=
  assemble_rename "" forwardRef (Equiv.swap "v" "l").injective.injOn

end Rbml.Asm
