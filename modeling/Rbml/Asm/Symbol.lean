import Rbml.Word

/-!
# Parser records and symbols (`parser.c`, `symbol.c`)

A symbol is created by whichever comes first, a reference or a definition, and the two are told
apart by its line number: zero until the symbol is defined. An undefined symbol carries the list of
places that wait for its address, newest first (`SLIST_INSERT_HEAD`). Defining it walks the list
from its head, patches each recorded word of the program text, and leaves the list empty. The walk
here takes the link of a reference that it has released as if it were intact, which is what
`symbolDefine_of_keeps` of `Rbml.Asm.Release` assumes of `free`.

Line numbers and offsets are `unsigned` in C and natural numbers here: a line number is a position
in one file and an offset a position in one text.
-/

namespace Rbml.Asm

/-! ## The parser record -/

inductive Severity where
  | error | warning
  deriving DecidableEq, Repr

/-- One line that the parser prints to `stderr`: `file:line: Error: message`. -/
structure Diagnostic where
  severity : Severity
  inputFile : String
  lineNum : Nat
  message : String
  deriving DecidableEq, Repr

/-- `struct parser`, with what was printed so far -/
structure Parser where
  inputFile : String
  lineNum : Nat
  numErrors : Nat
  numWarnings : Nat
  stderr : List Diagnostic
  deriving DecidableEq, Repr

/-- `parser_alloc`: the record is zeroed. -/
def parserAlloc (inputFile : String) : Parser := ⟨inputFile, 0, 0, 0, []⟩

/-- `parser_error` -/
def parserError (p : Parser) (message : String) : Parser :=
  { p with
    numErrors := p.numErrors + 1
    stderr := p.stderr ++ [⟨.error, p.inputFile, p.lineNum, message⟩] }

/-- `parser_warning` -/
def parserWarning (p : Parser) (message : String) : Parser :=
  { p with
    numWarnings := p.numWarnings + 1
    stderr := p.stderr ++ [⟨.warning, p.inputFile, p.lineNum, message⟩] }

@[simp] theorem parserError_numErrors (p : Parser) (message : String) :
    (parserError p message).numErrors = p.numErrors + 1 := rfl

@[simp] theorem parserError_lineNum (p : Parser) (message : String) :
    (parserError p message).lineNum = p.lineNum := rfl

@[simp] theorem parserError_inputFile (p : Parser) (message : String) :
    (parserError p message).inputFile = p.inputFile := rfl

/-! ## Symbols -/

/-- `struct symbol_ref` -/
structure SymbolRef where
  lineNum : Nat
  offset : Nat
  deriving DecidableEq, Repr

/-- `struct symbol`; `symbolRefs` is the `SLIST`, from its head. -/
structure Symbol where
  name : String
  lineNum : Nat
  offset : Nat
  symbolRefs : List SymbolRef
  deriving DecidableEq, Repr

/-- The loop of `symbol_define`: take the head, patch its word, drop it. -/
def patchRefs (offset : Nat) : List SymbolRef → List Word → List Word
  | [], text => text
  | ref :: refs, text =>
    patchRefs offset refs (text.modify ref.offset (rbmlSetArg3 · (BitVec.ofNat 32 offset)))

/-- `symbol_define`: the symbol with its new position and no pending reference, and the text with
the references it had patched. -/
def symbolDefine (s : Symbol) (lineNum offset : Nat) (text : List Word) : Symbol × List Word :=
  ({ s with lineNum, offset, symbolRefs := [] }, patchRefs offset s.symbolRefs text)

/-- `symbol_alloc`: a zeroed record defined at once. It has no reference to patch, so the text it
is given (`NULL` in C) is not read. -/
def symbolAlloc (name : String) (lineNum offset : Nat) : Symbol :=
  (symbolDefine ⟨name, 0, 0, []⟩ lineNum offset []).1

/-- `symbol_ref` -/
def symbolRef (lineNum offset : Nat) (s : Symbol) : Symbol :=
  { s with symbolRefs := ⟨lineNum, offset⟩ :: s.symbolRefs }

/-- The text of the diagnostic for a reference that nothing defines -/
def unreferencedMessage (name : String) : String := s!"Unreferenced symbol `{name}'"

/-- One turn of the loop of `symbol_check_refs`: the error is printed under the line of the
reference, and the line number is put back. -/
def symbolCheckRef (s : Symbol) (p : Parser) (ref : SymbolRef) : Parser :=
  let lineNum := p.lineNum
  let p := { p with lineNum := ref.lineNum }
  let p := parserError p (unreferencedMessage s.name)
  { p with lineNum }

/-- `symbol_check_refs` -/
def symbolCheckRefs (s : Symbol) (p : Parser) : Parser :=
  s.symbolRefs.foldl (symbolCheckRef s) p

/-! ## What the operations do -/

@[simp] theorem symbolAlloc_name (name : String) (lineNum offset : Nat) :
    (symbolAlloc name lineNum offset).name = name := rfl

@[simp] theorem symbolAlloc_lineNum (name : String) (lineNum offset : Nat) :
    (symbolAlloc name lineNum offset).lineNum = lineNum := rfl

@[simp] theorem symbolAlloc_offset (name : String) (lineNum offset : Nat) :
    (symbolAlloc name lineNum offset).offset = offset := rfl

@[simp] theorem symbolAlloc_symbolRefs (name : String) (lineNum offset : Nat) :
    (symbolAlloc name lineNum offset).symbolRefs = [] := rfl

@[simp] theorem symbolRef_name (lineNum offset : Nat) (s : Symbol) :
    (symbolRef lineNum offset s).name = s.name := rfl

@[simp] theorem symbolRef_lineNum (lineNum offset : Nat) (s : Symbol) :
    (symbolRef lineNum offset s).lineNum = s.lineNum := rfl

@[simp] theorem symbolRef_offset (lineNum offset : Nat) (s : Symbol) :
    (symbolRef lineNum offset s).offset = s.offset := rfl

@[simp] theorem symbolRef_symbolRefs (lineNum offset : Nat) (s : Symbol) :
    (symbolRef lineNum offset s).symbolRefs = ⟨lineNum, offset⟩ :: s.symbolRefs := rfl

@[simp] theorem patchRefs_length (offset : Nat) (refs : List SymbolRef) (text : List Word) :
    (patchRefs offset refs text).length = text.length := by
  induction refs generalizing text with
  | nil => rfl
  | cons ref refs ih => rw [patchRefs, ih, List.length_modify]

/-- A word that no reference records is not touched. -/
theorem patchRefs_getElem?_of_not_mem (offset : Nat) {refs : List SymbolRef} {i : Nat}
    (h : i ∉ refs.map SymbolRef.offset) (text : List Word) :
    (patchRefs offset refs text)[i]? = text[i]? := by
  induction refs generalizing text with
  | nil => rfl
  | cons ref refs ih =>
    simp only [List.map_cons, List.mem_cons, not_or] at h
    rw [patchRefs, ih h.2, List.getElem?_modify_ne _ _ (Ne.symm h.1)]

/-- A recorded word holds the last address patched into it, however often it is recorded. -/
theorem patchRefs_getElem?_of_mem (offset : Nat) {refs : List SymbolRef} {i : Nat}
    (h : i ∈ refs.map SymbolRef.offset) {op a1 a2 a3 : Word} {text : List Word}
    (htext : text[i]? = some (rbmlInst op a1 a2 a3)) :
    (patchRefs offset refs text)[i]? = some (rbmlInst op a1 a2 (BitVec.ofNat 32 offset)) := by
  induction refs generalizing text a3 with
  | nil => exact absurd h List.not_mem_nil
  | cons ref refs ih =>
    rw [patchRefs]
    by_cases hi : ref.offset = i
    · have hmod : (text.modify ref.offset (rbmlSetArg3 · (BitVec.ofNat 32 offset)))[i]? =
          some (rbmlInst op a1 a2 (BitVec.ofNat 32 offset)) := by
        rw [hi, List.getElem?_modify_eq, htext, Option.map_eq_map, Option.map_some, rbmlSetArg3_inst]
      by_cases hrest : i ∈ refs.map SymbolRef.offset
      · exact ih hrest hmod
      · rw [patchRefs_getElem?_of_not_mem offset hrest, hmod]
    · have hrest : i ∈ refs.map SymbolRef.offset := by
        rcases List.mem_cons.mp h with h | h
        · exact absurd h.symm hi
        · exact h
      have hother : (text.modify ref.offset (rbmlSetArg3 · (BitVec.ofNat 32 offset)))[i]? =
          some (rbmlInst op a1 a2 a3) := by
        rw [List.getElem?_modify_ne _ _ hi, htext]
      exact ih hrest hother

/-- Checking a symbol prints one error for each pending reference, in list order, and leaves the
current line where it was. -/
theorem symbolCheckRefs_eq (s : Symbol) (p : Parser) :
    symbolCheckRefs s p =
      { p with
        numErrors := p.numErrors + s.symbolRefs.length
        stderr := p.stderr ++ s.symbolRefs.map fun ref =>
          ⟨.error, p.inputFile, ref.lineNum, unreferencedMessage s.name⟩ } := by
  rw [symbolCheckRefs]
  generalize s.symbolRefs = refs
  induction refs generalizing p with
  | nil => simp only [List.foldl_nil, List.length_nil, Nat.add_zero, List.map_nil, List.append_nil]
  | cons ref refs ih =>
    rw [List.foldl_cons, ih]
    simp only [symbolCheckRef, parserError, List.length_cons, List.map_cons, List.append_assoc,
      List.cons_append, List.nil_append, Nat.add_assoc, Nat.add_comm 1]

end Rbml.Asm
