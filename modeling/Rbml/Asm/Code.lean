import Mathlib.Data.String.Basic
import Rbml.Lib.Table
import Rbml.Asm.Symbol

/-!
# Program code (`code.c`)

`struct code` is the program text, the room allocated for it and the symbol table. The text grows
one word at a time (`code_emit`) and the table one symbol at a time; a symbol that is in the table
is changed in place, through the pointer in C and by its name here.

The red-black tree of `tree.h` is an ordered table keyed by name: `RB_FIND` is `find?`, `RB_INSERT`
is `insert`, and `RB_FOREACH` walks `entries` in order of name. The words of the text are the ones
that `size` counts, so `size` is the length of `text` and only the room left is a separate number.
-/

namespace Rbml.Asm

open Rbml.Lib

/-- The symbol table, ordered by `symbol_cmp` -/
abbrev SymbolTable := Table Symbol.name

/-- `struct code` -/
structure Code where
  text : List Word
  allocated : Nat
  symbolTable : SymbolTable

/-- `c->size` -/
def Code.size (c : Code) : Nat := c.text.length

/-- `CODE_ALLOCATION_STEP` -/
def codeAllocationStep : Nat := 100

/-- `code_alloc` -/
def codeAlloc : Code := ⟨[], 0, Table.empty⟩

/-- `code_symbol_lookup` -/
def codeSymbolLookup (c : Code) (name : String) : Option Symbol := c.symbolTable.find? name

/-- `code_symbol_add` -/
def codeSymbolAdd (c : Code) (name : String) (lineNum : Nat) : Code × Symbol :=
  let s := symbolAlloc name lineNum c.size
  ({ c with symbolTable := c.symbolTable.insert s }, s)

/-- The write through a symbol pointer that adds a reference -/
def Code.addRef (c : Code) (s : Symbol) (lineNum : Nat) : Code × Symbol :=
  ({ c with
      symbolTable :=
        c.symbolTable.update s.name (symbolRef lineNum c.size) (symbolRef_name lineNum c.size) },
    symbolRef lineNum c.size s)

/-- `code_symbol_ref`: a symbol nobody has named yet is added with line number 0, and a symbol
that has no line number records the reference. -/
def codeSymbolRef (c : Code) (name : String) (lineNum : Nat) : Code × Symbol :=
  let (c, s) :=
    match codeSymbolLookup c name with
    | none => codeSymbolAdd c name 0
    | some s => (c, s)
  if s.lineNum = 0 then c.addRef s lineNum else (c, s)

/-- `code_symbol_define` -/
def codeSymbolDefine (c : Code) (s : Symbol) (lineNum : Nat) : Code :=
  { c with
    text := (symbolDefine s lineNum c.size c.text).2
    symbolTable :=
      c.symbolTable.update s.name (fun s => (symbolDefine s lineNum c.size c.text).1)
        fun _ => rfl }

/-- `code_check_refs` -/
def codeCheckRefs (c : Code) (p : Parser) : Parser :=
  c.symbolTable.entries.foldl (fun p s => symbolCheckRefs s p) p

/-- `code_emit` -/
def codeEmit (c : Code) (w : Word) : Code :=
  let allocated :=
    if c.allocated ≤ c.size then c.allocated + codeAllocationStep else c.allocated
  { c with allocated, text := c.text ++ [w] }

/-! ## What the operations do -/

@[simp] theorem codeSymbolAdd_text (c : Code) (name : String) (lineNum : Nat) :
    (codeSymbolAdd c name lineNum).1.text = c.text := rfl

@[simp] theorem addRef_text (c : Code) (s : Symbol) (lineNum : Nat) :
    (c.addRef s lineNum).1.text = c.text := rfl

@[simp] theorem codeEmit_text (c : Code) (w : Word) : (codeEmit c w).text = c.text ++ [w] := rfl

@[simp] theorem codeEmit_symbolTable (c : Code) (w : Word) :
    (codeEmit c w).symbolTable = c.symbolTable := rfl

@[simp] theorem codeEmit_lookup (c : Code) (w : Word) (name : String) :
    codeSymbolLookup (codeEmit c w) name = codeSymbolLookup c name := rfl

/-- The room suffices for one more word. -/
theorem codeEmit_allocated {c : Code} (h : c.size ≤ c.allocated) (w : Word) :
    (codeEmit c w).size ≤ (codeEmit c w).allocated := by
  have hsize : (codeEmit c w).size = c.size + 1 := List.length_append
  rw [hsize, codeEmit]
  dsimp only
  split
  · exact Nat.add_le_add h (by decide)
  next hroom => exact Nat.lt_of_not_le hroom

theorem name_of_lookup {c : Code} {name : String} {s : Symbol}
    (h : codeSymbolLookup c name = some s) : s.name = name :=
  Table.key_of_find? h

/-- Adding a name that the table lacks changes the lookup of that name only. -/
theorem codeSymbolAdd_lookup {c : Code} {name : String} (lineNum : Nat)
    (h : codeSymbolLookup c name = none) (name' : String) :
    codeSymbolLookup (codeSymbolAdd c name lineNum).1 name' =
      if name' = name then some (symbolAlloc name lineNum c.size)
      else codeSymbolLookup c name' :=
  Table.find?_insert (a := symbolAlloc name lineNum c.size) h name'

theorem addRef_lookup {c : Code} {s : Symbol} (lineNum : Nat)
    (h : codeSymbolLookup c s.name = some s) (name' : String) :
    codeSymbolLookup (c.addRef s lineNum).1 name' =
      if name' = s.name then some (symbolRef lineNum c.size s) else codeSymbolLookup c name' := by
  have hupdate := Table.find?_update (t := c.symbolTable) (k := s.name)
    (symbolRef_name lineNum c.size) name'
  rw [show c.symbolTable.find? s.name = some s from h] at hupdate
  exact hupdate

theorem codeSymbolDefine_lookup {c : Code} {s : Symbol} (lineNum : Nat)
    (h : codeSymbolLookup c s.name = some s) (name' : String) :
    codeSymbolLookup (codeSymbolDefine c s lineNum) name' =
      if name' = s.name then some { s with lineNum, offset := c.size, symbolRefs := [] }
      else codeSymbolLookup c name' := by
  have hupdate := Table.find?_update (t := c.symbolTable) (k := s.name)
    (f := fun s => (symbolDefine s lineNum c.size c.text).1) (fun _ => rfl) name'
  rw [show c.symbolTable.find? s.name = some s from h] at hupdate
  exact hupdate

theorem codeSymbolDefine_text (c : Code) (s : Symbol) (lineNum : Nat) :
    (codeSymbolDefine c s lineNum).text = patchRefs c.size s.symbolRefs c.text := rfl

/-- The three ways a reference goes: to a name not seen before, to a name still undefined, to a
defined one. The first two leave the reference recorded under the current end of the text. -/
theorem codeSymbolRef_cases (c : Code) (name : String) (lineNum : Nat) :
    (codeSymbolLookup c name = none ∧
      codeSymbolRef c name lineNum =
        (codeSymbolAdd c name 0).1.addRef (symbolAlloc name 0 c.size) lineNum) ∨
    (∃ s, codeSymbolLookup c name = some s ∧ s.lineNum = 0 ∧
      codeSymbolRef c name lineNum = c.addRef s lineNum) ∨
    (∃ s, codeSymbolLookup c name = some s ∧ s.lineNum ≠ 0 ∧
      codeSymbolRef c name lineNum = (c, s)) := by
  cases h : codeSymbolLookup c name with
  | none =>
    refine .inl ⟨rfl, ?_⟩
    simp only [codeSymbolRef, h, codeSymbolAdd, symbolAlloc_lineNum, if_true]
  | some s =>
    apply Or.inr
    by_cases hs : s.lineNum = 0
    · refine .inl ⟨s, rfl, hs, ?_⟩
      simp only [codeSymbolRef, h, if_pos hs]
    · refine .inr ⟨s, rfl, hs, ?_⟩
      simp only [codeSymbolRef, h, if_neg hs]

/-- The reports of the references that wait: in order of name, and newest first under one name -/
def pendingReports (c : Code) (inputFile : String) : List Diagnostic :=
  c.symbolTable.entries.flatMap fun s => s.symbolRefs.map fun ref =>
    ⟨.error, inputFile, ref.lineNum, unreferencedMessage s.name⟩

/-- The check of all symbols prints the pending references and counts them, and moves neither the
current line nor the file. -/
theorem codeCheckRefs_eq (c : Code) (p : Parser) :
    codeCheckRefs c p =
      { p with
        numErrors := p.numErrors + (pendingReports c p.inputFile).length
        stderr := p.stderr ++ pendingReports c p.inputFile } := by
  rw [codeCheckRefs, pendingReports]
  generalize c.symbolTable.entries = entries
  induction entries generalizing p with
  | nil => simp only [List.foldl_nil, List.flatMap_nil, List.length_nil, Nat.add_zero,
      List.append_nil]
  | cons s entries ih =>
    rw [List.foldl_cons, ih, symbolCheckRefs_eq]
    simp only [List.flatMap_cons, List.length_append, List.length_map, Nat.add_assoc,
      List.append_assoc]

theorem pendingReports_eq_nil_iff {c : Code} {inputFile : String} :
    pendingReports c inputFile = [] ↔ ∀ s ∈ c.symbolTable.entries, s.symbolRefs = [] := by
  simp only [pendingReports, List.flatMap_eq_nil_iff, List.map_eq_nil_iff]

end Rbml.Asm
