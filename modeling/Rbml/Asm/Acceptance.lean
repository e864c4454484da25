import Mathlib.Data.List.Perm.Basic
import Rbml.Asm.TwoPass

/-!
# Which programs are accepted

`compile` of `rbmlc.c` writes the output file when the parser and `code_check_refs` leave no error
between them. This module says when that is: no label is on two lines, and every symbol that an
instruction names is on some line (`assemble_accepts_iff`).

The count is exact. With distinct labels the parser reports nothing, and `code_check_refs` reports
each instruction that names an undefined symbol once, under the line of that instruction
(`pendingReports_perm`). The reports come in the order of the symbol table, not of the lines, so they
are compared as multisets; the accounting is the table's (`Table.flatMap_filter_perm`), with every
pending list the places that name its symbol.
-/

namespace Rbml.Asm

open Rbml.Lib

/-! ## The compiler -/

/-- What `compile` leaves: the code handed to `code_write`, if it is called, and whether it
returns a true value -/
structure Compiled where
  written : Option Code
  numErrors : Nat
  success : Bool

/-- `compile`. `parser_parse` is the front end the program is linked with. -/
def compile (parserParse : Session → Session) (inputFile : String) : Compiled :=
  let c := codeAlloc
  let p := parserAlloc inputFile
  let st := parserParse ⟨p, c⟩
  let p := codeCheckRefs st.code st.parser
  let numErrors := p.numErrors
  { written := if numErrors = 0 then some st.code else none
    numErrors
    success := decide (numErrors = 0) }

/-! ## Undefined symbols -/

/-- The instruction names a symbol that is the label of no line. -/
def Undefined (lines : List Line) (ins : Instruction) : Prop :=
  ∃ name, ins.ident? = some name ∧ name ∉ labels lines

instance (lines : List Line) (ins : Instruction) : Decidable (Undefined lines ins) :=
  match h : ins.ident? with
  | none => isFalse fun ⟨_, hname, _⟩ => nomatch h.symm.trans hname
  | some name =>
    if hmem : name ∈ labels lines then
      isFalse fun ⟨_, hname, hnot⟩ => hnot (Option.some.inj (h.symm.trans hname) ▸ hmem)
    else isTrue ⟨name, h, hmem⟩

/-- The report for an instruction that names an undefined symbol: an error under its line -/
def undefinedReport (inputFile : String) (e : Emitted) : Diagnostic :=
  ⟨.error, inputFile, e.lineNum, unreferencedMessage (e.instruction.ident?.getD "")⟩

/-- The reports of the pending references of one symbol are those of the instructions that name
it. -/
theorem mentions_reports (inputFile name : String) (emitted : List Emitted) :
    ((mentions name emitted).map fun ref =>
        (⟨.error, inputFile, ref.lineNum, unreferencedMessage name⟩ : Diagnostic)) =
      (emitted.filter fun e => e.instruction.ident? = some name).map
        (undefinedReport inputFile) := by
  induction emitted using List.reverseRecOn with
  | nil => rfl
  | append_singleton emitted e ih =>
    rw [mentions_append, List.map_append, ih, List.filter_append, List.map_append]
    congr 1
    by_cases h : e.instruction.ident? = some name
    · simp only [h, if_true, List.map_cons, List.map_nil, List.filter_cons, decide_true,
        List.filter_nil, undefinedReport, Option.getD_some]
    · simp only [h, if_false, List.map_nil, List.filter_cons, decide_false, Bool.false_eq_true,
        List.filter_nil]

/-- What a record's pending list reports: each undefined instruction that names it -/
theorem Tracks.symbol_reports {lines : List Line} {c : Code} (inputFile : String)
    (h : Tracks (definitions lines) (emittedOf lines) c) {s : Symbol}
    (hs : s ∈ c.symbolTable.entries) :
    (s.symbolRefs.map fun ref =>
        (⟨.error, inputFile, ref.lineNum, unreferencedMessage s.name⟩ : Diagnostic)).Perm
      (((emittedOf lines).filter fun e => Undefined lines e.instruction).filter
        (fun e => e.instruction.ident? = some s.name) |>.map (undefinedReport inputFile)) := by
  have hlookup : codeSymbolLookup c s.name = some s := Table.find?_of_mem hs
  rw [List.filter_filter]
  rcases h.symbols s.name s hlookup with ⟨hs0, hrefs, _⟩ | ⟨hs0, hrefs, hmem⟩
  · -- a waiting symbol is on no line, so every instruction that names it is undefined
    have hnot : s.name ∉ labels lines := by
      rw [← definitions_name]
      intro hmem
      obtain ⟨d, hd, hname⟩ := List.mem_map.mp hmem
      obtain ⟨hd0, s', hs', hline, _⟩ := h.defined d hd
      rw [hname, hlookup] at hs'
      cases hs'
      exact hd0 (hline ▸ hs0)
    have hfilter : (emittedOf lines).filter
          (fun e => decide (e.instruction.ident? = some s.name) &&
            decide (Undefined lines e.instruction)) =
        (emittedOf lines).filter fun e => decide (e.instruction.ident? = some s.name) := by
      refine List.filter_congr fun e _ => ?_
      by_cases hname : e.instruction.ident? = some s.name
      · have hundef : Undefined lines e.instruction := ⟨s.name, hname, hnot⟩
        simp only [hname, hundef, decide_true, Bool.and_self]
      · simp only [hname, decide_false, Bool.false_and]
    rw [hfilter, hrefs, List.map_reverse, ← mentions_reports]
    exact List.reverse_perm _
  · -- a settled symbol is on a line, so no instruction that names it is undefined
    have hlabel : s.name ∈ labels lines := by
      rw [← definitions_name]
      exact List.mem_map_of_mem (f := Definition.name) hmem
    have hfilter : (emittedOf lines).filter
          (fun e => decide (e.instruction.ident? = some s.name) &&
            decide (Undefined lines e.instruction)) = [] := by
      refine List.filter_eq_nil_iff.mpr fun e _ => ?_
      simp only [Bool.and_eq_true, decide_eq_true_eq, not_and]
      rintro hname ⟨name, hname', hnot⟩
      cases hname.symm.trans hname'
      exact hnot hlabel
    rw [hfilter, hrefs]
    exact .refl _

/-- With distinct labels the parser reports nothing. -/
theorem parserParse_numErrors (inputFile : String) {lines : List Line}
    (hline : ∀ l ∈ lines, 0 < l.lineNum) (hnodup : (labels lines).Nodup) :
    (parserParse inputFile lines).parser.numErrors = 0 := by
  obtain ⟨_, hcount, _⟩ := parserParse_tracks inputFile hline
  rw [surviving_eq_self_iff.mpr hnodup] at hcount
  omega

/-- With distinct labels the check of the references reports each instruction that names an
undefined symbol, once, under its own line. -/
theorem pendingReports_perm (inputFile : String) {lines : List Line}
    (hline : ∀ l ∈ lines, 0 < l.lineNum) (hnodup : (labels lines).Nodup) :
    (pendingReports (parserParse inputFile lines).code inputFile).Perm
      (((emittedOf lines).filter fun e => Undefined lines e.instruction).map
        (undefinedReport inputFile)) := by
  obtain ⟨htracks, _⟩ := parserParse_tracks inputFile hline
  rw [surviving_eq_self_iff.mpr hnodup] at htracks
  have hparts := List.Perm.flatMap_left (parserParse inputFile lines).code.symbolTable.entries
    fun s hs => htracks.symbol_reports inputFile hs
  apply hparts.trans
  rw [← List.map_flatMap]
  refine List.Perm.map _ ((Table.flatMap_filter_perm
    (fun e : Emitted => e.instruction.ident?) _ (parserParse inputFile lines).code.symbolTable).trans ?_)
  -- every instruction that names a symbol names one in the table
  rw [List.filter_eq_self.mpr]
  intro e he
  obtain ⟨hmem, hundef⟩ := List.mem_filter.mp he
  obtain ⟨name, hname, _⟩ := of_decide_eq_true hundef
  rw [hname, Option.bind_some]
  exact htracks.named e hmem name hname

/-- The error count is zero exactly for programs with distinct labels and no undefined symbol. -/
theorem assemble_numErrors_eq_zero_iff (inputFile : String) {lines : List Line}
    (hline : ∀ l ∈ lines, 0 < l.lineNum) :
    (assemble inputFile lines).parser.numErrors = 0 ↔
      (labels lines).Nodup ∧ ∀ ins ∈ instructions lines, ¬ Undefined lines ins := by
  obtain ⟨_, _, hfile⟩ := parserParse_tracks inputFile hline
  have hnone : (labels lines).Nodup →
      (pendingReports (parserParse inputFile lines).code inputFile = [] ↔
        ∀ ins ∈ instructions lines, ¬ Undefined lines ins) := by
    intro hnodup
    have hlength := (pendingReports_perm inputFile hline hnodup).length_eq
    rw [← List.length_eq_zero_iff, hlength, List.length_eq_zero_iff, List.map_eq_nil_iff,
      List.filter_eq_nil_iff, ← emittedOf_instruction]
    simp only [List.mem_map, decide_eq_true_eq, forall_exists_index, and_imp,
      forall_apply_eq_imp_iff₂]
  constructor
  · intro hok
    have hnodup := surviving_eq_self_iff.mp (settled_of_no_errors hline hok).1
    simp only [assemble_parser_eq, Nat.add_eq_zero_iff, List.length_eq_zero_iff, hfile] at hok
    exact ⟨hnodup, (hnone hnodup).mp hok.2⟩
  · rintro ⟨hnodup, hdefined⟩
    simp only [assemble_parser_eq, hfile, (hnone hnodup).mpr hdefined,
      parserParse_numErrors inputFile hline hnodup, List.length_nil]

/-- **Acceptance is exact and gates the output.** The error count of a run over well-formed lines
is zero exactly when no label is on two lines and every named symbol is on some line. With distinct
labels every report of the reference check is that of an instruction naming an undefined symbol,
there is one for each, under its own line, and the current line is where the parser left it. The
output is written exactly when the count is zero, and then it is the code just assembled. -/
theorem assemble_accepts_iff (inputFile : String) (lines : List Line)
    (hline : ∀ l ∈ lines, 0 < l.lineNum) :
    ((assemble inputFile lines).parser.numErrors = 0 ↔
        (labels lines).Nodup ∧
          ∀ ins ∈ instructions lines, ∀ name, ins.ident? = some name → name ∈ labels lines) ∧
      ((labels lines).Nodup →
        ∃ reports, (assemble inputFile lines).parser.stderr =
            (parserParse inputFile lines).parser.stderr ++ reports ∧
          (assemble inputFile lines).parser.numErrors =
            (parserParse inputFile lines).parser.numErrors + reports.length ∧
          reports.Perm
            (((emittedOf lines).filter fun e => Undefined lines e.instruction).map
              (undefinedReport inputFile))) ∧
      (assemble inputFile lines).parser.lineNum = (parserParse inputFile lines).parser.lineNum ∧
      ((compile (parseLines lines) inputFile).written =
        if (assemble inputFile lines).parser.numErrors = 0 then
          some (assemble inputFile lines).code
        else none) := by
  obtain ⟨_, _, hfile⟩ := parserParse_tracks inputFile hline
  refine ⟨?_, fun hnodup => ?_, ?_, rfl⟩
  · rw [assemble_numErrors_eq_zero_iff inputFile hline]
    refine and_congr_right fun _ => forall₂_congr fun ins _ => ?_
    simp only [Undefined, not_exists, not_and, not_not]
  · refine ⟨pendingReports (parserParse inputFile lines).code inputFile, ?_, ?_,
      pendingReports_perm inputFile hline hnodup⟩
    · simp only [assemble_parser_eq, hfile]
    · simp only [assemble_parser_eq, hfile]
  · simp only [assemble_parser_eq]

/-- `tests/duplicate_label.asm`: two labels are on two lines each, and `a` is on none -/
def duplicateLabel : List Line :=
  [⟨1, none, some (.word 0xaa)⟩,
   ⟨2, none, some (.inst2ra Opcode.lod.code 1 "a")⟩,
   ⟨3, some "foo", none⟩,
   ⟨4, none, some (.word 0xb)⟩,
   ⟨5, some "foo", none⟩,
   ⟨6, some "bar", none⟩,
   ⟨7, some "bar", none⟩]

theorem duplicateLabel_not_accepted :
    (assemble "duplicate_label.asm" duplicateLabel).parser.numErrors ≠ 0 := fun h =>
  absurd ((assemble_accepts_iff "duplicate_label.asm" duplicateLabel (by decide)).1.mp h).1
    (by decide)

end Rbml.Asm
