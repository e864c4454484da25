import Mathlib.Data.List.Induction
import Mathlib.Data.List.Nodup
import Rbml.Asm.Tracks

/-!
# The history of a run of the parser

What the parser makes of a list of lines is a list of definitions and a list of emitted
instructions. A line whose label was taken before leaves an error and nothing else, so the history
is that of the `surviving` lines: every line but those. `parserParse_tracks` is the run lemma: after
any list of lines the code record tracks the history of the lines that survive, and the error count
is the number of lines that do not.

`address` is the first pass of an ordinary two-pass assembler, read off the same lines.
-/

namespace Rbml.Asm

/-- The labels, in order of line -/
def labels (lines : List Line) : List String := lines.filterMap Line.label

/-- The instructions, in order of line -/
def instructions (lines : List Line) : List Instruction := lines.filterMap Line.instruction

/-- The instruction of a line with the number of the line -/
def Line.emitted (l : Line) : Option Emitted := l.instruction.map (⟨l.lineNum, ·⟩)

/-- What the lines emit, in their order -/
def emittedOf (lines : List Line) : List Emitted := lines.filterMap Line.emitted

/-- The definition of a line that `offset` words precede -/
def Line.definition (l : Line) (offset : Nat) : Option Definition :=
  l.label.map (⟨·, l.lineNum, offset⟩)

/-- The definitions of lines that `offset` words precede -/
def definitionsFrom (offset : Nat) : List Line → List Definition
  | [] => []
  | l :: lines =>
    (l.definition offset).toList ++ definitionsFrom (offset + l.instruction.toList.length) lines

/-- What the lines define, with the offsets of the text -/
def definitions (lines : List Line) : List Definition := definitionsFrom 0 lines

/-- The number of words emitted before the line that defines a symbol -/
def address : List Line → String → Option Nat
  | [], _ => none
  | l :: lines, name =>
    if l.label = some name then some 0
    else (address lines name).map (· + l.instruction.toList.length)

/-- One more line of a history: a line whose label is taken is left out. -/
def survivingStep (kept : List Line) (l : Line) : List Line :=
  match l.label with
  | none => kept ++ [l]
  | some name => if name ∈ labels kept then kept else kept ++ [l]

/-- The lines whose label, if any, is on no earlier surviving line -/
def surviving (lines : List Line) : List Line := lines.foldl survivingStep []

/-! ## Reading one more line -/

/-- One more line has one more label, or none. -/
theorem labels_append (lines : List Line) (l : Line) :
    labels (lines ++ [l]) = labels lines ++ l.label.toList := by
  cases h : l.label <;> simp [labels, h]

/-- One more line emits one more word, or none. -/
theorem emittedOf_append (lines : List Line) (l : Line) :
    emittedOf (lines ++ [l]) = emittedOf lines ++ l.emitted.toList := by
  cases h : l.emitted <;> simp [emittedOf, h]

/-- What is emitted are the instructions of the lines. -/
theorem emittedOf_instruction (lines : List Line) :
    (emittedOf lines).map Emitted.instruction = instructions lines := by
  simp only [emittedOf, instructions, List.map_filterMap, Line.emitted]
  refine congrArg (fun f => List.filterMap f lines) (funext fun l => ?_)
  cases l.instruction <;> rfl

theorem emittedOf_length (lines : List Line) :
    (emittedOf lines).length = (instructions lines).length := by
  rw [← emittedOf_instruction, List.length_map]

theorem definitionsFrom_append (offset : Nat) (lines : List Line) (l : Line) :
    definitionsFrom offset (lines ++ [l]) =
      definitionsFrom offset lines ++ (l.definition (offset + (instructions lines).length)).toList := by
  induction lines generalizing offset with
  | nil => simp only [definitionsFrom, List.nil_append, List.append_nil, instructions,
      List.filterMap_nil, List.length_nil, Nat.add_zero]
  | cons l' lines ih =>
    have hlen : (instructions (l' :: lines)).length =
        l'.instruction.toList.length + (instructions lines).length := by
      cases h : l'.instruction <;> simp [instructions, h, Nat.add_comm]
    rw [List.cons_append, definitionsFrom, definitionsFrom, ih, hlen, List.append_assoc,
      Nat.add_assoc]

/-- A label of one more line is defined at the end of the text. -/
theorem definitions_append (lines : List Line) (l : Line) :
    definitions (lines ++ [l]) =
      definitions lines ++ (l.definition (instructions lines).length).toList := by
  rw [definitions, definitionsFrom_append, Nat.zero_add, definitions]

/-- The names that are defined are the labels. -/
theorem definitions_name (lines : List Line) :
    (definitions lines).map Definition.name = labels lines := by
  have h : ∀ offset, (definitionsFrom offset lines).map Definition.name = labels lines := by
    induction lines with
    | nil => exact fun _ => rfl
    | cons l lines ih =>
      intro offset
      cases hl : l.label <;> simp [definitionsFrom, Line.definition, hl, ih, labels]
  exact h 0

/-! ## Surviving lines -/

/-- Whether a line survives depends on the lines before it. -/
theorem surviving_append (lines : List Line) (l : Line) :
    surviving (lines ++ [l]) = survivingStep (surviving lines) l := by
  rw [surviving, List.foldl_append]
  rfl

/-- A line with a label that is taken does not survive. -/
theorem survivingStep_taken {kept : List Line} {l : Line} {name : String}
    (hl : l.label = some name) (h : name ∈ labels kept) : survivingStep kept l = kept := by
  simp only [survivingStep, hl, if_pos h]

/-- A line whose label is not taken, or that has none, survives. -/
theorem survivingStep_fresh {kept : List Line} {l : Line}
    (h : ∀ name, l.label = some name → name ∉ labels kept) :
    survivingStep kept l = kept ++ [l] := by
  cases hl : l.label with
  | none => simp only [survivingStep, hl]
  | some name => simp only [survivingStep, hl, if_neg (h name hl)]

/-- The lines that survive are some of the lines, in their order. -/
theorem surviving_sublist (lines : List Line) : (surviving lines).Sublist lines := by
  induction lines using List.reverseRecOn with
  | nil => exact List.Sublist.refl _
  | append_singleton lines l ih =>
    rw [surviving_append, survivingStep]
    split
    · exact ih.append (List.Sublist.refl _)
    · split
      · exact ih.trans (List.sublist_append_left _ _)
      · exact ih.append (List.Sublist.refl _)

/-- No label is there twice among the lines that survive. -/
theorem labels_surviving_nodup (lines : List Line) : (labels (surviving lines)).Nodup := by
  induction lines using List.reverseRecOn with
  | nil => exact List.nodup_nil
  | append_singleton lines l ih =>
    rw [surviving_append, survivingStep]
    split
    next hl => rwa [labels_append, hl, Option.toList_none, List.append_nil]
    next name hl =>
      split
      · exact ih
      next hnot =>
        rw [labels_append, hl, Option.toList_some]
        exact List.nodup_append.mpr ⟨ih, List.nodup_singleton _, fun a ha b hb hab =>
          hnot (List.mem_singleton.mp hb ▸ hab ▸ ha)⟩

/-- Every line survives exactly when no label is on two lines. -/
theorem surviving_eq_self_iff {lines : List Line} :
    surviving lines = lines ↔ (labels lines).Nodup := by
  constructor
  · intro h
    rw [← h]
    exact labels_surviving_nodup lines
  · intro hnodup
    induction lines using List.reverseRecOn with
    | nil => rfl
    | append_singleton lines l ih =>
      rw [labels_append] at hnodup
      obtain ⟨hlines, _, hdisjoint⟩ := List.nodup_append.mp hnodup
      have hself := ih hlines
      rw [surviving_append, hself, survivingStep_fresh]
      intro name hl hmem
      exact hdisjoint name hmem name (by rw [hl]; exact List.mem_singleton_self _) rfl

/-! ## One line -/

section Line

variable {defs : List Definition} {emitted : List Emitted} (st : Session)

/-- A label that no definition has is accepted, and becomes a definition at the current end. -/
theorem labelAction_fresh (h : Tracks defs emitted st.code) {name : String}
    (hname : name ∉ defs.map Definition.name) (hline : st.parser.lineNum ≠ 0) :
    ∃ code, labelAction name st = (true, { st with code }) ∧
      Tracks (defs ++ [⟨name, st.parser.lineNum, st.code.size⟩]) emitted code := by
  cases hs : codeSymbolLookup st.code name with
  | none => exact ⟨_, by simp only [labelAction, hs], h.add hs hline⟩
  | some s =>
    have hsn : s.name = name := name_of_lookup hs
    subst hsn
    rcases h.symbols s.name s hs with ⟨hs0, _⟩ | ⟨_, _, hmem⟩
    · refine ⟨_, ?_, h.define hs hs0 hline⟩
      simp only [labelAction, hs, hs0, ne_eq, not_true_eq_false, if_false]
    · exact absurd (List.mem_map_of_mem hmem) hname

/-- A label that a definition has is refused with one error, and nothing else happens. -/
theorem labelAction_taken (h : Tracks defs emitted st.code) {d : Definition} (hd : d ∈ defs) :
    labelAction d.name st =
      (false,
        { st with parser := parserError st.parser (redefinedMessage d.name d.lineNum) }) := by
  obtain ⟨hd0, s, hs, hline, _⟩ := h.defined d hd
  have hs0 : s.lineNum ≠ 0 := hline ▸ hd0
  simp only [labelAction, hs]
  rw [if_pos hs0, name_of_lookup hs, hline]

/-- A line without an instruction emits nothing, and the others what they say. -/
theorem instructionOpt_tracks (h : Tracks defs emitted st.code) (ins : Option Instruction) :
    Tracks defs (emitted ++ (ins.map (⟨st.parser.lineNum, ·⟩)).toList)
      (instructionOpt ins st).code := by
  cases ins with
  | none =>
    rw [Option.map_none, Option.toList_none, List.append_nil]
    exact h
  | some ins =>
    rw [instructionOpt]
    cases hi : ins.ident? with
    | none =>
      rw [instructionAction_none hi st 0]
      exact h.emit (e := ⟨st.parser.lineNum, ins⟩) hi
    | some name =>
      rw [instructionAction_some hi]
      exact h.refer (e := ⟨st.parser.lineNum, ins⟩) hi

end Line

/-! ## The run -/

/-- The last line is parsed after the others. -/
theorem parseLines_append (lines : List Line) (l : Line) (st : Session) :
    parseLines (lines ++ [l]) st = parseLine l (parseLines lines st) := by
  rw [parseLines, List.foldl_append]
  rfl

theorem parserParse_append (inputFile : String) (lines : List Line) (l : Line) :
    parserParse inputFile (lines ++ [l]) = parseLine l (parserParse inputFile lines) :=
  parseLines_append lines l _

/-- After any list of lines the code record tracks the lines that survive, and there is one error
for each line that does not. -/
theorem parserParse_tracks (inputFile : String) {lines : List Line}
    (hline : ∀ l ∈ lines, 0 < l.lineNum) :
    Tracks (definitions (surviving lines)) (emittedOf (surviving lines))
        (parserParse inputFile lines).code ∧
      (parserParse inputFile lines).parser.numErrors + (surviving lines).length = lines.length ∧
      (parserParse inputFile lines).parser.inputFile = inputFile := by
  induction lines using List.reverseRecOn with
  | nil => exact ⟨tracks_alloc, rfl, rfl⟩
  | append_singleton lines l ih =>
    obtain ⟨htracks, hcount, hfile⟩ := ih fun l' hl' => hline l' (List.mem_append_left _ hl')
    have hl : l.lineNum ≠ 0 :=
      (hline l (List.mem_append_right _ (List.mem_singleton_self _))).ne'
    rw [parserParse_append, surviving_append, List.length_append, List.length_singleton]
    generalize parserParse inputFile lines = st at htracks hcount hfile
    generalize surviving lines = kept at htracks hcount
    have hsize : st.code.size = (instructions kept).length := by
      rw [htracks.size_eq, emittedOf_length]
    cases hlabel : l.label with
    | none =>
      have hkept : survivingStep kept l = kept ++ [l] := by
        rw [survivingStep, hlabel]
      rw [hkept, definitions_append, emittedOf_append, Line.definition, hlabel]
      simp only [parseLine, hlabel, parser_instructionOpt, List.length_append,
        List.length_singleton, Option.map_none, Option.toList_none, List.append_nil]
      exact ⟨instructionOpt_tracks ⟨{ st.parser with lineNum := l.lineNum }, st.code⟩ htracks
        l.instruction, by omega, hfile⟩
    | some name =>
      by_cases hmem : name ∈ labels kept
      · -- the label is taken: one error, and the line is gone
        rw [← definitions_name] at hmem
        obtain ⟨d, hd, rfl⟩ := List.mem_map.mp hmem
        rw [survivingStep_taken hlabel (by rw [← definitions_name]; exact hmem)]
        simp only [parseLine, hlabel,
          labelAction_taken ⟨{ st.parser with lineNum := l.lineNum }, st.code⟩ htracks hd,
          parserError_numErrors, parserError_inputFile]
        exact ⟨htracks, by omega, hfile⟩
      · obtain ⟨code, hact, hcode⟩ :=
          labelAction_fresh ⟨{ st.parser with lineNum := l.lineNum }, st.code⟩ htracks
            (by rw [definitions_name]; exact hmem) hl
        have hkept : survivingStep kept l = kept ++ [l] := by
          simp only [survivingStep, hlabel, if_neg hmem]
        rw [hkept, definitions_append, emittedOf_append, Line.definition, hlabel, ← hsize]
        simp only [parseLine, hlabel, hact, parser_instructionOpt, List.length_append,
          List.length_singleton, Option.map_some, Option.toList_some]
        exact ⟨instructionOpt_tracks ⟨{ st.parser with lineNum := l.lineNum }, code⟩ hcode
          l.instruction, by omega, hfile⟩

end Rbml.Asm
