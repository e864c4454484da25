import Mathlib.Data.List.Sigma
import Rbml.Asm.Grammar
import Rbml.Asm.History

/-!
# The state of the assembler between two actions

The record of the code is changed by two actions, that of a label and that of an instruction. What
holds of it after any of them in any order is said here against the actions that have run, which are
taken for what was referenced, defined and emitted (`CodeInvariant`).

Inside an instruction a reference is recorded under the index of a word that is not there yet. The
words of the references that wait are rewritten when their symbol is defined: no action changes a word
otherwise (`KeepsWords`), and no word is rewritten twice in a run (`RewritesOnce`).
-/

namespace Rbml.Asm

open Rbml.Lib

/-! ## Runs of actions -/

inductive ActionKind where
  | label (ident : String)
  | instruction (ins : Instruction)
  deriving DecidableEq, Repr

/-- An action that the parser runs, with the number of the line. Lines are counted from 1. -/
structure Action where
  lineNum : Nat
  kind : ActionKind
  positive : 0 < lineNum

/-- The action, when the scanner has set the line number -/
def Action.run (a : Action) (st : Session) : Session :=
  match a.kind with
  | .label ident => (labelAction ident (atLine a.lineNum st)).2
  | .instruction ins => instructionAction ins (atLine a.lineNum st)

def runFrom (st : Session) (as : List Action) : Session := as.foldl (fun st a => a.run st) st

/-- The session after some actions, from `code_alloc` -/
def runActions (inputFile : String) (as : List Action) : Session :=
  runFrom ⟨parserAlloc inputFile, codeAlloc⟩ as

/-- The instruction that an action emits, with its line -/
def Action.emitted (a : Action) : Option Emitted :=
  match a.kind with
  | .label _ => none
  | .instruction ins => some ⟨a.lineNum, ins⟩

/-- The instructions that were emitted, in order -/
def emittedBy (as : List Action) : List Emitted := as.filterMap Action.emitted

/-- An instruction names the symbol. -/
def Referenced (as : List Action) (name : String) : Prop :=
  ∃ e ∈ emittedBy as, e.instruction.ident? = some name

/-- A label has the name. -/
def Defined (as : List Action) (name : String) : Prop := ∃ a ∈ as, a.kind = .label name

/-! ## What holds after every action -/

/-- The code after some actions -/
structure CodeInvariant (as : List Action) (c : Code) : Prop where
  allocated : c.size ≤ c.allocated
  size : c.size = (emittedBy as).length
  names : (c.symbolTable.entries.map Symbol.name).Nodup
  undefined : ∀ name, (∃ s ∈ c.symbolTable.entries, s.name = name ∧ s.lineNum = 0) ↔
    Referenced as name ∧ ¬ Defined as name
  pending : ∀ s ∈ c.symbolTable.entries, s.lineNum = 0 →
    s.symbolRefs = (mentions s.name (emittedBy as)).reverse ∧
      ∀ ref ∈ s.symbolRefs, ref.offset < c.size
  settled : ∀ s ∈ c.symbolTable.entries, s.lineNum ≠ 0 → s.symbolRefs = []

/-- The places that wait for a symbol -/
def pendingOn (ident : String) (c : Code) : List Nat :=
  match codeSymbolLookup c ident with
  | none => []
  | some s => if s.lineNum = 0 then s.symbolRefs.map SymbolRef.offset else []

/-- The words that an action rewrites, in order: those that wait for the symbol it defines -/
def Action.rewrites (a : Action) (c : Code) : List Nat :=
  match a.kind with
  | .label ident => pendingOn ident c
  | .instruction _ => []

/-- The words before an action are kept, but for the low halves of the ones that it rewrites. -/
structure KeepsWords (a : Action) (st : Session) : Prop where
  writes : ∃ ws, (a.run st).code.text =
    (a.rewrites st.code).foldl
      (fun text i => text.modify i (rbmlSetArg3 · (BitVec.ofNat 32 st.code.size))) st.code.text ++ ws
  untouched : ∀ i < st.code.size, i ∉ a.rewrites st.code →
    (a.run st).code.text[i]? = st.code.text[i]?
  highHalf : ∀ (i : Nat) (w : Word), st.code.text[i]? = some w →
    ∃ w', (a.run st).code.text[i]? = some w' ∧ w' >>> 16 = w >>> 16

/-- The words that a run rewrites, in order -/
def rewritesFrom (st : Session) : List Action → List Nat
  | [] => []
  | a :: as => a.rewrites st.code ++ rewritesFrom (a.run st) as

/-- The word `i` was emitted for an instruction that names the symbol, and no label before it did. -/
def ForwardReference (as : List Action) (i : Nat) (name : String) : Prop :=
  ∃ before a after, as = before ++ a :: after ∧ (emittedBy before).length = i ∧
    (∃ e, a.emitted = some e ∧ e.instruction.ident? = some name) ∧ ¬ Defined before name

/-- No word is rewritten twice, and those that are rewritten are the forward references to the symbols
that are defined. -/
structure RewritesOnce (as : List Action) (rewritten : List Nat) : Prop where
  once : rewritten.Nodup
  which : ∀ i, i ∈ rewritten ↔ ∃ name, ForwardReference as i name ∧ Defined as name

/-- A symbol that is defined stays as it is. -/
def KeepsDefined (c c' : Code) : Prop :=
  ∀ s ∈ c.symbolTable.entries, s.lineNum ≠ 0 → s ∈ c'.symbolTable.entries

/-! ## Reading one more action -/

theorem runFrom_append (st : Session) (as bs : List Action) :
    runFrom st (as ++ bs) = runFrom (runFrom st as) bs :=
  List.foldl_append

theorem emittedBy_append (as bs : List Action) :
    emittedBy (as ++ bs) = emittedBy as ++ emittedBy bs :=
  List.filterMap_append

theorem emittedBy_singleton (a : Action) : emittedBy [a] = a.emitted.toList := by
  cases h : a.emitted <;> simp [emittedBy, h]

theorem defined_append {as bs : List Action} {name : String} :
    Defined (as ++ bs) name ↔ Defined as name ∨ Defined bs name := by
  simp only [Defined, List.mem_append, or_and_right, exists_or]

theorem defined_singleton {a : Action} {name : String} :
    Defined [a] name ↔ a.kind = .label name := by
  simp only [Defined, List.mem_singleton, exists_eq_left]

theorem rewritesFrom_append (st : Session) (as : List Action) (a : Action) :
    rewritesFrom st (as ++ [a]) = rewritesFrom st as ++ a.rewrites (runFrom st as).code := by
  induction as generalizing st with
  | nil => exact List.append_nil _
  | cons b as ih =>
    rw [List.cons_append, rewritesFrom, rewritesFrom, ih, List.append_assoc]
    rfl

/-! ## One action -/

/-- The three ways of the label action -/
theorem labelAction_cases (ident : String) (st : Session) :
    (codeSymbolLookup st.code ident = none ∧
      (labelAction ident st).2.code = (codeSymbolAdd st.code ident st.parser.lineNum).1) ∨
    (∃ s, codeSymbolLookup st.code ident = some s ∧ s.lineNum = 0 ∧
      (labelAction ident st).2.code = codeSymbolDefine st.code s st.parser.lineNum) ∨
    (∃ s, codeSymbolLookup st.code ident = some s ∧ s.lineNum ≠ 0 ∧
      (labelAction ident st).2.code = st.code) := by
  cases h : codeSymbolLookup st.code ident with
  | none =>
    refine .inl ⟨rfl, ?_⟩
    simp only [labelAction, h]
  | some s =>
    apply Or.inr
    by_cases hs : s.lineNum = 0
    · refine .inl ⟨s, rfl, hs, ?_⟩
      simp only [labelAction, h, hs, ne_eq, not_true_eq_false, if_false]
    · refine .inr ⟨s, rfl, hs, ?_⟩
      simp only [labelAction, h, ne_eq, hs, not_false_eq_true, if_true]

/-- An instruction emits a word into a code that has the text and the room it had. -/
theorem instructionAction_emits (ins : Instruction) (st : Session) :
    ∃ c w, (instructionAction ins st).code = codeEmit c w ∧ c.text = st.code.text ∧
      c.allocated = st.code.allocated := by
  cases hi : ins.ident? with
  | none =>
    rw [instructionAction_none hi st 0]
    exact ⟨_, _, rfl, rfl, rfl⟩
  | some name =>
    rw [instructionAction_some hi]
    refine ⟨_, _, rfl, ?_⟩
    rcases codeSymbolRef_cases st.code name st.parser.lineNum with ⟨-, href⟩ | ⟨s, -, -, href⟩ |
      ⟨s, -, -, href⟩
    all_goals
      rw [href]
      exact ⟨rfl, rfl⟩

theorem allocated_run (a : Action) {st : Session} (h : st.code.size ≤ st.code.allocated) :
    (a.run st).code.size ≤ (a.run st).code.allocated := by
  cases hkind : a.kind with
  | label ident =>
    simp only [Action.run, hkind]
    rcases labelAction_cases ident (atLine a.lineNum st) with ⟨-, hcode⟩ | ⟨s, -, -, hcode⟩ |
      ⟨s, -, -, hcode⟩
    · rw [hcode]
      exact h
    · rw [hcode, Code.size, codeSymbolDefine_text, patchRefs_length]
      exact h
    · rw [hcode]
      exact h
  | instruction ins =>
    simp only [Action.run, hkind]
    obtain ⟨c, w, hcode, htext, hallocated⟩ := instructionAction_emits ins (atLine a.lineNum st)
    rw [hcode]
    apply codeEmit_allocated
    rw [Code.size, htext, hallocated]
    exact h

/-- A reference leaves a defined symbol. -/
theorem codeSymbolRef_lookup_defined {c : Code} {name' : String} {s : Symbol}
    (hlookup : codeSymbolLookup c name' = some s) (hdefined : s.lineNum ≠ 0) (name : String)
    (lineNum : Nat) : codeSymbolLookup (codeSymbolRef c name lineNum).1 name' = some s := by
  rcases codeSymbolRef_cases c name lineNum with ⟨h, href⟩ | ⟨s', h, hs', href⟩ | ⟨s', -, -, href⟩
  · have hne : name' ≠ name := fun heq => nomatch (heq ▸ hlookup).symm.trans h
    have hadd := codeSymbolAdd_lookup 0 h
    rw [href, addRef_lookup _ ((hadd name).trans (if_pos rfl)), symbolAlloc_name, if_neg hne, hadd,
      if_neg hne, hlookup]
  · have hne : name' ≠ s'.name := by
      rintro rfl
      rw [name_of_lookup h] at hlookup
      cases hlookup.symm.trans h
      exact hdefined hs'
    rw [← name_of_lookup h] at h
    rw [href, addRef_lookup _ h, if_neg hne, hlookup]
  · rw [href, hlookup]

/-- A defined symbol is not touched by any action. -/
theorem keepsDefined_run (a : Action) (st : Session) : KeepsDefined st.code (a.run st).code := by
  intro s hs hdefined
  have hlookup : codeSymbolLookup st.code s.name = some s := Table.find?_of_mem hs
  refine Table.mem_of_find? (k := s.name) ?_
  show codeSymbolLookup (a.run st).code s.name = some s
  cases hkind : a.kind with
  | label ident =>
    simp only [Action.run, hkind]
    rcases labelAction_cases ident (atLine a.lineNum st) with ⟨h, hcode⟩ | ⟨s', h, hs', hcode⟩ |
      ⟨s', h, -, hcode⟩
    · have hne : s.name ≠ ident := fun heq => nomatch (heq ▸ hlookup).symm.trans h
      rw [hcode, codeSymbolAdd_lookup _ h, if_neg hne]
      exact hlookup
    · have hne : s.name ≠ s'.name := by
        intro heq
        rw [heq, name_of_lookup h] at hlookup
        cases hlookup.symm.trans h
        exact hdefined hs'
      rw [← name_of_lookup h] at h
      rw [hcode, codeSymbolDefine_lookup _ h, if_neg hne]
      exact hlookup
    · rw [hcode]
      exact hlookup
  | instruction ins =>
    simp only [Action.run, hkind]
    cases hi : ins.ident? with
    | none =>
      rw [instructionAction_none hi _ 0]
      exact hlookup
    | some name =>
      rw [instructionAction_some hi]
      exact codeSymbolRef_lookup_defined hlookup hdefined name _

/-! ## Words -/

/-- The loop of `symbol_define`, by the words that it rewrites -/
theorem patchRefs_eq_foldl (offset : Nat) (refs : List SymbolRef) (text : List Word) :
    patchRefs offset refs text = (refs.map SymbolRef.offset).foldl
      (fun text i => text.modify i (rbmlSetArg3 · (BitVec.ofNat 32 offset))) text := by
  induction refs generalizing text with
  | nil => rfl
  | cons ref refs ih => exact ih _

/-- Rewriting addresses keeps the high halves of all words. -/
theorem patchRefs_highHalf (offset : Nat) (refs : List SymbolRef) {text : List Word} {i : Nat}
    {w : Word} (h : text[i]? = some w) :
    ∃ w', (patchRefs offset refs text)[i]? = some w' ∧ w' >>> 16 = w >>> 16 := by
  induction refs generalizing text w with
  | nil => exact ⟨w, h, rfl⟩
  | cons ref refs ih =>
    by_cases hi : ref.offset = i
    · have hmodify : (text.modify ref.offset (rbmlSetArg3 · (BitVec.ofNat 32 offset)))[i]? =
          some (rbmlSetArg3 w (BitVec.ofNat 32 offset)) := by
        rw [hi, List.getElem?_modify_eq, h, Option.map_eq_map, Option.map_some]
      obtain ⟨w', hw', hhigh⟩ := ih hmodify
      exact ⟨w', hw', hhigh.trans (rbmlSetArg3_highHalf w _)⟩
    · refine ih ?_
      rw [List.getElem?_modify_ne _ _ hi, h]

theorem pendingOn_some {c : Code} {ident : String} {s : Symbol}
    (h : codeSymbolLookup c ident = some s) (hs : s.lineNum = 0) :
    pendingOn ident c = s.symbolRefs.map SymbolRef.offset := by
  simp only [pendingOn, h, if_pos hs]

theorem pendingOn_none {c : Code} {ident : String} (h : codeSymbolLookup c ident = none) :
    pendingOn ident c = [] := by
  simp only [pendingOn, h]

theorem pendingOn_defined {c : Code} {ident : String} {s : Symbol}
    (h : codeSymbolLookup c ident = some s) (hs : s.lineNum ≠ 0) : pendingOn ident c = [] := by
  simp only [pendingOn, h, if_neg hs]

/-- What an action makes of the text: the loop of `symbol_define` over the references that wait, and
the words that it emits -/
theorem text_run (a : Action) (st : Session) :
    ∃ refs ws, refs.map SymbolRef.offset = a.rewrites st.code ∧
      (a.run st).code.text = patchRefs st.code.size refs st.code.text ++ ws := by
  cases hkind : a.kind with
  | label ident =>
    simp only [Action.run, Action.rewrites, hkind]
    rcases labelAction_cases ident (atLine a.lineNum st) with ⟨h, hcode⟩ | ⟨s, h, hs, hcode⟩ |
      ⟨s, h, hs, hcode⟩
    · refine ⟨[], [], (pendingOn_none h).symm, ?_⟩
      rw [hcode]
      exact (List.append_nil _).symm
    · refine ⟨s.symbolRefs, [], (pendingOn_some h hs).symm, ?_⟩
      rw [hcode]
      exact (List.append_nil _).symm
    · refine ⟨[], [], (pendingOn_defined h hs).symm, ?_⟩
      rw [hcode]
      exact (List.append_nil _).symm
  | instruction ins =>
    obtain ⟨c, w, hcode, htext, -⟩ := instructionAction_emits ins (atLine a.lineNum st)
    refine ⟨[], [w], ?_, ?_⟩
    · simp only [Action.rewrites, hkind, List.map_nil]
    · simp only [Action.run, hkind, hcode, codeEmit_text, htext]
      rfl

theorem keepsWords (a : Action) (st : Session) : KeepsWords a st := by
  obtain ⟨refs, ws, hrefs, htext⟩ := text_run a st
  refine ⟨⟨ws, ?_⟩, fun i hi hnot => ?_, fun i w hw => ?_⟩
  · rw [htext, patchRefs_eq_foldl, hrefs]
  · rw [htext, List.getElem?_append_left (by rw [patchRefs_length]; exact hi),
      patchRefs_getElem?_of_not_mem _ (hrefs ▸ hnot)]
  · obtain ⟨w', hw', hhigh⟩ := patchRefs_highHalf st.code.size refs hw
    refine ⟨w', ?_, hhigh⟩
    rw [htext, List.getElem?_append_left (List.getElem?_eq_some_iff.mp hw').1, hw']

/-! ## The record and the actions -/

/-- The record tracks the instructions that were emitted, and definitions under the names of the
labels. -/
def Remembers (as : List Action) (c : Code) : Prop :=
  ∃ defs, Tracks defs (emittedBy as) c ∧ ∀ name, name ∈ defs.map Definition.name ↔ Defined as name

theorem remembers_label {as : List Action} {a : Action} {st : Session} {ident : String}
    (h : Remembers as st.code) (hkind : a.kind = .label ident) :
    Remembers (as ++ [a]) (a.run st).code := by
  obtain ⟨defs, htracks, hdefs⟩ := h
  have hemitted : emittedBy (as ++ [a]) = emittedBy as := by
    rw [emittedBy_append, emittedBy_singleton, Action.emitted, hkind, Option.toList_none,
      List.append_nil]
  have hdefined : ∀ name, Defined (as ++ [a]) name ↔ Defined as name ∨ ident = name := by
    intro name
    rw [defined_append, defined_singleton, hkind, ActionKind.label.injEq]
  rw [Remembers, hemitted]
  simp only [Action.run, hkind]
  by_cases hmem : ident ∈ defs.map Definition.name
  · obtain ⟨d, hd, rfl⟩ := List.mem_map.mp hmem
    rw [labelAction_taken (atLine a.lineNum st) htracks hd]
    refine ⟨defs, htracks, fun name => ?_⟩
    rw [hdefined, hdefs]
    exact ⟨.inl, fun h => h.elim id fun heq => heq ▸ (hdefs _).mp hmem⟩
  · obtain ⟨code, haction, hcode⟩ :=
      labelAction_fresh (atLine a.lineNum st) htracks hmem a.positive.ne'
    rw [haction]
    refine ⟨_, hcode, fun name => ?_⟩
    rw [List.map_append, List.mem_append, hdefs, hdefined, List.map_singleton, List.mem_singleton,
      eq_comm]

theorem remembers_instruction {as : List Action} {a : Action} {st : Session} {ins : Instruction}
    (h : Remembers as st.code) (hkind : a.kind = .instruction ins) :
    Remembers (as ++ [a]) (a.run st).code := by
  obtain ⟨defs, htracks, hdefs⟩ := h
  have hemitted : emittedBy (as ++ [a]) = emittedBy as ++ [⟨a.lineNum, ins⟩] := by
    rw [emittedBy_append, emittedBy_singleton, Action.emitted, hkind, Option.toList_some]
  have hdefined : ∀ name, Defined (as ++ [a]) name ↔ Defined as name := by
    intro name
    rw [defined_append, defined_singleton, hkind]
    exact or_iff_left nofun
  rw [Remembers, hemitted]
  simp only [Action.run, hkind]
  refine ⟨defs, ?_, fun name => (hdefs name).trans (hdefined name).symm⟩
  exact instructionOpt_tracks (atLine a.lineNum st) htracks (some ins)

theorem remembers_run {as : List Action} {st : Session} (h : Remembers as st.code) (a : Action) :
    Remembers (as ++ [a]) (a.run st).code := by
  cases hkind : a.kind with
  | label ident => exact remembers_label h hkind
  | instruction ins => exact remembers_instruction h hkind

theorem remembers_alloc : Remembers [] codeAlloc := by
  refine ⟨[], tracks_alloc, fun name => iff_of_false List.not_mem_nil ?_⟩
  intro ⟨_, h, _⟩
  cases h

section Remembers

variable {as : List Action} {c : Code} {name : String}

theorem Remembers.size (h : Remembers as c) : c.size = (emittedBy as).length := by
  obtain ⟨_, htracks, _⟩ := h
  exact htracks.size_eq

theorem Remembers.lookup_of_referenced (h : Remembers as c) (hname : Referenced as name) :
    ∃ s, codeSymbolLookup c name = some s := by
  obtain ⟨_, htracks, _⟩ := h
  obtain ⟨e, he, hident⟩ := hname
  exact Option.isSome_iff_exists.mp (htracks.named e he name hident)

theorem Remembers.lookup_of_defined (h : Remembers as c) (hname : Defined as name) :
    ∃ s, codeSymbolLookup c name = some s ∧ s.lineNum ≠ 0 := by
  obtain ⟨defs, htracks, hdefs⟩ := h
  obtain ⟨d, hd, rfl⟩ := List.mem_map.mp ((hdefs name).mpr hname)
  obtain ⟨hd0, s, hs, hline, -⟩ := htracks.defined d hd
  exact ⟨s, hs, hline ▸ hd0⟩

/-- A symbol record waits with all places that name it, or it is defined and nothing waits. -/
theorem Remembers.symbol (h : Remembers as c) {s : Symbol} (hs : s ∈ c.symbolTable.entries) :
    (s.lineNum = 0 ∧ s.symbolRefs = (mentions s.name (emittedBy as)).reverse ∧
        Referenced as s.name ∧ ¬ Defined as s.name) ∨
      (s.lineNum ≠ 0 ∧ s.symbolRefs = [] ∧ Defined as s.name) := by
  have hlookup : codeSymbolLookup c s.name = some s := Table.find?_of_mem hs
  have hdefined : Defined as s.name → s.lineNum ≠ 0 := by
    intro hname
    obtain ⟨s', hs', hline⟩ := h.lookup_of_defined hname
    cases hlookup.symm.trans hs'
    exact hline
  obtain ⟨defs, htracks, hdefs⟩ := h
  rcases htracks.symbols s.name s hlookup with ⟨hline, hrefs, hne⟩ | ⟨hline, hrefs, hmem⟩
  · refine .inl ⟨hline, hrefs, ?_, fun hname => hdefined hname hline⟩
    by_contra hnot
    refine hne (hrefs.trans (List.reverse_eq_nil_iff.mpr (mentions_eq_nil_iff.mpr ?_)))
    exact fun e he hident => hnot ⟨e, he, hident⟩
  · exact .inr ⟨hline, hrefs, (hdefs _).mp (List.mem_map_of_mem hmem)⟩

theorem Remembers.codeInvariant (h : Remembers as c) (hallocated : c.size ≤ c.allocated) :
    CodeInvariant as c := by
  refine ⟨hallocated, h.size, ?_, fun name => ?_, fun s hs hline => ?_, fun s hs hline => ?_⟩
  · exact List.pairwise_map.mpr (c.symbolTable.ascending.imp fun hlt => hlt.ne)
  · constructor
    · rintro ⟨s, hs, rfl, hline⟩
      rcases h.symbol hs with ⟨-, -, hname⟩ | ⟨hdefined, -⟩
      · exact hname
      · exact absurd hline hdefined
    · intro ⟨hreferenced, hundefined⟩
      obtain ⟨s, hlookup⟩ := h.lookup_of_referenced hreferenced
      obtain ⟨hs, rfl⟩ := Table.find?_eq_some_iff.mp hlookup
      rcases h.symbol hs with ⟨hline, -⟩ | ⟨-, -, hdefined⟩
      · exact ⟨s, hs, rfl, hline⟩
      · exact absurd hdefined hundefined
  · rcases h.symbol hs with ⟨-, hrefs, -⟩ | ⟨hdefined, -⟩
    · refine ⟨hrefs, fun ref href => ?_⟩
      rw [hrefs, List.mem_reverse] at href
      obtain ⟨e, he, -⟩ := mem_mentions_offset.mp (List.mem_map_of_mem href)
      rw [h.size]
      exact (List.getElem?_eq_some_iff.mp he).1
    · exact absurd hline hdefined
  · rcases h.symbol hs with ⟨hpending, -⟩ | ⟨-, hrefs, -⟩
    · exact absurd hpending hline
    · exact hrefs

/-- The places that wait for a symbol are those of the instructions that name it, until it is
defined. -/
theorem Remembers.mem_pendingOn (h : Remembers as c) {i : Nat} :
    i ∈ pendingOn name c ↔
      ¬ Defined as name ∧ ∃ e, (emittedBy as)[i]? = some e ∧ e.instruction.ident? = some name := by
  cases hlookup : codeSymbolLookup c name with
  | none =>
    rw [pendingOn_none hlookup]
    refine iff_of_false List.not_mem_nil fun ⟨_, e, he, hident⟩ => ?_
    obtain ⟨s, hs⟩ := h.lookup_of_referenced ⟨e, List.mem_of_getElem? he, hident⟩
    exact nomatch hlookup.symm.trans hs
  | some s =>
    obtain ⟨hs, rfl⟩ := Table.find?_eq_some_iff.mp hlookup
    rcases h.symbol hs with ⟨hline, hrefs, -, hundefined⟩ | ⟨hline, -, hdefined⟩
    · rw [pendingOn_some hlookup hline, hrefs, List.map_reverse, List.mem_reverse,
        mem_mentions_offset]
      exact (and_iff_right hundefined).symm
    · rw [pendingOn_defined hlookup hline]
      exact iff_of_false List.not_mem_nil fun hpending => hpending.1 hdefined

theorem nodup_mentions (name : String) (emitted : List Emitted) :
    ((mentions name emitted).map SymbolRef.offset).Nodup := by
  rw [mentions, List.map_map]
  exact (List.nodup_zipIdx_map_snd emitted).sublist (List.filter_sublist.map _)

theorem Remembers.nodup_pendingOn (h : Remembers as c) : (pendingOn name c).Nodup := by
  cases hlookup : codeSymbolLookup c name with
  | none =>
    rw [pendingOn_none hlookup]
    exact List.nodup_nil
  | some s =>
    obtain ⟨hs, rfl⟩ := Table.find?_eq_some_iff.mp hlookup
    rcases h.symbol hs with ⟨hline, hrefs, -⟩ | ⟨hline, -⟩
    · rw [pendingOn_some hlookup hline, hrefs, List.map_reverse, List.nodup_reverse]
      exact nodup_mentions _ _
    · rw [pendingOn_defined hlookup hline]
      exact List.nodup_nil

end Remembers

/-! ## Forward references -/

/-- The action that emitted a word -/
theorem emittedBy_getElem? {as : List Action} {i : Nat} {e : Emitted} :
    (emittedBy as)[i]? = some e ↔ ∃ before a after, as = before ++ a :: after ∧
      (emittedBy before).length = i ∧ a.emitted = some e := by
  constructor
  · intro h
    induction as using List.reverseRecOn with
    | nil => cases h
    | append_singleton as a ih =>
      rw [emittedBy_append, emittedBy_singleton] at h
      by_cases hi : i < (emittedBy as).length
      · rw [List.getElem?_append_left hi] at h
        obtain ⟨before, a', after, rfl, hlength, ha⟩ := ih h
        exact ⟨before, a', after ++ [a], by rw [List.append_assoc, List.cons_append], hlength, ha⟩
      · rw [List.getElem?_append_right (Nat.le_of_not_lt hi)] at h
        cases ha : a.emitted with
        | none =>
          rw [ha] at h
          cases h
        | some e' =>
          rw [ha, Option.toList_some, List.getElem?_singleton] at h
          split at h
          next hlast =>
            cases h
            exact ⟨as, a, [], rfl, by omega, ha⟩
          · cases h
  · rintro ⟨before, a, after, rfl, rfl, ha⟩
    rw [emittedBy_append, List.getElem?_append_right (Nat.le_refl _), Nat.sub_self,
      ← List.singleton_append, emittedBy_append, emittedBy_singleton, ha]
    rfl

section ForwardReference

variable {as : List Action} {i : Nat} {name : String}

theorem ForwardReference.emitted (h : ForwardReference as i name) :
    ∃ e, (emittedBy as)[i]? = some e ∧ e.instruction.ident? = some name := by
  obtain ⟨before, a, after, has, hi, ⟨e, he, hident⟩, -⟩ := h
  exact ⟨e, emittedBy_getElem?.mpr ⟨before, a, after, has, hi, he⟩, hident⟩

/-- A word is a forward reference to one symbol. -/
theorem ForwardReference.unique {name' : String} (h : ForwardReference as i name)
    (h' : ForwardReference as i name') : name = name' := by
  obtain ⟨e, he, hident⟩ := h.emitted
  obtain ⟨e', he', hident'⟩ := h'.emitted
  cases he.symm.trans he'
  exact Option.some.inj (hident.symm.trans hident')

/-- Until the symbol is defined, all references are forward ones. -/
theorem forwardReference_of_not_defined (hname : ¬ Defined as name)
    (h : ∃ e, (emittedBy as)[i]? = some e ∧ e.instruction.ident? = some name) :
    ForwardReference as i name := by
  obtain ⟨e, he, hident⟩ := h
  obtain ⟨before, a, after, rfl, hi, ha⟩ := emittedBy_getElem?.mp he
  exact ⟨before, a, after, rfl, hi, ⟨e, ha, hident⟩, fun h => hname (defined_append.mpr (.inl h))⟩

theorem ForwardReference.append (h : ForwardReference as i name) (a : Action) :
    ForwardReference (as ++ [a]) i name := by
  obtain ⟨before, a', after, rfl, h⟩ := h
  exact ⟨before, a', after ++ [a], by rw [List.append_assoc, List.cons_append], h⟩

/-- A forward reference in a longer run is one in the run before, or it is the last action, which
comes before any label of the name. -/
theorem forwardReference_append {a : Action} (h : ForwardReference (as ++ [a]) i name) :
    ForwardReference as i name ∨ (¬ Defined as name ∧ a.kind ≠ .label name) := by
  obtain ⟨before, a', after, has, hi, ⟨e, he, hident⟩, hnot⟩ := h
  rcases List.eq_nil_or_concat after with rfl | ⟨after', b, rfl⟩
  · obtain ⟨rfl, hlast⟩ := List.append_inj' has rfl
    cases hlast
    refine .inr ⟨hnot, fun hkind => ?_⟩
    rw [Action.emitted, hkind] at he
    cases he
  · rw [List.concat_eq_append, ← List.cons_append, ← List.append_assoc] at has
    obtain ⟨rfl, -⟩ := List.append_inj' has rfl
    exact .inl ⟨before, a', after', rfl, hi, ⟨e, he, hident⟩, hnot⟩

end ForwardReference

theorem mem_rewrites {a : Action} {c : Code} {i : Nat} :
    i ∈ a.rewrites c ↔ ∃ name, a.kind = .label name ∧ i ∈ pendingOn name c := by
  rw [Action.rewrites]
  split
  next ident hkind =>
    rw [hkind]
    simp only [ActionKind.label.injEq, exists_eq_left']
  next hkind =>
    rw [hkind]
    exact iff_of_false List.not_mem_nil nofun

theorem Remembers.nodup_rewrites {as : List Action} {c : Code} (h : Remembers as c) (a : Action) :
    (a.rewrites c).Nodup := by
  rw [Action.rewrites]
  split
  · exact h.nodup_pendingOn
  · exact List.nodup_nil

/-- What an action rewrites was a forward reference to a symbol that was not defined. -/
theorem RewritesOnce.run {as : List Action} {st : Session} {rewritten : List Nat}
    (h : RewritesOnce as rewritten) (hremembers : Remembers as st.code) (a : Action) :
    RewritesOnce (as ++ [a]) (rewritten ++ a.rewrites st.code) := by
  have hpending : ∀ i, i ∈ a.rewrites st.code →
      ∃ name, a.kind = .label name ∧ ¬ Defined as name ∧ ForwardReference as i name := by
    intro i hi
    obtain ⟨name, hkind, hi⟩ := mem_rewrites.mp hi
    obtain ⟨hnot, hnames⟩ := hremembers.mem_pendingOn.mp hi
    exact ⟨name, hkind, hnot, forwardReference_of_not_defined hnot hnames⟩
  refine ⟨List.nodup_append.mpr ⟨h.once, hremembers.nodup_rewrites a, ?_⟩, fun i => ?_⟩
  · rintro i hi _ hi' rfl
    obtain ⟨name, hreference, hdefined⟩ := (h.which i).mp hi
    obtain ⟨name', -, hnot, hreference'⟩ := hpending i hi'
    exact hnot (hreference.unique hreference' ▸ hdefined)
  · rw [List.mem_append, h.which i]
    constructor
    · rintro (⟨name, hreference, hdefined⟩ | hi)
      · exact ⟨name, hreference.append a, defined_append.mpr (.inl hdefined)⟩
      · obtain ⟨name, hkind, -, hreference⟩ := hpending i hi
        exact ⟨name, hreference.append a, defined_append.mpr (.inr (defined_singleton.mpr hkind))⟩
    · intro ⟨name, hreference, hdefined⟩
      rw [defined_append, defined_singleton] at hdefined
      by_cases hbefore : Defined as name
      · rcases forwardReference_append hreference with hreference | ⟨hnot, -⟩
        · exact .inl ⟨name, hreference, hbefore⟩
        · exact absurd hbefore hnot
      · have hkind := hdefined.resolve_left hbefore
        rcases forwardReference_append hreference with hreference | ⟨-, hnot⟩
        · refine .inr (mem_rewrites.mpr ⟨name, hkind, hremembers.mem_pendingOn.mpr ⟨hbefore, ?_⟩⟩)
          exact hreference.emitted
        · exact absurd hkind hnot

/-! ## Runs -/

theorem runActions_append (inputFile : String) (as : List Action) (a : Action) :
    runActions inputFile (as ++ [a]) = a.run (runActions inputFile as) :=
  runFrom_append _ as [a]

theorem remembers_runActions (inputFile : String) (as : List Action) :
    Remembers as (runActions inputFile as).code := by
  induction as using List.reverseRecOn with
  | nil => exact remembers_alloc
  | append_singleton as a ih =>
    rw [runActions_append]
    exact remembers_run ih a

theorem allocated_runActions (inputFile : String) (as : List Action) :
    (runActions inputFile as).code.size ≤ (runActions inputFile as).code.allocated := by
  induction as using List.reverseRecOn with
  | nil => exact Nat.le_refl 0
  | append_singleton as a ih =>
    rw [runActions_append]
    exact allocated_run a ih

theorem rewritesOnce_runActions (inputFile : String) (as : List Action) :
    RewritesOnce as (rewritesFrom ⟨parserAlloc inputFile, codeAlloc⟩ as) := by
  induction as using List.reverseRecOn with
  | nil =>
    refine ⟨List.nodup_nil, fun i => iff_of_false List.not_mem_nil ?_⟩
    intro ⟨_, _, a, ha, _⟩
    cases ha
  | append_singleton as a ih =>
    rw [rewritesFrom_append]
    exact ih.run (remembers_runActions inputFile as) a

theorem keepsDefined_runFrom (st : Session) (as : List Action) :
    KeepsDefined st.code (runFrom st as).code := by
  induction as generalizing st with
  | nil => exact fun _ hs _ => hs
  | cons a as ih => exact fun s hs hline => ih (a.run st) s (keepsDefined_run a st s hs hline) hline

/-- After every action the state of the assembler is as its actions say. An action keeps the words
before it, but for the low halves of those that wait for the symbol it defines, and each of these is
rewritten once in the whole run. A symbol that is defined stays as it is. -/
theorem assembler_invariant (inputFile : String) (as : List Action) :
    CodeInvariant as (runActions inputFile as).code ∧
      (∀ a, KeepsWords a (runActions inputFile as)) ∧
      RewritesOnce as (rewritesFrom ⟨parserAlloc inputFile, codeAlloc⟩ as) ∧
      ∀ bs, KeepsDefined (runActions inputFile as).code (runActions inputFile (as ++ bs)).code := by
  refine ⟨?_, fun a => keepsWords a _, rewritesOnce_runActions inputFile as, fun bs => ?_⟩
  · exact (remembers_runActions inputFile as).codeInvariant (allocated_runActions inputFile as)
  · rw [runActions, runActions, runFrom_append]
    exact keepsDefined_runFrom _ bs

/-! ## The actions of the generated parser -/

/-- The code that an action leaves depends on the code before it and the line number. -/
theorem labelAction_code_congr {st st' : Session} (hcode : st.code = st'.code)
    (hline : st.parser.lineNum = st'.parser.lineNum) (ident : String) :
    (labelAction ident st).2.code = (labelAction ident st').2.code := by
  unfold labelAction
  rw [hcode, hline]
  cases codeSymbolLookup st'.code ident with
  | none => rfl
  | some s =>
    dsimp only
    split <;> rfl

theorem instructionAction_code_congr {st st' : Session} (hcode : st.code = st'.code)
    (hline : st.parser.lineNum = st'.parser.lineNum) (ins : Instruction) :
    (instructionAction ins st).code = (instructionAction ins st').code := by
  cases hi : ins.ident? with
  | none => rw [instructionAction_none hi st 0, instructionAction_none hi st' 0, hcode]
  | some name => rw [instructionAction_some hi, instructionAction_some hi, hcode, hline]

/-- Lines are counted from 1, and the code is what some actions have made of it. -/
structure RunsActions (inputFile : String) (b : ParseState) : Prop where
  yylineno : 0 < b.yylineno
  code : ∃ as, b.session.code = (runActions inputFile as).code

theorem code_reportSyntaxError (b : ParseState) : (reportSyntaxError b).code = b.session.code := by
  unfold reportSyntaxError
  split <;> rfl

theorem code_syntaxError (t : Token) (b : ParseState) :
    (syntaxError t b).session.code = b.session.code ∧ (syntaxError t b).yylineno = b.yylineno := by
  cases t <;> exact ⟨code_reportSyntaxError b, rfl⟩

theorem code_parseEnd (b : ParseState) : (parseEnd b).code = b.session.code := by
  unfold parseEnd
  split
  · rfl
  · rfl
  · rfl
  · exact code_reportSyntaxError b

theorem runsActions_feed {inputFile : String} {b : ParseState} (h : RunsActions inputFile b)
    (hline : b.session.parser.lineNum = b.yylineno) (t : Token) :
    RunsActions inputFile (feed t b) := by
  obtain ⟨hpos, as, hcode⟩ := h
  unfold feed
  cases hshift : shift b.stage t with
  | none =>
    obtain ⟨hcode', hline'⟩ := code_syntaxError t b
    exact ⟨hline'.symm ▸ hpos, as, hcode'.trans hcode⟩
  | some next =>
    obtain ⟨stage, reduction⟩ := next
    cases reduction with
    | none => exact ⟨hpos, as, hcode⟩
    | label name =>
      have hrun : (labelAction name b.session).2.code =
          (runActions inputFile (as ++ [⟨b.yylineno, .label name, hpos⟩])).code := by
        rw [runActions_append]
        exact @labelAction_code_congr b.session (atLine b.yylineno (runActions inputFile as)) hcode
          hline name
      dsimp only
      split
      next session haction => exact ⟨hpos, _, (haction ▸ hrun :)⟩
      next session haction => exact ⟨hpos, _, (haction ▸ hrun :)⟩
    | instruction stmt =>
      refine ⟨hpos, as ++ [⟨b.yylineno, .instruction stmt.instruction, hpos⟩], ?_⟩
      rw [runActions_append]
      exact @instructionAction_code_congr b.session (atLine b.yylineno (runActions inputFile as)) hcode
        hline stmt.instruction

theorem runsActions_lexStep {inputFile : String} {b : ParseState} (h : RunsActions inputFile b)
    (x : Lexed) : RunsActions inputFile (lexStep b x) := by
  have hmove : ∀ n, 0 < n → RunsActions inputFile (b.moveTo n) := fun n hn => ⟨hn, h.code⟩
  have hpos : 0 < if x = .token .newline then b.yylineno + 1 else b.yylineno := by
    split
    · exact Nat.succ_pos _
    · exact h.yylineno
  cases x with
  | skip => exact hmove _ hpos
  | unexpected => exact ⟨hpos, h.code⟩
  | token t => exact runsActions_feed (hmove _ hpos) rfl t

/-- What the parser makes of a source text is what some actions make, on lines that are counted
from 1. -/
theorem rbmlParse_runActions (inputFile : String) (text : List Char) :
    ∃ as, (rbmlParse text ⟨parserAlloc inputFile, codeAlloc⟩).code =
      (runActions inputFile as).code := by
  have hfold : ∀ (xs : List Lexed) (b : ParseState), RunsActions inputFile b →
      RunsActions inputFile (xs.foldl lexStep b) := by
    intro xs
    induction xs with
    | nil => exact fun _ h => h
    | cons x xs ih => exact fun b h => ih (lexStep b x) (runsActions_lexStep h x)
  obtain ⟨-, as, hcode⟩ := hfold (lex text) ⟨1, .start, 0, ⟨parserAlloc inputFile, codeAlloc⟩⟩
    ⟨Nat.one_pos, [], rfl⟩
  exact ⟨as, (code_parseEnd _).trans hcode⟩

/-- Whatever the source text is, its parse leaves the code as the actions that have run say. -/
theorem rbmlParse_codeInvariant (inputFile : String) (text : List Char) :
    ∃ as, CodeInvariant as (rbmlParse text ⟨parserAlloc inputFile, codeAlloc⟩).code := by
  obtain ⟨as, hcode⟩ := rbmlParse_runActions inputFile text
  refine ⟨as, ?_⟩
  rw [hcode]
  exact (remembers_runActions inputFile as).codeInvariant (allocated_runActions inputFile as)

end Rbml.Asm
