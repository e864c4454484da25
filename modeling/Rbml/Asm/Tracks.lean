import Rbml.Asm.Actions
import Mathlib.Data.List.Basic

/-!
# What the code record remembers

The one-pass assembler keeps, in the symbol table and in the words already emitted, everything a
later line needs. `Tracks defs emitted c` says what that is: `defs` are the definitions reduced so
far and `emitted` the instructions reduced so far, with their lines.

The carrying fact is `text`. A word that names a symbol holds the offset that the symbol's own
record has at that moment, provisional or final: a symbol gets its provisional offset when it is
first named and keeps it until it is defined, and the definition patches exactly the words that
name it. So the text is at every moment the encoding of the instructions under the current table.

Each action keeps the invariant (`add`, `define`, `emit`, `refer`), with one lemma for each way it
changes the record.
-/

namespace Rbml.Asm

open Rbml.Lib

/-- A definition: the symbol, the line of its label, and the number of words emitted before it -/
structure Definition where
  name : String
  lineNum : Nat
  offset : Nat
  deriving DecidableEq, Repr

/-- An emitted instruction, with its line -/
structure Emitted where
  lineNum : Nat
  instruction : Instruction
  deriving DecidableEq, Repr

/-- The places that name a symbol: line and position of each instruction that does, in order -/
def mentions (name : String) (emitted : List Emitted) : List SymbolRef :=
  (emitted.zipIdx.filter fun e => e.1.instruction.ident? = some name).map fun e =>
    ⟨e.1.lineNum, e.2⟩

/-- The address an instruction is encoded with under the current table -/
def Code.operand (c : Code) (ins : Instruction) : Word :=
  match ins.ident?.bind (codeSymbolLookup c) with
  | none => 0
  | some s => s.address

/-- A symbol record is a waiting one, with every place that names it, or a settled one. -/
def SymbolTracks (defs : List Definition) (emitted : List Emitted) (s : Symbol) : Prop :=
  (s.lineNum = 0 ∧ s.symbolRefs = (mentions s.name emitted).reverse ∧ s.symbolRefs ≠ []) ∨
  (s.lineNum ≠ 0 ∧ s.symbolRefs = [] ∧ ⟨s.name, s.lineNum, s.offset⟩ ∈ defs)

/-- The record `c` after the definitions `defs` and the instructions `emitted` -/
structure Tracks (defs : List Definition) (emitted : List Emitted) (c : Code) : Prop where
  text : c.text = emitted.map fun e => e.instruction.encode (c.operand e.instruction)
  defined : ∀ d ∈ defs, d.lineNum ≠ 0 ∧
    ∃ s, codeSymbolLookup c d.name = some s ∧ s.lineNum = d.lineNum ∧ s.offset = d.offset
  named : ∀ e ∈ emitted, ∀ name, e.instruction.ident? = some name →
    (codeSymbolLookup c name).isSome
  symbols : ∀ name s, codeSymbolLookup c name = some s → SymbolTracks defs emitted s

/-! ## Mentions -/

theorem mentions_append (name : String) (emitted : List Emitted) (e : Emitted) :
    mentions name (emitted ++ [e]) =
      mentions name emitted ++
        if e.instruction.ident? = some name then [⟨e.lineNum, emitted.length⟩] else [] := by
  simp only [mentions, List.zipIdx_append, List.filter_append, List.map_append, Nat.zero_add,
    List.zipIdx_singleton]
  congr 1
  by_cases h : e.instruction.ident? = some name
  · simp only [List.filter_cons, h, decide_true, if_true, List.filter_nil, List.map_cons,
      List.map_nil]
  · simp only [List.filter_cons, h, decide_false, Bool.false_eq_true, if_false, List.filter_nil,
      List.map_nil]

theorem mem_mentions_offset {name : String} {emitted : List Emitted} {i : Nat} :
    i ∈ (mentions name emitted).map SymbolRef.offset ↔
      ∃ e, emitted[i]? = some e ∧ e.instruction.ident? = some name := by
  simp only [mentions, List.map_map, List.mem_map, List.mem_filter, decide_eq_true_eq,
    Function.comp_apply]
  constructor
  · rintro ⟨⟨e, j⟩, ⟨hmem, hname⟩, rfl⟩
    exact ⟨e, List.mem_zipIdx_iff_getElem?.mp hmem, hname⟩
  · rintro ⟨e, he, hname⟩
    exact ⟨(e, i), ⟨List.mem_zipIdx_iff_getElem?.mpr he, hname⟩, rfl⟩

theorem mentions_eq_nil_iff {name : String} {emitted : List Emitted} :
    mentions name emitted = [] ↔ ∀ e ∈ emitted, e.instruction.ident? ≠ some name := by
  rw [← List.map_eq_nil_iff (f := SymbolRef.offset), List.eq_nil_iff_forall_not_mem]
  simp only [mem_mentions_offset]
  constructor
  · intro h e he hname
    obtain ⟨i, hi⟩ := List.mem_iff_getElem?.mp he
    exact h i ⟨e, hi, hname⟩
  · rintro h i ⟨e, he, hname⟩
    exact h e (List.mem_of_getElem? he) hname

/-! ## Operands -/

theorem Code.operand_none {c : Code} {ins : Instruction} (h : ins.ident? = none) :
    c.operand ins = 0 := by
  simp only [Code.operand, h, Option.bind_none]

theorem Code.operand_some {c : Code} {ins : Instruction} {name : String} {s : Symbol}
    (h : ins.ident? = some name) (hs : codeSymbolLookup c name = some s) :
    c.operand ins = s.address := by
  simp only [Code.operand, h, Option.bind_some, hs]

/-- Records that agree on the offset of the named symbol give one operand. -/
theorem Code.operand_congr {c c' : Code} {ins : Instruction}
    (h : ∀ name, ins.ident? = some name →
      (codeSymbolLookup c name).map Symbol.offset = (codeSymbolLookup c' name).map Symbol.offset) :
    c.operand ins = c'.operand ins := by
  cases hi : ins.ident? with
  | none => rw [Code.operand_none hi, Code.operand_none hi]
  | some name =>
    have hn := h name hi
    simp only [Code.operand, hi, Option.bind_some]
    cases hc : codeSymbolLookup c name with
    | none =>
      cases hc' : codeSymbolLookup c' name with
      | none => rfl
      | some s' => simp only [hc, hc', Option.map_none, Option.map_some, reduceCtorEq] at hn
    | some s =>
      cases hc' : codeSymbolLookup c' name with
      | none => simp only [hc, hc', Option.map_none, Option.map_some, reduceCtorEq] at hn
      | some s' =>
        simp only [hc, hc', Option.map_some, Option.some.injEq] at hn
        simp only [Symbol.address, hn]

theorem Code.encode_congr {c c' : Code} {ins : Instruction}
    (h : ∀ name, ins.ident? = some name →
      (codeSymbolLookup c name).map Symbol.offset = (codeSymbolLookup c' name).map Symbol.offset) :
    ins.encode (c.operand ins) = ins.encode (c'.operand ins) := by
  rw [Code.operand_congr h]

theorem codeEmit_operand (c : Code) (w : Word) (ins : Instruction) :
    (codeEmit c w).operand ins = c.operand ins := rfl

/-! ## The steps -/

section Steps

variable {defs : List Definition} {emitted : List Emitted} {c : Code}

theorem SymbolTracks.mono {s : Symbol} {d : Definition} (h : SymbolTracks defs emitted s) :
    SymbolTracks (defs ++ [d]) emitted s := by
  rcases h with h | ⟨hline, hrefs, hmem⟩
  · exact .inl h
  · exact .inr ⟨hline, hrefs, List.mem_append_left _ hmem⟩

/-- An instruction that does not name the symbol leaves its record true. -/
theorem SymbolTracks.emit {s : Symbol} {e : Emitted} (h : SymbolTracks defs emitted s)
    (he : e.instruction.ident? ≠ some s.name) : SymbolTracks defs (emitted ++ [e]) s := by
  rcases h with ⟨hline, hrefs, hne⟩ | h
  · refine .inl ⟨hline, ?_, hne⟩
    rw [mentions_append, if_neg he, List.append_nil, hrefs]
  · exact .inr h

/-- A settled record stays true whatever is emitted. -/
theorem SymbolTracks.emit_settled {s : Symbol} (h : SymbolTracks defs emitted s)
    (hs : s.lineNum ≠ 0) (emitted' : List Emitted) : SymbolTracks defs emitted' s := by
  rcases h with ⟨hline, _⟩ | h
  · exact absurd hline hs
  · exact .inr h

theorem tracks_alloc : Tracks [] [] codeAlloc where
  text := rfl
  defined := fun _ h => absurd h List.not_mem_nil
  named := fun _ h => absurd h List.not_mem_nil
  symbols := fun _ _ h => nomatch h

theorem Tracks.size_eq (h : Tracks defs emitted c) : c.size = emitted.length := by
  rw [Code.size, h.text, List.length_map]

/-- A name the table lacks is named by no instruction. -/
theorem Tracks.mentions_of_lookup_none (h : Tracks defs emitted c) {name : String}
    (hn : codeSymbolLookup c name = none) : mentions name emitted = [] := by
  refine mentions_eq_nil_iff.mpr fun e he hname => ?_
  have hsome := h.named e he name hname
  rw [hn] at hsome
  cases hsome

/-- The label of a name not seen before: `code_symbol_add` with the line of the label -/
theorem Tracks.add (h : Tracks defs emitted c) {name : String} {lineNum : Nat}
    (hn : codeSymbolLookup c name = none) (hline : lineNum ≠ 0) :
    Tracks (defs ++ [⟨name, lineNum, c.size⟩]) emitted (codeSymbolAdd c name lineNum).1 := by
  have hlookup := codeSymbolAdd_lookup lineNum hn
  have hother : ∀ name', name' ≠ name → codeSymbolLookup (codeSymbolAdd c name lineNum).1 name' =
      codeSymbolLookup c name' := fun name' hne => by rw [hlookup, if_neg hne]
  -- every name that occurs already has a record, so it is not the new one
  have hne : ∀ {name' s}, codeSymbolLookup c name' = some s → name' ≠ name := by
    rintro name' s hs rfl
    rw [hn] at hs
    cases hs
  refine ⟨?_, ?_, ?_, ?_⟩
  · rw [codeSymbolAdd_text, h.text]
    refine List.map_congr_left fun e he => Code.encode_congr fun name' hname' => ?_
    obtain ⟨s, hs⟩ := Option.isSome_iff_exists.mp (h.named e he name' hname')
    rw [hother name' (hne hs)]
  · intro d hd
    rcases List.mem_append.mp hd with hd | hd
    · obtain ⟨hd0, s, hs, hsd⟩ := h.defined d hd
      exact ⟨hd0, s, by rw [hother _ (hne hs), hs], hsd⟩
    · rw [List.mem_singleton] at hd
      subst hd
      exact ⟨hline, _, by rw [hlookup, if_pos rfl], rfl, rfl⟩
  · intro e he name' hname'
    obtain ⟨s, hs⟩ := Option.isSome_iff_exists.mp (h.named e he name' hname')
    rw [hother _ (hne hs), hs]
    rfl
  · intro name' s hs
    rw [hlookup] at hs
    split at hs
    · cases hs
      exact .inr ⟨hline, rfl, List.mem_append_right _ (List.mem_singleton_self _)⟩
    · exact (h.symbols name' s hs).mono

/-- The places that wait for a symbol are those of the instructions that name it. -/
theorem Tracks.mem_symbolRefs (h : Tracks defs emitted c) {s : Symbol}
    (hs : codeSymbolLookup c s.name = some s) (hpending : s.lineNum = 0) {i : Nat} :
    i ∈ s.symbolRefs.map SymbolRef.offset ↔
      ∃ e, emitted[i]? = some e ∧ e.instruction.ident? = some s.name := by
  rcases h.symbols s.name s hs with ⟨_, hrefs, _⟩ | ⟨hdef, _⟩
  · rw [hrefs, List.map_reverse, List.mem_reverse]
    exact mem_mentions_offset
  · exact absurd hpending hdef

/-- The patched words are exactly the ones that name the symbol. -/
theorem Tracks.text_define (h : Tracks defs emitted c) {s : Symbol}
    (hs : codeSymbolLookup c s.name = some s) (hpending : s.lineNum = 0) (lineNum : Nat) :
    (codeSymbolDefine c s lineNum).text = emitted.map fun e =>
      e.instruction.encode ((codeSymbolDefine c s lineNum).operand e.instruction) := by
  have hlookup := codeSymbolDefine_lookup lineNum hs
  rw [codeSymbolDefine_text]
  refine List.ext_getElem? fun i => ?_
  have htext : c.text[i]? = emitted[i]?.map fun e =>
      e.instruction.encode (c.operand e.instruction) := by
    rw [h.text, List.getElem?_map]
  rw [List.getElem?_map]
  cases he : emitted[i]? with
  | none =>
    rw [he] at htext
    rw [patchRefs_getElem?_of_not_mem _ fun hi => ?_, htext]
    · rfl
    · obtain ⟨e, he', _⟩ := (h.mem_symbolRefs hs hpending).mp hi
      exact nomatch he.symm.trans he'
  | some e =>
    rw [he, Option.map_some] at htext
    by_cases hname : e.instruction.ident? = some s.name
    · -- a word that waits for this symbol
      obtain ⟨op, a1, henc⟩ := encode_of_ident? hname
      have hnew : (codeSymbolDefine c s lineNum).operand e.instruction =
          BitVec.ofNat 32 c.size :=
        Code.operand_some hname ((hlookup s.name).trans (if_pos rfl))
      have hwaits := (h.mem_symbolRefs hs hpending).mpr ⟨e, he, hname⟩
      rw [henc] at htext
      rw [patchRefs_getElem?_of_mem c.size hwaits htext, Option.map_some, henc, hnew]
    · rw [patchRefs_getElem?_of_not_mem _ fun hi => ?_, htext, Option.map_some]
      · refine congrArg some (Code.encode_congr fun name' hname' => ?_)
        have hne : name' ≠ s.name := fun heq => hname (heq ▸ hname')
        rw [hlookup, if_neg hne]
      · obtain ⟨e', he', hname'⟩ := (h.mem_symbolRefs hs hpending).mp hi
        cases he.symm.trans he'
        exact hname hname'

/-- The label of a name that was referenced before: `code_symbol_define` -/
theorem Tracks.define (h : Tracks defs emitted c) {s : Symbol} {lineNum : Nat}
    (hs : codeSymbolLookup c s.name = some s) (hpending : s.lineNum = 0) (hline : lineNum ≠ 0) :
    Tracks (defs ++ [⟨s.name, lineNum, c.size⟩]) emitted (codeSymbolDefine c s lineNum) := by
  have hlookup := codeSymbolDefine_lookup lineNum hs
  refine ⟨h.text_define hs hpending lineNum, ?_, ?_, ?_⟩
  · intro d hd
    rcases List.mem_append.mp hd with hd | hd
    · obtain ⟨hd0, s', hs', hsd⟩ := h.defined d hd
      have hne : d.name ≠ s.name := by
        intro heq
        rw [heq, hs] at hs'
        cases hs'
        exact hd0 (hsd.1 ▸ hpending)
      exact ⟨hd0, s', by rw [hlookup, if_neg hne, hs'], hsd⟩
    · rw [List.mem_singleton] at hd
      subst hd
      exact ⟨hline, _, (hlookup s.name).trans (if_pos rfl), rfl, rfl⟩
  · intro e he name' hname'
    rw [hlookup]
    split
    · rfl
    · exact h.named e he name' hname'
  · intro name' s' hs'
    rw [hlookup] at hs'
    split at hs'
    · cases hs'
      exact .inr ⟨hline, rfl, List.mem_append_right _ (List.mem_singleton_self _)⟩
    · exact (h.symbols name' s' hs').mono

/-- An instruction without a symbol -/
theorem Tracks.emit (h : Tracks defs emitted c) {e : Emitted}
    (hnone : e.instruction.ident? = none) :
    Tracks defs (emitted ++ [e]) (codeEmit c (e.instruction.encode 0)) := by
  refine ⟨?_, h.defined, ?_, ?_⟩
  · simp only [codeEmit_text, h.text, List.map_append, List.map_cons, List.map_nil,
      codeEmit_operand, Code.operand_none hnone]
  · intro e' he' name hname
    rcases List.mem_append.mp he' with he' | he'
    · exact h.named e' he' name hname
    · rw [List.mem_singleton] at he'
      subst he'
      exact nomatch hnone.symm.trans hname
  · intro name s hs
    exact (h.symbols name s hs).emit fun hname => nomatch hnone.symm.trans hname

/-- An instruction whose symbol has a record that, once referenced, is true of the longer list -/
theorem Tracks.emit_symbol {c' : Code} (h : Tracks defs emitted c) {e : Emitted} {name : String}
    {s : Symbol} (hname : e.instruction.ident? = some name) (htext : c'.text = c.text)
    (hsname : s.name = name)
    (hlookup : ∀ name', codeSymbolLookup c' name' =
      if name' = name then some s else codeSymbolLookup c name')
    (hoffset : ∀ s₀, codeSymbolLookup c name = some s₀ →
      s.offset = s₀.offset ∧ s.lineNum = s₀.lineNum)
    (hs : SymbolTracks defs (emitted ++ [e]) s) :
    Tracks defs (emitted ++ [e]) (codeEmit c' (e.instruction.encode s.address)) := by
  have hself : codeSymbolLookup c' name = some s := (hlookup name).trans (if_pos rfl)
  refine ⟨?_, ?_, ?_, ?_⟩
  · simp only [codeEmit_text, htext, h.text, List.map_append, List.map_cons, List.map_nil,
      codeEmit_operand, Code.operand_some hname hself]
    congr 1
    refine List.map_congr_left fun e' he' => Code.encode_congr fun name' hname' => ?_
    rw [hlookup]
    split
    next heq =>
      subst heq
      obtain ⟨s₀, hs₀⟩ := Option.isSome_iff_exists.mp (h.named e' he' name' hname')
      simp only [hs₀, Option.map_some, (hoffset s₀ hs₀).1]
    next => rfl
  · intro d hd
    obtain ⟨hd0, s₀, hs₀, hsd⟩ := h.defined d hd
    refine ⟨hd0, ?_⟩
    simp only [codeEmit_lookup, hlookup]
    by_cases heq : d.name = name
    · rw [heq] at hs₀
      obtain ⟨hoff, hln⟩ := hoffset s₀ hs₀
      exact ⟨s, if_pos heq, hln.trans hsd.1, hoff.trans hsd.2⟩
    · exact ⟨s₀, (if_neg heq).trans hs₀, hsd⟩
  · intro e' he' name' hname'
    rw [codeEmit_lookup, hlookup]
    split
    · rfl
    next hne =>
      rcases List.mem_append.mp he' with he' | he'
      · exact h.named e' he' name' hname'
      · rw [List.mem_singleton] at he'
        subst he'
        exact absurd (Option.some.inj (hname'.symm.trans hname)) hne
  · intro name' s' hs'
    rw [codeEmit_lookup, hlookup] at hs'
    split at hs'
    · cases hs'
      exact hs
    next hne =>
      have hs'name : s'.name = name' := name_of_lookup hs'
      refine (h.symbols name' s' hs').emit fun heq => hne ?_
      rw [← hs'name]
      exact Option.some.inj (heq.symm.trans hname)

/-- An instruction with a symbol: `code_symbol_ref`, then `code_emit` under the offset of the
record it returns -/
theorem Tracks.refer (h : Tracks defs emitted c) {e : Emitted} {name : String}
    (hname : e.instruction.ident? = some name) :
    Tracks defs (emitted ++ [e])
      (codeEmit (codeSymbolRef c name e.lineNum).1
        (e.instruction.encode (codeSymbolRef c name e.lineNum).2.address)) := by
  have hmentions : mentions name (emitted ++ [e]) =
      mentions name emitted ++ [⟨e.lineNum, c.size⟩] := by
    rw [mentions_append, if_pos hname, h.size_eq]
  rcases codeSymbolRef_cases c name e.lineNum with ⟨hn, href⟩ | ⟨s, hs, hs0, href⟩ |
    ⟨s, hs, hs0, href⟩
  · -- the first time the name is seen
    have hadd := codeSymbolAdd_lookup 0 hn
    have haddRef := addRef_lookup (s := symbolAlloc name 0 c.size) e.lineNum
      ((hadd name).trans (if_pos rfl))
    rw [href]
    refine h.emit_symbol hname rfl rfl (fun name' => ?_) (fun s₀ hs₀ => ?_) ?_
    · rw [haddRef, hadd]
      simp only [symbolAlloc_name]
      split <;> rfl
    · exact nomatch hn.symm.trans hs₀
    · refine .inl ⟨rfl, ?_, List.cons_ne_nil _ _⟩
      show ([⟨e.lineNum, c.size⟩] : List SymbolRef) = (mentions name (emitted ++ [e])).reverse
      rw [hmentions, h.mentions_of_lookup_none hn]
      rfl
  · -- a name that waits for its definition
    have hsn : s.name = name := name_of_lookup hs
    subst hsn
    rw [href]
    refine h.emit_symbol hname rfl rfl (addRef_lookup e.lineNum hs) (fun s₀ hs₀ => ?_) ?_
    · cases hs.symm.trans hs₀
      exact ⟨rfl, rfl⟩
    · rcases h.symbols s.name s hs with ⟨_, hrefs, _⟩ | ⟨hne, _⟩
      · refine .inl ⟨hs0, ?_, List.cons_ne_nil _ _⟩
        show (⟨e.lineNum, c.size⟩ :: s.symbolRefs : List SymbolRef) =
          (mentions s.name (emitted ++ [e])).reverse
        rw [hmentions, List.reverse_append, hrefs]
        rfl
      · exact absurd hs0 hne
  · -- a defined name
    have hsn : s.name = name := name_of_lookup hs
    rw [href]
    refine h.emit_symbol hname rfl hsn (fun name' => ?_) (fun s₀ hs₀ => ?_)
      ((h.symbols name s hs).emit_settled hs0 _)
    · split
      next heq => rw [heq, hs]
      next => rfl
    · cases hs.symm.trans hs₀
      exact ⟨rfl, rfl⟩

end Steps

end Rbml.Asm
