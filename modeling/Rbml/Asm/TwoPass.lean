import Rbml.Asm.History

/-!
# One pass with backpatching is two passes

`twoPass` is the textbook assembler: the first pass (`address`) counts words to find where each
symbol is defined, the second encodes each instruction with the address of the symbol it names.
When the one-pass assembler reports no error its text is exactly that.

The proof is the run lemma read at the end of the input. Every line survives, since a lost line is
an error; every symbol is settled, since a waiting one has a pending reference and a pending
reference is an error; and a settled symbol holds the offset of its definition.
-/

namespace Rbml.Asm

open Rbml.Lib

/-- The address of the symbol an instruction names, and 0 when it names none -/
def symbolAddress (lines : List Line) (ins : Instruction) : Word :=
  match ins.ident?.bind (address lines) with
  | none => 0
  | some offset => BitVec.ofNat 32 offset

/-- The two-pass assembler -/
def twoPass (lines : List Line) : List Word :=
  (instructions lines).map fun ins => ins.encode (symbolAddress lines ins)

/-! ## The first pass -/

theorem address_split {pre : List Line} {l : Line} {name : String}
    (hpre : name ∉ labels pre) (hl : l.label = some name) (post : List Line) :
    address (pre ++ l :: post) name = some (instructions pre).length := by
  induction pre with
  | nil => rw [List.nil_append, address, if_pos hl]; rfl
  | cons l' pre ih =>
    have hne : l'.label ≠ some name := fun h => hpre (by simp [labels, h])
    have hrest : name ∉ labels pre := fun h => hpre (by
      simp only [labels, List.filterMap_cons]
      split
      · exact h
      · exact List.mem_cons_of_mem _ h)
    rw [List.cons_append, address, if_neg hne, ih hrest, Option.map_some]
    cases h : l'.instruction <;> simp [instructions, h]

theorem definition_split {lines : List Line} {d : Definition} (h : d ∈ definitions lines) :
    ∃ pre l post, lines = pre ++ l :: post ∧ l.label = some d.name ∧
      d.offset = (instructions pre).length := by
  induction lines using List.reverseRecOn with
  | nil => cases h
  | append_singleton lines l ih =>
    rw [definitions_append] at h
    rcases List.mem_append.mp h with h | h
    · obtain ⟨pre, l', post, rfl, hl', hoff⟩ := ih h
      exact ⟨pre, l', post ++ [l], by rw [List.append_assoc, List.cons_append], hl', hoff⟩
    · obtain ⟨name, hname, hd⟩ := Option.map_eq_some_iff.mp (Option.mem_toList.mp h)
      subst hd
      exact ⟨lines, l, [], rfl, hname, rfl⟩

/-- With distinct labels the first pass finds every definition. -/
theorem address_of_definition {lines : List Line} (hnodup : (labels lines).Nodup)
    {d : Definition} (h : d ∈ definitions lines) : address lines d.name = some d.offset := by
  obtain ⟨pre, l, post, rfl, hl, hoff⟩ := definition_split h
  have hpre : d.name ∉ labels pre := by
    intro hmem
    rw [labels, List.filterMap_append] at hnodup
    obtain ⟨_, _, hdisjoint⟩ := List.nodup_append.mp hnodup
    refine hdisjoint d.name hmem d.name ?_ rfl
    simp only [List.filterMap_cons, hl]
    exact List.mem_cons_self
  rw [address_split hpre hl, hoff]

/-! ## The end of the run -/

/-- The record after the whole run: the parser's, with the reports of the waiting references -/
theorem assemble_parser_eq (inputFile : String) (lines : List Line) :
    (assemble inputFile lines).parser =
      let p := (parserParse inputFile lines).parser
      let reports := pendingReports (parserParse inputFile lines).code p.inputFile
      { p with numErrors := p.numErrors + reports.length, stderr := p.stderr ++ reports } :=
  codeCheckRefs_eq _ _

/-- Without an error every line survives, and no symbol waits. -/
theorem settled_of_no_errors {inputFile : String} {lines : List Line}
    (hline : ∀ l ∈ lines, 0 < l.lineNum)
    (hok : (assemble inputFile lines).parser.numErrors = 0) :
    surviving lines = lines ∧
      ∀ s ∈ (parserParse inputFile lines).code.symbolTable.entries, s.symbolRefs = [] := by
  simp only [assemble_parser_eq, Nat.add_eq_zero_iff, List.length_eq_zero_iff] at hok
  obtain ⟨_, hcount, _⟩ := parserParse_tracks inputFile hline
  exact ⟨(surviving_sublist lines).eq_of_length (by omega), pendingReports_eq_nil_iff.mp hok.2⟩

/-- A settled record gives each instruction its symbol's address. -/
theorem operand_eq_symbolAddress {lines : List Line} {c : Code} (hnodup : (labels lines).Nodup)
    (h : Tracks (definitions lines) (emittedOf lines) c)
    (hsettled : ∀ s ∈ c.symbolTable.entries, s.symbolRefs = []) {e : Emitted}
    (he : e ∈ emittedOf lines) :
    c.operand e.instruction = symbolAddress lines e.instruction := by
  cases hname : e.instruction.ident? with
  | none => simp only [Code.operand, symbolAddress, hname, Option.bind_none]
  | some name =>
    obtain ⟨s, hs⟩ := Option.isSome_iff_exists.mp (h.named e he name hname)
    have hsn : s.name = name := name_of_lookup hs
    rcases h.symbols name s hs with ⟨_, _, hne⟩ | ⟨_, _, hmem⟩
    · exact absurd (hsettled s (Table.mem_of_find? hs)) hne
    · have haddr : address lines name = some s.offset :=
        hsn ▸ address_of_definition hnodup hmem
      rw [Code.operand_some hname hs]
      simp only [symbolAddress, hname, Option.bind_some, haddr, Symbol.address]

/-- Without an error the text is that of the two-pass assembler. -/
theorem text_eq_twoPass {inputFile : String} {lines : List Line}
    (hline : ∀ l ∈ lines, 0 < l.lineNum)
    (hok : (assemble inputFile lines).parser.numErrors = 0) :
    (assemble inputFile lines).code.text = twoPass lines := by
  obtain ⟨htracks, _⟩ := parserParse_tracks inputFile hline
  obtain ⟨hall, hsettled⟩ := settled_of_no_errors hline hok
  have hnodup : (labels lines).Nodup := surviving_eq_self_iff.mp hall
  rw [hall] at htracks
  show (parserParse inputFile lines).code.text = twoPass lines
  rw [htracks.text, twoPass, ← emittedOf_instruction, List.map_map]
  refine List.map_congr_left fun e he => ?_
  rw [Function.comp_apply, operand_eq_symbolAddress hnodup htracks hsettled he]

/-- Without an error every symbol that an instruction names is defined, and the first pass finds
where. -/
theorem definition_of_named {inputFile : String} {lines : List Line}
    (hline : ∀ l ∈ lines, 0 < l.lineNum)
    (hok : (assemble inputFile lines).parser.numErrors = 0) {ins : Instruction}
    (hins : ins ∈ instructions lines) {name : String} (hname : ins.ident? = some name) :
    ∃ d ∈ definitions lines, d.name = name ∧ address lines name = some d.offset := by
  obtain ⟨htracks, _⟩ := parserParse_tracks inputFile hline
  obtain ⟨hall, hsettled⟩ := settled_of_no_errors hline hok
  have hnodup : (labels lines).Nodup := surviving_eq_self_iff.mp hall
  rw [hall] at htracks
  rw [← emittedOf_instruction] at hins
  obtain ⟨e, he, rfl⟩ := List.mem_map.mp hins
  obtain ⟨s, hs⟩ := Option.isSome_iff_exists.mp (htracks.named e he name hname)
  have hsn : s.name = name := name_of_lookup hs
  rcases htracks.symbols name s hs with ⟨_, _, hne⟩ | ⟨_, _, hmem⟩
  · exact absurd (hsettled s (Table.mem_of_find? hs)) hne
  · exact ⟨_, hmem, hsn, hsn ▸ address_of_definition hnodup hmem⟩

/-- **One pass is two passes.** When assembling well-formed lines leaves no error, the text holds
one word for each instruction, in order, and each word is the instruction encoded with the address
of the symbol it names: the number of words before the line that defines it, wherever that line
stands. -/
theorem assemble_text_eq_twoPass (inputFile : String) (lines : List Line)
    (hline : ∀ l ∈ lines, 0 < l.lineNum)
    (hok : (assemble inputFile lines).parser.numErrors = 0) :
    (assemble inputFile lines).code.text = twoPass lines ∧
      ∀ ins ∈ instructions lines, ∀ name, ins.ident? = some name →
        ∃ pre l post, lines = pre ++ l :: post ∧ l.label = some name ∧
          symbolAddress lines ins = BitVec.ofNat 32 (instructions pre).length := by
  refine ⟨text_eq_twoPass hline hok, ?_⟩
  intro ins hins name hname
  obtain ⟨d, hd, hdname, haddress⟩ := definition_of_named hline hok hins hname
  obtain ⟨pre, l, post, hlines, hl, hoff⟩ := definition_split hd
  refine ⟨pre, l, post, hlines, hdname ▸ hl, ?_⟩
  simp only [symbolAddress, hname, Option.bind_some, haddress, hoff]

/-- `tests/forward_ref.asm`: two forward references, two backward ones -/
def forwardRef : List Line :=
  [⟨1, none, some (.inst2ra Opcode.lod.code 1 "v")⟩,
   ⟨2, none, some (.inst1a Opcode.bran.code "l")⟩,
   ⟨3, none, none⟩,
   ⟨4, some "v", some (.word 0x11)⟩,
   ⟨5, none, none⟩,
   ⟨6, some "l", some (.inst0 Opcode.halt.code)⟩,
   ⟨7, none, some (.inst1a Opcode.brge.code "l")⟩,
   ⟨8, none, some (.inst2ra Opcode.sto.code 1 "v")⟩]

theorem forwardRef_text_eq_twoPass :
    (assemble "forward_ref.asm" forwardRef).code.text = twoPass forwardRef ∧
      twoPass forwardRef =
        [0x03100002, 0x30000003, 0x00000011, 0xff000000, 0x34000003, 0x00100002] :=
  ⟨(assemble_text_eq_twoPass "forward_ref.asm" forwardRef (by decide) (by decide)).1, by decide⟩

end Rbml.Asm
