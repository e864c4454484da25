import Rbml.Asm.Recovery
import Rbml.Asm.Scanning

/-!
# Programs put behind each other

A text is accepted exactly if it is written as some lines of which no two have the same label, and
which have every label that they name (`compile_accepts_iff`). Such programs can be put behind each
other in one text where they share no label, and only then (`compile_append_iff`). The words are those
of the first program and those of the second one, relocated: each statement of the second program that
names a label has the number of words of the first one added to its address.

The addition is that of the field. Nothing here depends on the length of the programs.
-/

namespace Rbml.Asm

/-! ## Acceptance -/

/-- The labels of a program -/
def sourceLabels (lines : List SourceLine) : List String := lines.filterMap SourceLine.label

/-- The program stands alone: no label is on two lines, and every symbol that is named is a label. -/
structure Closed (lines : List SourceLine) : Prop where
  nodup : (sourceLabels lines).Nodup
  defined : ∀ stmt ∈ statements lines, ∀ name, stmt.ident? = some name → name ∈ sourceLabels lines

theorem labels_linesFrom (n : Nat) (lines : List SourceLine) :
    labels (linesFrom n lines) = sourceLabels lines := by
  induction lines generalizing n with
  | nil => rfl
  | cons l lines ih =>
    rw [linesFrom, labels, sourceLabels, List.filterMap_cons, List.filterMap_cons, ← sourceLabels,
      ← ih (n + 1)]
    rfl

theorem assemble_numErrors_iff_closed (inputFile : String) (lines : List SourceLine) :
    (assemble inputFile (linesFrom 1 lines)).parser.numErrors = 0 ↔ Closed lines := by
  rw [assemble_numErrors_eq_zero_iff inputFile (linesFrom_pos Nat.one_pos lines), instructions,
    instructions_linesFrom, labels_linesFrom]
  constructor
  · rintro ⟨hnodup, hdefined⟩
    refine ⟨hnodup, fun stmt hstmt name hname => ?_⟩
    by_contra hnot
    refine hdefined _ (List.mem_map_of_mem hstmt) ⟨name, hname, ?_⟩
    rwa [labels_linesFrom]
  · intro h
    refine ⟨h.nodup, fun ins hins => ?_⟩
    obtain ⟨stmt, hstmt, rfl⟩ := List.mem_map.mp hins
    rintro ⟨name, hname, hnot⟩
    rw [labels_linesFrom] at hnot
    exact hnot (h.defined stmt hstmt name hname)

/-- `compile` does not depend on the line that the parser is left at. -/
theorem compile_congr {parse parse' : Session → Session} {inputFile : String}
    (h : atLine 0 (parse (freshSession inputFile)) = atLine 0 (parse' (freshSession inputFile))) :
    compile parse inputFile = compile parse' inputFile := by
  have hcode : (parse (freshSession inputFile)).code = (parse' (freshSession inputFile)).code :=
    congrArg (fun st => st.code) h
  have hfile : (parse (freshSession inputFile)).parser.inputFile =
      (parse' (freshSession inputFile)).parser.inputFile :=
    congrArg (fun st => st.parser.inputFile) h
  have hcount : (parse (freshSession inputFile)).parser.numErrors =
      (parse' (freshSession inputFile)).parser.numErrors :=
    congrArg (fun st => st.parser.numErrors) h
  rw [freshSession] at hcode hfile hcount
  simp only [compile, codeCheckRefs_numErrors, hcode, hfile, hcount]

/-- The compiler makes of a text what it makes of the lines that it is written as. -/
theorem compile_writtenAs {text : List Char} {lines : List SourceLine} (h : WrittenAs text lines)
    (inputFile : String) :
    compile (rbmlParse text) inputFile = compile (parseLines (linesFrom 1 lines)) inputFile :=
  compile_congr (rbmlParse_writtenAs h (freshSession inputFile))

theorem written_lines (inputFile : String) (lines : List SourceLine) :
    (compile (parseLines (linesFrom 1 lines)) inputFile).written =
      if (assemble inputFile (linesFrom 1 lines)).parser.numErrors = 0 then
        some (parserParse inputFile (linesFrom 1 lines)).code
      else none := rfl

/-- A text that is written as a program which stands alone is accepted. -/
theorem written_of_closed {text : List Char} {lines : List SourceLine} (h : WrittenAs text lines)
    (hclosed : Closed lines) (inputFile : String) :
    (compile (rbmlParse text) inputFile).written =
      some (parserParse inputFile (linesFrom 1 lines)).code := by
  rw [compile_writtenAs h, written_lines,
    if_pos ((assemble_numErrors_iff_closed inputFile lines).mpr hclosed)]

/-- What is known of an accepted text -/
theorem closed_of_written {text : List Char} {inputFile : String} {c : Code}
    (h : (compile (rbmlParse text) inputFile).written = some c) :
    ∃ lines, WrittenAs text lines ∧ Closed lines ∧
      c = (parserParse inputFile (linesFrom 1 lines)).code ∧
      c.text = (statements lines).map (Statement.encoded lines) := by
  obtain ⟨lines, hwritten, hcompiles⟩ := program_of_accepted h
  rw [compile_writtenAs hwritten, written_lines] at h
  split at h
  next hok =>
    have hclosed := (assemble_numErrors_iff_closed inputFile lines).mp hok
    exact ⟨lines, hwritten, hclosed, (Option.some.inj h).symm, hcompiles.text⟩
  · cases h

/-- **Which texts are accepted.** The compiler writes code for a text exactly if the text is written
as a program which stands alone, and the code is that of its lines. -/
theorem compile_accepts_iff (inputFile : String) (text : List Char) (c : Code) :
    (compile (rbmlParse text) inputFile).written = some c ↔
      ∃ lines, WrittenAs text lines ∧ Closed lines ∧
        c = (parserParse inputFile (linesFrom 1 lines)).code := by
  constructor
  · intro h
    obtain ⟨lines, hwritten, hclosed, hcode, -⟩ := closed_of_written h
    exact ⟨lines, hwritten, hclosed, hcode⟩
  · rintro ⟨lines, hwritten, hclosed, rfl⟩
    exact written_of_closed hwritten hclosed inputFile

/-! ## Relocation -/

/-- The word of a statement in a program that is put behind `k` words: an address counts them too. -/
def relocateWord (k : Nat) (stmt : Statement) (w : Word) : Word :=
  if stmt.ident?.isSome then rbmlSetArg3 w (rbmlArg3 w + BitVec.ofNat 32 k) else w

def relocate (k : Nat) (lines : List SourceLine) (words : List Word) : List Word :=
  List.zipWith (relocateWord k) (statements lines) words

/-- The address field of an instruction is added to modulo its width. -/
theorem rbmlInst_add (op a1 a2 addr k : Word) :
    rbmlInst op a1 a2 (rbmlArg3 (rbmlInst op a1 a2 addr) + k) = rbmlInst op a1 a2 (addr + k) := by
  apply BitVec.eq_of_toNat_eq
  rw [toNat_rbmlInst, toNat_rbmlInst, rbmlArg3_inst, BitVec.toNat_add, BitVec.toNat_add,
    toNat_and_ffff]
  omega

theorem relocateWord_encode (k : Nat) (stmt : Statement) (addr : Nat) :
    relocateWord k stmt (stmt.instruction.encode (BitVec.ofNat 32 addr)) =
      stmt.instruction.encode (BitVec.ofNat 32 (addr + k)) := by
  rw [relocateWord]
  cases hname : stmt.ident? with
  | none => exact encode_congr hname _ _
  | some name =>
    obtain ⟨op, a1, hencode⟩ := encode_of_ident? hname
    rw [if_pos (Option.isSome_some), hencode, hencode, rbmlSetArg3_inst, rbmlInst_add,
      BitVec.ofNat_add]

theorem position_append (lines lines' : List SourceLine) (name : String) :
    position (lines ++ lines') name =
      (position lines name).or ((position lines' name).map (· + (statements lines).length)) := by
  induction lines with
  | nil =>
    rw [List.nil_append, position, Option.none_or]
    exact Option.map_id'.symm
  | cons l lines ih =>
    have hlength : (statements (l :: lines)).length =
        (statements lines).length + l.statement.toList.length := by
      cases hl : l.statement <;> simp [statements, hl]
    rw [List.cons_append, position, position, ih, hlength]
    split
    · rfl
    · cases position lines name with
      | some n => rfl
      | none =>
        rw [Option.map_none, Option.none_or, Option.none_or, Option.map_map]
        exact congrArg (fun f => Option.map f _) (funext fun n => Nat.add_assoc n _ _)

theorem position_eq_none_iff {lines : List SourceLine} {name : String} :
    position lines name = none ↔ name ∉ sourceLabels lines := by
  induction lines with
  | nil => exact iff_of_true rfl List.not_mem_nil
  | cons l lines ih =>
    rw [position, sourceLabels, List.filterMap_cons]
    by_cases hl : l.label = some name
    · rw [if_pos hl, hl]
      exact iff_of_false (Option.some_ne_none 0) fun h => h List.mem_cons_self
    · rw [if_neg hl, Option.map_eq_none_iff, ih, sourceLabels]
      cases hlabel : l.label with
      | none => exact Iff.rfl
      | some name' =>
        rw [hlabel] at hl
        have hne : name ≠ name' := fun h => hl (congrArg some h.symm)
        simp only [List.mem_cons, hne, false_or]

theorem statements_append (lines lines' : List SourceLine) :
    statements (lines ++ lines') = statements lines ++ statements lines' :=
  List.filterMap_append

theorem sourceLabels_append (lines lines' : List SourceLine) :
    sourceLabels (lines ++ lines') = sourceLabels lines ++ sourceLabels lines' :=
  List.filterMap_append

/-! ## Two programs in one text -/

/-- The lines of a text that is put behind another one -/
theorem writtenAs_append {text text' : List Char} {lines lines' : List SourceLine}
    (h : WrittenAs text lines) (h' : WrittenAs text' lines') :
    WrittenAs (text ++ '\n' :: text') (lines ++ lines') := by
  obtain ⟨hne, htokens, hunexpected⟩ := h
  obtain ⟨hne', htokens', hunexpected'⟩ := h'
  have hlex : lex (text ++ '\n' :: text') = lex text ++ .token .newline :: lex text' := by
    rw [lex_split (by decide) (.inl rfl), lex_newline]
  refine ⟨List.append_ne_nil_of_left_ne_nil hne _, ?_, ?_⟩
  · rw [tokens] at htokens htokens'
    rw [tokens, hlex, List.filterMap_append, htokens,
      List.filterMap_cons_some (rfl : Lexed.token? (.token .newline) = some .newline), htokens']
    obtain ⟨before, last, rfl⟩ := (List.eq_nil_or_concat lines).resolve_left hne
    obtain ⟨before', last', rfl⟩ := (List.eq_nil_or_concat lines').resolve_left hne'
    rw [List.concat_eq_append, List.concat_eq_append, ← List.append_assoc, sourceTokens_append,
      sourceTokens_append, sourceTokens_append]
    simp only [List.flatMap_append, List.flatMap_cons, List.append_assoc, List.cons_append,
      List.nil_append]
  · rw [hlex, List.mem_append, List.mem_cons, not_or, not_or]
    exact ⟨hunexpected, Lexed.noConfusion, hunexpected'⟩

theorem closed_append {lines lines' : List SourceLine} (h : Closed lines) (h' : Closed lines') :
    Closed (lines ++ lines') ↔ (sourceLabels lines).Disjoint (sourceLabels lines') := by
  constructor
  · intro hclosed
    have hnodup := hclosed.nodup
    rw [sourceLabels_append] at hnodup
    exact List.disjoint_of_nodup_append hnodup
  · intro hdisjoint
    refine ⟨?_, fun stmt hstmt name hname => ?_⟩
    · rw [sourceLabels_append]
      exact h.nodup.append h'.nodup hdisjoint
    · rw [statements_append] at hstmt
      rw [sourceLabels_append]
      rcases List.mem_append.mp hstmt with hstmt | hstmt
      · exact List.mem_append_left _ (h.defined stmt hstmt name hname)
      · exact List.mem_append_right _ (h'.defined stmt hstmt name hname)

/-- The statements of the first program are compiled as before. -/
theorem encoded_append_left {lines lines' : List SourceLine} (h : Closed lines) {stmt : Statement}
    (hstmt : stmt ∈ statements lines) : stmt.encoded (lines ++ lines') = stmt.encoded lines := by
  rw [Statement.encoded, Statement.encoded]
  cases hname : stmt.ident? with
  | none => rfl
  | some name =>
    obtain ⟨n, hn⟩ := Option.ne_none_iff_exists'.mp fun hnone =>
      position_eq_none_iff.mp hnone (h.defined stmt hstmt name hname)
    rw [Option.bind_some, Option.bind_some, position_append, hn, Option.some_or]

/-- Those of the second one are relocated. -/
theorem encoded_append_right {lines lines' : List SourceLine} (h' : Closed lines')
    (hdisjoint : (sourceLabels lines).Disjoint (sourceLabels lines')) {stmt : Statement}
    (hstmt : stmt ∈ statements lines') :
    stmt.encoded (lines ++ lines') =
      relocateWord (statements lines).length stmt (stmt.encoded lines') := by
  rw [Statement.encoded, Statement.encoded]
  cases hname : stmt.ident? with
  | none =>
    rw [relocateWord, hname]
    rfl
  | some name =>
    have hlabel := h'.defined stmt hstmt name hname
    obtain ⟨n, hn⟩ := Option.ne_none_iff_exists'.mp fun hnone =>
      position_eq_none_iff.mp hnone hlabel
    have hother : position lines name = none :=
      position_eq_none_iff.mpr fun h => hdisjoint h hlabel
    rw [Option.bind_some, Option.bind_some, position_append, hother, hn, Option.none_or,
      Option.map_some]
    exact (relocateWord_encode _ stmt n).symm

/-- **Linking.** Two accepted texts make an accepted text, one behind the other, exactly if they share
no label. Its words are those of the first text and those of the second one, relocated by the number of
words of the first. -/
theorem compile_append_iff {inputFile inputFile' : String} {text text' : List Char} {c c' : Code}
    (h : (compile (rbmlParse text) inputFile).written = some c)
    (h' : (compile (rbmlParse text') inputFile').written = some c') (outputFile : String) :
    ∃ lines lines', WrittenAs text lines ∧ WrittenAs text' lines' ∧
      ((∃ linked, (compile (rbmlParse (text ++ '\n' :: text')) outputFile).written = some linked) ↔
        (sourceLabels lines).Disjoint (sourceLabels lines')) ∧
      ∀ linked, (compile (rbmlParse (text ++ '\n' :: text')) outputFile).written = some linked →
        linked.text = c.text ++ relocate c.text.length lines' c'.text := by
  obtain ⟨lines, hwritten, hclosed, -, htext⟩ := closed_of_written h
  obtain ⟨lines', hwritten', hclosed', -, htext'⟩ := closed_of_written h'
  have hboth := writtenAs_append hwritten hwritten'
  have hlinked : ∀ linked,
      (compile (rbmlParse (text ++ '\n' :: text')) outputFile).written = some linked →
        (sourceLabels lines).Disjoint (sourceLabels lines') ∧
          linked.text = c.text ++ relocate c.text.length lines' c'.text := by
    intro linked hlinked
    obtain ⟨all, hall, hallClosed, -, hallText⟩ := closed_of_written hlinked
    obtain rfl := writtenAs_unique hall hboth
    have hdisjoint := (closed_append hclosed hclosed').mp hallClosed
    refine ⟨hdisjoint, ?_⟩
    rw [hallText, statements_append, List.map_append, htext, htext', List.length_map, relocate,
      List.zipWith_map_right, List.zipWith_self]
    congr 1
    · exact List.map_congr_left fun stmt hstmt => encoded_append_left hclosed hstmt
    · exact List.map_congr_left fun stmt hstmt => encoded_append_right hclosed' hdisjoint hstmt
  refine ⟨lines, lines', hwritten, hwritten', ⟨?_, ?_⟩, fun linked hl => (hlinked linked hl).2⟩
  · rintro ⟨linked, hl⟩
    exact (hlinked linked hl).1
  · intro hdisjoint
    exact ⟨_, written_of_closed hboth ((closed_append hclosed hclosed').mpr hdisjoint) outputFile⟩

/-- A program of one word -/
def halting : List Char := "HALT".toList

/-- A loop from address 0 to itself -/
def looping : List Char := "top: BRAN top".toList

/-- The loop, put behind the program of one word -/
theorem compile_append_looping :
    ∃ lines lines', WrittenAs halting lines ∧ WrittenAs looping lines' ∧
      ((∃ linked, (compile (rbmlParse (halting ++ '\n' :: looping)) "").written = some linked) ↔
        (sourceLabels lines).Disjoint (sourceLabels lines')) ∧
      ∀ linked, (compile (rbmlParse (halting ++ '\n' :: looping)) "").written = some linked →
        linked.text = [0xff000000] ++ relocate 1 lines' [0x30000000] := by
  have hhalting : (compile (rbmlParse halting) "").written.map Code.text = some [0xff000000] := by
    decide +kernel
  have hlooping : (compile (rbmlParse looping) "").written.map Code.text = some [0x30000000] := by
    decide +kernel
  obtain ⟨c, hc, htext⟩ := Option.map_eq_some_iff.mp hhalting
  obtain ⟨c', hc', htext'⟩ := Option.map_eq_some_iff.mp hlooping
  have hlink := compile_append_iff hc hc' ""
  rwa [htext, htext'] at hlink

end Rbml.Asm
