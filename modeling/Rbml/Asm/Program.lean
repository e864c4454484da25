import Rbml.Asm.Acceptance
import Rbml.Asm.FrontEnd
import Rbml.Image

/-!
# The program of a text

A text that the compiler accepts is written as exactly one list of lines (`program_of_accepted`),
and the words it compiles to are those of the two-pass assembler for these lines. The lines are
determined by the tokens: a token list splits at its newlines in one way, and a line is determined
by its tokens.
-/

namespace Rbml.Asm

/-- The text is written as these lines. Every text has at least one line, which may be empty. -/
def WrittenAs (text : List Char) (lines : List SourceLine) : Prop :=
  lines ≠ [] ∧ tokens text = sourceTokens lines ∧ .unexpected ∉ lex text

/-! ## The tokens determine the lines -/

theorem newline_not_mem_tokens (l : SourceLine) : Token.newline ∉ l.tokens := by
  obtain ⟨label, statement⟩ := l
  intro h
  rcases List.mem_append.mp h with h | h
  · cases label with
    | none => cases h
    | some name => simp [labelTokens] at h
  · cases statement with
    | none => cases h
    | some stmt => cases stmt <;> simp [Statement.tokens] at h

theorem statement_tokens_injective {stmt stmt' : Statement} (h : stmt.tokens = stmt'.tokens) :
    stmt = stmt' := by
  cases stmt <;> cases stmt' <;> simp [Statement.tokens] at h ⊢ <;> exact h

/-- A statement does not begin as a label does. -/
theorem statement_tokens_ne (stmt : Statement) (name : String) (ts : List Token) :
    stmt.tokens ≠ .ident name :: ts := by
  cases stmt <;> simp [Statement.tokens]

theorem line_tokens_injective {l l' : SourceLine} (h : l.tokens = l'.tokens) : l = l' := by
  have hstatement : ∀ s s' : Option Statement,
      (s.map Statement.tokens).getD [] = (s'.map Statement.tokens).getD [] → s = s' := by
    intro s s' h
    cases s with
    | none =>
      cases s' with
      | none => rfl
      | some stmt' => cases stmt' <;> simp [Statement.tokens] at h
    | some stmt =>
      cases s' with
      | none => cases stmt <;> simp [Statement.tokens] at h
      | some stmt' => exact congrArg some (statement_tokens_injective h)
  have hlabel : ∀ (s s' : Option Statement) (name : String),
      (s.map Statement.tokens).getD [] ≠
        .ident name :: .colon :: (s'.map Statement.tokens).getD [] := by
    intro s s' name h
    cases s with
    | none => cases h
    | some stmt => exact statement_tokens_ne stmt name _ h
  obtain ⟨label, s⟩ := l
  obtain ⟨label', s'⟩ := l'
  cases label with
  | none =>
    cases label' with
    | none => rw [hstatement s s' h]
    | some name' => exact absurd h (hlabel s s' name')
  | some name =>
    cases label' with
    | none => exact absurd h.symm (hlabel s' s name)
    | some name' =>
      obtain ⟨hname, htail⟩ := List.cons.inj h
      rw [Token.ident.inj hname, hstatement s s' (List.cons.inj htail).2]

/-- The tokens of a program split at the newlines into those of its lines. -/
theorem splitOn_sourceTokens {lines : List SourceLine} (hne : lines ≠ []) :
    (sourceTokens lines).splitOn Token.newline = lines.map SourceLine.tokens := by
  refine List.splitOn_intercalate Token.newline ?_ (by simpa using hne)
  intro ts hts
  obtain ⟨l, -, rfl⟩ := List.mem_map.mp hts
  exact newline_not_mem_tokens l

/-- A text is written as one list of lines at most. -/
theorem writtenAs_unique {text : List Char} {lines lines' : List SourceLine}
    (h : WrittenAs text lines) (h' : WrittenAs text lines') : lines = lines' := by
  have hmap : lines.map SourceLine.tokens = lines'.map SourceLine.tokens := by
    rw [← splitOn_sourceTokens h.1, ← splitOn_sourceTokens h'.1, ← h.2.1, ← h'.2.1]
  exact List.map_injective_iff.mpr (fun _ _ => line_tokens_injective) hmap

/-! ## What the compiler makes of a text -/

/-- `code_write`, as the bytes that it writes -/
def codeWrite (c : Code) : List UInt8 := imageOf c.text

/-- Pending references do not depend on the parser's line. -/
theorem codeCheckRefs_numErrors (c : Code) (p : Parser) :
    (codeCheckRefs c p).numErrors = p.numErrors + (pendingReports c p.inputFile).length := by
  rw [codeCheckRefs_eq]

/-- The first pass counts the statements before a label. -/
theorem address_linesFrom (n : Nat) (lines : List SourceLine) (name : String) :
    address (linesFrom n lines) name = position lines name := by
  induction lines generalizing n with
  | nil => rfl
  | cons l lines ih =>
    have hlength : (l.line n).instruction.toList.length = l.statement.toList.length := by
      cases h : l.statement <;> simp [SourceLine.line, h]
    rw [linesFrom, address, position, ih, hlength]
    rfl

/-- The word of a statement in a program -/
def Statement.encoded (lines : List SourceLine) (stmt : Statement) : Word :=
  stmt.instruction.encode
    (match stmt.ident?.bind (position lines) with
    | none => 0
    | some n => BitVec.ofNat 32 n)

theorem twoPass_linesFrom (lines : List SourceLine) :
    twoPass (linesFrom 1 lines) = (statements lines).map (Statement.encoded lines) := by
  have haddress : address (linesFrom 1 lines) = position lines :=
    funext (address_linesFrom 1 lines)
  rw [twoPass, instructions, instructions_linesFrom, List.map_map]
  refine List.map_congr_left fun stmt _ => ?_
  simp only [Function.comp_apply, symbolAddress, haddress]
  rfl

/-- What is known of the lines of an accepted text and of the code that is written: the code is one
word for each statement, every symbol that a statement names is a label, and every token of a
statement is one that the scanner can return. -/
structure Compiles (lines : List SourceLine) (c : Code) : Prop where
  text : c.text = (statements lines).map (Statement.encoded lines)
  defined : ∀ stmt ∈ statements lines, ∀ name, stmt.ident? = some name →
    ∃ n, position lines name = some n
  lexical : ∀ stmt ∈ statements lines, ∀ t ∈ stmt.tokens, t.Lexical

theorem mem_sourceTokens {lines : List SourceLine} {stmt : Statement} {t : Token}
    (hstmt : stmt ∈ statements lines) (ht : t ∈ stmt.tokens) : t ∈ sourceTokens lines := by
  obtain ⟨l, hl, hls⟩ := List.mem_filterMap.mp hstmt
  have hline : t ∈ l.tokens := by
    refine List.mem_append.mpr (.inr ?_)
    rw [hls]
    exact ht
  obtain ⟨i, hi⟩ := List.mem_iff_getElem?.mp (List.mem_map_of_mem (f := SourceLine.tokens) hl)
  have hsep : ((lines.map SourceLine.tokens).intersperse [.newline])[2 * i]? = some l.tokens := by
    rw [List.getElem?_intersperse_two_mul]
    exact hi
  exact List.mem_flatten.mpr ⟨l.tokens, List.mem_of_getElem? hsep, hline⟩

/-- An accepted text is written as some lines, and these compile to the code that is written. -/
theorem program_of_accepted {inputFile : String} {text : List Char} {c : Code}
    (h : (compile (rbmlParse text) inputFile).written = some c) :
    ∃ lines, WrittenAs text lines ∧ Compiles lines c := by
  simp only [compile] at h
  split at h
  next hok =>
    obtain rfl := Option.some.inj h
    rw [codeCheckRefs_numErrors] at hok
    obtain ⟨lines, hne, htokens, hunexpected, lineNum, hlines⟩ :=
      rbmlParse_clean (Nat.eq_zero_of_add_eq_zero hok).1
    have hparse : parserParse inputFile (linesFrom 1 lines) =
        atLine lineNum (rbmlParse text ⟨parserAlloc inputFile, codeAlloc⟩) := hlines.symm
    have hassemble : (assemble inputFile (linesFrom 1 lines)).parser.numErrors = 0 := by
      simp only [assemble, hparse, codeCheckRefs_numErrors]
      exact hok
    have htext := text_eq_twoPass (linesFrom_pos Nat.one_pos lines) hassemble
    refine ⟨lines, ⟨hne, htokens, hunexpected⟩, ?_, ?_, ?_⟩
    · rw [← twoPass_linesFrom, ← htext]
      simp only [assemble, hparse]
      rfl
    · intro stmt hstmt name hname
      have hins : stmt.instruction ∈ instructions (linesFrom 1 lines) := by
        rw [instructions, instructions_linesFrom]
        exact List.mem_map_of_mem hstmt
      obtain ⟨d, -, -, haddress⟩ :=
        definition_of_named (linesFrom_pos Nat.one_pos lines) hassemble hins hname
      exact ⟨d.offset, by rw [← address_linesFrom 1, haddress]⟩
    · intro stmt hstmt t ht
      have htoken : t ∈ tokens text := htokens ▸ mem_sourceTokens hstmt ht
      exact lex_lexical (mem_tokens.mp htoken)
  · cases h

end Rbml.Asm
