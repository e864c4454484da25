import Rbml.Asm.MpcEngine
import Rbml.Mpc.Backtracking

/-!
# The messages of the other front end (`rbml_parser_mpc.c`)

`mpc_parse` counts rows and columns from the start of the line that it gets. `parser_parse_line` puts the
number of the line in the place of the row, and so a message gives the line and the column of a place in
the file, as long as the file has no null byte: with one in it `parser_read_line` takes a line for a part
of a longer one, and skips the next. Where the character at the place is a `%`, or the message is longer
than its buffer, `mpc_err_string` leaves no message that is defined.

`Reporting` is what holds of a run before each line: it is behind a line break, and `line_num` is the
number of those that it has read.
-/

namespace Rbml.Asm.MpcEngine

open Rbml.Lib Rbml.Mpc Rbml.Mpc.Graph Rbml.Asm.MpcGraph
open Rbml.Asm.MpcFrontEnd (parserReadLine parseLabel)

/-! ## Places in a file -/

/-- At the start of a line -/
def LineStart (before : List Char) : Prop := before = [] ∨ ∃ u, before = u ++ ['\n']

/-- At the start of a line there is no character since the last newline. -/
theorem takeWhile_lineStart {before : List Char} (h : LineStart before) :
    before.reverse.takeWhile (fun c => c != '\n') = [] := by
  rcases h with rfl | ⟨u, rfl⟩
  · rfl
  · rw [List.reverse_append]
    rfl

/-- The row and the column of a place in a line -/
theorem place_of_line {before l : List Char} {pos : Nat} (hbefore : LineStart before) (hl : '\n' ∉ l)
    (hpos : pos ≤ l.length) (behind : List Char) :
    rowAt (before ++ (l ++ behind)) (before.length + pos) = before.count '\n' ∧
      colAt (before ++ (l ++ behind)) (before.length + pos) = pos := by
  have htake : (before ++ (l ++ behind)).take (before.length + pos) = before ++ l.take pos := by
    rw [List.take_length_add_append, List.take_append_of_le_length hpos]
  have hnot : '\n' ∉ l.take pos := fun hmem => hl (List.mem_of_mem_take hmem)
  constructor
  · rw [rowAt, htake, List.count_append, List.count_eq_zero.mpr hnot, Nat.add_zero]
  · have hall : ∀ c ∈ (l.take pos).reverse, (c != '\n') = true := by
      intro c hc
      refine bne_iff_ne.mpr ?_
      rintro rfl
      exact hnot (List.mem_reverse.mp hc)
    rw [colAt, htake, List.reverse_append, List.takeWhile_append_of_pos hall,
      takeWhile_lineStart hbefore, List.append_nil, List.length_reverse, List.length_take,
      Nat.min_eq_left hpos]

/-- What the parser sees at a place in a file: the character there, or the end of its line, which is at a
line break, at a comment, or at the end of the file -/
def Seen (text : List Char) (pos : Nat) (c : Char) : Prop :=
  text[pos]? = some c ∨
    c = '\x00' ∧ (text[pos]? = some '\n' ∨ text[pos]? = some ';' ∨ text[pos]? = none)

/-- A line is what is left of it without its comment, and the comment. -/
theorem stripComment_split (l : List Char) :
    ∃ u, l = MpcFrontEnd.stripComment l ++ u ∧ (u = [] ∨ ∃ v, u = ';' :: v) := by
  induction l with
  | nil => exact ⟨[], rfl, .inl rfl⟩
  | cons c l ih =>
    by_cases hc : c = ';'
    · subst hc
      exact ⟨';' :: l, rfl, .inr ⟨l, rfl⟩⟩
    · obtain ⟨u, hl, hu⟩ := ih
      have hcons : MpcFrontEnd.stripComment (c :: l) = c :: MpcFrontEnd.stripComment l :=
        List.takeWhile_cons_of_pos (decide_eq_true hc)
      refine ⟨u, ?_, hu⟩
      rw [hcons, List.cons_append, ← hl]

/-- What is seen at a place of a line is seen in the file, where the line ends as a line does. -/
theorem seen_of_line (before : List Char) {line behind : List Char} {pos : Nat} (hpos : pos ≤ line.length)
    (hbehind : behind = [] ∨ (∃ v, behind = '\n' :: v) ∨ ∃ v, behind = ';' :: v) :
    Seen (before ++ (line ++ behind)) (before.length + pos) (line.getD pos '\x00') := by
  rw [Seen, List.getElem?_append_right (Nat.le_add_right _ _), Nat.add_sub_cancel_left]
  rcases Nat.lt_or_eq_of_le hpos with hlt | rfl
  · left
    rw [List.getElem?_append_left hlt, List.getD_eq_getElem?_getD, List.getElem?_eq_getElem hlt,
      Option.getD_some]
  · right
    refine ⟨List.getD_eq_default _ _ (Nat.le_refl _), ?_⟩
    rw [List.getElem?_append_right (Nat.le_refl _), Nat.sub_self]
    rcases hbehind with rfl | ⟨v, rfl⟩ | ⟨v, rfl⟩
    · exact .inr (.inr rfl)
    · exact .inl rfl
    · exact .inr (.inl rfl)

/-! ## Errors of a line -/

/-- The error of a line that is not parsed is printed as a failure, or as what is expected at a place in
the line, and what is there, unless that is a `%` or the message is longer than its buffer. -/
def Names (filename : String) (lineNum : Nat) (line : List Char) (e : MpcErr) : Prop :=
  Fails filename e ∨
    ∃ pos ≤ line.length, Says filename (lineNum - 1) (colAt line pos) (line.getD pos '\x00') e

/-- The number of the line does not change what else there is in the error. -/
theorem names_of_settles {filename : String} {line : List Char} {p : Mpc.Ptr} {e : MpcErr} (lineNum : Nat)
    (h : Settles (fun fuel => mpcParseString vals parserInit fuel filename line p) (.error e)) :
    Names filename lineNum line (atLine lineNum e) := by
  obtain ⟨hsited, hstate⟩ := sited_of_settles h
  obtain ⟨s, hs⟩ := Option.ne_none_iff_exists'.mp hstate
  have hplace := hsited.place s hs
  have hs' : (atLine lineNum e).state = some { s with row := lineNum - 1 } := by
    rw [atLine, hs]
    rfl
  rcases Option.eq_none_or_eq_some e.failure with hfailure | ⟨failure, hfailure⟩
  · obtain ⟨hexpected, hrecieved⟩ := hsited.received s hs hfailure
    refine .inr ⟨s.pos, hplace.le, ?_⟩
    rw [← hsited.filename, ← hplace.col]
    exact says_of_recieved (e := atLine lineNum e) hs' hfailure hexpected hrecieved
  · rw [← hsited.filename]
    exact .inl (fails_of_failure (e := atLine lineNum e) hfailure)

/-- What is printed of an error, of a place in a file: a failure, or the line and the column of the place,
what is expected there, and what is seen there, unless that is a `%` or the message is longer than its
buffer -/
def Locates (filename : String) (text : List Char) (e : MpcErr) : Prop :=
  Fails filename e ∨
    ∃ pos ≤ text.length, ∃ c, Seen text pos c ∧ Says filename (rowAt text pos) (colAt text pos) c e

/-- The place in the line is one in the file. -/
theorem Names.locates {filename : String} {lineNum : Nat} {before l behind : List Char} {e : MpcErr}
    (h : Names filename lineNum (MpcFrontEnd.stripComment l) e) (hbefore : LineStart before)
    (hcount : lineNum - 1 = before.count '\n') (hl : '\n' ∉ l)
    (hbehind : behind = [] ∨ ∃ v, behind = '\n' :: v) :
    Locates filename (before ++ (l ++ behind)) e := by
  refine h.imp_right ?_
  rintro ⟨pos, hpos, hsays⟩
  obtain ⟨u, hsplit, hu⟩ := stripComment_split l
  have hle : pos ≤ l.length := by
    rw [hsplit, List.length_append]
    exact Nat.le_trans hpos (Nat.le_add_right _ _)
  have hline : '\n' ∉ MpcFrontEnd.stripComment l := by
    intro hmem
    rw [hsplit] at hl
    exact hl (List.mem_append_left _ hmem)
  obtain ⟨hrow, hcol⟩ := place_of_line hbefore hl hle behind
  have hcol' : colAt (MpcFrontEnd.stripComment l) pos = pos := by
    have hplace := (place_of_line (.inl rfl) hline hpos []).2
    simpa only [List.nil_append, List.append_nil, List.length_nil, Nat.zero_add] using hplace
  refine ⟨before.length + pos, ?_, (MpcFrontEnd.stripComment l).getD pos '\x00', ?_, ?_⟩
  · rw [List.length_append, List.length_append]
    omega
  · have hrest : u ++ behind = [] ∨ (∃ v, u ++ behind = '\n' :: v) ∨ ∃ v, u ++ behind = ';' :: v := by
      rcases hu with rfl | ⟨v, rfl⟩
      · exact hbehind.imp_right .inl
      · exact .inr (.inr ⟨_, rfl⟩)
    have hseen := seen_of_line before hpos hrest
    rw [← List.append_assoc (MpcFrontEnd.stripComment l), ← hsplit] at hseen
    exact hseen
  · rw [hcol'] at hsays
    rw [hrow, hcol, ← hcount]
    exact hsays

/-! ## Reading lines -/

/-- What is skipped is the rest of a line. -/
theorem skipToNewline_some {input rest : List Char} (h : MpcFrontEnd.skipToNewline input = some rest) :
    ∃ u, '\n' ∉ u ∧ input = u ++ '\n' :: rest := by
  induction input with
  | nil => cases h
  | cons c input ih =>
    rw [MpcFrontEnd.skipToNewline] at h
    split at h
    next hc =>
      cases h
      exact ⟨[], List.not_mem_nil, by rw [hc, List.nil_append]⟩
    next hc =>
      obtain ⟨u, hu, rfl⟩ := ih h
      exact ⟨c :: u, List.not_mem_cons_of_ne_of_not_mem (Ne.symm hc) hu, rfl⟩

/-- Without null bytes a string in the buffer is the whole of it. -/
theorem cString_eq {buf : List Char} (h : '\x00' ∉ buf) : MpcFrontEnd.cString buf = buf := by
  refine List.takeWhile_eq_self_iff.mpr ?_
  intro c hc
  refine decide_eq_true ?_
  rintro rfl
  exact h hc

/-- `parser_read_line` of a file without null bytes takes the next line, and counts it. Of a line that is
too long nothing is left. -/
theorem parserReadLine_place {p p' : Asm.Parser} {input line rest : List Char} (hinput : '\x00' ∉ input)
    (h : parserReadLine p input = .line line p' rest) :
    p'.lineNum = p.lineNum + 1 ∧ p'.inputFile = p.inputFile ∧
      ∃ l, '\n' ∉ l ∧ (line = MpcFrontEnd.stripComment l ∨ line = []) ∧
        (input = l ++ '\n' :: rest ∨ input = l ∧ rest = []) := by
  have hcases := MpcFrontEnd.fgets_cases MpcFrontEnd.bufSize input
  have hbuf : '\x00' ∉ (MpcFrontEnd.fgets MpcFrontEnd.bufSize input).buf := by
    rcases hcases with ⟨l, -, hbuf, -, heq⟩ | ⟨-, heq, -⟩
    · rw [hbuf]
      rw [heq] at hinput
      intro hmem
      rcases List.mem_append.mp hmem with hmem | hmem
      · exact hinput (List.mem_append_left _ hmem)
      · exact absurd (List.mem_singleton.mp hmem) (by decide)
    · rw [heq] at hinput
      exact fun hmem => hinput (List.mem_append_left _ hmem)
  simp only [parserReadLine, cString_eq hbuf] at h
  split at h
  · cases h
  split at h
  next hnewline =>
    cases h
    rcases hcases with ⟨l, hl, hbuf, -, heq⟩ | ⟨hnot, -⟩
    · refine ⟨rfl, rfl, l, hl, .inl ?_, .inl heq⟩
      rw [hbuf, MpcFrontEnd.beforeLastNewline_append]
    · exact absurd hnewline hnot
  next hnewline =>
    have hlong : ¬ ∃ l, '\n' ∉ l ∧ (MpcFrontEnd.fgets MpcFrontEnd.bufSize input).buf = l ++ ['\n'] ∧
        (MpcFrontEnd.fgets MpcFrontEnd.bufSize input).eof = false ∧
          input = l ++ '\n' :: (MpcFrontEnd.fgets MpcFrontEnd.bufSize input).rest := by
      rintro ⟨l, -, hbuf, -⟩
      rw [hbuf] at hnewline
      exact hnewline (List.mem_append_right _ (List.mem_singleton_self _))
    obtain ⟨hnot, heq, hend⟩ := hcases.resolve_left hlong
    split at h
    next heof =>
      cases h
      rw [hend heof, List.append_nil] at heq
      exact ⟨rfl, rfl, _, hnot, .inl rfl, .inr ⟨heq, hend heof⟩⟩
    · split at h
      · cases h
      next hskip =>
        cases h
        obtain ⟨u, hu, hrest⟩ := skipToNewline_some hskip
        refine ⟨rfl, rfl, (MpcFrontEnd.fgets MpcFrontEnd.bufSize input).buf ++ u, ?_, .inr rfl,
          .inl ?_⟩
        · exact fun hmem => (List.mem_append.mp hmem).elim hnot hu
        · rw [List.append_assoc, ← hrest]
          exact heq

/-! ## Runs -/

/-- The parts of a line leave the place in the file as it is, and print no error. -/
structure Keeps (b b₁ : Run) : Prop where
  inputFile : b₁.session.parser.inputFile = b.session.parser.inputFile
  lineNum : b₁.session.parser.lineNum = b.session.parser.lineNum
  input : b₁.input = b.input
  errors : ∀ e, .error e ∈ b₁.printed → .error e ∈ b.printed

theorem Keeps.refl (b : Run) : Keeps b b := ⟨rfl, rfl, rfl, fun _ h => h⟩

theorem Keeps.trans {b b₁ b₂ : Run} (h : Keeps b b₁) (h' : Keeps b₁ b₂) : Keeps b b₂ :=
  ⟨h'.inputFile.trans h.inputFile, h'.lineNum.trans h.lineNum, h'.input.trans h.input,
    fun e he => h.errors e (h'.errors e he)⟩

/-- A part of a line prints no error. -/
theorem keeps_parseChild (b : Run) (a : Tree) : Keeps b (parseChild b a) := by
  unfold parseChild
  split
  · unfold parseLabel
    split <;> exact ⟨rfl, rfl, rfl, fun _ h => h⟩
  split
  · exact ⟨rfl, rfl, rfl, fun _ h => h⟩
  split
  · exact .refl b
  split
  · exact .refl b
  · refine ⟨rfl, rfl, rfl, fun m h => (List.mem_append.mp h).resolve_right ?_⟩
    intro hmem
    cases List.mem_singleton.mp hmem

theorem keeps_parseChildren (children : List Tree) (b : Run) : Keeps b (children.foldl parseChild b) := by
  induction children generalizing b with
  | nil => exact .refl b
  | cons a children ih => exact (keeps_parseChild b a).trans (ih (parseChild b a))

/-- A line that is empty is parsed. -/
theorem ne_nil_of_error {filename : String} {line : List Char} {e : MpcErr}
    (h : Settles (fun fuel => mpcParseString vals parserInit fuel filename line
      (mpcaGrammarFindParser "line")) (.error e)) : line ≠ [] := by
  rintro rfl
  have hsome : (mpcParse MpcGrammar.line []).isSome = true := by decide
  obtain ⟨x, hx⟩ := Option.isSome_iff_exists.mp hsome
  obtain ⟨v, -, hv⟩ := (computes_line.settles filename List.not_mem_nil).1 x hx
  cases (steady_mpcParseString _ _ _ _ _).unique h hv

/-- The error that a line adds to what is printed, if it adds one -/
theorem parserParseLine_printed {n : Nat} {line : List Char} {b b₁ : Run}
    (h : parserParseLine n line b = some b₁) :
    b₁.session.parser.inputFile = b.session.parser.inputFile ∧
      b₁.session.parser.lineNum = b.session.parser.lineNum ∧ b₁.input = b.input ∧
      ∀ e, .error e ∈ b₁.printed → .error e ∈ b.printed ∨
        (line ≠ [] ∧ Names b.session.parser.inputFile b.session.parser.lineNum line e) := by
  obtain ⟨r, hr, hrest⟩ := Option.bind_eq_some_iff.mp h
  cases r with
  | error e =>
    cases hrest
    refine ⟨rfl, rfl, rfl, fun e' hmem => (List.mem_append.mp hmem).imp_right ?_⟩
    intro hlast
    cases List.mem_singleton.mp hlast
    exact ⟨ne_nil_of_error ⟨n, hr⟩, names_of_settles _ ⟨n, hr⟩⟩
  | output v =>
    cases v with
    | ast a =>
      cases hrest
      have hkeeps := keeps_parseChildren a.children b
      exact ⟨hkeeps.inputFile, hkeeps.lineNum, hkeeps.input, fun e he => .inl (hkeeps.errors e he)⟩
    | null => cases hrest
    | text s => cases hrest
    | state s => cases hrest
    | name s => cases hrest

/-- Before each line: the place in the file, and what was printed -/
structure Reporting (filename : String) (text : List Char) (b : Run) : Prop where
  inputFile : b.session.parser.inputFile = filename
  place : ∃ before, text = before ++ b.input ∧
    (b.input = [] ∨ (LineStart before ∧ before.count '\n' = b.session.parser.lineNum))
  errors : ∀ e, .error e ∈ b.printed → Locates filename text e

/-- A turn prints at most an error of the line that it reads. -/
theorem Reporting.turn {filename : String} {text : List Char} {n : Nat} {b b₁ : Run}
    (h : Reporting filename text b) (htext : '\x00' ∉ text)
    (hturn : parserTurn n b = some (.inl b₁)) : Reporting filename text b₁ := by
  obtain ⟨hfile, ⟨before, hsplit, hplace⟩, herrors⟩ := h
  have hinput : '\x00' ∉ b.input := by
    rw [hsplit] at htext
    exact fun hmem => htext (List.mem_append_right _ hmem)
  simp only [parserTurn] at hturn
  split at hturn
  · cases hturn
  next line p rest hread =>
    obtain ⟨b₂, hline, hb₂⟩ := Option.map_eq_some_iff.mp hturn
    cases hb₂
    obtain ⟨hlineNum, hinputFile, l, hl, htaken, hrest⟩ := parserReadLine_place hinput hread
    obtain ⟨hfile₁, hlineNum₁, hinput₁, hprinted⟩ := parserParseLine_printed hline
    have hfile₂ : p.inputFile = filename := hinputFile.trans hfile
    have hne : b.input ≠ [] := by
      intro hnil
      rw [hnil] at hread
      cases hread
    obtain ⟨hstart, hcount⟩ := hplace.resolve_left hne
    refine ⟨hfile₁.trans hfile₂, ?_, ?_⟩
    · rw [hinput₁, hlineNum₁, hlineNum, hsplit]
      rcases hrest with hrest | ⟨hrest, rfl⟩
      · refine ⟨before ++ (l ++ ['\n']), ?_, .inr ⟨.inr ⟨before ++ l, ?_⟩, ?_⟩⟩
        · rw [hrest, List.append_assoc, List.append_assoc, List.singleton_append]
        · rw [List.append_assoc]
        · rw [List.count_append, List.count_append, List.count_eq_zero.mpr hl, hcount,
            List.count_singleton_self, Nat.zero_add]
      · exact ⟨before ++ b.input, (List.append_nil _).symm, .inl rfl⟩
    · intro e hmem
      rcases hprinted e hmem with hmem | ⟨hline, hnames⟩
      · exact herrors e hmem
      · obtain rfl := htaken.resolve_right hline
        have hcount' : p.lineNum - 1 = before.count '\n' := by
          rw [hlineNum, hcount, Nat.add_sub_cancel]
        rw [hfile₂] at hnames
        rw [hsplit]
        rcases hrest with hrest | ⟨hrest, -⟩
        · rw [hrest]
          exact hnames.locates hstart hcount' hl (.inr ⟨rest, rfl⟩)
        · have hlast : Locates filename (before ++ (l ++ [])) e :=
            hnames.locates hstart hcount' hl (.inl rfl)
          rw [List.append_nil] at hlast
          rw [hrest]
          exact hlast
  · cases hturn

end Rbml.Asm.MpcEngine
