import Rbml.Asm.ErrorLines
import Rbml.Asm.Program

/-!
# Error recovery

The parser recovers from an error at the end of the line: it discards the rest of the line and goes on
with the next one. What it makes of a line is therefore a matter of this line alone. `readable` is the
part of a line that has been reduced when its first token cannot be shifted, or when the line ends, and
the parser does to the code what its actions do for the readable parts of the lines, wherever the errors
are (`rbmlParse_readable`). Only how many of the errors are reported depends on the lines before.

On a text without an error the readable part is the line, so that the parser is complete: it reports
nothing of its own for a text that is written as some lines, and leaves what its actions leave
(`rbmlParse_writtenAs`).
-/

namespace Rbml.Asm

/-! ## Reading one line -/

/-- The part of a line with one more reduction -/
def Reduction.apply : Reduction → SourceLine → SourceLine
  | .none, cur => cur
  | .label name, cur => { cur with label := some name }
  | .instruction stmt, cur => { cur with statement := some stmt }

/-- One token of a line, with the stage after it. There is none behind a token that cannot be shifted. -/
def readStep : Option Stage × SourceLine → Token → Option Stage × SourceLine
  | (none, cur), _ => (none, cur)
  | (some stage, cur), t =>
    match shift stage t with
    | none => (none, cur)
    | some (stage, reduction) => (some stage, reduction.apply cur)

def readLine (ts : List Token) : Option Stage × SourceLine :=
  ts.foldl readStep (some .start, ⟨none, none⟩)

/-- The part of a line that is reduced: its label and its statement, as far as they are read -/
def readable (ts : List Token) : SourceLine := (readLine ts).2

/-- The tokens of the lines of a text -/
def tokenLines (text : List Char) : List (List Token) := (tokens text).splitOn .newline

def readableLines (text : List Char) : List SourceLine := (tokenLines text).map readable

theorem readLine_append (ts : List Token) (t : Token) :
    readLine (ts ++ [t]) = readStep (readLine ts) t := by
  rw [readLine, List.foldl_append]
  rfl

theorem Reduces.eq_apply {reduction : Reduction} {cur cur' : SourceLine}
    (h : Reduces reduction cur cur') : cur' = reduction.apply cur := by
  cases reduction with
  | none => exact h
  | label name =>
    obtain ⟨rfl, rfl⟩ := h
    rfl
  | instruction stmt => exact h.2

theorem readLine_of_shift {ts : List Token} {t : Token} {stage stage' : Stage}
    {reduction : Reduction} (h : (readLine ts).1 = some stage)
    (hshift : shift stage t = some (stage', reduction)) :
    readLine (ts ++ [t]) = (some stage', reduction.apply (readable ts)) := by
  rw [readLine_append, readable]
  generalize readLine ts = r at h ⊢
  obtain ⟨before, cur⟩ := r
  obtain rfl : before = some stage := h
  simp only [readStep, hshift]

theorem readLine_of_not_shift {ts : List Token} {t : Token}
    (h : ∀ stage, (readLine ts).1 = some stage → shift stage t = none) :
    readLine (ts ++ [t]) = (none, readable ts) := by
  rw [readLine_append, readable]
  generalize readLine ts = r at h ⊢
  obtain ⟨_ | before, cur⟩ := r
  · rfl
  · simp only [readStep, h before rfl]

/-- The stage after some tokens is that of the automaton, and the part is the one it has reduced. -/
theorem reads_readLine {ts : List Token} (hts : .newline ∉ ts) {stage : Stage}
    (h : (readLine ts).1 = some stage) : Reads stage (readable ts) ts := by
  induction ts using List.reverseRecOn generalizing stage with
  | nil =>
    cases h
    exact .start
  | append_singleton ts t ih =>
    rw [List.mem_append, not_or, List.mem_singleton] at hts
    by_cases hnone : ∀ before, (readLine ts).1 = some before → shift before t = none
    · rw [readLine_of_not_shift hnone] at h
      cases h
    · simp only [not_forall] at hnone
      obtain ⟨before, hbefore, hshift⟩ := hnone
      obtain ⟨⟨after, reduction⟩, hshift⟩ := Option.ne_none_iff_exists'.mp hshift
      have hread := readLine_of_shift hbefore hshift
      rw [hread] at h
      cases h
      obtain ⟨cur', hreduces, hreads⟩ := reads_shift (ih hts.1 hbefore) (Ne.symm hts.2) hshift
      rw [readable, hread, ← hreduces.eq_apply]
      exact hreads

/-- What one more token adds to the part that is read -/
theorem reduces_readable {ts : List Token} {t : Token} (hts : .newline ∉ ts) (ht : t ≠ .newline)
    {stage stage' : Stage} {reduction : Reduction} (h : (readLine ts).1 = some stage)
    (hshift : shift stage t = some (stage', reduction)) :
    Reduces reduction (readable ts) (readable (ts ++ [t])) := by
  obtain ⟨cur', hreduces, -⟩ := reads_shift (reads_readLine hts h) ht hshift
  have hread : readable (ts ++ [t]) = cur' :=
    (congrArg Prod.snd (readLine_of_shift h hshift)).trans hreduces.eq_apply.symm
  rwa [hread]

/-- A label that is read stays. -/
theorem label_readable {ts : List Token} {t : Token} (hts : .newline ∉ ts) (ht : t ≠ .newline)
    (hlabel : (readable ts).label ≠ none) : (readable (ts ++ [t])).label = (readable ts).label := by
  by_cases hnone : ∀ stage, (readLine ts).1 = some stage → shift stage t = none
  · rw [readable, readLine_of_not_shift hnone]
  · simp only [not_forall] at hnone
    obtain ⟨stage, hstage, hshift⟩ := hnone
    obtain ⟨⟨stage', reduction⟩, hshift⟩ := Option.ne_none_iff_exists'.mp hshift
    have hreduces := reduces_readable hts ht hstage hshift
    cases reduction with
    | none => rw [hreduces]
    | label name => exact absurd (congrArg SourceLine.label hreduces.1) hlabel
    | instruction stmt => rw [hreduces.2]

theorem readLine_fst (ts : List Token) : (readLine ts).1 = stageAfter ts := by
  induction ts using List.reverseRecOn with
  | nil => rfl
  | append_singleton ts t ih =>
    rw [readLine_append, stageAfter_append, ← ih]
    generalize readLine ts = r
    obtain ⟨_ | before, cur⟩ := r
    · rfl
    · simp only [readStep, Option.bind_some]
      cases shift before t <;> rfl

/-- The readable part of a line of the grammar is the line. -/
theorem readable_tokens (l : SourceLine) : readable l.tokens = l := by
  obtain ⟨stage, hstage, hends⟩ := stageAfter_line l
  have hreads := reads_readLine (newline_not_mem_tokens l) ((readLine_fst _).trans hstage)
  have hend : stage = .start ∨ stage = .label ∨ stage = .done := by
    cases stage <;> first | cases hends; done | simp
  exact (line_tokens_injective (reads_end hreads hend)).symm

/-! ## Sessions that agree but for syntax errors -/

/-- A diagnostic of an action, and not of the scanner or of the automaton -/
def Diagnostic.ofAction (d : Diagnostic) : Bool :=
  d.message ≠ syntaxErrorMessage && d.message ≠ unexpectedMessage

/-- The two sessions have the same code and the same diagnostics of actions, and are equal but for the
current line where the text is clean. -/
structure Agrees (clean : Prop) (st st' : Session) : Prop where
  code : st.code = st'.code
  inputFile : st.parser.inputFile = st'.parser.inputFile
  ofAction : st.parser.stderr.filter Diagnostic.ofAction = st'.parser.stderr.filter Diagnostic.ofAction
  exact : clean → atLine 0 st = atLine 0 st'

theorem redefinedMessage_ne_unexpected (name : String) (lineNum : Nat) :
    redefinedMessage name lineNum ≠ unexpectedMessage := by
  intro h
  have hhead := congrArg (fun s : String => s.toList.head?) h
  simp [redefinedMessage, unexpectedMessage, ToString.toString] at hhead

section
variable {clean : Prop} {st st' : Session}

theorem Agrees.mono {clean' : Prop} (h : Agrees clean st st') (hclean : clean' → clean) :
    Agrees clean' st st' :=
  ⟨h.code, h.inputFile, h.ofAction, fun hc => h.exact (hclean hc)⟩

/-- The current line does not count. -/
theorem Agrees.atLine (h : Agrees clean st st') (n n' : Nat) :
    Agrees clean (Asm.atLine n st) (Asm.atLine n' st') :=
  ⟨h.code, h.inputFile, h.ofAction, h.exact⟩

/-- A report of the scanner or of the automaton is one of a text that is not clean. -/
theorem Agrees.report (h : Agrees clean st st') {message : String}
    (hmessage : message = syntaxErrorMessage ∨ message = unexpectedMessage) :
    Agrees False { st with parser := parserError st.parser message } st' := by
  refine ⟨h.code, h.inputFile, ?_, False.elim⟩
  rw [← h.ofAction]
  simp only [parserError, List.filter_append]
  rcases hmessage with rfl | rfl <;> exact List.append_nil _

theorem Agrees.reportSyntaxError {b : ParseState} (h : Agrees clean b.session st') :
    Agrees False (Asm.reportSyntaxError b) st' := by
  unfold Asm.reportSyntaxError
  split
  · exact h.report (.inl rfl)
  · exact h.mono False.elim

/-- Sessions at one line are equal where the text is clean. -/
theorem Agrees.eq (h : Agrees clean st st') (hline : st.parser.lineNum = st'.parser.lineNum)
    (hclean : clean) : st = st' := by
  have hexact := congrArg (Asm.atLine st.parser.lineNum) (h.exact hclean)
  change Asm.atLine st.parser.lineNum st = Asm.atLine st.parser.lineNum st' at hexact
  rwa [atLine_eq_self rfl, atLine_eq_self hline.symm] at hexact

/-- A label is accepted in both or refused in both. -/
theorem Agrees.label (h : Agrees clean st st') (hline : st.parser.lineNum = st'.parser.lineNum)
    (name : String) :
    (labelAction name st).1 = (labelAction name st').1 ∧
      Agrees clean (labelAction name st).2 (labelAction name st').2 := by
  have hsame : (labelAction name st).1 = (labelAction name st').1 ∧
      Agrees False (labelAction name st).2 (labelAction name st').2 := by
    cases hs : codeSymbolLookup st.code name with
    | none =>
      have hs' : codeSymbolLookup st'.code name = none := h.code ▸ hs
      simp only [labelAction, hs', h.code, hline, true_and]
      exact ⟨rfl, h.inputFile, h.ofAction, False.elim⟩
    | some s =>
      have hs' : codeSymbolLookup st'.code name = some s := h.code ▸ hs
      by_cases htaken : s.lineNum ≠ 0
      · simp only [labelAction, hs, hs']
        rw [if_pos htaken, if_pos htaken]
        refine ⟨rfl, h.code, h.inputFile, ?_, False.elim⟩
        simp only [parserError, List.filter_append, h.ofAction, h.inputFile, hline]
      · simp only [labelAction, hs', if_neg htaken, h.code, hline, true_and]
        exact ⟨rfl, h.inputFile, h.ofAction, False.elim⟩
  refine ⟨hsame.1, hsame.2.code, hsame.2.inputFile, hsame.2.ofAction, fun hclean => ?_⟩
  rw [h.eq hline hclean]

theorem Agrees.instruction (h : Agrees clean st st')
    (hline : st.parser.lineNum = st'.parser.lineNum) (ins : Instruction) :
    Agrees clean (instructionAction ins st) (instructionAction ins st') := by
  have hcode : (instructionAction ins st).code = (instructionAction ins st').code := by
    obtain ⟨p, c⟩ := st
    obtain ⟨p', c'⟩ := st'
    obtain rfl : c = c' := h.code
    change p.lineNum = p'.lineNum at hline
    cases ins <;> simp only [instructionAction, hline]
  refine ⟨hcode, ?_, ?_, fun hclean => ?_⟩
  · rw [parser_instructionAction, parser_instructionAction, h.inputFile]
  · rw [parser_instructionAction, parser_instructionAction, h.ofAction]
  · rw [h.eq hline hclean]

end

/-! ## Lines with a refused label -/

/-- The label of the line is refused. -/
def Refused (lineNum : Nat) (cur : SourceLine) (st : Session) : Prop :=
  ∃ name, cur.label = some name ∧ (labelAction name (atLine lineNum st)).1 = false

theorem parseLine_label_eq (lineNum : Nat) (name : String) (ins : Option Instruction) (st : Session) :
    parseLine ⟨lineNum, some name, ins⟩ st =
      if (labelAction name (atLine lineNum st)).1 then
        instructionOpt ins (labelAction name (atLine lineNum st)).2
      else (labelAction name (atLine lineNum st)).2 := by
  rcases hresult : labelAction name (atLine lineNum st) with ⟨ok, st'⟩
  rw [atLine] at hresult
  simp only [parseLine, hresult]
  cases ok <;> rfl

theorem lineNum_parseLine (l : Line) (st : Session) : (parseLine l st).parser.lineNum = l.lineNum := by
  obtain ⟨lineNum, label, ins⟩ := l
  cases label with
  | none =>
    show (instructionOpt ins (atLine lineNum st)).parser.lineNum = lineNum
    rw [parser_instructionOpt]
    rfl
  | some name =>
    have hlabel := lineNum_labelAction name (atLine lineNum st)
    rw [parseLine_label_eq]
    split
    · rw [parser_instructionOpt, hlabel]
      rfl
    · rw [hlabel]
      rfl

/-- What stands behind a refused label does not count. -/
theorem parseLine_refused {lineNum : Nat} {cur cur' : SourceLine} {st : Session}
    (h : Refused lineNum cur st) (hlabel : cur'.label = cur.label) :
    parseLine (cur'.line lineNum) st = parseLine (cur.line lineNum) st := by
  obtain ⟨name, hname, hrefused⟩ := h
  rw [SourceLine.line, SourceLine.line, hlabel, hname, parseLine_label_eq, parseLine_label_eq,
    hrefused]
  rfl

/-- A statement behind a label that is not refused -/
theorem parseLine_accepted {lineNum : Nat} {cur : SourceLine} {st : Session}
    (h : ¬ Refused lineNum cur st) (hnone : cur.statement = none) (stmt : Statement) :
    parseLine (SourceLine.line { cur with statement := some stmt } lineNum) st =
      instructionAction stmt.instruction (parseLine (cur.line lineNum) st) := by
  obtain ⟨label, statement⟩ := cur
  obtain rfl : statement = none := hnone
  cases label with
  | none => rfl
  | some name =>
    have haccepted : (labelAction name (atLine lineNum st)).1 = true := by
      by_contra hnot
      exact h ⟨name, rfl, Bool.eq_false_iff.mpr hnot⟩
    simp only [SourceLine.line, Option.map_some, Option.map_none, parseLine_label_eq, haccepted,
      if_true]
    rfl

/-! ## The automaton and the readable lines -/

/-- A line without an error: all its tokens are shifted, and it can end behind them. -/
def Whole (ts : List Token) : Prop := ∃ stage, (readLine ts).1 = some stage ∧ stage.ends = true

/-- The parser has read some lines and the tokens `ts` of the current one. Its session is that of the
readable parts, and it is at the stage after `ts`, or it discards the rest of the line because of an
error or of a refused label. -/
structure Follows (st₀ : Session) (clean : Prop) (lines : List SourceLine) (ts : List Token)
    (b : ParseState) : Prop where
  newline : Token.newline ∉ ts
  yylineno : b.yylineno = lines.length + 1
  session : Agrees clean b.session
    (parseLine ((readable ts).line b.yylineno) (parseLines (linesFrom 1 lines) st₀))
  stage : ((readLine ts).1 = some b.stage ∧
        ¬ Refused b.yylineno (readable ts) (parseLines (linesFrom 1 lines) st₀)) ∨
      (b.stage = .done ∧ b.errStatus = 3 ∧ ((readLine ts).1 = none ∨
        Refused b.yylineno (readable ts) (parseLines (linesFrom 1 lines) st₀)))

section
variable {st₀ : Session} {clean clean' : Prop} {lines : List SourceLine} {ts : List Token}
  {b : ParseState}

/-- A match that is no newline moves the parser's line number only. -/
theorem Follows.moveTo (h : Follows st₀ clean lines ts b) :
    Follows st₀ clean lines ts (b.moveTo b.yylineno) :=
  ⟨h.newline, h.yylineno,
    h.session.atLine b.yylineno
      (parseLine ((readable ts).line b.yylineno) (parseLines (linesFrom 1 lines) st₀)).parser.lineNum,
    h.stage⟩

theorem Follows.unexpected (h : Follows st₀ clean lines ts b) :
    Follows st₀ False lines ts (lexStep b .unexpected) :=
  ⟨h.newline, h.yylineno, h.moveTo.session.report (.inr rfl), h.stage⟩

/-- The rest of a line is discarded. -/
theorem feed_discarded {t : Token} (ht : t ≠ .newline) (hdone : b.stage = .done)
    (herr : b.errStatus = 3) : feed t b = { b with stage := .done, errStatus := 3 } := by
  have hshift : shift b.stage t = none := by
    rw [hdone]
    cases t <;> first | rfl | exact absurd rfl ht
  have hreport : reportSyntaxError b = b.session := by
    rw [reportSyntaxError, if_neg (by rw [herr]; exact Nat.succ_ne_zero 2)]
  simp only [feed, hshift]
  cases t <;> first | exact absurd rfl ht | simp only [syntaxError, hreport]

/-- A token that is shifted -/
theorem Follows.shifted {t : Token} {stage : Stage} {reduction : Reduction}
    (h : Follows st₀ clean lines ts b) (hline : b.session.parser.lineNum = b.yylineno)
    (ht : t ≠ .newline) (hread : (readLine ts).1 = some b.stage)
    (hrefused : ¬ Refused b.yylineno (readable ts) (parseLines (linesFrom 1 lines) st₀))
    (hshift : shift b.stage t = some (stage, reduction)) :
    Follows st₀ clean lines (ts ++ [t]) (feed t b) := by
  have hnewline : Token.newline ∉ ts ++ [t] := by
    simpa [h.newline] using Ne.symm ht
  have hread' := readLine_of_shift hread hshift
  have hstage : (readLine (ts ++ [t])).1 = some stage := congrArg Prod.fst hread'
  have hreadable : readable (ts ++ [t]) = reduction.apply (readable ts) := congrArg Prod.snd hread'
  have hreduces := reduces_readable h.newline ht hread hshift
  have hsession := h.session
  have hlineNum : b.session.parser.lineNum = (parseLine ((readable ts).line b.yylineno)
      (parseLines (linesFrom 1 lines) st₀)).parser.lineNum := by
    rw [hline, lineNum_parseLine]
    rfl
  generalize hS : parseLines (linesFrom 1 lines) st₀ = S at hrefused hsession hlineNum ⊢
  cases reduction with
  | none =>
    simp only [feed, hshift]
    refine ⟨hnewline, h.yylineno, ?_, .inl ⟨hstage, ?_⟩⟩
    · rw [hS, hreadable]
      exact hsession
    · rw [hS, hreadable]
      exact hrefused
  | label name =>
    have hcur : readable ts = ⟨none, none⟩ := hreduces.1
    have hcur' : readable (ts ++ [t]) = ⟨some name, none⟩ := hreduces.2
    rw [hcur] at hsession hlineNum
    have hlabel := hsession.label hlineNum name
    have hparse : parseLine ((readable (ts ++ [t])).line b.yylineno) S =
        (labelAction name (atLine b.yylineno S)).2 := by
      rw [hcur']
      exact (parseLine_label_eq b.yylineno name none S).trans (ite_self _)
    have hiff : Refused b.yylineno (readable (ts ++ [t])) S ↔ (labelAction name b.session).1 = false := by
      rw [hlabel.1, hcur']
      constructor
      · rintro ⟨name', hname', hrefused'⟩
        cases hname'
        exact hrefused'
      · exact fun hrefused' => ⟨name, rfl, hrefused'⟩
    simp only [feed, hshift]
    rcases hresult : labelAction name b.session with ⟨ok, session⟩
    rw [hresult] at hlabel hiff
    cases ok with
    | true =>
      refine ⟨hnewline, h.yylineno, ?_, .inl ⟨hstage, ?_⟩⟩
      · rw [hS, hparse]
        exact hlabel.2
      · rw [hS, hiff]
        exact Bool.true_eq_false_eq_False
    | false =>
      refine ⟨hnewline, h.yylineno, ?_, .inr ⟨rfl, rfl, .inr ?_⟩⟩
      · rw [hS, hparse]
        exact hlabel.2
      · rw [hS]
        exact hiff.mpr rfl
  | instruction stmt =>
    have hparse := parseLine_accepted hrefused hreduces.1 stmt
    simp only [feed, hshift]
    refine ⟨hnewline, h.yylineno, ?_, .inl ⟨hstage, ?_⟩⟩
    · rw [hS, hreadable]
      exact hparse ▸ hsession.instruction hlineNum stmt.instruction
    · rw [hS, hreadable]
      exact hrefused

/-- A token of a line that is not its newline. Where it is an error, the text is not clean. -/
theorem Follows.token {t : Token} (h : Follows st₀ clean lines ts b)
    (hline : b.session.parser.lineNum = b.yylineno) (ht : t ≠ .newline)
    (hclean : clean' → clean ∧ (readLine (ts ++ [t])).1 ≠ none) :
    Follows st₀ clean' lines (ts ++ [t]) (feed t b) := by
  have hnewline : Token.newline ∉ ts ++ [t] := by
    simpa [h.newline] using Ne.symm ht
  rcases h.stage with ⟨hread, hrefused⟩ | ⟨hdone, herr, hstop⟩
  · cases hshift : shift b.stage t with
    | some next =>
      have hfollows := h.shifted hline ht hread hrefused hshift
      exact { hfollows with session := hfollows.session.mono fun hc => (hclean hc).1 }
    | none =>
      have hread' : readLine (ts ++ [t]) = (none, readable ts) := by
        refine readLine_of_not_shift fun stage hstage => ?_
        rw [hread] at hstage
        cases hstage
        exact hshift
      obtain ⟨hstage, herr⟩ := stage_syntaxError ht b
      have hfeed : feed t b = syntaxError t b := by simp only [feed, hshift]
      have hyylineno : (syntaxError t b).yylineno = b.yylineno := hfeed ▸ yylineno_feed t b
      rw [hfeed]
      refine ⟨hnewline, hyylineno.trans h.yylineno, ?_,
        .inr ⟨hstage, herr, .inl (congrArg Prod.fst hread')⟩⟩
      have hreport := h.session.reportSyntaxError
      rw [session_syntaxError, hyylineno, readable, hread']
      exact hreport.mono fun hc => (hclean hc).2 (congrArg Prod.fst hread')
  · rw [feed_discarded ht hdone herr]
    have hsession := h.session.mono fun hc => (hclean hc).1
    rcases hstop with hnone | hrefused
    · have hread' : readLine (ts ++ [t]) = (none, readable ts) := by
        refine readLine_of_not_shift fun stage hstage => ?_
        rw [hnone] at hstage
        cases hstage
      refine ⟨hnewline, h.yylineno, ?_, .inr ⟨rfl, rfl, .inl (congrArg Prod.fst hread')⟩⟩
      rw [readable, hread']
      exact hsession
    · have hlabel : (readable (ts ++ [t])).label = (readable ts).label := by
        refine label_readable h.newline ht ?_
        obtain ⟨name, hname, -⟩ := hrefused
        rw [hname]
        exact Option.some_ne_none name
      refine ⟨hnewline, h.yylineno, ?_, .inr ⟨rfl, rfl, .inr ?_⟩⟩
      · rw [parseLine_refused hrefused hlabel]
        exact hsession
      · obtain ⟨name, hname, hrefused⟩ := hrefused
        exact ⟨name, hlabel.trans hname, hrefused⟩

theorem session_feed_newline (b : ParseState) : (feed .newline b).session = parseEnd b := by
  cases hends : b.stage.ends with
  | true =>
    rw [parseEnd_of_ends hends, feed, shift_newline_of_ends hends]
  | false =>
    have hshift : shift b.stage .newline = none := by
      generalize b.stage = stage at hends
      cases stage with
      | start | label | done => cases hends
      | inst form op | regComma form op r => cases form <;> rfl
      | _ => rfl
    rw [parseEnd_of_not_ends hends, feed, hshift]
    rfl

/-- The end of a line or of the file. Where it cuts a statement short, the text is not clean. -/
theorem Agrees.parseEnd {st' : Session} (h : Agrees clean b.session st')
    (hstage : (readLine ts).1 = some b.stage ∨ b.stage = .done)
    (hclean : clean' → clean ∧ Whole ts) : Agrees clean' (Asm.parseEnd b) st' := by
  cases hends : b.stage.ends with
  | true =>
    rw [parseEnd_of_ends hends]
    exact h.mono fun hc => (hclean hc).1
  | false =>
    rw [parseEnd_of_not_ends hends]
    refine h.reportSyntaxError.mono fun hc => ?_
    obtain ⟨stage, hread, hstageEnds⟩ := (hclean hc).2
    rcases hstage with hstage | hdone
    · rw [hstage] at hread
      cases hread
      exact Bool.false_ne_true (hends.symm.trans hstageEnds)
    · rw [hdone] at hends
      cases hends

/-- A newline completes the line. Where it cuts a statement short, the text is not clean. -/
theorem Follows.feed_newline (h : Follows st₀ clean lines ts b) (hclean : clean' → clean ∧ Whole ts) :
    Follows st₀ clean' (lines ++ [readable ts]) [] (feed .newline (b.moveTo (b.yylineno + 1))) := by
  have hlines : parseLines (linesFrom 1 (lines ++ [readable ts])) st₀ =
      parseLine ((readable ts).line b.yylineno) (parseLines (linesFrom 1 lines) st₀) := by
    rw [parseLines_linesFrom_append, h.yylineno]
  have hsession : Agrees clean' (feed .newline (b.moveTo (b.yylineno + 1))).session
      (parseLine ((readable ts).line b.yylineno) (parseLines (linesFrom 1 lines) st₀)) := by
    have hmoved : Agrees clean (b.moveTo (b.yylineno + 1)).session
        (parseLine ((readable ts).line b.yylineno) (parseLines (linesFrom 1 lines) st₀)) :=
      ⟨h.session.code, h.session.inputFile, h.session.ofAction, h.session.exact⟩
    rw [session_feed_newline]
    exact hmoved.parseEnd (h.stage.imp And.left And.left) hclean
  refine ⟨List.not_mem_nil, ?_, ?_, .inl ⟨?_, ?_⟩⟩
  · rw [yylineno_feed, List.length_append, List.length_singleton, ← h.yylineno]
    rfl
  · rw [hlines]
    exact hsession.atLine _ _
  · rw [stage_feed_newline]
    rfl
  · rintro ⟨name, hname, -⟩
    cases hname

end

/-! ## The whole text -/

/-- What has been read has no error: no unexpected character, no error in the complete lines, and none
in the tokens of the current one. -/
structure Flawless (xs : List Lexed) (done : List (List Token)) (ts : List Token) : Prop where
  expected : .unexpected ∉ xs
  whole : ∀ l ∈ done, Whole l
  shifted : (readLine ts).1 ≠ none

/-- The parser behind some matches, which are `done` lines and the tokens `ts` of the current one -/
def Parsed (st₀ : Session) (xs : List Lexed) (done : List (List Token)) (ts : List Token)
    (b : ParseState) : Prop :=
  (∀ l ∈ done, Token.newline ∉ l) ∧
    xs.filterMap Lexed.token? = (done.flatMap fun l => l ++ [.newline]) ++ ts ∧
    Follows st₀ (Flawless xs done ts) (done.map readable) ts b

theorem Flawless.init {xs : List Lexed} {x : Lexed} {done : List (List Token)} {ts : List Token}
    (h : Flawless (xs ++ [x]) done ts) : Flawless xs done ts :=
  ⟨fun hmem => h.expected (List.mem_append_left _ hmem), h.whole, h.shifted⟩

theorem parsed_lexStep {st₀ : Session} {xs : List Lexed} {done : List (List Token)}
    {ts : List Token} {b : ParseState} (h : Parsed st₀ xs done ts b) (x : Lexed) :
    ∃ done' ts', Parsed st₀ (xs ++ [x]) done' ts' (lexStep b x) := by
  obtain ⟨hdone, htokens, hfollows⟩ := h
  unfold Parsed
  rw [List.filterMap_append, htokens]
  cases x with
  | skip =>
    refine ⟨done, ts, hdone, List.append_nil _, ?_⟩
    exact { hfollows.moveTo with session := hfollows.moveTo.session.mono Flawless.init }
  | unexpected =>
    refine ⟨done, ts, hdone, List.append_nil _, ?_⟩
    refine { hfollows.unexpected with session := hfollows.unexpected.session.mono fun hc => ?_ }
    exact hc.expected (List.mem_append_right _ (List.mem_singleton_self _))
  | token t =>
    by_cases ht : t = .newline
    · subst ht
      refine ⟨done ++ [ts], [], ?_, ?_, ?_⟩
      · intro l hl
        rcases List.mem_append.mp hl with hl | hl
        · exact hdone l hl
        · rw [List.mem_singleton.mp hl]
          exact hfollows.newline
      · simp [Lexed.token?]
      · rw [List.map_append]
        refine hfollows.feed_newline fun hc => ?_
        have hwhole : Whole ts := hc.whole ts (List.mem_append_right _ (List.mem_singleton_self _))
        refine ⟨⟨hc.init.expected, fun l hl => hc.whole l (List.mem_append_left _ hl), ?_⟩, hwhole⟩
        obtain ⟨stage, hread, -⟩ := hwhole
        rw [hread]
        exact Option.some_ne_none stage
    · refine ⟨done, ts ++ [t], hdone, List.append_assoc _ _ _, ?_⟩
      rw [lexStep_token ht]
      refine hfollows.moveTo.token rfl ht fun hc => ⟨⟨hc.init.expected, hc.whole, ?_⟩, hc.shifted⟩
      intro hnone
      refine hc.shifted (congrArg Prod.fst (readLine_of_not_shift fun stage hstage => ?_))
      rw [hnone] at hstage
      cases hstage

theorem parsed_lexSteps (st₀ : Session) (xs : List Lexed) :
    ∃ done ts, Parsed st₀ xs done ts (xs.foldl lexStep ⟨1, .start, 0, st₀⟩) := by
  induction xs using List.reverseRecOn with
  | nil =>
    refine ⟨[], [], List.forall_mem_nil _, rfl, List.not_mem_nil, rfl, ?_, .inl ⟨rfl, ?_⟩⟩
    · exact ⟨rfl, rfl, rfl, fun _ => rfl⟩
    · rintro ⟨name, hname, -⟩
      cases hname
  | append_singleton xs x ih =>
    obtain ⟨done, ts, hparsed⟩ := ih
    rw [List.foldl_append]
    exact parsed_lexStep hparsed x

/-- Lines with newlines behind them split into these lines. -/
theorem splitOn_flatMap {done : List (List Token)} (hdone : ∀ l ∈ done, Token.newline ∉ l)
    {ts : List Token} (hts : Token.newline ∉ ts) :
    ((done.flatMap fun l => l ++ [Token.newline]) ++ ts).splitOn Token.newline = done ++ [ts] := by
  induction done with
  | nil => exact List.splitOn_eq_singleton hts
  | cons l done ih =>
    rw [List.flatMap_cons, List.append_assoc, List.append_assoc, List.singleton_append,
      List.splitOn_append_cons_self_of_not_mem (hdone l List.mem_cons_self),
      ih fun l' hl' => hdone l' (List.mem_cons_of_mem _ hl')]
    rfl

/-- Each line of the text is one of the grammar as far as its tokens go. -/
def WellFormed (text : List Char) : Prop :=
  .unexpected ∉ lex text ∧ ∀ ts ∈ tokenLines text, Whole ts

/-- The parser and the actions for the readable parts of the lines -/
theorem agrees_rbmlParse (text : List Char) (st : Session) :
    Agrees (WellFormed text) (rbmlParse text st)
      (parseLines (linesFrom 1 (readableLines text)) st) := by
  obtain ⟨done, ts, hdone, htokens, hfollows⟩ := parsed_lexSteps st (lex text)
  have hlines : tokenLines text = done ++ [ts] := by
    rw [tokenLines, tokens, htokens, splitOn_flatMap hdone hfollows.newline]
  rw [readableLines, hlines, List.map_append, List.map_singleton, parseLines_linesFrom_append,
    ← hfollows.yylineno]
  refine hfollows.session.parseEnd (hfollows.stage.imp And.left And.left) fun hwell => ?_
  have hwhole : Whole ts :=
    hwell.2 ts (hlines ▸ List.mem_append_right _ (List.mem_singleton_self ts))
  refine ⟨⟨hwell.1, fun l hl => hwell.2 l (hlines ▸ List.mem_append_left _ hl), ?_⟩, hwhole⟩
  obtain ⟨stage, hread, -⟩ := hwhole
  rw [hread]
  exact Option.some_ne_none stage

/-- The label action reports redefinitions only. -/
theorem ofAction_labelAction {name : String} {st : Session}
    (h : ∀ d ∈ st.parser.stderr, d.ofAction = true) :
    ∀ d ∈ (labelAction name st).2.parser.stderr, d.ofAction = true := by
  unfold labelAction
  split
  · exact h
  · split
    · intro d hd
      rcases List.mem_append.mp hd with hd | hd
      · exact h d hd
      · rw [List.mem_singleton.mp hd, Diagnostic.ofAction, Bool.and_eq_true, decide_eq_true_eq,
          decide_eq_true_eq]
        exact ⟨redefinedMessage_ne _ _, redefinedMessage_ne_unexpected _ _⟩
    · exact h

theorem ofAction_parseLine (l : Line) {st : Session}
    (h : ∀ d ∈ st.parser.stderr, d.ofAction = true) :
    ∀ d ∈ (parseLine l st).parser.stderr, d.ofAction = true := by
  obtain ⟨lineNum, label, ins⟩ := l
  cases label with
  | none =>
    show ∀ d ∈ (instructionOpt ins (atLine lineNum st)).parser.stderr, d.ofAction = true
    rw [parser_instructionOpt]
    exact h
  | some name =>
    have hlabel := @ofAction_labelAction name (atLine lineNum st) h
    rw [parseLine_label_eq]
    split
    · rw [parser_instructionOpt]
      exact hlabel
    · exact hlabel

theorem ofAction_parseLines (lines : List Line) {st : Session}
    (h : ∀ d ∈ st.parser.stderr, d.ofAction = true) :
    ∀ d ∈ (parseLines lines st).parser.stderr, d.ofAction = true := by
  induction lines generalizing st with
  | nil => exact h
  | cons l lines ih => exact ih (ofAction_parseLine l h)

/-- **Recovery at the line.** Whatever the text is, the parser leaves the code and the reports of the
actions that the readable parts of its lines lead to: an error in a line changes nothing but what is
read of this line. -/
theorem rbmlParse_readable (inputFile : String) (text : List Char) :
    (rbmlParse text (freshSession inputFile)).code =
        (parserParse inputFile (linesFrom 1 (readableLines text))).code ∧
      (rbmlParse text (freshSession inputFile)).parser.stderr.filter Diagnostic.ofAction =
        (parserParse inputFile (linesFrom 1 (readableLines text))).parser.stderr := by
  have hagrees := agrees_rbmlParse text (freshSession inputFile)
  refine ⟨hagrees.code, hagrees.ofAction.trans (List.filter_eq_self.mpr ?_)⟩
  exact ofAction_parseLines _ (List.forall_mem_nil _)

/-! ## Texts without an error -/

theorem tokenLines_of_writtenAs {text : List Char} {lines : List SourceLine}
    (h : WrittenAs text lines) : tokenLines text = lines.map SourceLine.tokens := by
  rw [tokenLines, h.2.1, splitOn_sourceTokens h.1]

theorem readableLines_of_writtenAs {text : List Char} {lines : List SourceLine}
    (h : WrittenAs text lines) : readableLines text = lines := by
  rw [readableLines, tokenLines_of_writtenAs h, List.map_map]
  exact List.map_id'' readable_tokens lines

theorem wellFormed_of_writtenAs {text : List Char} {lines : List SourceLine}
    (h : WrittenAs text lines) : WellFormed text := by
  refine ⟨h.2.2, fun ts hts => ?_⟩
  rw [tokenLines_of_writtenAs h] at hts
  obtain ⟨l, -, rfl⟩ := List.mem_map.mp hts
  obtain ⟨stage, hstage, hends⟩ := stageAfter_line l
  exact ⟨stage, (readLine_fst _).trans hstage, hends⟩

/-- **The parser is complete.** For a text that is written as some lines it does what its actions do
for these lines, and reports nothing of its own. -/
theorem rbmlParse_writtenAs {text : List Char} {lines : List SourceLine} (h : WrittenAs text lines)
    (st : Session) :
    atLine 0 (rbmlParse text st) = atLine 0 (parseLines (linesFrom 1 lines) st) := by
  have hagrees := agrees_rbmlParse text st
  rw [readableLines_of_writtenAs h] at hagrees
  exact hagrees.exact (wellFormed_of_writtenAs h)

end Rbml.Asm
