import Mathlib.Data.List.Induction
import Rbml.Asm.FrontEnd

/-!
# The lines of syntax errors

A syntax error is reported with the line number that the scanner has set last, when it returned the
token that cannot be shifted. A newline is counted before it sets the number, so that a statement which
its newline cuts short is reported on the line after it, and every other one on its own
(`reportedOnItsLine_iff`).

The line at fault is found apart from the counter of the scanner: `firstOffence` says how much of the
text the parser has read when it first meets a token that it reports, and the line is counted by the
newlines in that. Its tokens are those of no line of the grammar, and they are the beginning of one
exactly where the newline is the token at fault.
-/

namespace Rbml.Asm

/-! ## The first syntax error -/

/-- The first syntax error that the parser has printed -/
def firstSyntaxError (p : Parser) : Option Diagnostic :=
  p.stderr.find? fun d => d.message == syntaxErrorMessage

/-- A line can end at this stage. -/
def Stage.ends : Stage → Bool
  | .start | .label | .done => true
  | _ => false

/-- The parser reports a syntax error at this match, or at the end of the file. -/
def stuck (b : ParseState) : Option Lexed → Bool
  | some (.token t) => b.errStatus == 0 && (shift b.stage t).isNone
  | some _ => false
  | none => b.errStatus == 0 && !b.stage.ends

/-- Where a syntax error is reported: the matches before it and the match that is at fault, which is
none at the end of the file -/
structure Offence where
  before : List Lexed
  offending : Option Lexed
  deriving DecidableEq, Repr

/-- The first place where the parser reports a syntax error -/
def offenceFrom (b : ParseState) : List Lexed → Option Offence
  | [] => if stuck b none then some ⟨[], none⟩ else none
  | x :: xs =>
    if stuck b (some x) then some ⟨[], some x⟩
    else (offenceFrom (lexStep b x) xs).map fun o => { o with before := x :: o.before }

/-- The session of `compile` before the parser runs -/
def freshSession (inputFile : String) : Session := ⟨parserAlloc inputFile, codeAlloc⟩

def firstOffence (text : List Char) (inputFile : String) : Option Offence :=
  offenceFrom ⟨1, .start, 0, freshSession inputFile⟩ (lex text)

/-- The newlines among some matches -/
def newlines (xs : List Lexed) : Nat := xs.count (.token .newline)

/-- The number of the line that the parser is in -/
def Offence.line (o : Offence) : Nat := newlines o.before + 1

/-! ## The lines of a text -/

/-- The tokens from a line on, after `n` lines -/
def linesAfter : Nat → List Token → List Token
  | 0, ts => ts
  | n + 1, ts => linesAfter n (ts.dropWhile (· ≠ .newline)).tail

/-- The tokens of a line -/
def lineTokens (text : List Char) (n : Nat) : List Token :=
  (linesAfter (n - 1) (tokens text)).takeWhile (· ≠ .newline)

/-- The line is none of the grammar. -/
def IllFormed (text : List Char) (n : Nat) : Prop := ∀ l : SourceLine, lineTokens text n ≠ l.tokens

/-- The line ends in a newline, before which it could go on to a line of the grammar. -/
def CutShort (text : List Char) (n : Nat) : Prop :=
  .newline ∈ linesAfter (n - 1) (tokens text) ∧ ∃ l : SourceLine, lineTokens text n <+: l.tokens

/-- The first syntax error is reported with the number of the line that holds the statement at
fault. -/
def ReportedOnItsLine (text : List Char) (inputFile : String) : Prop :=
  ∀ d, firstSyntaxError (rbmlParse text (freshSession inputFile)).parser = some d →
    ∃ o, firstOffence text inputFile = some o ∧ IllFormed text o.line ∧ d.lineNum = o.line

/-! ## What the parser prints -/

/-- No syntax error has been printed. -/
def Silent (ds : List Diagnostic) : Prop := ∀ d ∈ ds, d.message ≠ syntaxErrorMessage

theorem redefinedMessage_ne (name : String) (lineNum : Nat) :
    redefinedMessage name lineNum ≠ syntaxErrorMessage := by
  intro h
  have hhead := congrArg (fun s : String => s.toList.head?) h
  simp [redefinedMessage, syntaxErrorMessage, ToString.toString] at hhead

/-- What the label action prints -/
theorem stderr_labelAction (name : String) (st : Session) :
    ∃ ds, (labelAction name st).2.parser.stderr = st.parser.stderr ++ ds ∧ Silent ds := by
  unfold labelAction
  split
  · exact ⟨[], (List.append_nil _).symm, List.forall_mem_nil _⟩
  next s _ =>
    split
    · refine ⟨_, rfl, fun d hd => ?_⟩
      rw [List.mem_singleton.mp hd]
      exact redefinedMessage_ne _ _
    · exact ⟨[], (List.append_nil _).symm, List.forall_mem_nil _⟩

/-- The report of a syntax error at a line -/
def syntaxReport (b : ParseState) (lineNum : Nat) : Diagnostic :=
  ⟨.error, b.session.parser.inputFile, lineNum, syntaxErrorMessage⟩

/-- The line number that a match sets -/
def matchLine (b : ParseState) (x : Option Lexed) : Nat :=
  if x = some (.token .newline) then b.yylineno + 1 else b.yylineno

theorem lexStep_moveTo (b : ParseState) (t : Token) :
    lexStep b (.token t) = feed t (b.moveTo (matchLine b (some (.token t)))) := by
  simp only [lexStep, matchLine, Option.some.injEq]

theorem session_syntaxError (t : Token) (b : ParseState) :
    (syntaxError t b).session = reportSyntaxError b := by
  cases t <;> rfl

/-- Where the parser is stuck it prints a syntax error. -/
theorem stderr_of_stuck {b : ParseState} {x : Lexed} (h : stuck b (some x) = true) :
    (lexStep b x).session.parser.stderr =
      b.session.parser.stderr ++ [syntaxReport b (matchLine b (some x))] := by
  cases x with
  | skip | unexpected => cases h
  | token t =>
    simp only [stuck, Bool.and_eq_true, beq_iff_eq, Option.isNone_iff_eq_none] at h
    obtain ⟨herr, hshift⟩ := h
    simp only [lexStep_moveTo, feed, ParseState.moveTo_stage, hshift, session_syntaxError]
    exact congrArg (fun st : Session => st.parser.stderr) (if_pos herr)

/-- Elsewhere it prints no syntax error. -/
theorem stderr_of_not_stuck {b : ParseState} {x : Lexed} (h : stuck b (some x) = false) :
    ∃ ds, (lexStep b x).session.parser.stderr = b.session.parser.stderr ++ ds ∧ Silent ds := by
  cases x with
  | skip => exact ⟨[], (List.append_nil _).symm, List.forall_mem_nil _⟩
  | unexpected =>
    refine ⟨_, rfl, fun d hd => ?_⟩
    rw [List.mem_singleton.mp hd]
    show unexpectedMessage ≠ syntaxErrorMessage
    decide
  | token t =>
    simp only [stuck, Bool.and_eq_false_iff, beq_eq_false_iff_ne] at h
    rw [lexStep_moveTo, feed, ParseState.moveTo_stage]
    split
    next hshift =>
      have herr : b.errStatus ≠ 0 := h.resolve_right (by simp [hshift])
      rw [session_syntaxError, reportSyntaxError]
      refine ⟨[], ?_, List.forall_mem_nil _⟩
      exact (congrArg (fun st : Session => st.parser.stderr) (if_neg herr)).trans
        (List.append_nil _).symm
    · exact ⟨[], (List.append_nil _).symm, List.forall_mem_nil _⟩
    next name hshift =>
      obtain ⟨ds, hds, hsilent⟩ :=
        stderr_labelAction name (b.moveTo (matchLine b (some (.token t)))).session
      refine ⟨ds, ?_, hsilent⟩
      rcases hresult : labelAction name (b.moveTo (matchLine b (some (.token t)))).session with ⟨ok, st'⟩
      rw [hresult] at hds
      cases ok <;> exact hds
    next stmt hshift =>
      simp only [parser_instructionAction]
      exact ⟨[], (List.append_nil _).symm, List.forall_mem_nil _⟩

/-- What has been printed stays. -/
theorem stderr_prefix_lexStep (b : ParseState) (x : Lexed) :
    b.session.parser.stderr <+: (lexStep b x).session.parser.stderr := by
  cases h : stuck b (some x) with
  | true => exact ⟨_, (stderr_of_stuck h).symm⟩
  | false =>
    obtain ⟨ds, hds, -⟩ := stderr_of_not_stuck h
    exact ⟨ds, hds.symm⟩

theorem stderr_prefix_lexSteps (xs : List Lexed) (b : ParseState) :
    b.session.parser.stderr <+: (xs.foldl lexStep b).session.parser.stderr := by
  induction xs generalizing b with
  | nil => exact List.prefix_refl _
  | cons x xs ih => exact (stderr_prefix_lexStep b x).trans (ih (lexStep b x))

theorem parseEnd_of_ends {b : ParseState} (h : b.stage.ends = true) : parseEnd b = b.session := by
  unfold parseEnd
  cases hstage : b.stage <;> rw [hstage] at h <;> first | rfl | cases h

theorem parseEnd_of_not_ends {b : ParseState} (h : b.stage.ends = false) :
    parseEnd b = reportSyntaxError b := by
  unfold parseEnd
  cases hstage : b.stage <;> rw [hstage] at h <;> first | rfl | cases h

theorem stderr_prefix_parseEnd (b : ParseState) :
    b.session.parser.stderr <+: (parseEnd b).parser.stderr := by
  cases h : b.stage.ends with
  | true => exact ⟨[], by rw [List.append_nil, parseEnd_of_ends h]⟩
  | false =>
    rw [parseEnd_of_not_ends h, reportSyntaxError]
    split
    · exact List.prefix_append _ _
    · exact List.prefix_refl _

/-! ## The counter of lines -/

theorem yylineno_feed (t : Token) (b : ParseState) : (feed t b).yylineno = b.yylineno := by
  unfold feed
  split
  · cases t <;> rfl
  · rfl
  · split <;> rfl
  · rfl

theorem lineNum_labelAction (name : String) (st : Session) :
    (labelAction name st).2.parser.lineNum = st.parser.lineNum := by
  unfold labelAction
  split
  · rfl
  · split <;> rfl

theorem lineNum_feed (t : Token) (b : ParseState) :
    (feed t b).session.parser.lineNum = b.session.parser.lineNum := by
  have hreport : (reportSyntaxError b).parser.lineNum = b.session.parser.lineNum := by
    unfold reportSyntaxError
    split <;> rfl
  unfold feed
  split
  · rw [session_syntaxError, hreport]
  · rfl
  next name _ =>
    have hline := lineNum_labelAction name b.session
    rcases hresult : labelAction name b.session with ⟨ok, st'⟩
    rw [hresult] at hline
    cases ok <;> exact hline
  · rw [parser_instructionAction]

/-- A match moves the counter, by one if it is a newline. -/
theorem yylineno_lexStep (b : ParseState) (x : Lexed) :
    (lexStep b x).yylineno = b.yylineno + newlines [x] := by
  cases x with
  | skip | unexpected => rfl
  | token t =>
    rw [lexStep_moveTo, yylineno_feed]
    show matchLine b (some (.token t)) = _
    cases t <;> rfl

/-- It sets the parser's line number to the counter. -/
theorem lineNum_lexStep (b : ParseState) (x : Lexed) :
    (lexStep b x).session.parser.lineNum = (lexStep b x).yylineno := by
  cases x with
  | skip | unexpected => rfl
  | token t =>
    rw [lexStep_moveTo, yylineno_feed, lineNum_feed]
    rfl

/-! ## The first report -/

/-- The line number that a report has, where the counter was at `n` before the matches -/
def Offence.reportedLine (n : Nat) (o : Offence) : Nat :=
  n + newlines o.before + if o.offending = some (.token .newline) then 1 else 0

theorem find_of_silent {ds ds' : List Diagnostic} (h : Silent ds) :
    (ds ++ ds').find? (fun d => d.message == syntaxErrorMessage) =
      ds'.find? fun d => d.message == syntaxErrorMessage := by
  rw [List.find?_append, List.find?_eq_none.mpr fun d hd => by simpa using h d hd]
  rfl

/-- The first report of a run is the one of the first offence. -/
theorem firstSyntaxError_run {b : ParseState} (hsilent : Silent b.session.parser.stderr)
    (hline : b.stage.ends = true ∨ b.session.parser.lineNum = b.yylineno) (xs : List Lexed) :
    (firstSyntaxError (parseEnd (xs.foldl lexStep b)).parser).map Diagnostic.lineNum =
      (offenceFrom b xs).map (Offence.reportedLine b.yylineno) := by
  induction xs generalizing b with
  | nil =>
    have hnone : firstSyntaxError b.session.parser = none :=
      List.find?_eq_none.mpr fun d hd => by simpa using hsilent d hd
    rw [List.foldl_nil, offenceFrom, stuck]
    cases hends : b.stage.ends with
    | true =>
      rw [parseEnd_of_ends hends, hnone]
      simp
    | false =>
      rw [parseEnd_of_not_ends hends, reportSyntaxError]
      by_cases herr : b.errStatus = 0
      · rw [if_pos herr, firstSyntaxError]
        simp only [parserError, find_of_silent hsilent, herr]
        rw [hline.resolve_left (by simp [hends])]
        rfl
      · rw [if_neg herr, hnone]
        simp [herr]
  | cons x xs ih =>
    rw [List.foldl_cons, offenceFrom]
    cases hstuck : stuck b (some x) with
    | true =>
      -- the report is printed here, and all that is printed later comes after it
      obtain ⟨later, hlater⟩ := (stderr_prefix_lexSteps xs (lexStep b x)).trans
        (stderr_prefix_parseEnd (xs.foldl lexStep (lexStep b x)))
      rw [if_pos rfl, firstSyntaxError, ← hlater, stderr_of_stuck hstuck, List.append_assoc,
        find_of_silent hsilent]
      show some (matchLine b (some x)) = some (b.yylineno + 0 + _)
      rw [matchLine, Nat.add_zero]
      split <;> rfl
    | false =>
      obtain ⟨ds, hds, hds'⟩ := stderr_of_not_stuck hstuck
      have hsilent' : Silent (lexStep b x).session.parser.stderr := by
        intro d hd
        rw [hds] at hd
        exact (List.mem_append.mp hd).elim (hsilent d) (hds' d)
      rw [ih hsilent' (.inr (lineNum_lexStep b x)), if_neg Bool.false_ne_true, Option.map_map]
      refine congrArg (fun f => Option.map f _) (funext fun o => ?_)
      simp only [Offence.reportedLine, Function.comp_apply, yylineno_lexStep, newlines,
        List.count_cons, List.count_nil]
      omega

/-! ## Tokens of a line and the stage after them -/

/-- The stage after some tokens of a line, if the parser can shift them -/
def stageAfter (ts : List Token) : Option Stage :=
  ts.foldlM (fun stage t => (shift stage t).map Prod.fst) .start

theorem stageAfter_append (ts : List Token) (t : Token) :
    stageAfter (ts ++ [t]) =
      (stageAfter ts).bind fun stage => (shift stage t).map Prod.fst := by
  simp [stageAfter, List.foldlM_append]

theorem stageAfter_prefix {ts ts' : List Token} (h : ts <+: ts') (hsome : (stageAfter ts').isSome) :
    (stageAfter ts).isSome := by
  obtain ⟨more, rfl⟩ := h
  rw [stageAfter, List.foldlM_append] at hsome
  cases hts : stageAfter ts with
  | some stage => rfl
  | none =>
    rw [stageAfter] at hts
    rw [hts] at hsome
    cases hsome

/-- After the tokens of a line of the grammar the parser is where a line can end. -/
theorem stageAfter_line (l : SourceLine) :
    ∃ stage, stageAfter l.tokens = some stage ∧ stage.ends = true := by
  obtain ⟨label, statement⟩ := l
  cases label <;> cases statement with
  | none => exact ⟨_, rfl, rfl⟩
  | some stmt => cases stmt <;> exact ⟨_, rfl, rfl⟩

theorem reads_of_stageAfter {ts : List Token} (hts : .newline ∉ ts) {stage : Stage}
    (h : stageAfter ts = some stage) : ∃ cur, Reads stage cur ts := by
  induction ts using List.reverseRecOn generalizing stage with
  | nil =>
    cases h
    exact ⟨_, .start⟩
  | append_singleton ts t ih =>
    rw [stageAfter_append] at h
    obtain ⟨stage', hstage', h⟩ := Option.bind_eq_some_iff.mp h
    obtain ⟨⟨next, reduction⟩, hshift, rfl⟩ := Option.map_eq_some_iff.mp h
    rw [List.mem_append, not_or, List.mem_singleton] at hts
    obtain ⟨cur, hreads⟩ := ih hts.1 hstage'
    obtain ⟨cur', -, hreads'⟩ := reads_shift hreads (Ne.symm hts.2) hshift
    exact ⟨cur', hreads'⟩

/-- The beginning of a statement after a label -/
theorem prefix_line (label : Option String) (stmt : Statement) {front : List Token}
    (h : front <+: stmt.tokens) :
    ∃ l : SourceLine, labelTokens label ++ front <+: l.tokens :=
  ⟨⟨label, some stmt⟩, (List.prefix_append_right_inj _).mpr h⟩

/-- Tokens that the parser can shift are the beginning of a line of the grammar. -/
theorem prefix_of_stageAfter {ts : List Token} (hts : .newline ∉ ts) {stage : Stage}
    (h : stageAfter ts = some stage) : ∃ l : SourceLine, ts <+: l.tokens := by
  obtain ⟨cur, hreads⟩ := reads_of_stageAfter hts h
  cases hreads with
  | start => exact ⟨⟨none, none⟩, List.prefix_refl _⟩
  | ident name => exact ⟨⟨some name, none⟩, [.colon], rfl⟩
  | label name => exact ⟨⟨some name, none⟩, List.prefix_refl _⟩
  | word label => exact prefix_line label (.word []) ⟨[.number []], rfl⟩
  | inst label form op =>
    cases form with
    | inst0 => exact prefix_line label (.inst0 op) (List.prefix_refl _)
    | inst1a => exact prefix_line label (.inst1a op "") ⟨[.ident ""], rfl⟩
    | inst1r => exact prefix_line label (.inst1r op 0) ⟨[.reg 0], rfl⟩
    | inst2rr => exact prefix_line label (.inst2rr op 0 0) ⟨[.reg 0, .comma, .reg 0], rfl⟩
    | inst2ra => exact prefix_line label (.inst2ra op 0 "") ⟨[.reg 0, .comma, .ident ""], rfl⟩
    | inst2nr => exact prefix_line label (.inst2nr op [] 0) ⟨[.number [], .comma, .reg 0], rfl⟩
  | reg label form op r =>
    cases form with
    | inst2rr => exact prefix_line label (.inst2rr op r 0) ⟨[.comma, .reg 0], rfl⟩
    | inst2ra => exact prefix_line label (.inst2ra op r "") ⟨[.comma, .ident ""], rfl⟩
    | inst0 | inst1a | inst1r | inst2nr =>
      -- no other mnemonic is followed by a register and more
      cases label <;> cases h
  | regComma label form op r =>
    cases form with
    | inst2rr => exact prefix_line label (.inst2rr op r 0) ⟨[.reg 0], rfl⟩
    | inst2ra => exact prefix_line label (.inst2ra op r "") ⟨[.ident ""], rfl⟩
    | inst0 | inst1a | inst1r | inst2nr =>
      cases label <;> cases h
  | number label op text => exact prefix_line label (.inst2nr op text 0) ⟨[.comma, .reg 0], rfl⟩
  | numberComma label op text => exact prefix_line label (.inst2nr op text 0) ⟨[.reg 0], rfl⟩
  | done label stmt => exact ⟨⟨label, some stmt⟩, List.prefix_refl _⟩

/-! ## The line at fault -/

/-- The tokens since the last newline are those that lead to the stage, except in a line with an error,
of which the rest is discarded. -/
def InLine (b : ParseState) (ts : List Token) : Prop :=
  .newline ∉ ts ∧ (stageAfter ts = some b.stage ∨ (b.stage = .done ∧ b.errStatus = 3))

/-- The tokens of the current line after one more match -/
def lineAfter (ts : List Token) : Lexed → List Token
  | .token .newline => []
  | .token t => ts ++ [t]
  | _ => ts

theorem stage_syntaxError {t : Token} (ht : t ≠ .newline) (b : ParseState) :
    (syntaxError t b).stage = .done ∧ (syntaxError t b).errStatus = 3 := by
  cases t with
  | newline => exact absurd rfl ht
  | _ => exact ⟨rfl, rfl⟩

/-- A newline begins a line, whether it can be shifted or not. -/
theorem stage_feed_newline (b : ParseState) : (feed .newline b).stage = .start := by
  unfold feed
  cases hshift : shift b.stage .newline with
  | none => rfl
  | some next =>
    obtain ⟨stage, reduction⟩ := next
    cases hstage : b.stage with
    | start | label | done =>
      rw [hstage] at hshift
      cases hshift
      rfl
    | inst form op =>
      rw [hstage] at hshift
      cases form <;> cases hshift
    | regComma form op r =>
      rw [hstage] at hshift
      cases form <;> cases hshift
    | _ =>
      rw [hstage] at hshift
      cases hshift

theorem inLine_lexStep {b : ParseState} {ts : List Token} {x : Lexed} (h : InLine b ts)
    (hstuck : stuck b (some x) = false) : InLine (lexStep b x) (lineAfter ts x) := by
  obtain ⟨hts, hstage⟩ := h
  cases x with
  | skip | unexpected => exact ⟨hts, hstage⟩
  | token t =>
    rw [lexStep_moveTo]
    by_cases ht : t = .newline
    · subst ht
      exact ⟨List.not_mem_nil, .inl (congrArg some (stage_feed_newline _).symm)⟩
    · have hline : lineAfter ts (.token t) = ts ++ [t] := by
        cases t with
        | newline => exact absurd rfl ht
        | _ => rfl
      rw [hline]
      refine ⟨by simpa [hts] using Ne.symm ht, ?_⟩
      cases hshift : shift b.stage t with
      | none =>
        right
        simp only [feed, ParseState.moveTo_stage, hshift]
        exact stage_syntaxError ht _
      | some next =>
        obtain ⟨stage, reduction⟩ := next
        have hafter : stageAfter ts = some b.stage := by
          refine hstage.resolve_right fun hdone => ?_
          rw [hdone.1] at hshift
          cases t with
          | newline => exact ht rfl
          | _ => cases hshift
        have hstage' : stageAfter (ts ++ [t]) = some stage := by
          rw [stageAfter_append, hafter, Option.bind_some, hshift]
          rfl
        rw [hstage', feed, ParseState.moveTo_stage, hshift]
        cases reduction with
        | none => exact .inl rfl
        | label name =>
          rcases hresult : labelAction name (b.moveTo (matchLine b (some (.token t)))).session with
            ⟨ok, st'⟩
          simp only [hresult]
          cases ok with
          | true => exact .inl rfl
          | false => exact .inr ⟨rfl, rfl⟩
        | instruction stmt => exact .inl rfl

/-- What is known of the tokens from the line at fault on: the line is none of the grammar, and it is
the beginning of one exactly if its newline is at fault. -/
def AtFault (line : List Token) (offending : Option Lexed) : Prop :=
  (∀ l : SourceLine, line.takeWhile (· ≠ .newline) ≠ l.tokens) ∧
    (offending = some (.token .newline) ↔
      .newline ∈ line ∧ ∃ l : SourceLine, line.takeWhile (· ≠ .newline) <+: l.tokens)

theorem takeWhile_line {ts : List Token} (hts : .newline ∉ ts) (rest : List Token) :
    (ts ++ rest).takeWhile (· ≠ .newline) = ts ++ rest.takeWhile (· ≠ .newline) := by
  refine List.takeWhile_append_of_pos fun t ht => decide_eq_true ?_
  rintro rfl
  exact hts ht

theorem shift_newline_of_ends {stage : Stage} (h : stage.ends = true) :
    shift stage .newline = some (.start, .none) := by
  cases stage <;> first | rfl | cases h

/-- Tokens that are those of a line lead to where a line can end. -/
theorem ends_of_line {ts : List Token} {stage : Stage} {l : SourceLine}
    (h : stageAfter ts = some stage) (hl : ts = l.tokens) : stage.ends = true := by
  obtain ⟨stage', hstage', hends⟩ := stageAfter_line l
  rw [← hl, h] at hstage'
  rwa [Option.some.inj hstage']

/-- No line of the grammar begins with tokens of which the last one cannot be shifted. -/
theorem not_prefix_of_not_shift {ts : List Token} {stage : Stage} {t : Token}
    (hstage : stageAfter ts = some stage) (hshift : shift stage t = none) (more : List Token)
    (l : SourceLine) : ¬ ts ++ t :: more <+: l.tokens := by
  intro hl
  have hnone : stageAfter (ts ++ [t]) = none := by
    rw [stageAfter_append, hstage, Option.bind_some, hshift]
    rfl
  obtain ⟨stage', hstage', -⟩ := stageAfter_line l
  have hfront : ts ++ [t] <+: l.tokens := by
    refine List.IsPrefix.trans ⟨more, ?_⟩ hl
    rw [List.append_assoc, List.singleton_append]
  have hsome := stageAfter_prefix hfront (by rw [hstage']; rfl)
  rw [hnone] at hsome
  cases hsome

theorem atFault_of_stuck {b : ParseState} {ts : List Token} (h : InLine b ts) {xs : List Lexed}
    (hstuck : stuck b xs.head? = true) : AtFault (ts ++ xs.filterMap Lexed.token?) xs.head? := by
  obtain ⟨hts, hstage⟩ := h
  have hafter : b.errStatus = 0 → stageAfter ts = some b.stage := by
    intro herr
    refine hstage.resolve_right fun hdone => ?_
    rw [herr] at hdone
    cases hdone.2
  cases xs with
  | nil =>
    simp only [List.head?_nil, stuck, Bool.and_eq_true, beq_iff_eq, Bool.not_eq_true'] at hstuck
    obtain ⟨herr, hends⟩ := hstuck
    rw [List.filterMap_nil, AtFault, takeWhile_line hts, List.takeWhile_nil, List.append_nil]
    refine ⟨fun l hl => ?_, iff_of_false (by simp) fun h => hts h.1⟩
    exact Bool.false_ne_true (hends.symm.trans (ends_of_line (hafter herr) hl))
  | cons x xs =>
    cases x with
    | skip | unexpected => cases hstuck
    | token t =>
      simp only [List.head?_cons, stuck, Bool.and_eq_true, beq_iff_eq,
        Option.isNone_iff_eq_none] at hstuck
      obtain ⟨herr, hshift⟩ := hstuck
      rw [List.filterMap_cons_some (rfl : Lexed.token? (.token t) = some t), AtFault,
        takeWhile_line hts]
      by_cases ht : t = .newline
      · subst ht
        rw [List.takeWhile_cons_of_neg (by simp), List.append_nil]
        refine ⟨fun l hl => ?_, iff_of_true rfl ⟨by simp, ?_⟩⟩
        · rw [shift_newline_of_ends (ends_of_line (hafter herr) hl)] at hshift
          cases hshift
        · exact prefix_of_stageAfter hts (hafter herr)
      · have hprefix := not_prefix_of_not_shift (hafter herr) hshift
        rw [List.takeWhile_cons_of_pos (by simpa using ht)]
        refine ⟨fun l hl => hprefix _ l ⟨[], by rw [List.append_nil, hl]⟩, iff_of_false ?_ ?_⟩
        · simpa using ht
        · intro ⟨_, l, hl⟩
          exact hprefix _ l hl

theorem linesAfter_line {ts : List Token} (hts : .newline ∉ ts) (n : Nat) (rest : List Token) :
    linesAfter (n + 1) (ts ++ .newline :: rest) = linesAfter n rest := by
  have hdrop : (ts ++ .newline :: rest).dropWhile (· ≠ .newline) = .newline :: rest := by
    rw [List.dropWhile_append_of_pos fun t ht => decide_eq_true (by rintro rfl; exact hts ht)]
    rfl
  rw [linesAfter, hdrop, List.tail_cons]

/-- A newline takes the current line off the front, and any other match goes on with it. -/
theorem linesAfter_cons {ts : List Token} (hts : .newline ∉ ts) (x : Lexed) (before xs : List Lexed) :
    linesAfter (newlines (x :: before)) (ts ++ (x :: xs).filterMap Lexed.token?) =
      linesAfter (newlines before) (lineAfter ts x ++ xs.filterMap Lexed.token?) := by
  cases x with
  | skip | unexpected =>
    rw [List.filterMap_cons_none rfl, newlines, List.count_cons_of_ne (by simp)]
    rfl
  | token t =>
    rw [List.filterMap_cons_some (rfl : Lexed.token? (.token t) = some t)]
    by_cases ht : t = .newline
    · subst ht
      rw [newlines, List.count_cons_self, linesAfter_line hts]
      rfl
    · have hafter : lineAfter ts (.token t) = ts ++ [t] := by
        cases t with
        | newline => exact absurd rfl ht
        | _ => rfl
      rw [hafter, List.append_assoc, newlines, List.count_cons_of_ne (by simpa using ht)]
      rfl

/-- The line of an offence, among the tokens from the current line on -/
theorem atFault_of_offence {b : ParseState} {ts : List Token} {xs : List Lexed} {o : Offence}
    (h : InLine b ts) (ho : offenceFrom b xs = some o) :
    AtFault (linesAfter (newlines o.before) (ts ++ xs.filterMap Lexed.token?)) o.offending := by
  induction xs generalizing b ts o with
  | nil =>
    rw [offenceFrom] at ho
    split at ho
    next hstuck =>
      cases ho
      exact @atFault_of_stuck b ts h [] hstuck
    · cases ho
  | cons x xs ih =>
    rw [offenceFrom] at ho
    split at ho
    next hstuck =>
      cases ho
      exact @atFault_of_stuck b ts h (x :: xs) hstuck
    next hstuck =>
      obtain ⟨o', ho', rfl⟩ := Option.map_eq_some_iff.mp ho
      have hnext := ih (inLine_lexStep h (Bool.eq_false_iff.mpr hstuck)) ho'
      rw [← linesAfter_cons h.1] at hnext
      exact hnext

theorem atFault_of_firstOffence {text : List Char} {inputFile : String} {o : Offence}
    (h : firstOffence text inputFile = some o) :
    IllFormed text o.line ∧ (o.offending = some (.token .newline) ↔ CutShort text o.line) :=
  @atFault_of_offence ⟨1, .start, 0, freshSession inputFile⟩ [] _ _
    ⟨List.not_mem_nil, .inl rfl⟩ h

/-- The first report is the one of the first offence, on its line or on the next one. -/
theorem lineNum_firstSyntaxError (text : List Char) (inputFile : String) :
    (firstSyntaxError (rbmlParse text (freshSession inputFile)).parser).map Diagnostic.lineNum =
      (firstOffence text inputFile).map (Offence.reportedLine 1) :=
  @firstSyntaxError_run ⟨1, .start, 0, freshSession inputFile⟩ (List.forall_mem_nil _)
    (.inl rfl) (lex text)

/-- The first syntax error is reported on its line exactly if the newline of the line does not cut its
statement short. -/
theorem reportedOnItsLine_iff (text : List Char) (inputFile : String) :
    ReportedOnItsLine text inputFile ↔
      ∀ o, firstOffence text inputFile = some o → ¬ CutShort text o.line := by
  have hreport := lineNum_firstSyntaxError text inputFile
  constructor
  · intro h o ho hcut
    rw [ho] at hreport
    obtain ⟨d, hd, hline⟩ := Option.map_eq_some_iff.mp hreport
    obtain ⟨o', ho', -, hline'⟩ := h d hd
    obtain rfl := Option.some.inj (ho.symm.trans ho')
    have hnewline := (atFault_of_firstOffence ho).2.mpr hcut
    rw [hline', Offence.reportedLine, if_pos hnewline, Offence.line] at hline
    omega
  · intro h d hd
    rw [hd] at hreport
    obtain ⟨o, ho, hline⟩ := Option.map_eq_some_iff.mp hreport.symm
    obtain ⟨hill, hcut⟩ := atFault_of_firstOffence ho
    refine ⟨o, ho, hill, ?_⟩
    rw [Offence.reportedLine, if_neg fun hnewline => h o ho (hcut.mp hnewline)] at hline
    rw [← hline, Offence.line]
    omega

/-- An identifier alone in the first line is reported in the second one. -/
theorem not_reportedOnItsLine : ¬ ReportedOnItsLine ['\t', 'S', 'D', 'F', '\n'] "" := by
  intro h
  have hoffence : firstOffence ['\t', 'S', 'D', 'F', '\n'] "" =
      some ⟨[.skip, .token (.ident "SDF")], some (.token .newline)⟩ := by decide +kernel
  have hreport := lineNum_firstSyntaxError ['\t', 'S', 'D', 'F', '\n'] ""
  rw [hoffence] at hreport
  obtain ⟨d, hd, hline⟩ := Option.map_eq_some_iff.mp hreport
  obtain ⟨o, ho, -, hline'⟩ := h d hd
  rw [hoffence] at ho
  obtain rfl := Option.some.inj ho
  exact absurd (hline.symm.trans hline') (by decide)

end Rbml.Asm
