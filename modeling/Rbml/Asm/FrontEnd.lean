import Rbml.Asm.Grammar

/-!
# Texts that are parsed without an error

When the parser reports nothing, the text is a source program: its tokens are those of a list of
lines (`rbmlParse_clean`), and the parser has done to the code what its actions do for these lines.
This is what carries the results about lines over to texts.

The invariant of the automaton says what the tokens of the current line are in each of its stages,
and which part of the line has been reduced (`Reads`).
-/

namespace Rbml.Asm

/-- The tokens of the current line so far, and the part of the line that has been reduced -/
inductive Reads : Stage → SourceLine → List Token → Prop
  | start : Reads .start ⟨none, none⟩ []
  | ident (name : String) : Reads (.ident name) ⟨none, none⟩ [.ident name]
  | label (name : String) : Reads .label ⟨some name, none⟩ [.ident name, .colon]
  | word (label : Option String) : Reads .word ⟨label, none⟩ (labelTokens label ++ [.word])
  | inst (label : Option String) (form : Form) (op : Opcode) :
    Reads (.inst form op) ⟨label, none⟩ (labelTokens label ++ [.inst form op])
  | reg (label : Option String) (form : Form) (op : Opcode) (r : Word) :
    Reads (.reg form op r) ⟨label, none⟩ (labelTokens label ++ [.inst form op, .reg r])
  | regComma (label : Option String) (form : Form) (op : Opcode) (r : Word) :
    Reads (.regComma form op r) ⟨label, none⟩ (labelTokens label ++ [.inst form op, .reg r, .comma])
  | number (label : Option String) (op : Opcode) (text : List Char) :
    Reads (.number op text) ⟨label, none⟩ (labelTokens label ++ [.inst .inst2nr op, .number text])
  | numberComma (label : Option String) (op : Opcode) (text : List Char) :
    Reads (.numberComma op text) ⟨label, none⟩
      (labelTokens label ++ [.inst .inst2nr op, .number text, .comma])
  | done (label : Option String) (stmt : Statement) :
    Reads .done ⟨label, some stmt⟩ (labelTokens label ++ stmt.tokens)

/-- What a shift adds to the current line -/
def Reduces : Reduction → SourceLine → SourceLine → Prop
  | .none, cur, cur' => cur' = cur
  | .label name, cur, cur' => cur = ⟨none, none⟩ ∧ cur' = ⟨some name, none⟩
  | .instruction stmt, cur, cur' => cur.statement = none ∧ cur' = { cur with statement := some stmt }

theorem reads_mnemonic {label : Option String} {t : Token} {stage : Stage} {reduction : Reduction}
    (h : shiftMnemonic t = some (stage, reduction)) :
    ∃ cur', Reduces reduction ⟨label, none⟩ cur' ∧ Reads stage cur' (labelTokens label ++ [t]) := by
  cases t with
  | word =>
    cases h
    exact ⟨_, rfl, .word label⟩
  | inst form op =>
    cases form with
    | inst0 =>
      cases h
      exact ⟨_, ⟨rfl, rfl⟩, .done label (.inst0 op)⟩
    | inst1a | inst1r | inst2rr | inst2ra | inst2nr =>
      cases h
      exact ⟨_, rfl, .inst label _ op⟩
  | _ => cases h

/-- The first operand of an instruction -/
theorem reads_inst {label : Option String} {form : Form} {op : Opcode} {t : Token} {stage : Stage}
    {reduction : Reduction} (h : shift (.inst form op) t = some (stage, reduction)) :
    ∃ cur', Reduces reduction ⟨label, none⟩ cur' ∧
      Reads stage cur' (labelTokens label ++ [.inst form op, t]) := by
  cases form with
  | inst0 => cases t <;> cases h
  | inst1a =>
    cases t with
    | ident name =>
      cases h
      exact ⟨_, ⟨rfl, rfl⟩, .done label (.inst1a op name)⟩
    | _ => cases h
  | inst1r =>
    cases t with
    | reg r =>
      cases h
      exact ⟨_, ⟨rfl, rfl⟩, .done label (.inst1r op r)⟩
    | _ => cases h
  | inst2rr | inst2ra =>
    cases t with
    | reg r =>
      cases h
      exact ⟨_, rfl, .reg label _ op r⟩
    | _ => cases h
  | inst2nr =>
    cases t with
    | number text =>
      cases h
      exact ⟨_, rfl, .number label op text⟩
    | _ => cases h

/-- The second operand of an instruction, where the first one is a register -/
theorem reads_regComma {label : Option String} {form : Form} {op : Opcode} {r : Word} {t : Token}
    {stage : Stage} {reduction : Reduction}
    (h : shift (.regComma form op r) t = some (stage, reduction)) :
    ∃ cur', Reduces reduction ⟨label, none⟩ cur' ∧
      Reads stage cur' (labelTokens label ++ [.inst form op, .reg r, .comma, t]) := by
  cases form with
  | inst2rr =>
    cases t with
    | reg r' =>
      cases h
      exact ⟨_, ⟨rfl, rfl⟩, .done label (.inst2rr op r r')⟩
    | _ => cases h
  | inst2ra =>
    cases t with
    | ident name =>
      cases h
      exact ⟨_, ⟨rfl, rfl⟩, .done label (.inst2ra op r name)⟩
    | _ => cases h
  | _ => cases t <;> cases h

/-- One token of a line that is not its newline -/
theorem reads_shift {stage stage' : Stage} {cur : SourceLine} {ts : List Token} {t : Token}
    {reduction : Reduction} (hreads : Reads stage cur ts) (ht : t ≠ .newline)
    (h : shift stage t = some (stage', reduction)) :
    ∃ cur', Reduces reduction cur cur' ∧ Reads stage' cur' (ts ++ [t]) := by
  cases hreads with
  | start =>
    cases t with
    | newline => exact absurd rfl ht
    | ident name =>
      cases h
      exact ⟨_, rfl, .ident name⟩
    | word | inst form op => exact @reads_mnemonic none _ _ _ h
    | _ => cases h
  | ident name =>
    cases t with
    | colon =>
      cases h
      exact ⟨_, ⟨rfl, rfl⟩, .label name⟩
    | _ => cases h
  | label name =>
    cases t with
    | newline => exact absurd rfl ht
    | word | inst form op => exact @reads_mnemonic (some name) _ _ _ h
    | _ => cases h
  | word label =>
    cases t with
    | number text =>
      cases h
      refine ⟨_, ⟨rfl, rfl⟩, ?_⟩
      rw [List.append_assoc]
      exact .done label (.word text)
    | _ => cases h
  | inst label form op =>
    rw [List.append_assoc]
    exact reads_inst h
  | reg label form op r =>
    cases t with
    | comma =>
      cases h
      refine ⟨_, rfl, ?_⟩
      rw [List.append_assoc]
      exact .regComma label form op r
    | _ => cases h
  | regComma label form op r =>
    rw [List.append_assoc]
    exact reads_regComma h
  | number label op text =>
    cases t with
    | comma =>
      cases h
      refine ⟨_, rfl, ?_⟩
      rw [List.append_assoc]
      exact .numberComma label op text
    | _ => cases h
  | numberComma label op text =>
    cases t with
    | reg r =>
      cases h
      refine ⟨_, ⟨rfl, rfl⟩, ?_⟩
      rw [List.append_assoc]
      exact .done label (.inst2nr op text r)
    | _ => cases h
  | done label stmt =>
    cases t with
    | newline => exact absurd rfl ht
    | _ => cases h

/-- A line can end where its tokens are those of the part that has been reduced. -/
theorem reads_newline {stage stage' : Stage} {cur : SourceLine} {ts : List Token}
    {reduction : Reduction} (hreads : Reads stage cur ts)
    (h : shift stage .newline = some (stage', reduction)) :
    stage' = .start ∧ reduction = .none ∧ ts = cur.tokens := by
  cases hreads with
  | start | label name | done label stmt =>
    cases h
    exact ⟨rfl, rfl, rfl⟩
  | inst label form op => cases form <;> cases h
  | regComma label form op r => cases form <;> cases h
  | ident | word | reg | number | numberComma => cases h

/-- So can a file. -/
theorem reads_end {stage : Stage} {cur : SourceLine} {ts : List Token}
    (hreads : Reads stage cur ts) (hend : stage = .start ∨ stage = .label ∨ stage = .done) :
    ts = cur.tokens := by
  cases hreads with
  | start | label name | done label stmt => rfl
  | ident | word | inst | reg | regComma | number | numberComma => simp at hend

/-! ## The session -/

/-- The label action leaves the parser record, or adds one error to it. -/
theorem parser_of_labelAction (name : String) (st : Session) :
    if (labelAction name st).1 then (labelAction name st).2.parser = st.parser
    else (labelAction name st).2.parser.numErrors = st.parser.numErrors + 1 := by
  unfold labelAction
  split
  · rfl
  · split
    · rfl
    · rfl

/-- A label that is not refused is a line without a statement. -/
theorem parseLine_label {lineNum : Nat} {name : String} {st st' : Session}
    (h : labelAction name (atLine lineNum st) = (true, st')) :
    parseLine ⟨lineNum, some name, none⟩ st = st' := by
  rw [atLine] at h
  simp only [parseLine, h]
  rfl

/-- The part of a line that has been reduced is a line. One without a statement, whose label was not
refused, goes on with the action of the statement. -/
theorem parseLine_statement {lineNum : Nat} {label : Option String} (ins : Instruction)
    {st : Session} (hok : (parseLine ⟨lineNum, label, none⟩ st).parser.numErrors = 0) :
    parseLine ⟨lineNum, label, some ins⟩ st =
      instructionAction ins (parseLine ⟨lineNum, label, none⟩ st) := by
  cases label with
  | none => rfl
  | some name =>
    have hparser := parser_of_labelAction name (atLine lineNum st)
    rcases hresult : labelAction name (atLine lineNum st) with ⟨ok, st'⟩
    rw [hresult] at hparser
    have hline : ∀ opt : Option Instruction, parseLine ⟨lineNum, some name, opt⟩ st =
        if ok then instructionOpt opt st' else st' := by
      intro opt
      rw [atLine] at hresult
      simp only [parseLine, hresult]
      cases ok <;> rfl
    rw [hline] at hok ⊢
    rw [hline]
    cases ok with
    | true => rfl
    | false =>
      simp only [Bool.false_eq_true, if_false] at hparser hok
      omega

/-- What the parser has done to a session, when it has reported nothing: it has read some lines, and
reduced part of the current one. -/
def Clean (st₀ : Session) (consumed : List Token) (b : ParseState) : Prop :=
  b.errStatus = 0 ∧ ∃ lines cur ts, Reads b.stage cur ts ∧
    consumed = (lines.flatMap fun l => l.tokens ++ [.newline]) ++ ts ∧
    b.yylineno = lines.length + 1 ∧
    atLine b.yylineno b.session =
      parseLine (cur.line b.yylineno) (parseLines (linesFrom 1 lines) st₀)

theorem reportSyntaxError_numErrors {b : ParseState} (h : b.errStatus = 0) :
    (reportSyntaxError b).parser.numErrors ≠ 0 := by
  simp only [reportSyntaxError, h, if_true]
  exact Nat.succ_ne_zero _

theorem syntaxError_numErrors {t : Token} {b : ParseState} (h : b.errStatus = 0) :
    (syntaxError t b).session.parser.numErrors ≠ 0 := by
  have hreport := reportSyntaxError_numErrors h
  cases t <;> exact hreport

theorem parseLines_linesFrom_append (lines : List SourceLine) (cur : SourceLine) (st : Session) :
    parseLines (linesFrom 1 (lines ++ [cur])) st =
      parseLine (cur.line (lines.length + 1)) (parseLines (linesFrom 1 lines) st) := by
  rw [linesFrom_append, parseLines, List.foldl_append, Nat.add_comm]
  rfl

/-- A session that is at a line already -/
theorem atLine_eq_self {st : Session} {lineNum : Nat} (h : st.parser.lineNum = lineNum) :
    atLine lineNum st = st := by
  rw [← h]
  rfl

/-- One token that is not a newline, without an error -/
theorem feed_clean {st₀ : Session} {consumed : List Token} {b : ParseState} {t : Token}
    (hclean : Clean st₀ consumed b) (ht : t ≠ .newline)
    (hline : b.session.parser.lineNum = b.yylineno)
    (hok : (feed t b).session.parser.numErrors = 0) :
    Clean st₀ (consumed ++ [t]) (feed t b) := by
  obtain ⟨herr, lines, cur, ts, hreads, rfl, hlineno, hsession⟩ := hclean
  rw [atLine_eq_self hline] at hsession
  cases hshift : shift b.stage t with
  | none =>
    simp only [feed, hshift] at hok
    exact absurd hok (syntaxError_numErrors herr)
  | some next =>
    obtain ⟨stage, reduction⟩ := next
    obtain ⟨cur', hreduces, hreads'⟩ := reads_shift hreads ht hshift
    have hconsumed := List.append_assoc (lines.flatMap fun l => l.tokens ++ [.newline]) ts [t]
    cases reduction with
    | none =>
      simp only [feed, hshift] at hok ⊢
      obtain rfl : cur' = cur := hreduces
      refine ⟨by simp only [herr], lines, cur', ts ++ [t], hreads', hconsumed, hlineno, ?_⟩
      show atLine b.yylineno b.session = _
      rw [atLine_eq_self hline, hsession]
    | label name =>
      obtain ⟨rfl, rfl⟩ := hreduces
      have hparser := parser_of_labelAction name b.session
      simp only [feed, hshift] at hok ⊢
      rcases hresult : labelAction name b.session with ⟨ok, st'⟩
      rw [hresult] at hok hparser
      cases ok with
      | false =>
        simp only [Bool.false_eq_true, if_false] at hparser
        change st'.parser.numErrors = 0 at hok
        omega
      | true =>
        simp only [if_true] at hparser
        refine ⟨by simp only [herr], lines, _, ts ++ [t], hreads', hconsumed, hlineno, ?_⟩
        show atLine b.yylineno st' = parseLine ⟨b.yylineno, some name, none⟩ _
        change b.session = atLine b.yylineno (parseLines (linesFrom 1 lines) st₀) at hsession
        rw [atLine_eq_self (hparser ▸ hline), parseLine_label (hsession ▸ hresult)]
    | instruction stmt =>
      obtain ⟨hstmt, rfl⟩ := hreduces
      obtain ⟨label, statement⟩ := cur
      obtain rfl : statement = none := hstmt
      simp only [feed, hshift] at hok ⊢
      rw [parser_instructionAction] at hok
      refine ⟨by simp only [herr], lines, _, ts ++ [t], hreads', hconsumed, hlineno, ?_⟩
      show atLine b.yylineno (instructionAction stmt.instruction b.session) =
        parseLine ⟨b.yylineno, label, some stmt.instruction⟩ _
      change b.session = parseLine ⟨b.yylineno, label, none⟩ _ at hsession
      rw [atLine_eq_self (by rw [parser_instructionAction, hline]),
        parseLine_statement stmt.instruction (hsession ▸ hok), ← hsession]

/-- A newline without an error: the current line is complete, and the next one is empty. -/
theorem feed_newline_clean {st₀ : Session} {consumed : List Token} {b : ParseState}
    (hclean : Clean st₀ consumed b)
    (hok : (feed .newline (b.moveTo (b.yylineno + 1))).session.parser.numErrors = 0) :
    Clean st₀ (consumed ++ [.newline]) (feed .newline (b.moveTo (b.yylineno + 1))) := by
  obtain ⟨herr, lines, cur, ts, hreads, rfl, hlineno, hsession⟩ := hclean
  cases hshift : shift b.stage .newline with
  | none =>
    simp only [feed, ParseState.moveTo_stage, hshift] at hok
    exact absurd hok (syntaxError_numErrors herr)
  | some next =>
    obtain ⟨stage, reduction⟩ := next
    obtain ⟨rfl, rfl, rfl⟩ := reads_newline hreads hshift
    simp only [feed, ParseState.moveTo_stage, hshift]
    refine ⟨by simp only [ParseState.moveTo, herr], lines ++ [cur], ⟨none, none⟩, [], .start,
      ?_, ?_, ?_⟩
    · simp only [List.flatMap_append, List.flatMap_cons, List.flatMap_nil, List.append_assoc,
        List.append_nil]
    · simp only [ParseState.moveTo, hlineno, List.length_append, List.length_singleton]
    · show atLine (b.yylineno + 1) b.session =
        atLine (b.yylineno + 1) (parseLines (linesFrom 1 (lines ++ [cur])) st₀)
      rw [parseLines_linesFrom_append, ← hlineno, ← hsession]
      rfl

theorem lexStep_clean {st₀ : Session} {consumed : List Token} {b : ParseState} {x : Lexed}
    (hclean : Clean st₀ consumed b) (hok : (lexStep b x).session.parser.numErrors = 0) :
    x ≠ .unexpected ∧ Clean st₀ (consumed ++ x.token?.toList) (lexStep b x) := by
  have hmove : Clean st₀ consumed (b.moveTo b.yylineno) := hclean
  cases x with
  | skip =>
    refine ⟨nofun, ?_⟩
    show Clean st₀ (consumed ++ []) (lexStep b .skip)
    rw [lexStep_skip, List.append_nil]
    exact hmove
  | unexpected => exact absurd hok (Nat.succ_ne_zero _)
  | token t =>
    refine ⟨nofun, ?_⟩
    by_cases ht : t = .newline
    · subst ht
      exact feed_newline_clean hclean hok
    · rw [lexStep_token ht] at hok ⊢
      exact feed_clean hmove ht rfl hok

/-! ## The whole text -/

theorem numErrors_reportSyntaxError (b : ParseState) :
    b.session.parser.numErrors ≤ (reportSyntaxError b).parser.numErrors := by
  unfold reportSyntaxError
  split
  · exact Nat.le_succ _
  · exact Nat.le_refl _

theorem numErrors_feed (t : Token) (b : ParseState) :
    b.session.parser.numErrors ≤ (feed t b).session.parser.numErrors := by
  unfold feed
  split
  · have hreport := numErrors_reportSyntaxError b
    cases t <;> exact hreport
  · exact Nat.le_refl _
  · next name _ =>
    have hparser := parser_of_labelAction name b.session
    rcases hresult : labelAction name b.session with ⟨ok, st'⟩
    rw [hresult] at hparser
    cases ok with
    | true =>
      simp only [if_true] at hparser
      exact Nat.le_of_eq (congrArg Parser.numErrors hparser.symm)
    | false =>
      simp only [Bool.false_eq_true, if_false] at hparser
      show b.session.parser.numErrors ≤ st'.parser.numErrors
      omega
  · show _ ≤ (instructionAction _ b.session).parser.numErrors
    rw [parser_instructionAction]

/-- An error that has been counted stays. -/
theorem numErrors_lexStep (b : ParseState) (x : Lexed) :
    b.session.parser.numErrors ≤ (lexStep b x).session.parser.numErrors := by
  cases x with
  | skip => exact Nat.le_refl _
  | unexpected => exact Nat.le_succ _
  | token t =>
    exact numErrors_feed t
      (b.moveTo (if Lexed.token t = .token .newline then b.yylineno + 1 else b.yylineno))

theorem numErrors_lexSteps (xs : List Lexed) (b : ParseState) :
    b.session.parser.numErrors ≤ (xs.foldl lexStep b).session.parser.numErrors := by
  induction xs generalizing b with
  | nil => exact Nat.le_refl _
  | cons x xs ih => exact Nat.le_trans (numErrors_lexStep b x) (ih (lexStep b x))

theorem lexSteps_clean {st₀ : Session} {xs : List Lexed} {consumed : List Token} {b : ParseState}
    (hclean : Clean st₀ consumed b)
    (hok : (xs.foldl lexStep b).session.parser.numErrors = 0) :
    .unexpected ∉ xs ∧
      Clean st₀ (consumed ++ xs.filterMap Lexed.token?) (xs.foldl lexStep b) := by
  induction xs generalizing consumed b with
  | nil => exact ⟨List.not_mem_nil, by rwa [List.filterMap_nil, List.append_nil]⟩
  | cons x xs ih =>
    have hstep : (lexStep b x).session.parser.numErrors = 0 :=
      Nat.eq_zero_of_le_zero (hok ▸ numErrors_lexSteps xs (lexStep b x))
    obtain ⟨hx, hclean'⟩ := lexStep_clean hclean hstep
    obtain ⟨hxs, hend⟩ := ih hclean' hok
    refine ⟨?_, ?_⟩
    · intro hmem
      rcases List.mem_cons.mp hmem with h | h
      · exact hx h.symm
      · exact hxs h
    · rw [List.append_assoc] at hend
      cases hx' : x.token? with
      | none =>
        rw [hx'] at hend
        rw [List.filterMap_cons_none hx']
        exact hend
      | some t =>
        rw [hx'] at hend
        rw [List.filterMap_cons_some hx']
        exact hend

/-- A text that is parsed without a report is a program: its tokens are those of some lines, none of
its characters is unexpected, and the parser did for it what its actions do for these lines. -/
theorem rbmlParse_clean {text : List Char} {st : Session}
    (hok : (rbmlParse text st).parser.numErrors = 0) :
    ∃ lines, lines ≠ [] ∧ tokens text = sourceTokens lines ∧ .unexpected ∉ lex text ∧
      ∃ lineNum, atLine lineNum (rbmlParse text st) = parseLines (linesFrom 1 lines) st := by
  have hstart : Clean st [] ⟨1, .start, 0, st⟩ := ⟨rfl, [], ⟨none, none⟩, [], .start, rfl, rfl, rfl⟩
  rw [rbmlParse] at hok ⊢
  generalize hb : (lex text).foldl lexStep ⟨1, .start, 0, st⟩ = b at hok ⊢
  by_cases hstage : b.stage = .start ∨ b.stage = .label ∨ b.stage = .done
  · have hend : parseEnd b = b.session := by
      rcases hstage with h | h | h <;> simp only [parseEnd, h]
    rw [hend] at hok ⊢
    obtain ⟨hunexpected, hclean⟩ := lexSteps_clean hstart (hb ▸ hok)
    rw [hb, List.nil_append] at hclean
    obtain ⟨_, lines, cur, ts, hreads, htokens, hlineno, hsession⟩ := hclean
    refine ⟨lines ++ [cur], List.append_ne_nil_of_right_ne_nil _ (List.cons_ne_nil _ _), ?_,
      hunexpected, b.yylineno, ?_⟩
    · rw [tokens, htokens, sourceTokens_append, reads_end hreads hstage]
    · rw [hsession, parseLines_linesFrom_append, hlineno]
  · have hend : parseEnd b = reportSyntaxError b := by
      simp only [not_or] at hstage
      cases h : b.stage <;> simp only [h, parseEnd, reduceCtorEq, not_true_eq_false,
        false_and, and_false] at hstage ⊢
    rw [hend] at hok
    have hsession := Nat.eq_zero_of_le_zero (hok ▸ numErrors_reportSyntaxError b)
    obtain ⟨_, hclean⟩ := lexSteps_clean hstart (hb ▸ hsession)
    rw [hb] at hclean
    exact absurd hok (reportSyntaxError_numErrors hclean.1)

end Rbml.Asm
