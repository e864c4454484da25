import Rbml.Asm.Literals
import Rbml.Asm.MpcFrontEnd

/-!
# Where the two front ends agree

A file that both front ends accept is written as some lines (`program_of_accepted`), and the other
front end emits the words of the `WORD` statements among them and no others (`emits_words`). Line by
line: what the scanner makes of a line (`lex_split` and the lemmas after it) is compared with what the
grammar has read of it (`MpcGrammar.mpcParse_line`), which begins with the same label, and goes on with
`WORD` and the same number or with another mnemonic.

So the two emit the same words exactly for programs of `WORD` statements (`front_ends_agree_iff`).
-/

namespace Rbml.Asm

open Rbml.Lib
open Rbml.Mpc
open Rbml.Asm.MpcGrammar
open Rbml.Asm.MpcFrontEnd

/-! ## Blanks and numbers -/

theorem isSeparator_of_white {c : Char} (hc : isWhitespace c = true) : isSeparator c = true := by
  simp only [isWhitespace, Bool.or_eq_true, beq_iff_eq] at hc
  rcases hc with ((((rfl | rfl) | rfl) | rfl) | rfl) | rfl <;> decide

theorem lex_white {w : List Char} (hw : White w) (rest : List Char) :
    lex (w ++ rest) = w.map charLexed ++ lex rest :=
  lex_separators (fun c hc => isSeparator_of_white (hw c hc)) rest

/-- Blanks are no tokens. -/
theorem tokens_map_white {w : List Char} (hw : White w) (hnewline : '\n' ∉ w) :
    (w.map charLexed).filterMap Lexed.token? = [] := by
  rw [List.filterMap_map, List.filterMap_eq_nil_iff]
  intro c hc
  have hwhite := hw c hc
  have hne : c ≠ '\n' := fun h => hnewline (h ▸ hc)
  simp only [isWhitespace, Bool.or_eq_true, beq_iff_eq] at hwhite
  rcases hwhite with ((((rfl | rfl) | rfl) | rfl) | rfl) | rfl
  all_goals first | rfl | exact absurd rfl hne

theorem tokens_white {w : List Char} (hw : White w) (hnewline : '\n' ∉ w) (rest : List Char) :
    tokens (w ++ rest) = tokens rest := by
  rw [tokens, lex_white hw, List.filterMap_append, tokens_map_white hw hnewline, List.nil_append,
    tokens]

/-- Blanks after a text -/
theorem lex_append_white {m w : List Char} (hm : ';' ∉ m) (hw : White w) :
    lex (m ++ w) = lex m ++ w.map charLexed := by
  cases w with
  | nil => simp
  | cons c w =>
    have hlex := lex_white hw []
    rw [List.append_nil] at hlex
    rw [lex_split (of_isSeparator (isSeparator_of_white (hw c List.mem_cons_self))).1 (.inr hm), hlex]
    exact congrArg (lex m ++ ·) (List.append_nil _)

/-- A number is an optional sign and characters of an identifier. -/
theorem numberText_parts {v : List Char} (h : NumberText v) :
    ∃ s body, v = s ++ body ∧ SignText s ∧ body ≠ [] ∧ ∀ c ∈ body, isIdentRest c = true := by
  cases h with
  | @dec s digits hs hne hdigits =>
    refine ⟨s, digits, rfl, hs, hne, fun c hc => ?_⟩
    rw [isIdentRest, hdigits c hc, Bool.or_true]
  | @hex s digits hs hne hdigits =>
    refine ⟨s, '0' :: 'x' :: digits, rfl, hs, List.cons_ne_nil _ _, ?_⟩
    simp only [List.forall_mem_cons]
    exact ⟨by decide, by decide, fun c hc => isIdentRest_of_isHexDigit (hdigits c hc)⟩

/-- A character that a number does not contain -/
theorem not_mem_numberText {v : List Char} (h : NumberText v) {c : Char}
    (hc : isIdentRest c = false) (hsign : ¬ (c = '+' ∨ c = '-')) : c ∉ v := by
  obtain ⟨s, body, rfl, hs, -, hbody⟩ := numberText_parts h
  intro hmem
  rcases List.mem_append.mp hmem with hmem | hmem
  · rcases hs with rfl | rfl | rfl
    · cases hmem
    · exact hsign (.inl (List.mem_singleton.mp hmem))
    · exact hsign (.inr (List.mem_singleton.mp hmem))
  · exact Bool.false_ne_true (hc.symm.trans (hbody c hmem))

/-- Digits are no hexadecimal constant. -/
theorem unsignedHexLength_digits {digits : List Char} (h : ∀ c ∈ digits, c.isDigit = true) :
    unsignedHexLength digits = 0 := by
  unfold unsignedHexLength
  split
  next x rest =>
    have hx : sameLetter 'x' x = false := sameLetter_of_not_identStart
      (isIdentStart_of_isDigit (h x (List.mem_cons_of_mem _ List.mem_cons_self))) (by decide)
    simp [hx]
  · rfl

/-- The scanner makes a number of it, except where it cannot begin with a sign. -/
theorem lex_numberText {v : List Char} (h : NumberText v) (hunexpected : .unexpected ∉ lex v) :
    lex v = [.token (.number v)] := by
  cases h with
  | @dec s digits hs hne hdigits =>
    have hsign : ∀ c, c = '+' ∨ c = '-' → ¬ Lexed.unexpected ∉ lex (c :: digits) := by
      intro c hc hnot
      have hzero : numberLength (c :: digits) = 0 := by
        rw [numberLength, hexLength, if_pos hc, unsignedHexLength_digits hdigits]
        rcases hc with rfl | rfl <;> rfl
      have hlex : lex (c :: digits) = charLexed c :: lex digits := by
        rcases hc with rfl | rfl
        · exact lex_single (by decide) hzero (by decide)
        · exact lex_single (by decide) hzero (by decide)
      rw [hlex] at hnot
      rcases hc with rfl | rfl <;> exact hnot List.mem_cons_self
    rcases hs with rfl | rfl | rfl
    · refine lex_number ⟨hne, ?_⟩
      have hall : digits.takeWhile Char.isDigit = digits := List.takeWhile_eq_self_iff.mpr hdigits
      rw [List.nil_append, numberLength, hall]
      exact Nat.max_eq_right (hexLength_le digits)
    · exact absurd hunexpected (hsign '+' (.inl rfl))
    · exact absurd hunexpected (hsign '-' (.inr rfl))
  | @hex s digits hs hne hdigits =>
    have hall : digits.takeWhile Char.isHexDigit = digits := List.takeWhile_eq_self_iff.mpr hdigits
    have hpos : 0 < digits.length := List.length_pos_iff.mpr hne
    have hunsigned : unsignedHexLength ('0' :: 'x' :: digits) = digits.length + 2 := by
      rw [unsignedHexLength, hall]
      exact if_pos ⟨by decide, hpos⟩
    have hlength : hexLength (s ++ '0' :: 'x' :: digits) = (s ++ '0' :: 'x' :: digits).length := by
      rcases hs with rfl | rfl | rfl
      · exact hunsigned
      · simp [hexLength, hunsigned]
      · simp [hexLength, hunsigned]
    refine lex_number ⟨List.append_ne_nil_of_right_ne_nil _ (List.cons_ne_nil _ _), ?_⟩
    rw [numberLength, hlength]
    exact Nat.max_eq_left (length_takeWhile_le _ _)

/-! ## One line -/

/-- The word of a `WORD` statement -/
def Statement.wordValue : Statement → Option Word
  | .word text => some (numberValue text)
  | _ => none

/-- `WORD` and a number with nothing between them are one identifier. -/
theorem tokens_word_joined {v w : List Char} (hne : v ≠ []) (hv : ∀ c ∈ v, isIdentRest c = true)
    (hw : White w) (hnewline : '\n' ∉ w) :
    ∃ name, tokens (['W', 'O', 'R', 'D'] ++ (v ++ w)) = [.ident name] := by
  obtain ⟨name, hname⟩ := lex_wordIdent hne hv
  refine ⟨name, ?_⟩
  have hsemi : ';' ∉ ['W', 'O', 'R', 'D'] ++ v := by
    rw [List.mem_append, not_or]
    exact ⟨by decide, fun hmem => absurd (hv ';' hmem) (by decide)⟩
  rw [← List.append_assoc, tokens, lex_append_white hsemi hw, hname, List.filterMap_append,
    tokens_map_white hw hnewline]
  rfl

/-- `WORD` and a number that cannot be read as one identifier are two tokens. -/
theorem tokens_word_apart {w v w' : List Char} {c : Char} {rest : List Char} (hw : White w)
    (hv : NumberText v) (hw' : White w') (hrest : w ++ (v ++ w') = c :: rest)
    (hc : isIdentRest c = false) (hnewline : '\n' ∉ w ∧ '\n' ∉ w')
    (hunexpected : .unexpected ∉ lex (['W', 'O', 'R', 'D'] ++ (w ++ (v ++ w')))) :
    tokens (['W', 'O', 'R', 'D'] ++ (w ++ (v ++ w'))) = [.word, .number v] := by
  have hsemi : ';' ∉ v := not_mem_numberText hv (by decide) (by decide)
  have hlex : lex (['W', 'O', 'R', 'D'] ++ (w ++ (v ++ w'))) =
      .token .word :: (w.map charLexed ++ (lex v ++ w'.map charLexed)) := by
    rw [hrest, lex_word hc, ← hrest, lex_white hw, lex_append_white hsemi hw']
  rw [hlex] at hunexpected
  have hnumber : lex v = [.token (.number v)] := by
    refine lex_numberText hv fun hmem => hunexpected ?_
    exact List.mem_cons_of_mem _ (List.mem_append.mpr (.inr (List.mem_append.mpr (.inl hmem))))
  rw [tokens, hlex, hnumber]
  show Token.word :: List.filterMap Lexed.token? _ = _
  rw [List.filterMap_append, List.filterMap_append, tokens_map_white hw hnewline.1,
    tokens_map_white hw' hnewline.2]
  rfl

/-- `WORD` and a number, as the scanner reads them: two tokens, or one identifier -/
theorem tokens_word {w v w' : List Char} (hw : White w) (hv : NumberText v) (hw' : White w')
    (hnewline : '\n' ∉ "WORD".toList ++ w ++ (v ++ w'))
    (hunexpected : .unexpected ∉ lex ("WORD".toList ++ w ++ (v ++ w'))) :
    tokens ("WORD".toList ++ w ++ (v ++ w')) = [.word, .number v] ∨
      ∃ name, tokens ("WORD".toList ++ w ++ (v ++ w')) = [.ident name] := by
  have htext : "WORD".toList ++ w ++ (v ++ w') = ['W', 'O', 'R', 'D'] ++ (w ++ (v ++ w')) :=
    List.append_assoc ['W', 'O', 'R', 'D'] w (v ++ w')
  rw [htext] at hnewline hunexpected ⊢
  have hnewline' : '\n' ∉ w ∧ '\n' ∉ w' := by
    simp only [List.mem_append, not_or] at hnewline
    exact ⟨hnewline.2.1, hnewline.2.2.2⟩
  obtain ⟨s, body, hbody, hs, hne, hident⟩ := numberText_parts hv
  cases w with
  | cons c w =>
    exact .inl (tokens_word_apart hw hv hw' rfl
      (of_isSeparator (isSeparator_of_white (hw c List.mem_cons_self))).1 hnewline' hunexpected)
  | nil =>
    rcases hs with rfl | rfl | rfl
    · rw [List.nil_append] at hbody ⊢
      subst hbody
      exact .inr (tokens_word_joined hne hident hw' hnewline'.2)
    · subst hbody
      exact .inl (tokens_word_apart hw hv hw' rfl (by decide) hnewline' hunexpected)
    · subst hbody
      exact .inl (tokens_word_apart hw hv hw' rfl (by decide) hnewline' hunexpected)

/-- How the mnemonics of the grammar begin -/
theorem mpcMnemonics_head : ∀ u ∈ mpcMnemonics, ∃ c l, u.toList = c :: l ∧ isIdentStart c = true ∧
    sameLetter 'W' c = false := by
  have hheads : ∀ u ∈ mpcMnemonics,
      u.toList.head?.any (fun c => isIdentStart c && !sameLetter 'W' c) = true := by decide
  intro u hu
  have hhead := hheads u hu
  cases hl : u.toList with
  | nil =>
    rw [hl] at hhead
    cases hhead
  | cons c l =>
    rw [hl] at hhead
    obtain ⟨hc, hw⟩ := Bool.and_eq_true_iff.mp hhead
    exact ⟨c, l, rfl, hc, by simpa using hw⟩

/-- Another mnemonic is another token. -/
theorem tokens_other {m : List Char} (hm : OtherText m) :
    ∃ t ts, tokens m = t :: ts ∧ t ≠ .word := by
  obtain ⟨⟨u, hu, rest, rfl⟩, -⟩ := hm
  obtain ⟨c, l, hl, hc, hw⟩ := mpcMnemonics_head u hu
  obtain ⟨t, xs, hlex, hne⟩ := lex_other (l := l ++ rest) hc hw
  refine ⟨t, xs.filterMap Lexed.token?, ?_, hne⟩
  rw [hl, List.cons_append, tokens, hlex]
  rfl

/-- An instruction: the statement that its tokens are those of, and the word that its tree emits -/
theorem instruction_words {w mi : List Char} {pi : List Ast} (hw : White w)
    (h : ReadsInstruction mi pi) {stmt : Option Statement}
    (htokens : tokens (w ++ mi) = (stmt.map Statement.tokens).getD [])
    (hnewline : '\n' ∉ w ++ mi) (hunexpected : .unexpected ∉ lex (w ++ mi)) :
    pi.filterMap childWord = (stmt.bind Statement.wordValue).toList := by
  have hnewline' : '\n' ∉ w ∧ '\n' ∉ mi := by
    rwa [List.mem_append, not_or] at hnewline
  rw [tokens_white hw hnewline'.1] at htokens
  rw [lex_white hw] at hunexpected
  cases h with
  | none =>
    cases stmt with
    | none => rfl
    | some stmt => cases stmt <;> cases htokens
  | word hw₁ hv hw₂ =>
    rename_i v _ _ _
    have hmem : .unexpected ∉ lex _ := fun hmem => hunexpected (List.mem_append.mpr (.inr hmem))
    rcases tokens_word hw₁ hv hw₂ hnewline'.2 hmem with hword | ⟨name, hname⟩
    · rw [hword] at htokens
      cases stmt with
      | none => cases htokens
      | some stmt =>
        obtain rfl : Statement.word v = stmt := statement_tokens_injective htokens
        rfl
    · rw [hname] at htokens
      cases stmt with
      | none => cases htokens
      | some stmt => exact absurd htokens.symm (statement_tokens_ne stmt name [])
  | @other _ a hm ha =>
    obtain ⟨t, ts, ht, hne⟩ := tokens_other hm
    rw [ht] at htokens
    have hnone : childWord a = none := if_neg ha.1
    have hword : stmt.bind Statement.wordValue = none := by
      cases stmt with
      | none => rfl
      | some stmt =>
        cases stmt with
        | word text =>
          exact absurd (List.cons.inj htokens).1 hne
        | _ => rfl
    rw [hword, List.filterMap_cons_none hnone]
    rfl

/-- No instruction contains a colon. -/
theorem instruction_colon {mi : List Char} {pi : List Ast} (h : ReadsInstruction mi pi) :
    ':' ∉ mi := by
  cases h with
  | none => exact List.not_mem_nil
  | word hw hv hw' =>
    simp only [List.mem_append, not_or]
    exact ⟨⟨by decide, white_colon hw⟩, not_mem_numberText hv (by decide) (by decide), white_colon hw'⟩
  | other hm _ => exact hm.2

theorem lineText_eq (l : List Char) : lineText l = l.takeWhile fun c => c ≠ ';' ∧ c ≠ '\x00' := by
  rw [lineText, stripComment, cString, List.takeWhile_takeWhile]
  simp

theorem semicolon_not_mem_lineText (l : List Char) : ';' ∉ lineText l := by
  intro hmem
  rw [lineText_eq] at hmem
  have hne := List.mem_takeWhile_imp hmem
  simp at hne

theorem newline_not_mem_lineText {l : List Char} (h : '\n' ∉ l) : '\n' ∉ lineText l := by
  intro hmem
  rw [lineText_eq] at hmem
  exact h ((List.takeWhile_sublist _).subset hmem)

/-- What the parser does not get of a line is a comment. -/
theorem lex_lineText {l : List Char} (hnewline : '\n' ∉ l) (hunexpected : .unexpected ∉ lex l) :
    .unexpected ∉ lex (lineText l) ∧ tokens (lineText l) = tokens l := by
  have hsplit := List.takeWhile_append_dropWhile (p := fun c => c ≠ ';' ∧ c ≠ '\x00') (l := l)
  rw [← lineText_eq] at hsplit
  cases hrest : l.dropWhile (fun c => c ≠ ';' ∧ c ≠ '\x00') with
  | nil =>
    rw [hrest, List.append_nil] at hsplit
    rw [hsplit]
    exact ⟨hunexpected, rfl⟩
  | cons c rest =>
    rw [hrest] at hsplit
    have hc : c = ';' ∨ c = '\x00' := by
      have hnot := List.head?_dropWhile_not (fun c => decide (c ≠ ';' ∧ c ≠ '\x00')) l
      rw [hrest] at hnot
      simp only [List.head?_cons, decide_eq_false_iff_not, not_and_or, not_not] at hnot
      exact hnot
    have hbreak : isIdentRest c = false := by
      rcases hc with rfl | rfl <;> decide
    have hlex : lex l = lex (lineText l) ++ lex (c :: rest) := by
      rw [← lex_split hbreak (.inr (semicolon_not_mem_lineText l)), hsplit]
    rcases hc with rfl | rfl
    · have hrest' : '\n' ∉ rest := fun hmem => hnewline (hsplit ▸
        List.mem_append.mpr (.inr (List.mem_cons_of_mem _ hmem)))
      rw [lex_comment hrest'] at hlex
      refine ⟨fun hmem => hunexpected (hlex ▸ List.mem_append.mpr (.inl hmem)), ?_⟩
      rw [tokens, tokens, hlex, List.filterMap_append]
      exact (List.append_nil _).symm
    · rw [lex_separator (by decide)] at hlex
      refine absurd ?_ hunexpected
      rw [hlex]
      exact List.mem_append.mpr (.inr List.mem_cons_self)

theorem colon_not_mem_statement (stmt : Option Statement) :
    .colon ∉ (stmt.map Statement.tokens).getD [] := by
  cases stmt with
  | none => exact List.not_mem_nil
  | some stmt => cases stmt <;> simp [Statement.tokens]

/-- The tokens after a colon are those of the statement. -/
theorem tokens_after_colon {sl : SourceLine} {ts ts' : List Token}
    (h : sl.tokens = ts ++ .colon :: ts') : ts' = (sl.statement.map Statement.tokens).getD [] := by
  obtain ⟨label, stmt⟩ := sl
  have hnone := colon_not_mem_statement stmt
  have hcolon : Token.colon ∈ ts ++ .colon :: ts' := List.mem_append.mpr (.inr List.mem_cons_self)
  cases label with
  | none =>
    change (stmt.map Statement.tokens).getD [] = _ at h
    exact absurd (h ▸ hcolon) hnone
  | some name =>
    change .ident name :: .colon :: (stmt.map Statement.tokens).getD [] = _ at h
    match ts with
    | [] => cases (List.cons.inj h).1
    | [_] => exact (List.cons.inj (List.cons.inj h).2).2.symm
    | _ :: _ :: ts =>
      have htail : (stmt.map Statement.tokens).getD [] = ts ++ .colon :: ts' :=
        (List.cons.inj (List.cons.inj h).2).2
      exact absurd (htail ▸ List.mem_append.mpr (.inr List.mem_cons_self)) hnone

/-- Without a colon the tokens are those of the statement. -/
theorem tokens_without_colon {sl : SourceLine} (h : .colon ∉ sl.tokens) :
    sl.tokens = (sl.statement.map Statement.tokens).getD [] := by
  obtain ⟨label, stmt⟩ := sl
  cases label with
  | none => rfl
  | some name => exact absurd (List.mem_cons_of_mem _ List.mem_cons_self) h

/-- A label emits nothing, and what follows it are the tokens of the statement. -/
theorem tokens_after_label {w ml mi : List Char} {pl pi : List Ast} (hw : White w)
    (hlabel : ReadsLabel ml pl) (hins : ReadsInstruction mi pi) {sl : SourceLine}
    (htokens : tokens (w ++ (ml ++ mi)) = sl.tokens) (hsemi : ';' ∉ w ++ (ml ++ mi))
    (hnewline : '\n' ∉ w ++ (ml ++ mi)) (hunexpected : .unexpected ∉ lex (w ++ (ml ++ mi))) :
    pl.filterMap childWord = [] ∧ ∃ w', White w' ∧ '\n' ∉ w' ++ mi ∧ .unexpected ∉ lex (w' ++ mi) ∧
      tokens (w' ++ mi) = (sl.statement.map Statement.tokens).getD [] := by
  cases hlabel with
  | none =>
    rw [List.nil_append] at hunexpected htokens hnewline
    refine ⟨rfl, w, hw, hnewline, hunexpected, ?_⟩
    have hcolon : ':' ∉ w ++ mi := by
      rw [List.mem_append, not_or]
      exact ⟨white_colon hw, instruction_colon hins⟩
    rw [htokens]
    refine tokens_without_colon fun hmem => hcolon ?_
    rw [← htokens] at hmem
    exact mem_of_controlToken (c := ':') (by decide) (mem_tokens.mp hmem)
  | @label name w₁ w' tag tag' hw₁ hw' =>
    have hparts : w ++ (name ++ w₁ ++ (':' :: w') ++ mi) =
        (w ++ (name ++ w₁)) ++ ':' :: (w' ++ mi) := by
      simp only [List.append_assoc, List.cons_append]
    rw [hparts] at hunexpected htokens hnewline hsemi
    have hsemi' : ';' ∉ w ++ (name ++ w₁) := fun hmem => hsemi (List.mem_append.mpr (.inl hmem))
    have hlex : lex ((w ++ (name ++ w₁)) ++ ':' :: (w' ++ mi)) =
        lex (w ++ (name ++ w₁)) ++ .token .colon :: lex (w' ++ mi) := by
      rw [lex_split (by decide) (.inr hsemi'), lex_colon]
    refine ⟨List.filterMap_cons_none (if_neg ?_), w', hw', ?_, ?_, ?_⟩
    · show "label|>" ≠ "word|>"
      decide
    · intro hmem
      exact hnewline (List.mem_append.mpr (.inr (List.mem_cons_of_mem _ hmem)))
    · intro hmem
      rw [hlex] at hunexpected
      exact hunexpected (List.mem_append.mpr (.inr (List.mem_cons_of_mem _ hmem)))
    · rw [tokens, hlex, List.filterMap_append] at htokens
      exact tokens_after_colon htokens.symm

/-- A line that both front ends have read: the word that the other one emits for it -/
theorem line_words {l : List Char} {ws : List Word} (hnewline : '\n' ∉ l) (h : EmitsLine l ws)
    {sl : SourceLine} (htokens : tokens l = sl.tokens) (hunexpected : .unexpected ∉ lex l) :
    ws = (sl.statement.bind Statement.wordValue).toList := by
  obtain ⟨a, hparse, hws⟩ := h
  obtain ⟨w, ml, mi, pl, pi, a', htext, hw, hlabel, hins, ha, hchildren⟩ := mpcParse_line hparse
  obtain rfl := Option.some.inj ha
  obtain ⟨hunexpected', htokens'⟩ := lex_lineText hnewline hunexpected
  have hnewline' := newline_not_mem_lineText hnewline
  have hsemi := semicolon_not_mem_lineText l
  rw [htokens] at htokens'
  rw [htext] at hunexpected' htokens' hnewline' hsemi
  obtain ⟨hpl, w', hw', hnewline₂, hunexpected₂, htokens₂⟩ :=
    tokens_after_label hw hlabel hins htokens' hsemi hnewline' hunexpected'
  have hregex : childWord (.node "regex" [] []) = none := if_neg (by decide)
  rw [hws, hchildren, List.filterMap_append, List.filterMap_cons_none hregex, List.filterMap_append,
    hpl, instruction_words hw' hins htokens₂ hnewline₂ hunexpected₂, List.filterMap_cons_none hregex]
  exact List.append_nil _

/-! ## All lines -/

/-- The words of the `WORD` statements of some lines -/
def wordValues (lines : List SourceLine) : List Word :=
  (statements lines).filterMap Statement.wordValue

theorem wordValues_cons (sl : SourceLine) (lines : List SourceLine) :
    wordValues (sl :: lines) = (sl.statement.bind Statement.wordValue).toList ++ wordValues lines := by
  rw [wordValues, statements, List.filterMap_cons]
  cases sl.statement with
  | none => rfl
  | some stmt =>
    rw [List.filterMap_cons]
    cases hw : stmt.wordValue with
    | none => simp [hw, wordValues, statements]
    | some w => simp [hw, wordValues, statements]

theorem newline_not_mem_lineTokens {l : List Char} (h : '\n' ∉ l) : .newline ∉ tokens l := fun hmem =>
  h (mem_of_controlToken (c := '\n') (by decide) (mem_tokens.mp hmem))

theorem tokens_line {l : List Char} (rest : List Char) :
    tokens (l ++ '\n' :: rest) = tokens l ++ .newline :: tokens rest := by
  rw [tokens, lex_split (by decide) (.inl rfl), lex_newline, List.filterMap_append]
  rfl

/-- A file that both front ends have read: the other one emits the words of its `WORD` statements. -/
theorem emits_words {text : List Char} {ws : List Word} (h : Emits text ws) {lines : List SourceLine}
    (htokens : (tokens text).splitOn .newline = lines.map SourceLine.tokens)
    (hunexpected : .unexpected ∉ lex text) : ws = wordValues lines := by
  -- the last line, which may be empty
  have hlast : ∀ (l : List Char) (ws : List Word) (lines : List SourceLine), '\n' ∉ l →
      EmitsLine l ws → .unexpected ∉ lex l →
        (tokens l).splitOn .newline = lines.map SourceLine.tokens → ws = wordValues lines := by
    intro l ws lines hl hline hunexpected htokens
    rw [List.splitOn_eq_singleton (newline_not_mem_lineTokens hl)] at htokens
    cases lines with
    | nil => cases htokens
    | cons sl lines =>
      obtain ⟨hsl, hnil⟩ := List.cons.inj htokens
      obtain rfl : lines = [] := List.map_eq_nil_iff.mp hnil.symm
      rw [line_words hl hline hsl hunexpected, wordValues_cons]
      exact (List.append_nil _).symm
  induction h generalizing lines with
  | eof => exact hlast [] [] lines List.not_mem_nil ⟨_, rfl, rfl⟩ hunexpected htokens
  | last hne hl hline => exact hlast _ _ lines hl hline hunexpected htokens
  | @line l rest ws ws' hl hline hrest ih =>
    have hnewline := newline_not_mem_lineTokens hl
    rw [tokens_line, List.splitOn_append_cons_self_of_not_mem hnewline] at htokens
    rw [lex_split (by decide) (.inl rfl), lex_newline] at hunexpected
    have hunexpected' : .unexpected ∉ lex l ∧ .unexpected ∉ lex rest := by
      simp only [List.mem_append, List.mem_cons, not_or] at hunexpected
      exact ⟨hunexpected.1, hunexpected.2.2⟩
    cases lines with
    | nil => cases htokens
    | cons sl lines =>
      obtain ⟨hsl, hlines⟩ := List.cons.inj htokens
      rw [wordValues_cons, line_words hl hline hsl hunexpected'.1, ih hlines hunexpected'.2]

/-! ## The two compilers -/

theorem encoded_of_wordValue {lines : List SourceLine} {stmt : Statement} {w : Word}
    (h : stmt.wordValue = some w) : stmt.encoded lines = w := by
  cases stmt with
  | word text => exact Option.some.inj h
  | _ => cases h

theorem isSome_wordValue_iff {stmt : Statement} :
    stmt.wordValue.isSome ↔ ∃ number, stmt = .word number := by
  cases stmt <;> simp [Statement.wordValue]

/-- One word for every statement, and the words of the `WORD` statements -/
theorem encoded_eq_wordValues_iff {lines : List SourceLine} :
    (statements lines).map (Statement.encoded lines) = wordValues lines ↔
      ∀ stmt ∈ statements lines, ∃ number, stmt = .word number := by
  constructor
  · intro h
    have hlength : (wordValues lines).length = (statements lines).length := by
      rw [← h, List.length_map]
    intro stmt hstmt
    exact isSome_wordValue_iff.mp (List.filterMap_length_eq_length.mp hlength stmt hstmt)
  · intro h
    have hcongr : ∀ stmt ∈ statements lines,
        stmt.wordValue = (some ∘ Statement.encoded lines) stmt := by
      intro stmt hstmt
      obtain ⟨w, hw⟩ := Option.isSome_iff_exists.mp (isSome_wordValue_iff.mpr (h stmt hstmt))
      rw [hw, Function.comp_apply, encoded_of_wordValue hw]
    rw [wordValues, List.filterMap_congr hcongr, List.filterMap_eq_map]

/-- The text is a program of `WORD` statements. -/
def WordsOnly (text : List Char) : Prop :=
  ∃ lines, WrittenAs text lines ∧ ∀ stmt ∈ statements lines, ∃ number, stmt = .word number

/-- The two compilers emit the same words for a file that both accept exactly where every statement of
it is a `WORD`. -/
theorem front_ends_agree_iff {inputFile : String} {text : List Char} {c c' : Code} {r : Compiled}
    (h : (compile (rbmlParse text) inputFile).written = some c)
    (hr : Settles (compileMpc inputFile text) r) (h' : r.written = some c') :
    c.text = c'.text ↔ WordsOnly text := by
  obtain ⟨lines, hlines, hcompiles⟩ := program_of_accepted h
  have htokens : (tokens text).splitOn .newline = lines.map SourceLine.tokens := by
    rw [hlines.2.1, splitOn_sourceTokens hlines.1]
  have htext : c'.text = wordValues lines := emits_words (compileMpc_emits hr h') htokens hlines.2.2
  have hwords : c.text = c'.text ↔ ∀ stmt ∈ statements lines, ∃ number, stmt = .word number := by
    rw [hcompiles.text, htext]
    exact encoded_eq_wordValues_iff
  rw [hwords]
  constructor
  · intro hall
    exact ⟨lines, hlines, hall⟩
  · intro ⟨lines', hlines', hall⟩
    obtain rfl := writtenAs_unique hlines hlines'
    exact hall

/-- A file with labels, comments and three `WORD` lines -/
def labelledWords : List Char :=
  ['a', ':', ' ', 'W', 'O', 'R', 'D', ' ', '5', ' ', ';', ' ', 'f', 'i', 'v', 'e', '\n',
   ';', ' ', 'n', 'o', 'n', 'e', '\n', 'b', ':', '\n',
   'W', 'O', 'R', 'D', ' ', '0', 'x', '1', 'f', '\n', 'W', 'O', 'R', 'D', ' ', '7', '\n']

/-- Both emit its three words. -/
theorem front_ends_agree_labelled : ∃ c c' r,
    (compile (rbmlParse labelledWords) "").written = some c ∧
      Settles (compileMpc "" labelledWords) r ∧ r.written = some c' ∧ c.text = [5, 31, 7] ∧
      (c.text = c'.text ↔ WordsOnly labelledWords) := by
  obtain ⟨c, hc, htext⟩ : ∃ c, (compile (rbmlParse labelledWords) "").written = some c ∧
      c.text = [5, 31, 7] := ⟨_, rfl, rfl⟩
  have hr : Settles (compileMpc "" labelledWords) _ := ⟨7, rfl⟩
  exact ⟨c, _, _, hc, hr, rfl, htext, front_ends_agree_iff hc hr rfl⟩

/-- `HALT` is accepted by both, and emitted by `rbmlc` only. -/
theorem front_ends_disagree : ∃ c c' r,
    (compile (rbmlParse ['H', 'A', 'L', 'T', '\n']) "").written = some c ∧
      Settles (compileMpc "" ['H', 'A', 'L', 'T', '\n']) r ∧ r.written = some c' ∧
      c.text = [rbmlInst Opcode.halt.code 0 0 0] ∧ c'.text = [] ∧ c.text ≠ c'.text := by
  refine ⟨_, _, _, rfl, ⟨2, rfl⟩, rfl, ?_, ?_, ?_⟩
  · decide
  · decide
  · decide

end Rbml.Asm
