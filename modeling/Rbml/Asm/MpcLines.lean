import Mathlib.Algebra.Group.Nat.Even
import Rbml.Asm.MpcFrontEnd

/-!
# The lines that the other front end reads

`parser_read_line` takes a buffer without a newline for the last line of the file or for a part of a
line that is too long, by the end of the file having been met. Of a line that is too long it skips the
rest, up to the next newline. There are two ways to miss the newline: at the end of the file there is
none, and the loop that looks for it does not end, and a null byte before the newline hides it from
`strrchr`, so that the line after is skipped in its place.

`terminates_iff` says of which files the reading ends, and `consumesLines_iff` of which each call
consumes its own line.
-/

namespace Rbml.Asm.MpcFrontEnd

open Rbml.Lib

/-! ## The lines of a file -/

/-- The lines that end in a newline -/
def fullLines (text : List Char) : List (List Char) := (text.splitOn '\n').dropLast

/-- What is after the last newline -/
def lastLine (text : List Char) : List Char := (text.splitOn '\n').getLastD []

theorem lines_cases (text : List Char) :
    '\n' ∉ text ∨ ∃ l rest, '\n' ∉ l ∧ text = l ++ '\n' :: rest := by
  by_cases h : '\n' ∈ text
  · obtain ⟨l, rest, htext, hl⟩ := List.eq_append_cons_of_mem h
    exact .inr ⟨l, rest, hl, htext⟩
  · exact .inl h

variable {l rest : List Char}

theorem fullLines_of_not_mem (hl : '\n' ∉ l) : fullLines l = [] := by
  rw [fullLines, List.splitOn_eq_singleton hl]
  rfl

theorem lastLine_of_not_mem (hl : '\n' ∉ l) : lastLine l = l := by
  rw [lastLine, List.splitOn_eq_singleton hl]
  rfl

theorem fullLines_append (hl : '\n' ∉ l) : fullLines (l ++ '\n' :: rest) = l :: fullLines rest := by
  rw [fullLines, List.splitOn_append_cons_self_of_not_mem hl,
    List.dropLast_cons_of_ne_nil (List.splitOn_ne_nil _ _)]
  rfl

theorem lastLine_append (hl : '\n' ∉ l) : lastLine (l ++ '\n' :: rest) = lastLine rest := by
  rw [lastLine, List.splitOn_append_cons_self_of_not_mem hl, lastLine]
  cases h : rest.splitOn '\n' with
  | nil => exact absurd h (List.splitOn_ne_nil _ _)
  | cons x xs => rfl

/-! ## What a call reads -/

/-- Characters without a newline that fit into the buffer are read, and more of what follows them if
there is room left. -/
theorem fgets_append {n : Nat} (hl : '\n' ∉ l) (hlength : l.length ≤ n) (input : List Char) :
    fgets n (l ++ input) =
      ⟨l ++ (fgets (n - l.length) input).buf, (fgets (n - l.length) input).eof,
        (fgets (n - l.length) input).rest⟩ := by
  induction l generalizing n with
  | nil => rfl
  | cons c l ih =>
    cases n with
    | zero => exact absurd hlength (Nat.not_succ_le_zero _)
    | succ n =>
      rw [List.mem_cons, not_or] at hl
      rw [List.cons_append, fgets, if_neg (Ne.symm hl.1), ih hl.2 (Nat.le_of_succ_le_succ hlength),
        List.length_cons, Nat.add_sub_add_right]
      rfl

/-- A line and its newline fit into the buffer. -/
theorem fgets_full {n : Nat} (hl : '\n' ∉ l) (hlength : l.length < n) :
    fgets n (l ++ '\n' :: rest) = ⟨l ++ ['\n'], false, rest⟩ := by
  obtain ⟨room, hroom⟩ := Nat.exists_eq_succ_of_ne_zero (Nat.sub_ne_zero_of_lt hlength)
  rw [fgets_append hl (Nat.le_of_lt hlength), hroom]
  rfl

/-- The end of the file is met. -/
theorem fgets_last {n : Nat} (hl : '\n' ∉ l) (hlength : l.length < n) :
    fgets n l = ⟨l, true, []⟩ := by
  obtain ⟨room, hroom⟩ := Nat.exists_eq_succ_of_ne_zero (Nat.sub_ne_zero_of_lt hlength)
  have hread := fgets_append hl (Nat.le_of_lt hlength) []
  rw [hroom, List.append_nil] at hread
  rw [hread, fgets, List.append_nil]

/-- The buffer is full before a newline or the end of the file is met. -/
theorem fgets_long {n : Nat} (hl : '\n' ∉ l) (hlength : n ≤ l.length) :
    fgets n (l ++ rest) = ⟨l.take n, false, l.drop n ++ rest⟩ := by
  have htake : '\n' ∉ l.take n := fun h => hl (List.mem_of_mem_take h)
  have hlen : (l.take n).length = n := List.length_take_of_le hlength
  have hread := fgets_append htake (Nat.le_of_eq hlen) (l.drop n ++ rest)
  rw [← List.append_assoc, List.take_append_drop, hlen, Nat.sub_self, fgets, List.append_nil] at hread
  exact hread

theorem skipToNewline_append (hl : '\n' ∉ l) : skipToNewline (l ++ '\n' :: rest) = some rest := by
  induction l with
  | nil => rfl
  | cons c l ih =>
    rw [List.mem_cons, not_or] at hl
    rw [List.cons_append, skipToNewline, if_neg (Ne.symm hl.1), ih hl.2]

theorem skipToNewline_of_not_mem (hl : '\n' ∉ l) : skipToNewline l = none := by
  induction l with
  | nil => rfl
  | cons c l ih =>
    rw [List.mem_cons, not_or] at hl
    rw [skipToNewline, if_neg (Ne.symm hl.1), ih hl.2]

theorem cString_of_not_mem (hl : '\x00' ∉ l) : cString l = l := by
  rw [cString, List.takeWhile_eq_self_iff]
  intro c hc
  exact decide_eq_true fun h => hl (h ▸ hc)

/-- A line whose newline is in the buffer, behind a null byte -/
def hidesNewline (l : List Char) : Bool := l.contains '\x00' && decide (l.length < bufSize)

/-- A line that fits into the buffer and hides no newline has no null byte. -/
theorem not_mem_of_sees (hsees : ¬ hidesNewline l) (hlength : l.length < bufSize) : '\x00' ∉ l := by
  intro hnull
  refine hsees ?_
  rw [hidesNewline, List.contains_iff_mem.mpr hnull, decide_eq_true hlength]
  rfl

/-- The parser that has counted a line -/
def nextLine (p : Asm.Parser) : Asm.Parser := { p with lineNum := p.lineNum + 1 }

/-- A line that fits into the buffer and has no null byte -/
theorem parserReadLine_full (p : Asm.Parser) (hl : '\n' ∉ l) (hnull : '\x00' ∉ l)
    (hlength : l.length < bufSize) :
    parserReadLine p (l ++ '\n' :: rest) = .line (stripComment l) (nextLine p) rest := by
  have hstring : cString (l ++ ['\n']) = l ++ ['\n'] := cString_of_not_mem (by simp [hnull])
  have hmem : '\n' ∈ l ++ ['\n'] := by simp
  simp only [parserReadLine, fgets_full hl hlength, hstring, if_pos hmem, beforeLastNewline_append]
  rw [if_neg (List.ne_nil_of_mem hmem)]
  rfl

/-- Where no newline is seen and the end of the file is not met, the reader skips to a newline. -/
theorem parserReadLine_skips (p : Asm.Parser) {input buf rest : List Char}
    (hgets : fgets bufSize input = ⟨buf, false, rest⟩) (hne : buf ≠ [])
    (hnewline : '\n' ∉ cString buf) :
    parserReadLine p input =
      match skipToNewline rest with
      | none => .hangs
      | some rest => .line [] (parserError (nextLine p) "Line too long") rest := by
  simp only [parserReadLine, hgets, if_neg hne, if_neg hnewline]
  rfl

/-- A line that has a null byte: the line after it is skipped. -/
theorem parserReadLine_hides (p : Asm.Parser) (hl : '\n' ∉ l) (h : hidesNewline l = true) :
    parserReadLine p (l ++ '\n' :: rest) =
      match skipToNewline rest with
      | none => .hangs
      | some rest => .line [] (parserError (nextLine p) "Line too long") rest := by
  rw [hidesNewline, Bool.and_eq_true, List.contains_iff_mem, decide_eq_true_iff] at h
  refine parserReadLine_skips p (fgets_full hl h.2) (List.append_ne_nil_of_right_ne_nil _
    (List.cons_ne_nil _ _)) fun hnewline => ?_
  have hmem : '\x00' ∈ cString l := (cString_append hl hnewline).1.symm ▸ h.1
  exact absurd (List.mem_takeWhile_imp hmem) (by decide)

theorem take_bufSize_ne_nil (hlength : bufSize ≤ l.length) : l.take bufSize ≠ [] := by
  intro h
  rw [List.take_eq_nil_iff] at h
  rcases h with h | rfl
  · cases h
  · exact absurd hlength (by decide)

theorem not_mem_cString_take (hl : '\n' ∉ l) (n : Nat) : '\n' ∉ cString (l.take n) :=
  fun h => hl ((List.take_sublist _ _).subset ((List.takeWhile_sublist _).subset h))

/-- A line that does not fit into the buffer: the rest of it is skipped. -/
theorem parserReadLine_long (p : Asm.Parser) (hl : '\n' ∉ l) (hlength : bufSize ≤ l.length) :
    parserReadLine p (l ++ '\n' :: rest) =
      .line [] (parserError (nextLine p) "Line too long") rest := by
  have hdrop : '\n' ∉ l.drop bufSize := fun h => hl ((List.drop_sublist _ _).subset h)
  rw [parserReadLine_skips p (fgets_long hl hlength) (take_bufSize_ne_nil hlength)
    (not_mem_cString_take hl _), skipToNewline_append hdrop]

/-- The last line, if it ends in no newline -/
theorem parserReadLine_last (p : Asm.Parser) (hl : '\n' ∉ l) (hne : l ≠ [])
    (hlength : l.length < bufSize) :
    parserReadLine p l =
      .line (lineText l) (parserWarning (nextLine p) "No newline at end of file") [] := by
  have hnewline : '\n' ∉ cString l := fun h => hl ((List.takeWhile_sublist _).subset h)
  simp only [parserReadLine, fgets_last hl hlength, if_neg hne, if_neg hnewline]
  rfl

/-- The rest of the last line is skipped, and no newline is found. -/
theorem parserReadLine_last_long (p : Asm.Parser) (hl : '\n' ∉ l) (hlength : bufSize ≤ l.length) :
    parserReadLine p l = .hangs := by
  have hgets := @fgets_long l [] _ hl hlength
  rw [List.append_nil, List.append_nil] at hgets
  have hdrop : '\n' ∉ l.drop bufSize := fun h => hl ((List.drop_sublist _ _).subset h)
  rw [parserReadLine_skips p hgets (take_bufSize_ne_nil hlength) (not_mem_cString_take hl _),
    skipToNewline_of_not_mem hdrop]

/-! ## Turns -/

theorem lineNum_parseLabel (name : String) (st : Session) :
    (parseLabel name st).parser.lineNum = st.parser.lineNum := by
  unfold parseLabel
  split <;> rfl

theorem lineNum_parseChild (b : Run) (a : Mpc.Ast) :
    (parseChild b a).session.parser.lineNum = b.session.parser.lineNum := by
  unfold parseChild
  split
  · exact lineNum_parseLabel _ _
  · split
    · rfl
    · split
      · rfl
      · split <;> rfl

theorem lineNum_parseChildren (children : List Mpc.Ast) (b : Run) :
    (children.foldl parseChild b).session.parser.lineNum = b.session.parser.lineNum := by
  induction children generalizing b with
  | nil => rfl
  | cons a children ih => exact (ih (parseChild b a)).trans (lineNum_parseChild b a)

/-- The parser of a line leaves the file and the line number. -/
theorem parserParseLine_frame (line : List Char) (b : Run) :
    (parserParseLine line b).input = b.input ∧
      (parserParseLine line b).session.parser.lineNum = b.session.parser.lineNum := by
  unfold parserParseLine
  split
  · exact ⟨rfl, rfl⟩
  · exact ⟨(parseChildren _ b).2.2, lineNum_parseChildren _ b⟩

theorem parserTurn_line {b : Run} {line rest : List Char} {p : Asm.Parser}
    (h : parserReadLine b.session.parser b.input = .line line p rest) :
    ∃ b', parserTurn b = some (.inl b') ∧ b'.input = rest ∧
      b'.session.parser.lineNum = p.lineNum := by
  refine ⟨_, ?_, parserParseLine_frame line { b with session.parser := p, input := rest }⟩
  rw [parserTurn, h]

theorem parserTurn_eq_none {b : Run} :
    parserTurn b = none ↔ parserReadLine b.session.parser b.input = .hangs := by
  unfold parserTurn
  cases parserReadLine b.session.parser b.input with
  | eof | line => exact ⟨nofun, nofun⟩
  | hangs => exact ⟨fun _ => rfl, fun _ => rfl⟩

theorem parserTurn_eof {b : Run} (h : b.input = []) : parserTurn b = some (.inr b) := by
  rw [parserTurn, h]
  rfl

/-! ## Termination -/

/-- `parser_parse` before its loop -/
def mpcStart (inputFile : String) (text : List Char) : Run :=
  ⟨⟨parserAlloc inputFile, codeAlloc⟩, text, []⟩

/-- Every call of `parser_read_line` returns, and the loop of `parser_parse` makes finitely many of
them. -/
def Terminates (inputFile : String) (text : List Char) : Prop :=
  (∀ k b, Turns parserTurn k (mpcStart inputFile text) b →
    parserReadLine b.session.parser b.input ≠ .hangs) ∧
  ∃ n, ∀ k b, Turns parserTurn k (mpcStart inputFile text) b → k ≤ n

/-- What is after the last newline fits into the buffer. The lines right before it that hide their
newline are an even number: of two such lines one is read and skips the other. -/
structure ReadsToEnd (text : List Char) : Prop where
  last : (lastLine text).length < bufSize
  hidden : Even ((fullLines text).reverse.takeWhile hidesNewline).length

theorem readsToEnd_last (hl : '\n' ∉ l) : ReadsToEnd l ↔ l.length < bufSize := by
  constructor
  · intro h
    exact lastLine_of_not_mem hl ▸ h.last
  · intro h
    refine ⟨(lastLine_of_not_mem hl).symm ▸ h, ?_⟩
    rw [fullLines_of_not_mem hl]
    exact Even.zero

/-- A line that hides no newline does not matter. -/
theorem readsToEnd_append (hl : '\n' ∉ l) (hsees : ¬ hidesNewline l) :
    ReadsToEnd (l ++ '\n' :: rest) ↔ ReadsToEnd rest := by
  have hlast : lastLine (l ++ '\n' :: rest) = lastLine rest := lastLine_append hl
  have hhidden : (fullLines (l ++ '\n' :: rest)).reverse.takeWhile hidesNewline =
      (fullLines rest).reverse.takeWhile hidesNewline := by
    rw [fullLines_append hl, List.reverse_cons, List.takeWhile_append]
    split
    next hall =>
      rw [List.takeWhile_cons_of_neg hsees, List.append_nil]
      exact ((List.takeWhile_prefix _).eq_of_length hall).symm
    · rfl
  constructor
  · intro ⟨h, heven⟩
    exact ⟨hlast ▸ h, hhidden ▸ heven⟩
  · intro ⟨h, heven⟩
    exact ⟨hlast.symm ▸ h, hhidden.symm ▸ heven⟩

/-- A line that hides its newline and the line after it do not matter. -/
theorem readsToEnd_append_append {l' : List Char} (hl : '\n' ∉ l) (hl' : '\n' ∉ l')
    (hhides : hidesNewline l) :
    ReadsToEnd (l ++ '\n' :: (l' ++ '\n' :: rest)) ↔ ReadsToEnd rest := by
  have hlast : lastLine (l ++ '\n' :: (l' ++ '\n' :: rest)) = lastLine rest :=
    (lastLine_append hl).trans (lastLine_append hl')
  have hhidden :
      Even ((fullLines (l ++ '\n' :: (l' ++ '\n' :: rest))).reverse.takeWhile hidesNewline).length ↔
        Even ((fullLines rest).reverse.takeWhile hidesNewline).length := by
    rw [fullLines_append hl, fullLines_append hl', List.reverse_cons, List.reverse_cons,
      List.append_assoc, List.takeWhile_append]
    split
    next hall =>
      have heven : Even (([l'] ++ [l]).takeWhile hidesNewline).length := by
        by_cases h : hidesNewline l' <;> simp [h, hhides]
      rw [(List.takeWhile_prefix _).eq_of_length hall, List.length_append, Nat.even_add]
      exact ⟨fun h => h.mpr heven, fun h => iff_of_true h heven⟩
    · rfl
  constructor
  · intro ⟨h, heven⟩
    exact ⟨hlast ▸ h, hhidden.mp heven⟩
  · intro ⟨h, heven⟩
    exact ⟨hlast.symm ▸ h, hhidden.mpr heven⟩

theorem not_readsToEnd (hl : '\n' ∉ l) (hhides : hidesNewline l) (hrest : '\n' ∉ rest) :
    ¬ ReadsToEnd (l ++ '\n' :: rest) := by
  intro ⟨_, heven⟩
  rw [fullLines_append hl, fullLines_of_not_mem hrest, List.reverse_singleton,
    List.takeWhile_cons_of_pos hhides] at heven
  exact Nat.not_even_one heven

/-- The loop of `parser_parse` ends. -/
def Settling (b : Run) : Prop := ∃ r, Settles (fun n => loop (fun _ => parserTurn) n b) r

theorem settling_of_line {b : Run} {line rest : List Char} {p : Asm.Parser}
    (h : parserReadLine b.session.parser b.input = .line line p rest) :
    ∃ b', b'.input = rest ∧ (Settling b ↔ Settling b') := by
  obtain ⟨b', hturn, hrest, -⟩ := parserTurn_line h
  exact ⟨b', hrest, exists_congr fun r => settles_loop_turn hturn⟩

theorem not_settling_of_hangs {b : Run}
    (h : parserReadLine b.session.parser b.input = .hangs) : ¬ Settling b := by
  intro ⟨_, n, hn⟩
  exact (turns_of_loop hn).1 0 b (.none b) (parserTurn_eq_none.mpr h)

/-- A line that hides no newline is read, and nothing after it. -/
theorem parserReadLine_append (p : Asm.Parser) (hl : '\n' ∉ l) (hsees : ¬ hidesNewline l) :
    ∃ line p', parserReadLine p (l ++ '\n' :: rest) = .line line p' rest := by
  by_cases hlength : l.length < bufSize
  · exact ⟨_, _, parserReadLine_full p hl (not_mem_of_sees hsees hlength) hlength⟩
  · exact ⟨_, _, parserReadLine_long p hl (Nat.le_of_not_lt hlength)⟩

/-- A call reads on, in a file whose reading ends just if it ends in what is left, or it does not
return, in a file whose reading does not end. -/
theorem parserReadLine_cases (p : Asm.Parser) (text : List Char) (hne : text ≠ []) :
    (parserReadLine p text = .hangs ∧ ¬ ReadsToEnd text) ∨
      ∃ line p' rest, parserReadLine p text = .line line p' rest ∧ rest.length < text.length ∧
        (ReadsToEnd text ↔ ReadsToEnd rest) := by
  rcases lines_cases text with hl | ⟨l, rest, hl, rfl⟩
  · by_cases hfits : text.length < bufSize
    · refine .inr ⟨_, _, _, parserReadLine_last p hl hne hfits, List.length_pos_iff.mpr hne, ?_⟩
      exact iff_of_true ((readsToEnd_last hl).mpr hfits)
        ((readsToEnd_last List.not_mem_nil).mpr (by decide))
    · exact .inl ⟨parserReadLine_last_long p hl (Nat.le_of_not_lt hfits),
        fun h => hfits ((readsToEnd_last hl).mp h)⟩
  · by_cases hhides : hidesNewline l
    · have hread := @parserReadLine_hides l rest p hl hhides
      rcases lines_cases rest with hrest | ⟨l', rest, hl', rfl⟩
      · rw [skipToNewline_of_not_mem hrest] at hread
        exact .inl ⟨hread, not_readsToEnd hl hhides hrest⟩
      · rw [skipToNewline_append hl'] at hread
        refine .inr ⟨_, _, _, hread, ?_, readsToEnd_append_append hl hl' hhides⟩
        simp only [List.length_append, List.length_cons]
        omega
    · obtain ⟨line, p', hread⟩ := @parserReadLine_append l rest p hl hhides
      refine .inr ⟨line, p', rest, hread, ?_, readsToEnd_append hl hhides⟩
      simp only [List.length_append, List.length_cons]
      omega

/-- The induction is on what is left of the file, of which each call reads something. -/
theorem settling_iff (b : Run) : Settling b ↔ ReadsToEnd b.input := by
  induction hlength : b.input.length using Nat.strong_induction_on generalizing b with
  | _ n ih =>
    subst hlength
    by_cases hend : b.input = []
    · refine iff_of_true ⟨b, 1, loop_inr (parserTurn_eof hend)⟩ ?_
      rw [hend]
      exact (readsToEnd_last List.not_mem_nil).mpr (by decide)
    · rcases parserReadLine_cases b.session.parser b.input hend with
        ⟨hread, hnot⟩ | ⟨line, p, rest, hread, hshorter, hreads⟩
      · exact iff_of_false (not_settling_of_hangs hread) hnot
      · obtain ⟨b', hrest, hsettling⟩ := settling_of_line hread
        rw [hsettling, ih b'.input.length (hrest ▸ hshorter) b' rfl, hrest, hreads]

theorem terminates_iff_settling (inputFile : String) (text : List Char) :
    Terminates inputFile text ↔ Settling (mpcStart inputFile text) := by
  rw [Settling, settles_loop_iff]
  refine and_congr_left fun _ => ?_
  exact forall₃_congr fun k b _ => not_congr parserTurn_eq_none.symm

/-- The line reading terminates exactly on the files of which what is after the last newline fits into
the buffer and the lines right before it hide an even number of newlines. -/
theorem terminates_iff (inputFile : String) (text : List Char) :
    Terminates inputFile text ↔ ReadsToEnd text :=
  (terminates_iff_settling inputFile text).trans (settling_iff (mpcStart inputFile text))

theorem readsToEnd_of_terminates {inputFile : String} {text : List Char}
    (h : Terminates inputFile text) : ReadsToEnd text :=
  (settling_iff (mpcStart inputFile text)).mp ((terminates_iff_settling inputFile text).mp h)

/-- A last line of 1023 characters without a newline, and a last line with a null byte -/
theorem not_terminates :
    ¬ Terminates "a.rbml" (List.replicate 1023 'a') ∧ ¬ Terminates "a.rbml" ['\x00', '\n'] := by
  have hlong : '\n' ∉ List.replicate 1023 'a' := fun h =>
    absurd (List.eq_of_mem_replicate h) (by decide)
  refine ⟨fun h => ?_, fun h => ?_⟩
  · have hlast := (readsToEnd_of_terminates h).last
    rw [lastLine_of_not_mem hlong, List.length_replicate] at hlast
    exact Nat.lt_irrefl bufSize hlast
  · exact @not_readsToEnd ['\x00'] [] (by decide) rfl List.not_mem_nil (readsToEnd_of_terminates h)

/-! ## One line for each call -/

/-- What is left of a file after some of its lines -/
def afterLines : Nat → List Char → List Char
  | 0, text => text
  | n + 1, text => afterLines n (text.dropWhile (· ≠ '\n')).tail

/-- The line of a file after `k` lines, without its newline -/
def fileLine (k : Nat) (text : List Char) : List Char := (afterLines k text).takeWhile (· ≠ '\n')

/-- A call that follows `k` calls consumes the line after `k` lines and yields it up to its first
semicolon, or, if it does not fit into the buffer with its newline, an empty line and an error. -/
structure ConsumesLine (k : Nat) (text : List Char) (b : Run) (line : List Char)
    (p : Asm.Parser) (rest : List Char) : Prop where
  before : b.input = afterLines k text
  after : rest = afterLines (k + 1) text
  yields : (line = stripComment (fileLine k text) ∧
      p.numErrors = b.session.parser.numErrors) ∨
    (bufSize < (fileLine k text).length + 1 ∧ line = [] ∧
      p.numErrors = b.session.parser.numErrors + 1)

/-- Each call of `parser_read_line` consumes the line of its number. -/
def ConsumesLines (inputFile : String) (text : List Char) : Prop :=
  ∀ k b line p rest, Turns parserTurn k (mpcStart inputFile text) b →
    parserReadLine b.session.parser b.input = .line line p rest →
      p.lineNum = k + 1 ∧ ConsumesLine k text b line p rest

/-- No line hides its newline, and in what is after the last newline there is no null byte before the
first semicolon. -/
structure Visible (text : List Char) : Prop where
  full : ∀ l ∈ fullLines text, ¬ hidesNewline l
  last : '\x00' ∉ stripComment (lastLine text)

theorem isNotNewline (hl : '\n' ∉ l) : ∀ c ∈ l, decide (c ≠ '\n') = true :=
  fun _ hc => decide_eq_true fun h => hl (h ▸ hc)

theorem afterLines_append (hl : '\n' ∉ l) (k : Nat) :
    afterLines (k + 1) (l ++ '\n' :: rest) = afterLines k rest := by
  rw [afterLines, List.dropWhile_append_of_pos (isNotNewline hl),
    List.dropWhile_cons_of_neg (by decide), List.tail_cons]

theorem afterLines_last (hl : '\n' ∉ l) : afterLines 1 l = [] := by
  rw [afterLines, List.dropWhile_eq_nil_iff.mpr (isNotNewline hl)]
  rfl

theorem fileLine_append (hl : '\n' ∉ l) (k : Nat) :
    fileLine (k + 1) (l ++ '\n' :: rest) = fileLine k rest := by
  rw [fileLine, afterLines_append hl, fileLine]

theorem fileLine_zero_append (hl : '\n' ∉ l) : fileLine 0 (l ++ '\n' :: rest) = l := by
  rw [fileLine, afterLines, List.takeWhile_append_of_pos (isNotNewline hl),
    List.takeWhile_cons_of_neg (by decide), List.append_nil]

theorem fileLine_zero_last (hl : '\n' ∉ l) : fileLine 0 l = l :=
  List.takeWhile_eq_self_iff.mpr (isNotNewline hl)

theorem cString_cons {c : Char} (hc : c ≠ '\x00') (l : List Char) :
    cString (c :: l) = c :: cString l :=
  List.takeWhile_cons_of_pos (decide_eq_true hc)

theorem stripComment_cons {c : Char} (hc : c ≠ ';') (l : List Char) :
    stripComment (c :: l) = c :: stripComment l :=
  List.takeWhile_cons_of_pos (decide_eq_true hc)

theorem lineText_eq_iff : lineText l = stripComment l ↔ '\x00' ∉ stripComment l := by
  constructor
  · intro h hmem
    have hstring : '\x00' ∈ cString l := (List.takeWhile_sublist _).subset (h ▸ hmem)
    exact absurd (List.mem_takeWhile_imp hstring) (by decide)
  · intro h
    induction l with
    | nil => rfl
    | cons c l ih =>
      by_cases hc : c = ';'
      · subst hc
        rfl
      · rw [stripComment_cons hc, List.mem_cons, not_or] at h
        rw [lineText, cString_cons (Ne.symm h.1), stripComment_cons hc, stripComment_cons hc]
        exact congrArg (c :: ·) (ih h.2)

theorem visible_last (hl : '\n' ∉ l) : Visible l ↔ '\x00' ∉ stripComment l := by
  constructor
  · intro h
    exact lastLine_of_not_mem hl ▸ h.last
  · intro h
    refine ⟨?_, (lastLine_of_not_mem hl).symm ▸ h⟩
    rw [fullLines_of_not_mem hl]
    exact List.forall_mem_nil _

theorem visible_append (hl : '\n' ∉ l) :
    Visible (l ++ '\n' :: rest) ↔ ¬ hidesNewline l ∧ Visible rest := by
  constructor
  · intro ⟨hfull, hlast⟩
    rw [fullLines_append hl, List.forall_mem_cons] at hfull
    exact ⟨hfull.1, hfull.2, lastLine_append hl ▸ hlast⟩
  · intro ⟨hfirst, hfull, hlast⟩
    refine ⟨?_, (lastLine_append hl).symm ▸ hlast⟩
    rw [fullLines_append hl, List.forall_mem_cons]
    exact ⟨hfirst, hfull⟩

/-- Every call counts a line. -/
theorem lineNum_parserReadLine {p p' : Asm.Parser} {text line rest : List Char}
    (h : parserReadLine p text = .line line p' rest) : p'.lineNum = p.lineNum + 1 := by
  simp only [parserReadLine] at h
  split at h
  · cases h
  · split at h
    · cases h
      rfl
    · split at h
      · cases h
        rfl
      · split at h
        · cases h
        · cases h
          rfl

theorem lineNum_turns {k : Nat} {b b' : Run} (h : Turns parserTurn k b b') :
    b'.session.parser.lineNum = b.session.parser.lineNum + k := by
  induction h with
  | none b => rfl
  | @more k b b₁ b' hturn _ ih =>
    unfold parserTurn at hturn
    split at hturn
    · cases hturn
    next hread =>
      cases hturn
      rw [ih, (parserParseLine_frame _ _).2]
      simp only [lineNum_parserReadLine hread]
      omega
    · cases hturn

/-- The calls from a state on consume the lines of what is left of the file. -/
def ConsumesFrom (b : Run) : Prop :=
  ∀ k t, Turns parserTurn k b t → ∀ line p rest,
    parserReadLine t.session.parser t.input = .line line p rest →
      ConsumesLine k b.input t line p rest

/-- The call at a state consumes the first line of what is left of the file. -/
def ConsumesFirst (b : Run) : Prop :=
  ∀ line p rest, parserReadLine b.session.parser b.input = .line line p rest →
    ConsumesLine 0 b.input b line p rest

theorem consumesFirst_iff {b : Run} {line rest : List Char} {p : Asm.Parser}
    (h : parserReadLine b.session.parser b.input = .line line p rest) :
    ConsumesFirst b ↔ ConsumesLine 0 b.input b line p rest := by
  constructor
  · intro hfirst
    exact hfirst line p rest h
  · intro hline line' p' rest' h'
    rw [h] at h'
    cases h'
    exact hline

/-- There is no line at the end of the file. -/
theorem parserReadLine_turns_nil {b b' : Run} (h : b.input = []) {k : Nat}
    (hturns : Turns parserTurn k b b') {line rest : List Char} {p : Asm.Parser} :
    parserReadLine b'.session.parser b'.input ≠ .line line p rest := by
  cases hturns with
  | none =>
    rw [h]
    exact nofun
  | more hturn =>
    rw [parserTurn_eof h] at hturn
    cases hturn

theorem consumesLine_append (hl : '\n' ∉ l) {k : Nat} {b : Run} {line rest' : List Char}
    {p : Asm.Parser} :
    ConsumesLine (k + 1) (l ++ '\n' :: rest) b line p rest' ↔ ConsumesLine k rest b line p rest' := by
  constructor
  · intro ⟨hbefore, hafter, hyields⟩
    rw [afterLines_append hl] at hbefore hafter
    rw [fileLine_append hl] at hyields
    exact ⟨hbefore, hafter, hyields⟩
  · intro ⟨hbefore, hafter, hyields⟩
    rw [← fileLine_append hl] at hyields
    exact ⟨(afterLines_append hl k).symm ▸ hbefore, (afterLines_append hl (k + 1)).symm ▸ hafter,
      hyields⟩

/-- After a line, the lines of the file are the lines of what is left. -/
theorem consumesFrom_append {b : Run} {line : List Char} {p : Asm.Parser} (hl : '\n' ∉ l)
    (hinput : b.input = l ++ '\n' :: rest)
    (h : parserReadLine b.session.parser b.input = .line line p rest) :
    ∃ b', b'.input = rest ∧ (ConsumesFrom b ↔ ConsumesFirst b ∧ ConsumesFrom b') := by
  obtain ⟨b', hturn, hrest, -⟩ := parserTurn_line h
  refine ⟨b', hrest, (forall_turns_inl hturn).trans (and_congr_right fun _ => ?_)⟩
  refine forall₃_congr fun k t _ => forall₄_congr fun line p rest' _ => ?_
  rw [hinput, hrest]
  exact consumesLine_append hl

/-- A line that hides no newline is consumed and yielded as it should be. -/
theorem consumesFirst_append {b : Run} (hl : '\n' ∉ l) (hinput : b.input = l ++ '\n' :: rest)
    (hsees : ¬ hidesNewline l) : ConsumesFirst b := by
  intro line p rest' hread
  have hafter : rest = afterLines (0 + 1) b.input := by rw [hinput, afterLines_append hl, afterLines]
  have hline : fileLine 0 b.input = l := by rw [hinput, fileLine_zero_append hl]
  by_cases hlength : l.length < bufSize
  · rw [hinput, parserReadLine_full _ hl (not_mem_of_sees hsees hlength) hlength] at hread
    cases hread
    exact ⟨rfl, hafter, .inl ⟨congrArg stripComment hline.symm, rfl⟩⟩
  · rw [hinput, parserReadLine_long _ hl (Nat.le_of_not_lt hlength)] at hread
    cases hread
    refine ⟨rfl, hafter, .inr ⟨?_, rfl, rfl⟩⟩
    rw [hline]
    omega

/-- A line that hides its newline is not the only one that is consumed. -/
theorem not_consumesFirst {b : Run} (hl : '\n' ∉ l) (hinput : b.input = l ++ '\n' :: rest)
    (hhides : hidesNewline l) (hreads : ReadsToEnd b.input) : ¬ ConsumesFirst b := by
  intro h
  rw [hinput] at hreads
  rcases lines_cases rest with hrest | ⟨l', rest', hl', rfl⟩
  · exact not_readsToEnd hl hhides hrest hreads
  · have hread := @parserReadLine_hides l (l' ++ '\n' :: rest') b.session.parser hl hhides
    rw [skipToNewline_append hl', ← hinput] at hread
    have hafter := (h _ _ _ hread).after
    rw [hinput, afterLines_append hl, afterLines] at hafter
    have hlength := congrArg List.length hafter
    rw [List.length_append, List.length_cons] at hlength
    omega

/-- The last line is consumed, and yielded as it should be if no null byte cuts it. -/
theorem consumesFrom_last {b : Run} (hl : '\n' ∉ b.input) (hne : b.input ≠ [])
    (hfits : b.input.length < bufSize) :
    ConsumesFrom b ↔ '\x00' ∉ stripComment b.input := by
  have hread := parserReadLine_last b.session.parser hl hne hfits
  obtain ⟨b', hturn, hend, -⟩ := parserTurn_line hread
  have hline : fileLine 0 b.input = b.input := fileLine_zero_last hl
  have hfirst : ConsumesFirst b ↔ lineText b.input = stripComment b.input := by
    rw [consumesFirst_iff hread]
    constructor
    · intro ⟨_, _, hyields⟩
      rw [hline] at hyields
      exact hyields.elim And.left fun h => absurd h.1 (by omega)
    · intro h
      exact ⟨rfl, (afterLines_last hl).symm, .inl ⟨h.trans (congrArg stripComment hline.symm), rfl⟩⟩
  rw [← lineText_eq_iff, ← hfirst]
  refine (forall_turns_inl hturn).trans (and_iff_left fun k t hturns line p rest h => ?_)
  exact absurd h (parserReadLine_turns_nil hend hturns)

theorem consumesFrom_iff (b : Run) (hreads : ReadsToEnd b.input) :
    ConsumesFrom b ↔ Visible b.input := by
  induction hlength : b.input.length using Nat.strong_induction_on generalizing b with
  | _ n ih =>
    subst hlength
    rcases lines_cases b.input with hl | ⟨l, rest, hl, hinput⟩
    · rw [visible_last hl]
      by_cases hend : b.input = []
      · have hconsumes : ConsumesFrom b := fun k t hturns line p rest h =>
          absurd h (parserReadLine_turns_nil hend hturns)
        refine iff_of_true hconsumes ?_
        rw [hend]
        exact List.not_mem_nil
      · exact consumesFrom_last hl hend ((readsToEnd_last hl).mp hreads)
    · rw [hinput, visible_append hl]
      by_cases hhides : hidesNewline l
      · refine iff_of_false (fun h => ?_) fun h => h.1 hhides
        exact not_consumesFirst hl hinput hhides hreads (h 0 b (.none b))
      · obtain ⟨line, p, hread⟩ := @parserReadLine_append l rest b.session.parser hl hhides
        rw [← hinput] at hread
        obtain ⟨b', hrest, hconsumes⟩ := consumesFrom_append hl hinput hread
        have hreads' : ReadsToEnd b'.input :=
          hrest ▸ (readsToEnd_append hl hhides).mp (hinput ▸ hreads)
        have hshorter : b'.input.length < b.input.length := by
          rw [hrest, hinput, List.length_append, List.length_cons]
          omega
        rw [hconsumes, ih _ hshorter b' hreads' rfl, hrest]
        exact and_congr_left fun _ => iff_of_true (consumesFirst_append hl hinput hhides) hhides

theorem consumesLines_iff_from (inputFile : String) (text : List Char) :
    ConsumesLines inputFile text ↔ ConsumesFrom (mpcStart inputFile text) := by
  constructor
  · intro h k t hturns line p rest hread
    exact (h k t line p rest hturns hread).2
  · intro h k t line p rest hturns hread
    refine ⟨?_, h k t hturns line p rest hread⟩
    rw [lineNum_parserReadLine hread, lineNum_turns hturns]
    exact congrArg (· + 1) (Nat.zero_add k)

/-- On a file that is read to its end, each call consumes its own line and yields it exactly if no null
byte hides a newline or cuts the last line. -/
theorem consumesLines_iff (inputFile : String) (text : List Char)
    (hreturns : Terminates inputFile text) : ConsumesLines inputFile text ↔ Visible text :=
  (consumesLines_iff_from inputFile text).trans
    (consumesFrom_iff (mpcStart inputFile text) (readsToEnd_of_terminates hreturns))

theorem terminates_of_readsToEnd (inputFile : String) {text : List Char} (h : ReadsToEnd text) :
    Terminates inputFile text :=
  (terminates_iff_settling inputFile text).mpr ((settling_iff (mpcStart inputFile text)).mpr h)

theorem consumesLines_iff_two_lines :
    ConsumesLines "a.rbml" ['a', '\n', 'b'] ↔ Visible ['a', '\n', 'b'] :=
  consumesLines_iff "a.rbml" _ (terminates_of_readsToEnd _ ⟨by decide, by decide⟩)

/-- A null byte in the first line makes its call consume the second one too, and a null byte in a last
line without a newline cuts what is yielded. -/
theorem not_consumesLines :
    (Terminates "a.rbml" ['\x00', '\n', '\n'] ∧ ¬ ConsumesLines "a.rbml" ['\x00', '\n', '\n']) ∧
      (Terminates "a.rbml" ['\x00', 'a'] ∧ ¬ ConsumesLines "a.rbml" ['\x00', 'a']) := by
  have hhidden : ReadsToEnd ['\x00', '\n', '\n'] := ⟨by decide, by decide⟩
  have hcut : ReadsToEnd ['\x00', 'a'] := ⟨by decide, by decide⟩
  refine ⟨⟨terminates_of_readsToEnd _ hhidden, fun h => ?_⟩,
    ⟨terminates_of_readsToEnd _ hcut, fun h => ?_⟩⟩
  · have hvisible := (consumesFrom_iff _ hhidden).mp ((consumesLines_iff_from _ _).mp h)
    exact hvisible.full ['\x00'] (by decide) rfl
  · have hvisible := (consumesFrom_iff _ hcut).mp ((consumesLines_iff_from _ _).mp h)
    exact hvisible.last (by decide)

end Rbml.Asm.MpcFrontEnd
