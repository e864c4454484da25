import Rbml.Asm.Numerals

/-!
# Printed token lists

`Spells` says how a token with its value may be written, and `Renders` how a list of them is: blanks
between each token and the next one, and a comment, if any, before a newline. Of the scanner they take
the table of mnemonics and the characters of identifiers, and nothing of how its rules compete. The
scanner reads every rendering back as the list, without an unexpected character (`lex_renders`).

A word of letters and digits is one match of the first rule that matches all of it (`lex_of_first`).
That rule is the one of a mnemonic, of `WORD`, of a register or of a disk only for their own names, in
either case, and names of the table differ in more than case.
-/

namespace Rbml.Asm

open Rbml.Lib

/-! ## Renderings -/

/-- The tokens with the values that the parser gets for them -/
inductive Terminal where
  | word
  | reg (n : Nat)
  | disk (n : Nat)
  | number (n : Int)
  | ident (name : String)
  | inst (form : Form) (opcode : Opcode)
  | colon
  | comma
  | newline
  deriving DecidableEq, Repr

/-- A token of the scanner with its semantic value -/
def Token.terminal : Token → Terminal
  | .word => .word
  | .reg n => .reg n.toNat
  | .disk n => .disk n.toNat
  | .number text => .number (numberValue text).toInt
  | .ident name => .ident name
  | .inst form opcode => .inst form opcode
  | .colon => .colon
  | .comma => .comma
  | .newline => .newline

/-- Two texts that differ in case at most -/
def SameText (s t : List Char) : Prop := s.map Char.toLower = t.map Char.toLower

/-- `INT_MAX` -/
def intMax : Nat := 2 ^ 31 - 1

/-- The names that are no identifiers: mnemonics, `WORD`, `r0` to `r15` and `d0` to `d15`, in
either case -/
def Reserved (s : List Char) : Prop :=
  (∃ entry ∈ mnemonics, SameText entry.1.toList s) ∨ SameText "WORD".toList s ∨
    ∃ n < 16, SameText ('r' :: decimalDigits n) s ∨ SameText ('d' :: decimalDigits n) s

instance (s t : List Char) : Decidable (SameText s t) := inferInstanceAs (Decidable (_ = _))

instance (s : List Char) : Decidable (Reserved s) :=
  inferInstanceAs (Decidable ((∃ entry ∈ mnemonics, _) ∨ _ ∨ ∃ n < 16, _))

/-- How a token may be written -/
inductive Spells : Terminal → List Char → Prop
  | word {s : List Char} (hs : SameText "WORD".toList s) : Spells .word s
  | inst {name : String} {form : Form} {opcode : Opcode} {s : List Char}
      (hmem : (name, form, opcode) ∈ mnemonics) (hs : SameText name.toList s) :
      Spells (.inst form opcode) s
  | reg {n : Nat} {s : List Char} (hn : n < 16) (hs : SameText ('r' :: decimalDigits n) s) :
      Spells (.reg n) s
  | disk {n : Nat} {s : List Char} (hn : n < 16) (hs : SameText ('d' :: decimalDigits n) s) :
      Spells (.disk n) s
  | decimal {n : Nat} (hn : n ≤ intMax) : Spells (.number n) (decimalDigits n)
  | hex {n : Nat} {x : Char} {digits : List Char} (hn : n ≤ intMax) (hx : sameLetter 'x' x = true)
      (hdigits : digitsDenote Char.isHexDigit 16 digits = some n) :
      Spells (.number n) ('0' :: x :: digits)
  | negative {n : Nat} {x : Char} {digits : List Char} (hn : n ≤ intMax)
      (hx : sameLetter 'x' x = true) (hdigits : digitsDenote Char.isHexDigit 16 digits = some n) :
      Spells (.number (-n)) ('-' :: '0' :: x :: digits)
  | ident {c : Char} {s : List Char} (hc : isIdentStart c = true)
      (hs : ∀ d ∈ s, isIdentRest d = true) (hfree : ¬ Reserved (c :: s)) :
      Spells (.ident (String.ofList (c :: s))) (c :: s)
  | colon : Spells .colon [':']
  | comma : Spells .comma [',']
  | newline : Spells .newline ['\n']

def Blanks (w : List Char) : Prop := ∀ c ∈ w, c = ' ' ∨ c = '\t'

/-- What may stand before a token: blanks, and before a newline a comment -/
inductive Gap : Terminal → List Char → Prop
  | blanks {t : Terminal} {w : List Char} (hne : w ≠ []) (hw : Blanks w) : Gap t w
  | comment {w body : List Char} (hw : Blanks w) (hbody : '\n' ∉ body) :
      Gap .newline (w ++ ';' :: body)

/-- The tokens as they may be written after another one -/
inductive RendersAfter : List Terminal → List Char → Prop
  | nil : RendersAfter [] []
  | cons {t : Terminal} {ts : List Terminal} {gap s text : List Char} (hgap : Gap t gap)
      (hs : Spells t s) (htext : RendersAfter ts text) : RendersAfter (t :: ts) (gap ++ (s ++ text))

/-- The tokens as they may be written -/
inductive Renders : List Terminal → List Char → Prop
  | nil : Renders [] []
  | cons {t : Terminal} {ts : List Terminal} {gap s text : List Char} (hgap : gap = [] ∨ Gap t gap)
      (hs : Spells t s) (htext : RendersAfter ts text) : Renders (t :: ts) (gap ++ (s ++ text))

/-! ## Texts that differ in case -/

theorem sameLetter_iff {a b : Char} : sameLetter a b = true ↔ a.toLower = b.toLower := beq_iff_eq

theorem SameText.length_eq {s t : List Char} (h : SameText s t) : s.length = t.length := by
  rw [← List.length_map Char.toLower, h, List.length_map]

/-- A fixed text matches the whole input exactly if they differ in case at most. -/
theorem literalLength_eq_iff {text input : List Char} :
    literalLength text input = some input.length ↔ SameText text input := by
  induction text generalizing input with
  | nil =>
    cases input with
    | nil => exact iff_of_true rfl rfl
    | cons a input => exact iff_of_false (by simp [literalLength]) (by simp [SameText])
  | cons x text ih =>
    cases input with
    | nil => exact iff_of_false (by simp [literalLength]) (by simp [SameText])
    | cons a input =>
      rw [literalLength, SameText, List.map_cons, List.map_cons, List.cons.injEq, ← sameLetter_iff,
        ← SameText, ← ih]
      split
      next hsame => simp [hsame]
      next hsame => simp [hsame]

/-- A fixed text that is not the whole input in either case matches less of it. -/
theorem getD_literalLength_lt {text input : List Char} (hne : input ≠ [])
    (h : ¬ SameText text input) : (literalLength text input).getD 0 < input.length := by
  cases hlength : literalLength text input with
  | none => exact List.length_pos_iff.mpr hne
  | some n =>
    refine Nat.lt_of_le_of_ne (literalLength_le hlength) fun heq => h ?_
    change n = input.length at heq
    rw [← literalLength_eq_iff, hlength, heq]

/-! ## Words of letters and digits -/

/-- The text begins as an identifier does, and goes on as one. -/
def IsIdentWord (s : List Char) : Prop :=
  ∃ c l, s = c :: l ∧ isIdentStart c = true ∧ ∀ d ∈ l, isIdentRest d = true

theorem identLength_of_word {s : List Char} (h : IsIdentWord s) : identLength s = s.length := by
  obtain ⟨c, l, rfl, hc, hl⟩ := h
  rw [identLength, if_pos hc, List.takeWhile_eq_self_iff.mpr hl, List.length_cons]

theorem isIdentStart_eq_of_sameLetter {a b : Char} (h : sameLetter a b = true) (ha : isLetter a = true) :
    isIdentStart b = true := by
  rw [isLetter, sameLetter_iff.mp h] at ha
  rw [isIdentStart, ha, Bool.or_true]

theorem isIdentStart_of_sameText {text s : List Char} (h : SameText text s)
    (hletters : ∀ x ∈ text, isLetter x = true) : ∀ c ∈ s, isIdentStart c = true := by
  intro c hc
  have hmem : c.toLower ∈ text.map Char.toLower := h ▸ List.mem_map_of_mem hc
  obtain ⟨x, hx, hxc⟩ := List.mem_map.mp hmem
  exact isIdentStart_eq_of_sameLetter (sameLetter_iff.mpr hxc) (hletters x hx)

/-- A text of digits is its own only spelling. -/
theorem eq_of_sameText_digits {digits s : List Char} (hdigits : ∀ c ∈ digits, c.isDigit = true)
    (h : SameText digits s) : s = digits := by
  induction digits generalizing s with
  | nil => exact List.length_eq_zero_iff.mp h.length_eq.symm
  | cons c digits ih =>
    cases s with
    | nil => cases h
    | cons a s =>
      obtain ⟨hhead, htail⟩ := List.cons.inj h
      rw [eq_of_sameLetter (hdigits c List.mem_cons_self) (sameLetter_iff.mpr hhead),
        ih (fun d hd => hdigits d (List.mem_cons_of_mem _ hd)) htail]

/-- A letter and a number, in either case of the letter -/
theorem letterId_cases {letter : Char} {n : Nat} {s : List Char}
    (h : SameText (letter :: decimalDigits n) s) :
    ∃ c, s = c :: decimalDigits n ∧ sameLetter letter c = true := by
  cases s with
  | nil => cases h
  | cons c s =>
    obtain ⟨hhead, htail⟩ := List.cons.inj h
    refine ⟨c, ?_, sameLetter_iff.mpr hhead⟩
    rw [eq_of_sameText_digits (fun _ hc => isDigit_of_mem_decimalDigits hc) htail]

theorem ids_eq : ids = (List.range 16).map decimalDigits := by decide

theorem longestOf_ids : ∀ s ∈ ids, longestOf ids s = s.length := by decide

theorem mem_ids_iff {s : List Char} : s ∈ ids ↔ ∃ n < 16, s = decimalDigits n := by
  rw [ids_eq, List.mem_map]
  constructor
  · intro ⟨n, hn, hs⟩
    exact ⟨n, List.mem_range.mp hn, hs.symm⟩
  · intro ⟨n, hn, hs⟩
    exact ⟨n, List.mem_range.mpr hn, hs.symm⟩

/-- The rule of a letter and a number matches all of a text exactly if the number is below 16. -/
theorem letterIdLength_eq_iff {letter : Char} {s : List Char} (hne : s ≠ []) :
    letterIdLength letter s = s.length ↔ ∃ n < 16, SameText (letter :: decimalDigits n) s := by
  obtain ⟨c, l, rfl⟩ := List.exists_cons_of_ne_nil hne
  rw [letterIdLength]
  constructor
  · intro h
    split at h
    next hid =>
      have hl : l ∈ ids := by
        have htake := take_longestOf ids_digits hid.2
        rwa [Nat.succ_inj.mp h, List.take_length] at htake
      obtain ⟨n, hn, rfl⟩ := mem_ids_iff.mp hl
      refine ⟨n, hn, ?_⟩
      rw [SameText, List.map_cons, List.map_cons, sameLetter_iff.mp hid.1]
    · cases h
  · intro h
    obtain ⟨n, hn, hs⟩ := h
    obtain ⟨c', heq, hletter⟩ := letterId_cases hs
    obtain ⟨rfl, rfl⟩ := List.cons.inj heq
    have hlong := longestOf_ids _ (mem_ids_iff.mpr ⟨n, hn, rfl⟩)
    rw [hlong, if_pos ⟨hletter, List.length_pos_iff.mpr (decimalDigits_ne_nil n)⟩, List.length_cons]

/-! ## The rule of a word -/

/-- The first rule that matches all of a text is applied to it. -/
theorem lex_of_first {pre post : List (Rule Char Lexed)} {r : Rule Char Lexed} {s : List Char}
    (hrules : lexRules = pre ++ r :: post) (hne : s ≠ []) (hlength : r.length s = s.length)
    (hpre : ∀ p ∈ pre, p.length s ≠ s.length) : lex s = [r.action s] := by
  have hle := length_le s
  refine scan_eq_singleton ?_ hlength
  rw [hrules] at hle ⊢
  refine selectRule_append (Nat.lt_of_lt_of_eq (List.length_pos_iff.mpr hne) hlength.symm) ?_ ?_
  · intro p hp
    rw [hlength]
    exact Nat.lt_of_le_of_ne (hle p (List.mem_append_left _ hp)) (hpre p hp)
  · intro p hp
    rw [hlength]
    exact hle p (List.mem_append_right _ (List.mem_cons_of_mem _ hp))

theorem length_literalRule_iff {text : String} {t : Token} {s : List Char} (hne : s ≠ []) :
    (literalRule text t).length s = s.length ↔ SameText text.toList s := by
  constructor
  · intro h
    by_contra hnot
    exact Nat.ne_of_lt (getD_literalLength_lt hne hnot) h
  · intro h
    show (literalLength text.toList s).getD 0 = s.length
    rw [literalLength_eq_iff.mpr h]
    rfl

/-- The rules of the mnemonics -/
def mnemonicRules : List (Rule Char Lexed) :=
  mnemonics.map fun (text, form, opcode) => literalRule text (.inst form opcode)

/-- The rules of the mnemonics and of `WORD` -/
def nameRules : List (Rule Char Lexed) := mnemonicRules ++ [literalRule "WORD" .word]

def regRule : Rule Char Lexed :=
  ⟨letterIdLength 'R', fun text => .token (.reg (atoi (text.drop 1)))⟩

def diskRule : Rule Char Lexed :=
  ⟨letterIdLength 'D', fun text => .token (.disk (atoi (text.drop 1)))⟩

def numberRule : Rule Char Lexed := ⟨numberLength, fun text => .token (.number text)⟩

def identRule : Rule Char Lexed := ⟨identLength, fun text => .token (.ident (String.ofList text))⟩

theorem lexRules_names :
    lexRules = nameRules ++ regRule :: diskRule :: numberRule :: identRule :: charRules := rfl

/-- The rules of a text that is no mnemonic do not match all of it. -/
theorem length_mnemonicRules {s : List Char} (hne : s ≠ [])
    (hnot : ∀ entry ∈ mnemonics, ¬ SameText entry.1.toList s) :
    ∀ p ∈ mnemonicRules, p.length s ≠ s.length := by
  intro p hp hlength
  obtain ⟨entry, hentry, rfl⟩ := List.mem_map.mp hp
  exact hnot entry hentry ((length_literalRule_iff hne).mp hlength)

theorem mnemonics_nodup : (mnemonics.map fun entry => entry.1.toList.map Char.toLower).Nodup := by
  decide

theorem lex_mnemonic {name : String} {form : Form} {opcode : Opcode} {s : List Char}
    (hmem : (name, form, opcode) ∈ mnemonics) (hne : s ≠ []) (hs : SameText name.toList s) :
    lex s = [.token (.inst form opcode)] := by
  obtain ⟨before, after, hsplit⟩ := List.append_of_mem hmem
  have hnodup := mnemonics_nodup
  rw [hsplit, List.map_append, List.map_cons, List.nodup_append] at hnodup
  obtain ⟨post, hrules⟩ : ∃ post, lexRules =
      (before.map fun (text, form, opcode) => literalRule text (.inst form opcode)) ++
        literalRule name (.inst form opcode) :: post := by
    rw [lexRules_names, nameRules, mnemonicRules, hsplit, List.map_append, List.map_cons]
    simp only [List.append_assoc, List.cons_append]
    exact ⟨_, rfl⟩
  refine lex_of_first hrules hne ((length_literalRule_iff hne).mpr hs) ?_
  intro p hp hlength
  obtain ⟨entry, hentry, rfl⟩ := List.mem_map.mp hp
  have hsame := (length_literalRule_iff hne).mp hlength
  exact hnodup.2.2 _ (List.mem_map_of_mem hentry) _ List.mem_cons_self (hsame.trans hs.symm)

theorem mnemonics_ne_word :
    ∀ entry ∈ mnemonics, entry.1.toList.map Char.toLower ≠ "WORD".toList.map Char.toLower := by
  decide

theorem lex_wordAnyCase {s : List Char} (hne : s ≠ []) (hs : SameText "WORD".toList s) :
    lex s = [.token .word] := by
  refine @lex_of_first mnemonicRules _ (literalRule "WORD" .word) s rfl hne
    ((length_literalRule_iff hne).mpr hs) (length_mnemonicRules hne ?_)
  intro entry hentry hsame
  exact mnemonics_ne_word entry hentry (hsame.trans hs.symm)

/-- A name of letters is no letter with a number. -/
theorem not_sameText_letterId {text s : List Char} {letter : Char} {n : Nat}
    (hletters : ∀ x ∈ text, isLetter x = true) (hs : SameText (letter :: decimalDigits n) s) :
    ¬ SameText text s := by
  intro hsame
  obtain ⟨c, rfl, -⟩ := letterId_cases hs
  obtain ⟨d, hd⟩ := List.exists_mem_of_ne_nil _ (decimalDigits_ne_nil n)
  have hstart := isIdentStart_of_sameText hsame hletters d (List.mem_cons_of_mem _ hd)
  have hdigit := isIdentStart_of_isDigit (isDigit_of_mem_decimalDigits hd)
  exact Bool.false_ne_true (hdigit.symm.trans hstart)

/-- The rules of a text that is neither a mnemonic nor `WORD` do not match all of it. -/
theorem length_nameRules {s : List Char} (hne : s ≠ [])
    (hmnemonic : ∀ entry ∈ mnemonics, ¬ SameText entry.1.toList s)
    (hword : ¬ SameText "WORD".toList s) : ∀ p ∈ nameRules, p.length s ≠ s.length := by
  intro p hp
  rcases List.mem_append.mp hp with hp | hp
  · exact length_mnemonicRules hne hmnemonic p hp
  · rw [List.mem_singleton.mp hp]
    exact fun hlength => hword ((length_literalRule_iff hne).mp hlength)

/-- They do not match all of a letter and a number. -/
theorem length_nameRules_letterId {letter : Char} {n : Nat} {s : List Char} (hne : s ≠ [])
    (hs : SameText (letter :: decimalDigits n) s) : ∀ p ∈ nameRules, p.length s ≠ s.length :=
  length_nameRules hne (fun entry hentry => not_sameText_letterId (mnemonics_letters entry hentry) hs)
    (not_sameText_letterId word_letters hs)

/-- The number of a register or a disk -/
theorem atoi_decimalDigits {n : Nat} (hn : n < 16) : (atoi (decimalDigits n)).toNat = n := by
  rw [atoi, List.takeWhile_eq_self_iff.mpr fun _ hc => isDigit_of_mem_decimalDigits hc,
    valueIn_decimalDigits, BitVec.toNat_ofNat]
  exact Nat.mod_eq_of_lt (by omega)

/-- `R` and `D` in either case -/
theorem sameText_letterId {letter letter' : Char} {n : Nat} {s : List Char}
    (hletter : letter.toLower = letter'.toLower) (hs : SameText (letter :: decimalDigits n) s) :
    SameText (letter' :: decimalDigits n) s := by
  rw [SameText, List.map_cons, ← hletter]
  exact hs

theorem lex_reg {n : Nat} {s : List Char} (hn : n < 16) (hs : SameText ('r' :: decimalDigits n) s) :
    ∃ w : Word, lex s = [.token (.reg w)] ∧ w.toNat = n := by
  have hupper : SameText ('R' :: decimalDigits n) s := sameText_letterId (by decide) hs
  obtain ⟨c, rfl, -⟩ := letterId_cases hs
  have hne : c :: decimalDigits n ≠ [] := List.cons_ne_nil _ _
  refine ⟨atoi (decimalDigits n), ?_, atoi_decimalDigits hn⟩
  exact lex_of_first lexRules_names hne ((letterIdLength_eq_iff hne).mpr ⟨n, hn, hupper⟩)
    (length_nameRules_letterId hne hs)

theorem lex_disk {n : Nat} {s : List Char} (hn : n < 16) (hs : SameText ('d' :: decimalDigits n) s) :
    ∃ w : Word, lex s = [.token (.disk w)] ∧ w.toNat = n := by
  have hupper : SameText ('D' :: decimalDigits n) s := sameText_letterId (by decide) hs
  obtain ⟨c, rfl, hletter⟩ := letterId_cases hs
  have hne : c :: decimalDigits n ≠ [] := List.cons_ne_nil _ _
  refine ⟨atoi (decimalDigits n), ?_, atoi_decimalDigits hn⟩
  refine @lex_of_first (nameRules ++ [regRule]) _ diskRule _ rfl hne
    ((letterIdLength_eq_iff hne).mpr ⟨n, hn, hupper⟩) fun p hp => ?_
  rcases List.mem_append.mp hp with hp | hp
  · exact length_nameRules_letterId hne hs p hp
  · rw [List.mem_singleton.mp hp]
    intro hlength
    obtain ⟨k, -, hk⟩ := (letterIdLength_eq_iff hne).mp hlength
    have hr := (List.cons.inj hk).1
    have hd := (List.cons.inj hs).1
    exact absurd (hr.trans hd.symm) (by decide)

/-- A name that is not reserved -/
theorem lex_ident {c : Char} {l : List Char} (hc : isIdentStart c = true)
    (hl : ∀ d ∈ l, isIdentRest d = true) (hfree : ¬ Reserved (c :: l)) :
    lex (c :: l) = [.token (.ident (String.ofList (c :: l)))] := by
  have hne : c :: l ≠ [] := List.cons_ne_nil c l
  have hupper : ∀ letter letter' : Char, letter.toLower = letter'.toLower →
      (∃ n < 16, SameText (letter :: decimalDigits n) (c :: l)) →
        ∃ n < 16, SameText (letter' :: decimalDigits n) (c :: l) := by
    intro letter letter' hletter ⟨n, hn, hs⟩
    exact ⟨n, hn, sameText_letterId hletter hs⟩
  rw [Reserved, not_or, not_or] at hfree
  obtain ⟨hmnemonic, hword, hid⟩ := hfree
  refine @lex_of_first (nameRules ++ [regRule, diskRule, numberRule]) _ identRule _ rfl hne
    (identLength_of_word ⟨c, l, rfl, hc, hl⟩) fun p hp => ?_
  rcases List.mem_append.mp hp with hp | hp
  · exact length_nameRules hne (fun entry hentry hs => hmnemonic ⟨entry, hentry, hs⟩) hword p hp
  · simp only [List.mem_cons, List.not_mem_nil, or_false] at hp
    rcases hp with rfl | rfl | rfl
    · intro hlength
      obtain ⟨n, hn, hs⟩ := hupper 'R' 'r' (by decide) ((letterIdLength_eq_iff hne).mp hlength)
      exact hid ⟨n, hn, .inl hs⟩
    · intro hlength
      obtain ⟨n, hn, hs⟩ := hupper 'D' 'd' (by decide) ((letterIdLength_eq_iff hne).mp hlength)
      exact hid ⟨n, hn, .inr hs⟩
    · intro hlength
      have hdigit : c.isDigit = false := by
        refine Bool.eq_false_iff.mpr fun hdigit => ?_
        exact Bool.false_ne_true ((isIdentStart_of_isDigit hdigit).symm.trans hc)
      have hsign : ¬ (c = '+' ∨ c = '-') := by
        intro hsign
        rcases hsign with rfl | rfl <;> cases hc
      change numberLength (c :: l) = (c :: l).length at hlength
      rw [numberLength_eq_zero hdigit hsign] at hlength
      cases hlength

/-! ## Numbers -/

theorem isNumber_hex {x : Char} {digits : List Char} {n : Nat} (hx : sameLetter 'x' x = true)
    (hdigits : digitsDenote Char.isHexDigit 16 digits = some n) :
    hexLength ('0' :: x :: digits) = digits.length + 2 ∧
      hexLength ('-' :: '0' :: x :: digits) = digits.length + 3 := by
  obtain ⟨hne, htake, -⟩ := takeWhile_of_digitsDenote hdigits
  have hunsigned : unsignedHexLength ('0' :: x :: digits) = digits.length + 2 := by
    rw [unsignedHexLength, htake]
    exact if_pos ⟨hx, List.length_pos_iff.mpr hne⟩
  refine ⟨hunsigned, ?_⟩
  rw [hexLength, if_pos (.inr rfl), hunsigned]
  rfl

/-- A lexeme that the hexadecimal alternative matches as a whole -/
theorem isNumber_of_hexLength {s : List Char} (hne : s ≠ []) (h : hexLength s = s.length) :
    IsNumber s := by
  refine ⟨hne, ?_⟩
  rw [numberLength, h]
  exact max_eq_left (length_takeWhile_le _ s)

theorem number_toInt {s : List Char} {v : Int} (h : cLiteral s = some v) (hv : v.natAbs ≤ intMax) :
    (numberValue s).toInt = v := by
  rw [intMax] at hv
  rw [numberValue_of_literal h ⟨by omega, by omega⟩]
  exact BitVec.toInt_ofInt_eq_self (by decide) (by omega) (by omega)

/-- A spelling of a number is a lexeme and a C literal of it. -/
theorem number_of_spells {v : Int} {s : List Char} (h : Spells (.number v) s) :
    IsNumber s ∧ cLiteral s = some v ∧ v.natAbs ≤ intMax := by
  cases h with
  | @decimal n hn => exact ⟨isNumber_decimalDigits n, cLiteral_decimalDigits n, hn⟩
  | @hex n x digits hn hx hdigits =>
    refine ⟨isNumber_of_hexLength (List.cons_ne_nil _ _) (isNumber_hex hx hdigits).1, ?_, hn⟩
    simp [cLiteral, cConstant, hx, hdigits]
  | @negative n x digits hn hx hdigits =>
    refine ⟨isNumber_of_hexLength (List.cons_ne_nil _ _) (isNumber_hex hx hdigits).2, ?_, by omega⟩
    simp [cLiteral, cConstant, hx, hdigits]

/-! ## Renderings are read back -/

/-- A spelling is one match, with the value that is spelled. -/
theorem lex_spells {t : Terminal} {s : List Char} (h : Spells t s) :
    ∃ token, lex s = [.token token] ∧ token.terminal = t := by
  have hnil : ∀ {text : String}, SameText text.toList s → text.toList ≠ [] → s ≠ [] := by
    intro text hs hne hnil
    subst hnil
    exact hne (List.length_eq_zero_iff.mp hs.length_eq)
  cases h with
  | word hs => exact ⟨_, lex_wordAnyCase (hnil hs (by decide)) hs, rfl⟩
  | inst hmem hs =>
    have hnames : ∀ entry ∈ mnemonics, entry.1.toList ≠ [] := by decide
    exact ⟨_, lex_mnemonic hmem (hnil hs (hnames _ hmem)) hs, rfl⟩
  | reg hn hs =>
    obtain ⟨w, hlex, hw⟩ := lex_reg hn hs
    exact ⟨_, hlex, congrArg Terminal.reg hw⟩
  | disk hn hs =>
    obtain ⟨w, hlex, hw⟩ := lex_disk hn hs
    exact ⟨_, hlex, congrArg Terminal.disk hw⟩
  | decimal hn =>
    obtain ⟨hnumber, hliteral, hv⟩ := number_of_spells (.decimal hn)
    exact ⟨_, lex_number hnumber, congrArg Terminal.number (number_toInt hliteral hv)⟩
  | hex hn hx hdigits =>
    obtain ⟨hnumber, hliteral, hv⟩ := number_of_spells (.hex hn hx hdigits)
    exact ⟨_, lex_number hnumber, congrArg Terminal.number (number_toInt hliteral hv)⟩
  | negative hn hx hdigits =>
    obtain ⟨hnumber, hliteral, hv⟩ := number_of_spells (.negative hn hx hdigits)
    exact ⟨_, lex_number hnumber, congrArg Terminal.number (number_toInt hliteral hv)⟩
  | ident hc hs hfree => exact ⟨_, lex_ident hc hs hfree, rfl⟩
  | colon => exact ⟨_, lex_colon [], rfl⟩
  | comma => exact ⟨_, lex_separator (by decide) [], rfl⟩
  | newline => exact ⟨_, lex_newline [], rfl⟩

theorem semicolon_not_mem_hex {x : Char} {digits : List Char} {n : Nat} (hx : sameLetter 'x' x = true)
    (hdigits : digitsDenote Char.isHexDigit 16 digits = some n) : ';' ∉ '-' :: '0' :: x :: digits := by
  obtain ⟨-, htake, -⟩ := takeWhile_of_digitsDenote hdigits
  intro h
  simp only [List.mem_cons] at h
  rcases h with h | h | rfl | h
  · exact absurd h (by decide)
  · exact absurd h (by decide)
  · exact absurd hx (by decide)
  · exact absurd (List.takeWhile_eq_self_iff.mp htake _ h) (by decide)

/-- No spelling has a semicolon. -/
theorem semicolon_not_mem {t : Terminal} {s : List Char} (h : Spells t s) : ';' ∉ s := by
  have hletters : ∀ {text : List Char}, (∀ x ∈ text, isLetter x = true) → SameText text s → ';' ∉ s := by
    intro text htext hs hmem
    exact absurd (isIdentStart_of_sameText hs htext _ hmem) (by decide)
  have hletterId : ∀ {letter : Char} {n : Nat}, isLetter letter = true →
      SameText (letter :: decimalDigits n) s → ';' ∉ s := by
    intro letter n hletter hs hmem
    obtain ⟨c, rfl, hc⟩ := letterId_cases hs
    rcases List.mem_cons.mp hmem with rfl | hmem
    · exact absurd (isIdentStart_eq_of_sameLetter hc hletter) (by decide)
    · exact absurd (isDigit_of_mem_decimalDigits hmem) (by decide)
  cases h with
  | word hs => exact hletters word_letters hs
  | inst hmem hs => exact hletters (mnemonics_letters _ hmem) hs
  | reg hn hs => exact hletterId (by decide) hs
  | disk hn hs => exact hletterId (by decide) hs
  | decimal hn => exact fun h => absurd (isDigit_of_mem_decimalDigits h) (by decide)
  | hex hn hx hdigits => exact fun h => semicolon_not_mem_hex hx hdigits (List.mem_cons_of_mem _ h)
  | negative hn hx hdigits => exact semicolon_not_mem_hex hx hdigits
  | ident hc hs hfree =>
    intro h
    rcases List.mem_cons.mp h with rfl | h
    · exact absurd hc (by decide)
    · exact absurd (hs _ h) (by decide)
  | colon => decide
  | comma => decide
  | newline => decide

theorem lex_blanks {w : List Char} (hw : Blanks w) (l : List Char) :
    lex (w ++ l) = w.map (fun _ => .skip) ++ lex l := by
  have hseparators : ∀ c ∈ w, isSeparator c = true := by
    intro c hc
    rcases hw c hc with rfl | rfl <;> rfl
  rw [lex_separators hseparators]
  refine congrArg (· ++ lex l) (List.map_congr_left fun c hc => ?_)
  rcases hw c hc with rfl | rfl <;> rfl

/-- What may stand before a token is passed over. -/
theorem lex_gap {t : Terminal} {gap s : List Char} (hgap : Gap t gap) (hs : Spells t s)
    (text : List Char) :
    ∃ xs : List Lexed, (∀ x ∈ xs, x = .skip) ∧ lex (gap ++ (s ++ text)) = xs ++ lex (s ++ text) := by
  cases hgap with
  | blanks hne hw =>
    refine ⟨gap.map fun _ => .skip, fun x hx => ?_, lex_blanks hw _⟩
    obtain ⟨c, -, rfl⟩ := List.mem_map.mp hx
    rfl
  | @comment w body hw hbody =>
    cases hs with
    | newline =>
      refine ⟨w.map (fun _ => .skip) ++ [.skip], fun x hx => ?_, ?_⟩
      · rcases List.mem_append.mp hx with hx | hx
        · obtain ⟨c, -, rfl⟩ := List.mem_map.mp hx
          rfl
        · exact List.mem_singleton.mp hx
      · have hsplit := @lex_split (';' :: body) '\n' (by decide) (.inl rfl) text
        rw [lex_comment hbody] at hsplit
        rw [List.append_assoc, lex_blanks hw, List.append_assoc]
        exact congrArg (_ ++ ·) hsplit

/-- What follows a token begins with a character that ends it. -/
theorem rendersAfter_head {ts : List Terminal} {text : List Char} (h : RendersAfter ts text) :
    text = [] ∨ ∃ c rest, text = c :: rest ∧ isIdentRest c = false := by
  cases h with
  | nil => exact .inl rfl
  | @cons t ts gap s text hgap hs htext =>
    right
    cases hgap with
    | blanks hne hw =>
      obtain ⟨c, w, rfl⟩ := List.exists_cons_of_ne_nil hne
      refine ⟨c, w ++ (s ++ text), rfl, ?_⟩
      rcases hw c List.mem_cons_self with rfl | rfl <;> rfl
    | @comment w body hw hbody =>
      cases w with
      | nil => exact ⟨';', body ++ (s ++ text), rfl, rfl⟩
      | cons c w =>
        refine ⟨c, (w ++ ';' :: body) ++ (s ++ text), rfl, ?_⟩
        rcases hw c List.mem_cons_self with rfl | rfl <;> rfl

/-- The scanner gives the tokens with these values for the text, and reports nothing. -/
def ScansAs (text : List Char) (ts : List Terminal) : Prop :=
  (tokens text).map Token.terminal = ts ∧ .unexpected ∉ lex text

/-- A gap and a token before a text that is scanned as some tokens -/
theorem scansAs_cons {t : Terminal} {ts : List Terminal} {gap s text : List Char}
    (hgap : gap = [] ∨ Gap t gap) (hs : Spells t s) (htext : RendersAfter ts text)
    (h : ScansAs text ts) : ScansAs (gap ++ (s ++ text)) (t :: ts) := by
  obtain ⟨token, hlex, hvalue⟩ := lex_spells hs
  obtain ⟨hts, hunexpected⟩ := h
  -- the spelling is scanned by itself: what follows it ends it
  have htoken : lex (s ++ text) = .token token :: lex text := by
    rcases rendersAfter_head htext with rfl | ⟨c, rest, rfl, hc⟩
    · rw [List.append_nil, hlex]
      rfl
    · rw [lex_split hc (.inr (semicolon_not_mem hs)), hlex, List.singleton_append]
  obtain ⟨xs, hskip, hlex⟩ : ∃ xs : List Lexed, (∀ x ∈ xs, x = .skip) ∧
      lex (gap ++ (s ++ text)) = xs ++ lex (s ++ text) := by
    rcases hgap with rfl | hgap
    · exact ⟨[], List.forall_mem_nil _, rfl⟩
    · exact lex_gap hgap hs text
  have hnone : xs.filterMap Lexed.token? = [] := by
    refine List.filterMap_eq_nil_iff.mpr fun x hx => ?_
    rw [hskip x hx]
    rfl
  refine ⟨?_, ?_⟩
  · rw [tokens, hlex, htoken, List.filterMap_append, hnone, List.nil_append, ← hts, ← hvalue]
    rfl
  · rw [hlex, htoken]
    intro hmem
    rcases List.mem_append.mp hmem with hmem | hmem
    · cases hskip _ hmem
    · rcases List.mem_cons.mp hmem with hmem | hmem
      · cases hmem
      · exact hunexpected hmem

theorem scansAs_of_rendersAfter {ts : List Terminal} {text : List Char} (h : RendersAfter ts text) :
    ScansAs text ts := by
  induction h with
  | nil => exact ⟨rfl, List.not_mem_nil⟩
  | cons hgap hs htext ih => exact scansAs_cons (.inr hgap) hs htext ih

/-- Every rendering of a token list is scanned as the list, without an unexpected character. -/
theorem lex_renders {ts : List Terminal} {text : List Char} (h : Renders ts text) :
    ScansAs text ts := by
  cases h with
  | nil => exact ⟨rfl, List.not_mem_nil⟩
  | cons hgap hs htext => exact scansAs_cons hgap hs htext (scansAs_of_rendersAfter htext)

/-- `eNdX :;x`, a newline, a tab and `lOd r015 -0x1f` -/
theorem lex_renders_lod :
    ScansAs ([] ++ (['e', 'N', 'd', 'X'] ++ ([' '] ++ ([':'] ++ ([';', 'x'] ++ (['\n'] ++ (['\t'] ++
        (['l', 'O', 'd'] ++ ([' '] ++ (['r', '0', '1', '5'] ++ ([' '] ++
          (['-', '0', 'x', '1', 'f'] ++ []))))))))))))
      [.ident "eNdX", .colon, .newline, .inst .inst2ra .lod, .ident "r015", .number (-31)] := by
  refine lex_renders (.cons (.inl rfl) (@Spells.ident 'e' ['N', 'd', 'X'] rfl
    (List.all_eq_true.mp (by decide)) (by decide)) ?_)
  refine .cons (.blanks (by decide) (by simp [Blanks])) .colon ?_
  refine .cons (@Gap.comment [] ['x'] (by simp [Blanks]) (by decide)) .newline ?_
  refine .cons (.blanks (by decide) (by simp [Blanks]))
    (@Spells.inst "LOD" .inst2ra .lod ['l', 'O', 'd'] (by decide) rfl) ?_
  refine .cons (.blanks (by decide) (by simp [Blanks])) (@Spells.ident 'r' ['0', '1', '5'] rfl
    (List.all_eq_true.mp (by decide)) (by decide)) ?_
  exact .cons (.blanks (by decide) (by simp [Blanks])) (@Spells.negative 31 'x' ['1', 'f'] (by decide)
    (by decide) (by decide)) .nil

end Rbml.Asm
