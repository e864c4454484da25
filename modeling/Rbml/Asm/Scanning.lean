import Mathlib.Data.List.MinMax
import Mathlib.Data.List.TakeWhile
import Mathlib.Order.Nat
import Rbml.Asm.Grammar

/-!
# What the scanner makes of the parts of a text

A character that an identifier cannot contain ends every match but that of a comment, so that a text is
scanned part by part between such characters (`lex_split`). Separators, which are blanks, control
characters and all that no rule begins with but the last one, are scanned one by one (`lex_separators`).
A lexeme of `NUMBER`, a comment up to the end of its line and `WORD` are scanned as one match each.
-/

namespace Rbml.Asm

open Rbml.Lib

/-! ## Characters -/

theorem isIdentStart_iff {c : Char} : isIdentStart c = true ↔
    c = '_' ∨ (97 ≤ c.toLower.val.toNat ∧ c.toLower.val.toNat ≤ 122) := by
  rw [isIdentStart, Bool.or_eq_true, beq_iff_eq, Bool.and_eq_true, decide_eq_true_iff,
    decide_eq_true_iff, Char.le_def, Char.le_def, UInt32.le_iff_toNat_le, UInt32.le_iff_toNat_le]
  exact Iff.rfl

theorem isIdentStart_of_isDigit {c : Char} (hc : c.isDigit = true) : isIdentStart c = false := by
  have hdigit := isDigit_iff.mp hc
  refine Bool.eq_false_iff.mpr fun hstart => ?_
  rcases isIdentStart_iff.mp hstart with rfl | hletter
  · exact absurd hdigit.2 (by decide)
  · rw [toLower_of_not_upper (by omega)] at hletter
    omega

theorem isIdentRest_of_isHexDigit {c : Char} (hc : c.isHexDigit = true) : isIdentRest c = true := by
  simp only [Char.isHexDigit, Bool.or_eq_true, Bool.and_eq_true, decide_eq_true_eq,
    UInt32.le_iff_toNat_le, ge_iff_le] at hc
  rw [isIdentRest, Bool.or_eq_true, isIdentStart_iff]
  rcases hc with (hc | ⟨hlow, hhigh⟩) | ⟨hlow, hhigh⟩
  · exact .inr hc
  · change 97 ≤ _ at hlow
    change _ ≤ 102 at hhigh
    rw [toLower_of_not_upper (by omega)]
    exact .inl (.inr ⟨hlow, by omega⟩)
  · change 65 ≤ _ at hlow
    change _ ≤ 70 at hhigh
    rw [toNat_toLower_of_upper ⟨hlow, by omega⟩]
    exact .inl (.inr ⟨by omega, by omega⟩)

theorem sameLetter_of_not_identStart {x c : Char} (hc : isIdentStart c = false)
    (hx : ('a' ≤ x.toLower && x.toLower ≤ 'z') = true) : sameLetter x c = false := by
  refine Bool.eq_false_iff.mpr fun hsame => ?_
  rw [eq_of_beq hsame] at hx
  simp only [isIdentStart, Bool.or_eq_false_iff] at hc
  exact Bool.false_ne_true (hc.2.symm.trans hx)

/-- A character that ends every match but that of a comment -/
theorem of_not_identRest {c : Char} (hc : isIdentRest c = false) :
    isIdentStart c = false ∧ c.isDigit = false ∧ c.isHexDigit = false := by
  obtain ⟨hstart, hdigit⟩ := Bool.or_eq_false_iff.mp hc
  refine ⟨hstart, hdigit, Bool.eq_false_iff.mpr fun hhex => ?_⟩
  exact Bool.false_ne_true (hc.symm.trans (isIdentRest_of_isHexDigit hhex))

/-- The letters of mnemonics -/
def isLetter (x : Char) : Bool := 'a' ≤ x.toLower && x.toLower ≤ 'z'

theorem mnemonics_letters : ∀ entry ∈ mnemonics, ∀ x ∈ entry.1.toList, isLetter x = true := by
  have hall : ∀ entry ∈ mnemonics, entry.1.toList.all isLetter = true := by decide
  intro entry hentry
  exact List.all_eq_true.mp (hall entry hentry)

theorem word_letters : ∀ x ∈ "WORD".toList, isLetter x = true := List.all_eq_true.mp (by decide)

/-! ## Matches that end before a character -/

section
variable {c : Char} {s rest : List Char}

theorem takeWhile_append_cons {p : Char → Bool} (hp : p c = false) (s rest : List Char) :
    (s ++ c :: rest).takeWhile p = s.takeWhile p := by
  induction s with
  | nil => simp [hp]
  | cons a s ih =>
    rw [List.cons_append, List.takeWhile_cons, List.takeWhile_cons, ih]

theorem literalLength_append_cons {text : List Char} (h : ∀ x ∈ text, sameLetter x c = false)
    (s rest : List Char) : literalLength text (s ++ c :: rest) = literalLength text s := by
  induction text generalizing s with
  | nil => rfl
  | cons x text ih =>
    cases s with
    | nil => simp [literalLength, h x List.mem_cons_self]
    | cons a s =>
      rw [List.cons_append, literalLength, literalLength,
        ih fun y hy => h y (List.mem_cons_of_mem _ hy)]

theorem longestOf_ids_append_cons (hc : c.isDigit = false) (s rest : List Char) :
    longestOf ids (s ++ c :: rest) = longestOf ids s := by
  have hsame : ∀ text ∈ ids, literalLength text (s ++ c :: rest) = literalLength text s := by
    intro text htext
    refine literalLength_append_cons (fun x hx => ?_) s rest
    refine Bool.eq_false_iff.mpr fun h => ?_
    have hx' := ids_digits text htext x hx
    rw [eq_of_sameLetter hx' h, hx'] at hc
    cases hc
  rw [longestOf, longestOf, List.filterMap_congr hsame]

theorem unsignedHexLength_append_cons (hc : isIdentRest c = false) (s rest : List Char) :
    unsignedHexLength (s ++ c :: rest) = unsignedHexLength s := by
  obtain ⟨hstart, hdigit, hhex⟩ := of_not_identRest hc
  have hx : sameLetter 'x' c = false := sameLetter_of_not_identStart hstart (by decide)
  match s with
  | [] =>
    rw [List.nil_append, unsignedHexLength, unsignedHexLength]
    · intro x input heq
      cases heq
    · intro x input heq
      rw [(List.cons.inj heq).1] at hdigit
      cases hdigit
  | [a] =>
    by_cases ha : a = '0'
    · subst ha
      simp [unsignedHexLength, hx]
    · rw [List.singleton_append, unsignedHexLength, unsignedHexLength]
      · intro x input heq
        cases heq
      · intro x input heq
        exact ha (List.cons.inj heq).1
  | a :: x :: s =>
    by_cases ha : a = '0'
    · subst ha
      simp only [List.cons_append, unsignedHexLength, takeWhile_append_cons hhex]
    · rw [List.cons_append, unsignedHexLength, unsignedHexLength]
      · intro x input heq
        exact ha (List.cons.inj heq).1
      · intro x input heq
        exact ha (List.cons.inj heq).1

theorem hexLength_append_cons (hc : isIdentRest c = false) (hs : s ≠ []) (rest : List Char) :
    hexLength (s ++ c :: rest) = hexLength s := by
  obtain ⟨a, s, rfl⟩ := List.exists_cons_of_ne_nil hs
  have hunsigned := unsignedHexLength_append_cons hc (a :: s) rest
  rw [List.cons_append] at hunsigned ⊢
  rw [hexLength, hexLength, hunsigned, unsignedHexLength_append_cons hc]

/-- Every match ends before a character that an identifier cannot contain, except a comment that the
character does not end. -/
theorem length_append_cons (hc : isIdentRest c = false) (hs : s ≠ []) (hcomment : c = '\n' ∨ ';' ∉ s)
    (rest : List Char) : ∀ r ∈ lexRules, r.length (s ++ c :: rest) = r.length s := by
  obtain ⟨hstart, hdigit, -⟩ := of_not_identRest hc
  have hliteral : ∀ (text : String) (t : Token), (∀ x ∈ text.toList, isLetter x = true) →
      (literalRule text t).length (s ++ c :: rest) = (literalRule text t).length s := by
    intro text t htext
    show (literalLength text.toList (s ++ c :: rest)).getD 0 = (literalLength text.toList s).getD 0
    rw [literalLength_append_cons fun x hx => sameLetter_of_not_identStart hstart (htext x hx)]
  obtain ⟨a, s, rfl⟩ := List.exists_cons_of_ne_nil hs
  have hletter : ∀ letter, letterIdLength letter (a :: s ++ c :: rest) =
      letterIdLength letter (a :: s) := by
    intro letter
    rw [List.cons_append, letterIdLength, letterIdLength, longestOf_ids_append_cons hdigit]
  intro r hr
  rcases List.mem_append.mp hr with hr | hr
  · obtain ⟨⟨text, form, opcode⟩, hmem, rfl⟩ := List.mem_map.mp hr
    exact hliteral text _ (mnemonics_letters _ hmem)
  · simp only [List.mem_cons, List.not_mem_nil, or_false] at hr
    rcases hr with rfl | rfl | rfl | rfl | rfl | rfl | rfl | rfl | rfl
    · exact hliteral "WORD" _ word_letters
    · exact hletter 'R'
    · exact hletter 'D'
    · show numberLength (a :: s ++ c :: rest) = numberLength (a :: s)
      rw [numberLength, numberLength, hexLength_append_cons hc hs, takeWhile_append_cons hdigit]
    · show identLength (a :: s ++ c :: rest) = identLength (a :: s)
      rw [List.cons_append, identLength, identLength, takeWhile_append_cons hc]
    · rfl
    · show commentLength (a :: s ++ c :: rest) = commentLength (a :: s)
      by_cases ha : a = ';'
      · subst ha
        obtain rfl : c = '\n' := hcomment.resolve_right fun h => h List.mem_cons_self
        rw [List.cons_append, commentLength, commentLength, takeWhile_append_cons (by decide)]
      · rw [List.cons_append, commentLength, commentLength]
        · intro input heq
          exact ha (List.cons.inj heq).1
        · intro input heq
          exact ha (List.cons.inj heq).1
    · rfl
    · rfl

end

/-! ## How long a match is -/

theorem literalLength_le {text input : List Char} {n : Nat} (h : literalLength text input = some n) :
    n ≤ input.length := by
  induction text generalizing input n with
  | nil =>
    cases h
    exact Nat.zero_le _
  | cons x text ih =>
    cases input with
    | nil => cases h
    | cons a input =>
      rw [literalLength] at h
      split at h
      · obtain ⟨k, hk, rfl⟩ := Option.map_eq_some_iff.mp h
        exact Nat.succ_le_succ (ih hk)
      · cases h

theorem longestOf_le (alternatives : List (List Char)) (input : List Char) :
    longestOf alternatives input ≤ input.length := by
  refine List.max_le_of_forall_le _ _ fun n hn => ?_
  obtain ⟨s, -, hs⟩ := List.mem_filterMap.mp hn
  exact literalLength_le hs

theorem length_takeWhile_le (p : Char → Bool) (input : List Char) :
    (input.takeWhile p).length ≤ input.length :=
  (List.takeWhile_prefix p).length_le

theorem unsignedHexLength_le (input : List Char) : unsignedHexLength input ≤ input.length := by
  unfold unsignedHexLength
  split
  next x input =>
    have hle := length_takeWhile_le Char.isHexDigit input
    simp only [List.length_cons]
    split <;> omega
  · exact Nat.zero_le _

theorem hexLength_le (input : List Char) : hexLength input ≤ input.length := by
  cases input with
  | nil => exact Nat.le_refl _
  | cons c input =>
    have hle := unsignedHexLength_le input
    rw [hexLength]
    split
    · simp only [List.length_cons]
      split <;> omega
    · exact unsignedHexLength_le (c :: input)

theorem classLength_le (p : Char → Bool) (input : List Char) :
    classLength p input ≤ min 1 input.length := by
  cases input with
  | nil => exact Nat.le_refl _
  | cons c input =>
    rw [classLength, List.length_cons, Nat.min_eq_left (Nat.le_add_left 1 _)]
    split <;> decide

/-- No match is longer than the input. -/
theorem length_le (input : List Char) : ∀ r ∈ lexRules, r.length input ≤ input.length := by
  have hliteral : ∀ (text : String) (t : Token), (literalRule text t).length input ≤ input.length := by
    intro text t
    show (literalLength text.toList input).getD 0 ≤ input.length
    cases h : literalLength text.toList input with
    | none => exact Nat.zero_le _
    | some n => exact literalLength_le h
  have hletter : ∀ letter, letterIdLength letter input ≤ input.length := by
    intro letter
    cases input with
    | nil => exact Nat.le_refl _
    | cons a input =>
      have hle := longestOf_le ids input
      rw [letterIdLength]
      split
      · exact Nat.succ_le_succ hle
      · exact Nat.zero_le _
  have hclass : ∀ p, classLength p input ≤ input.length := fun p =>
    Nat.le_trans (classLength_le p input) (Nat.min_le_right _ _)
  intro r hr
  rcases List.mem_append.mp hr with hr | hr
  · obtain ⟨⟨text, form, opcode⟩, -, rfl⟩ := List.mem_map.mp hr
    exact hliteral text _
  · simp only [List.mem_cons, List.not_mem_nil, or_false] at hr
    rcases hr with rfl | rfl | rfl | rfl | rfl | rfl | rfl | rfl | rfl
    · exact hliteral "WORD" _
    · exact hletter 'R'
    · exact hletter 'D'
    · exact Nat.max_le.mpr ⟨hexLength_le input, length_takeWhile_le _ input⟩
    · show identLength input ≤ input.length
      cases input with
      | nil => exact Nat.le_refl _
      | cons c input =>
        rw [identLength]
        split
        · exact Nat.succ_le_succ (length_takeWhile_le _ input)
        · exact Nat.zero_le _
    · exact hclass _
    · show commentLength input ≤ input.length
      unfold commentLength
      split
      · exact Nat.succ_le_succ (length_takeWhile_le _ _)
      · exact Nat.zero_le _
    · exact hclass _
    · exact hclass _

/-- A text is scanned part by part. -/
theorem lex_split {m : List Char} {c : Char} (hc : isIdentRest c = false)
    (hcomment : c = '\n' ∨ ';' ∉ m) (rest : List Char) :
    lex (m ++ c :: rest) = lex m ++ lex (c :: rest) := by
  refine scan_split ?_ fun s _ => length_le s
  intro s hs hne
  exact length_append_cons hc hne (hcomment.imp_right fun h hmem => h (hs.subset hmem)) rest

/-! ## What begins a match -/

/-- What begins no identifier begins no mnemonic. -/
theorem literalLength_of_not_identStart {text : List Char} {c : Char} (hc : isIdentStart c = false)
    (hne : text ≠ []) (htext : ∀ x ∈ text, isLetter x = true) (l : List Char) :
    literalLength text (c :: l) = none := by
  obtain ⟨x, text, rfl⟩ := List.exists_cons_of_ne_nil hne
  rw [literalLength, sameLetter_of_not_identStart hc (htext x List.mem_cons_self)]
  rfl

theorem letterIdLength_of_not_identStart {letter c : Char} (hc : isIdentStart c = false)
    (hletter : isLetter letter = true) (l : List Char) : letterIdLength letter (c :: l) = 0 := by
  simp [letterIdLength, sameLetter_of_not_identStart hc hletter]

/-- The rules before that of `NUMBER` -/
def letterRules : List (Rule Char Lexed) :=
  mnemonics.map (fun (text, form, opcode) => literalRule text (.inst form opcode)) ++
  [literalRule "WORD" .word,
   ⟨letterIdLength 'R', fun text => .token (.reg (atoi (text.drop 1)))⟩,
   ⟨letterIdLength 'D', fun text => .token (.disk (atoi (text.drop 1)))⟩]

/-- They do not match what begins no identifier. -/
theorem length_letterRules {c : Char} (hc : isIdentStart c = false) (l : List Char) :
    ∀ s ∈ letterRules, s.length (c :: l) = 0 := by
  have hliteral : ∀ (text : String) (t : Token), text.toList ≠ [] →
      (∀ x ∈ text.toList, isLetter x = true) → (literalRule text t).length (c :: l) = 0 := by
    intro text t hne htext
    show (literalLength text.toList (c :: l)).getD 0 = 0
    rw [literalLength_of_not_identStart hc hne htext]
    rfl
  have hmnemonics : ∀ entry ∈ mnemonics, entry.1.toList ≠ [] := by decide
  intro s hs
  rcases List.mem_append.mp hs with hs | hs
  · obtain ⟨⟨text, form, opcode⟩, hmem, rfl⟩ := List.mem_map.mp hs
    exact hliteral text _ (hmnemonics _ hmem) (mnemonics_letters _ hmem)
  · simp only [List.mem_cons, List.not_mem_nil, or_false] at hs
    rcases hs with rfl | rfl | rfl
    · exact hliteral "WORD" _ (by decide) word_letters
    · exact letterIdLength_of_not_identStart hc (by decide) l
    · exact letterIdLength_of_not_identStart hc (by decide) l

/-- The rules of numbers and identifiers -/
def textRules : List (Rule Char Lexed) :=
  [⟨numberLength, fun text => .token (.number text)⟩,
   ⟨identLength, fun text => .token (.ident (String.ofList text))⟩]

/-- The rules of single characters and of comments -/
def charRules : List (Rule Char Lexed) :=
  [⟨classLength fun c => c == ':' || c == ',' || c == '\n', controlAction⟩,
   ⟨commentLength, fun _ => .skip⟩,
   ⟨classLength fun c => c == ' ' || c == '\t', fun _ => .skip⟩,
   ⟨classLength (· ≠ '\n'), fun _ => .unexpected⟩]

theorem lexRules_eq : lexRules = (letterRules ++ textRules) ++ charRules := rfl

/-- Where no identifier and no number begins, the rules of single characters and comments are left. -/
theorem selectRule_charRules {c : Char} {l : List Char} (hc : isIdentStart c = false)
    (hn : numberLength (c :: l) = 0) :
    selectRule (c :: l) lexRules = selectRule (c :: l) charRules := by
  rw [lexRules_eq]
  refine selectRule_append_of_zero fun s hs => ?_
  rcases List.mem_append.mp hs with hs | hs
  · exact length_letterRules hc l s hs
  · simp only [textRules, List.mem_cons, List.not_mem_nil, or_false] at hs
    rcases hs with rfl | rfl
    · exact hn
    · simp [identLength, hc]

theorem commentLength_eq_zero {c : Char} (hc : c ≠ ';') (l : List Char) :
    commentLength (c :: l) = 0 := by
  rw [commentLength]
  intro input heq
  exact hc (List.cons.inj heq).1

/-- A single character is one at most. -/
theorem length_charRules {c : Char} (hc : c ≠ ';') (l : List Char) :
    ∀ s ∈ charRules, s.length (c :: l) ≤ 1 := by
  have hclass : ∀ p, classLength p (c :: l) ≤ 1 := fun p =>
    Nat.le_trans (classLength_le p (c :: l)) (Nat.min_le_left _ _)
  simp only [charRules, List.forall_mem_cons, List.not_mem_nil, false_implies, implies_true, and_true]
  exact ⟨hclass _, (commentLength_eq_zero hc l).trans_le (Nat.zero_le 1), hclass _, hclass _⟩

/-! ## Single characters -/

/-- What a character gives that begins no identifier, no number and no comment -/
def charLexed (c : Char) : Lexed :=
  if c == ':' || c == ',' || c == '\n' then controlAction [c]
  else if c == ' ' || c == '\t' then .skip
  else .unexpected

theorem lex_single {c : Char} {l : List Char} (hc : isIdentStart c = false)
    (hn : numberLength (c :: l) = 0) (hsemi : c ≠ ';') :
    lex (c :: l) = charLexed c :: lex l := by
  have hselect := selectRule_charRules hc hn
  have hcomment := commentLength_eq_zero hsemi l
  -- the rule with the first match of one character, after rules that do not match
  have hrule : ∀ pre (p : Char → Bool) action post,
      charRules = pre ++ ⟨classLength p, action⟩ :: post → p c = true →
      (∀ s ∈ pre, s.length (c :: l) = 0) → lex (c :: l) = action [c] :: lex l := by
    intro pre p action post heq hp hpre
    have hlength : classLength p (c :: l) = 1 := if_pos hp
    refine @scan_append _ _ _ ⟨classLength p, action⟩ [c] l ?_ hlength
    rw [List.singleton_append, hselect, heq, selectRule_append_of_zero hpre]
    refine @selectRule_append _ _ _ [] _ _ (Nat.lt_of_lt_of_eq Nat.one_pos hlength.symm)
      (List.forall_mem_nil _) ?_
    intro s hs
    refine (length_charRules hsemi l s ?_).trans_eq hlength.symm
    rw [heq]
    exact List.mem_append.mpr (.inr (List.mem_cons_of_mem _ hs))
  unfold charLexed
  split
  next hcontrol =>
    exact hrule [] _ _ _ rfl hcontrol (List.forall_mem_nil _)
  next hcontrol =>
    have hcontrol' : classLength (fun c => c == ':' || c == ',' || c == '\n') (c :: l) = 0 :=
      if_neg hcontrol
    split
    next hblank =>
      refine hrule [⟨classLength _, _⟩, ⟨commentLength, _⟩] _ _ _ rfl hblank ?_
      simp only [List.forall_mem_cons, List.not_mem_nil, false_implies, implies_true, and_true]
      exact ⟨hcontrol', hcomment⟩
    next hblank =>
      have hnewline : decide (c ≠ '\n') = true := by
        refine decide_eq_true fun h => hcontrol ?_
        simp [h]
      have hblank' : classLength (fun c => c == ' ' || c == '\t') (c :: l) = 0 := if_neg hblank
      refine hrule [⟨classLength _, _⟩, ⟨commentLength, _⟩, ⟨classLength _, _⟩] _ _ _ rfl hnewline ?_
      simp only [List.forall_mem_cons, List.not_mem_nil, false_implies, implies_true, and_true]
      exact ⟨hcontrol', hcomment, hblank'⟩

theorem numberLength_eq_zero {c : Char} (hc : c.isDigit = false) (hsign : ¬ (c = '+' ∨ c = '-'))
    (l : List Char) : numberLength (c :: l) = 0 := by
  have hnone : (c :: l).takeWhile Char.isDigit = [] := by simp [hc]
  have hhex : hexLength (c :: l) = 0 := by
    rw [hexLength, if_neg hsign, unsignedHexLength]
    intro x input heq
    rw [(List.cons.inj heq).1] at hc
    cases hc
  rw [numberLength, hhex, hnone]
  rfl

/-- How a lexeme of `NUMBER` begins -/
theorem number_head {c : Char} {l : List Char} (h : 0 < numberLength (c :: l)) :
    c.isDigit = true ∨ c = '+' ∨ c = '-' := by
  by_contra hnot
  rw [not_or, Bool.not_eq_true] at hnot
  exact Nat.ne_of_gt h (numberLength_eq_zero hnot.1 hnot.2 l)

/-- A character of no lexeme but its own -/
def isSeparator (c : Char) : Bool := !(isIdentRest c || c == '+' || c == '-' || c == ';')

theorem of_isSeparator {c : Char} (hc : isSeparator c = true) :
    isIdentRest c = false ∧ ¬ (c = '+' ∨ c = '-') ∧ c ≠ ';' := by
  simpa [isSeparator, and_assoc] using hc

theorem lex_separator {c : Char} (hc : isSeparator c = true) (l : List Char) :
    lex (c :: l) = charLexed c :: lex l := by
  obtain ⟨hrest, hsign, hsemi⟩ := of_isSeparator hc
  obtain ⟨hstart, hdigit, -⟩ := of_not_identRest hrest
  exact lex_single hstart (numberLength_eq_zero hdigit hsign l) hsemi

theorem lex_newline (l : List Char) : lex ('\n' :: l) = .token .newline :: lex l :=
  lex_separator (by decide) l

theorem lex_colon (l : List Char) : lex (':' :: l) = .token .colon :: lex l :=
  lex_separator (by decide) l

theorem lex_separators {w : List Char} (hw : ∀ c ∈ w, isSeparator c = true) (l : List Char) :
    lex (w ++ l) = w.map charLexed ++ lex l := by
  induction w with
  | nil => rfl
  | cons c w ih =>
    rw [List.cons_append, lex_separator (hw c List.mem_cons_self),
      ih fun d hd => hw d (List.mem_cons_of_mem _ hd), List.map_cons, List.cons_append]

/-- A comment up to the end of the text -/
theorem lex_comment {l : List Char} (hl : '\n' ∉ l) : lex (';' :: l) = [.skip] := by
  have hselect := selectRule_charRules (c := ';') (l := l) (by decide)
    (numberLength_eq_zero (by decide) (by decide) l)
  have hlength : commentLength (';' :: l) = (';' :: l).length := by
    have hall : l.takeWhile (· ≠ '\n') = l :=
      List.takeWhile_eq_self_iff.mpr fun c hc => decide_eq_true fun h => hl (h ▸ hc)
    rw [commentLength, hall, List.length_cons]
  have hrule : selectRule (';' :: l) lexRules = some ⟨commentLength, fun _ => .skip⟩ := by
    rw [hselect]
    refine @selectRule_append _ _ _ [⟨classLength _, _⟩] _ _ ?_ ?_ ?_
    · exact Nat.lt_of_lt_of_eq (Nat.succ_pos _) hlength.symm
    · intro s hs
      obtain rfl := List.mem_singleton.mp hs
      exact Nat.lt_of_lt_of_eq (Nat.succ_pos _) hlength.symm
    · intro s hs
      refine Nat.le_trans (length_le (';' :: l) s ?_) hlength.ge
      exact List.mem_append.mpr (.inr (List.mem_of_mem_drop (i := 7) hs))
  exact scan_eq_singleton hrule hlength

/-! ## Lexemes -/

/-- The text is one lexeme of `NUMBER`. -/
def IsNumber (text : List Char) : Prop := text ≠ [] ∧ numberLength text = text.length

theorem lex_number {lexeme : List Char} (h : IsNumber lexeme) :
    lex lexeme = [.token (.number lexeme)] := by
  obtain ⟨hne, hlength⟩ := h
  obtain ⟨c, l, rfl⟩ := List.exists_cons_of_ne_nil hne
  have hpos : 0 < numberLength (c :: l) := hlength ▸ Nat.succ_pos l.length
  have hhead := number_head hpos
  have hident : isIdentStart c = false := by
    rcases hhead with hdigit | rfl | rfl
    · exact isIdentStart_of_isDigit hdigit
    · decide
    · decide
  have hrule : selectRule (c :: l) lexRules =
      some ⟨numberLength, fun text => .token (.number text)⟩ := by
    refine @selectRule_append _ _ _ letterRules _ _ hpos ?_ ?_
    · intro s hs
      rw [length_letterRules hident l s hs]
      exact hpos
    · intro s hs
      refine Nat.le_trans (length_le (c :: l) s ?_) hlength.ge
      exact List.mem_append.mpr (.inr (List.mem_of_mem_drop (i := 4) hs))
  exact scan_eq_singleton hrule hlength

/-- `WORD` before a character that ends it -/
theorem lex_word {c : Char} (hc : isIdentRest c = false) (rest : List Char) :
    lex (['W', 'O', 'R', 'D'] ++ c :: rest) = .token .word :: lex (c :: rest) := by
  have hword : lex ['W', 'O', 'R', 'D'] = [.token .word] := by decide +kernel
  rw [lex_split hc (.inr (by decide)), hword, List.singleton_append]

/-- No mnemonic begins as `WORD` does. -/
theorem length_letterRules_word (l : List Char) :
    ∀ s ∈ letterRules, s.length (['W', 'O', 'R', 'D'] ++ l) ≤ 4 := by
  have hliteral : ∀ entry ∈ mnemonics,
      literalLength entry.1.toList ('W' :: 'O' :: 'R' :: 'D' :: l) = none := by
    simp [mnemonics, literalLength, sameLetter]
  intro s hs
  rcases List.mem_append.mp hs with hs | hs
  · obtain ⟨entry, hmem, rfl⟩ := List.mem_map.mp hs
    show (literalLength entry.1.toList ('W' :: 'O' :: 'R' :: 'D' :: l)).getD 0 ≤ 4
    rw [hliteral entry hmem]
    exact Nat.zero_le 4
  · simp only [List.mem_cons, List.not_mem_nil, or_false] at hs
    rcases hs with rfl | rfl | rfl
    · simp [literalRule, literalLength, sameLetter]
    · simp [letterIdLength, sameLetter]
    · simp [letterIdLength, sameLetter]

/-- More characters of an identifier after `WORD` make it one. -/
theorem lex_wordIdent {l : List Char} (hne : l ≠ []) (hl : ∀ c ∈ l, isIdentRest c = true) :
    ∃ name, lex (['W', 'O', 'R', 'D'] ++ l) = [.token (.ident name)] := by
  have hident : identLength (['W', 'O', 'R', 'D'] ++ l) = (['W', 'O', 'R', 'D'] ++ l).length := by
    have hall : (['O', 'R', 'D'] ++ l).takeWhile isIdentRest = ['O', 'R', 'D'] ++ l := by
      refine List.takeWhile_eq_self_iff.mpr fun c hc => ?_
      rcases List.mem_append.mp hc with hc | hc
      · simp only [List.mem_cons, List.not_mem_nil, or_false] at hc
        rcases hc with rfl | rfl | rfl <;> decide
      · exact hl c hc
    show identLength ('W' :: (['O', 'R', 'D'] ++ l)) = _
    rw [identLength, if_pos (by decide), hall]
    rfl
  have hlong : 4 < (['W', 'O', 'R', 'D'] ++ l).length := by
    have hpos := List.length_pos_iff.mpr hne
    rw [List.length_append]
    exact Nat.lt_add_of_pos_right hpos
  have hrule : selectRule (['W', 'O', 'R', 'D'] ++ l) lexRules =
      some ⟨identLength, fun text => .token (.ident (String.ofList text))⟩ := by
    refine @selectRule_append _ _ _ (letterRules ++ [⟨numberLength, _⟩]) _ _ ?_ ?_ ?_
    · exact Nat.lt_of_lt_of_eq (Nat.lt_trans (Nat.succ_pos 3) hlong) hident.symm
    · intro s hs
      refine Nat.lt_of_le_of_lt ?_ (Nat.lt_of_lt_of_eq hlong hident.symm)
      rcases List.mem_append.mp hs with hs | hs
      · exact length_letterRules_word l s hs
      · obtain rfl := List.mem_singleton.mp hs
        exact (numberLength_eq_zero (by decide) (by decide) _).trans_le (Nat.zero_le 4)
    · intro s hs
      refine Nat.le_trans (length_le _ s ?_) hident.ge
      exact List.mem_append.mpr (.inr (List.mem_of_mem_drop (i := 5) hs))
  exact ⟨_, scan_eq_singleton hrule hident⟩

/-- What begins with another letter than `WORD` does begins with another token. -/
theorem lex_other {c : Char} {l : List Char} (hc : isIdentStart c = true)
    (hw : sameLetter 'W' c = false) :
    ∃ t xs, lex (c :: l) = .token t :: xs ∧ t ≠ .word := by
  have hident : 1 ≤ identLength (c :: l) := by
    rw [identLength, if_pos hc]
    exact Nat.succ_pos _
  have hfront : selectRule (c :: l) lexRules = selectRule (c :: l) (letterRules ++ textRules) := by
    rw [lexRules_eq]
    refine selectRule_append_of_le (r := ⟨identLength, _⟩)
      (List.mem_append.mpr (.inr (List.mem_cons_of_mem _ List.mem_cons_self))) hident ?_
    intro s hs
    exact Nat.le_trans (length_charRules (fun h => by subst h; cases hc) l s hs) hident
  obtain ⟨r, hr, -⟩ := @exists_selectRule _ _ (c :: l) (letterRules ++ textRules)
    ⟨identLength, fun text => .token (.ident (String.ofList text))⟩
    (List.mem_append.mpr (.inr (List.mem_cons_of_mem _ List.mem_cons_self))) hident
  obtain ⟨hmem, hpos⟩ := selectRule_eq_some hr
  have hscan : lex (c :: l) = _ := scan_eq_cons (List.cons_ne_nil c l) (hfront.trans hr)
  have haction : ∀ text, ∃ t, r.action text = .token t ∧ t ≠ .word := by
    intro text
    rcases List.mem_append.mp hmem with hmem | hmem
    · rcases List.mem_append.mp hmem with hmem | hmem
      · obtain ⟨entry, -, rfl⟩ := List.mem_map.mp hmem
        exact ⟨_, rfl, Token.noConfusion⟩
      · simp only [List.mem_cons, List.not_mem_nil, or_false] at hmem
        rcases hmem with rfl | rfl | rfl
        · have hzero : literalLength "WORD".toList (c :: l) = none := if_neg (Bool.eq_false_iff.mp hw)
          change 0 < (literalLength "WORD".toList (c :: l)).getD 0 at hpos
          rw [hzero] at hpos
          cases hpos
        · exact ⟨_, rfl, Token.noConfusion⟩
        · exact ⟨_, rfl, Token.noConfusion⟩
    · simp only [textRules, List.mem_cons, List.not_mem_nil, or_false] at hmem
      rcases hmem with rfl | rfl
      · exact ⟨_, rfl, Token.noConfusion⟩
      · exact ⟨_, rfl, Token.noConfusion⟩
  obtain ⟨t, ht, hne⟩ := haction _
  exact ⟨t, _, hscan.trans (congrArg (· :: _) ht), hne⟩

/-! ## Characters of a text and their tokens -/

/-- The token of a control character -/
def controlToken (c : Char) : Token := if c = ':' then .colon else if c = ',' then .comma else .newline

theorem controlAction_eq {c : Char} (hc : (c == ':' || c == ',' || c == '\n') = true)
    (text : List Char) : controlAction (c :: text) = .token (controlToken c) := by
  simp only [Bool.or_eq_true, beq_iff_eq] at hc
  rcases hc with (rfl | rfl) | rfl <;> rfl

/-- A control character among the tokens is one in the text. -/
theorem mem_of_controlToken {c : Char} (hc : (c == ':' || c == ',' || c == '\n') = true)
    {l : List Char} (h : .token (controlToken c) ∈ lex l) : c ∈ l := by
  have hinjective : ∀ {a : Char}, (a == ':' || a == ',' || a == '\n') = true →
      controlToken a = controlToken c → a = c := by
    intro a ha
    simp only [Bool.or_eq_true, beq_iff_eq] at ha hc
    rcases ha with (rfl | rfl) | rfl <;> rcases hc with (rfl | rfl) | rfl <;> decide
  have htoken : ∀ t, t = controlToken c → t = .colon ∨ t = .comma ∨ t = .newline := by
    rintro t rfl
    unfold controlToken
    split
    · exact .inl rfl
    · split
      · exact .inr (.inl rfl)
      · exact .inr (.inr rfl)
  have hall : ∀ x ∈ lex l, x = .token (controlToken c) → c ∈ l := by
    refine scan_forall (P := fun x => x = Lexed.token (controlToken c) → c ∈ l) ?_
    intro r hr s hs hpos hx
    rcases List.mem_append.mp hr with hr | hr
    · obtain ⟨entry, -, rfl⟩ := List.mem_map.mp hr
      exact absurd (htoken _ (Lexed.token.inj hx)) (by simp)
    · simp only [List.mem_cons, List.not_mem_nil, or_false] at hr
      rcases hr with rfl | rfl | rfl | rfl | rfl | rfl | rfl | rfl | rfl
      · exact absurd (htoken _ (Lexed.token.inj hx)) (by simp)
      · exact absurd (htoken _ (Lexed.token.inj hx)) (by simp)
      · exact absurd (htoken _ (Lexed.token.inj hx)) (by simp)
      · exact absurd (htoken _ (Lexed.token.inj hx)) (by simp)
      · exact absurd (htoken _ (Lexed.token.inj hx)) (by simp)
      · cases s with
        | nil => cases hpos
        | cons a s =>
          simp only [classLength] at hpos hx
          split at hpos
          next ha =>
            rw [if_pos ha, List.take_succ_cons, controlAction_eq ha] at hx
            exact hinjective ha (Lexed.token.inj hx) ▸ hs.subset List.mem_cons_self
          · cases hpos
      · cases hx
      · cases hx
      · cases hx
  exact hall _ h rfl

end Rbml.Asm
