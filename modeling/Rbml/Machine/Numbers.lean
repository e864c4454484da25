import Rbml.Machine.ConsoleInput

/-!
# Numbers on the console

In numeric mode what one emulator writes another one reads: `printf("%d\n")` puts a word down as a sign
and digits, `scanf("%d")` passes over the white space before them and stops at the newline, and the
value is inside a `long` and inside a word. Any number of words in a row come back in order, and the
reads leave what is typed behind them (`readNumbers_writeNumbers`).
-/

namespace Rbml.Machine

variable {N N' : Nat}

/-! ## One number -/

/-- The bytes of the decimal digits of a number -/
def digitBytes (n : Nat) : List UInt8 := (Nat.toDigits 10 n).map fun c => UInt8.ofNat c.toNat

theorem decimalText_eq (i : Int) :
    decimalText i = if i < 0 then 45 :: digitBytes i.natAbs else digitBytes i.natAbs := rfl

/-- A character of a numeral is a digit, and its byte has its value. -/
theorem toNat_digit {n : Nat} {c : Char} (hc : c ∈ Nat.toDigits 10 n) :
    (48 ≤ c.toNat ∧ c.toNat ≤ 57) ∧ (UInt8.ofNat c.toNat).toNat = c.toNat := by
  have hdigit := Nat.isDigit_of_mem_toDigits (Nat.succ_pos 9) (Nat.le_refl 10) hc
  have hrange : 48 ≤ c.toNat ∧ c.toNat ≤ 57 := by
    simpa [Char.isDigit, UInt32.le_iff_toNat_le] using hdigit
  exact ⟨hrange, UInt8.toNat_ofNat_of_lt' (Nat.lt_of_le_of_lt hrange.2 (by decide))⟩

theorem isDigit_of_mem_digitBytes {n : Nat} : ∀ b ∈ digitBytes n, isDigit b = true := by
  intro b hb
  obtain ⟨c, hc, rfl⟩ := List.mem_map.mp hb
  obtain ⟨hrange, hbyte⟩ := toNat_digit hc
  simp only [isDigit, Bool.and_eq_true, decide_eq_true_eq, UInt8.le_iff_toNat_le, hbyte]
  exact hrange

theorem digitBytes_ne_nil (n : Nat) : digitBytes n ≠ [] := by
  rw [digitBytes, Ne, List.map_eq_nil_iff]
  exact Nat.toDigits_ne_nil

theorem digitsValue_digitBytes (n : Nat) : digitsValue (digitBytes n) = n := by
  have hfold : digitsValue (digitBytes n) = Nat.ofDigitChars 10 (Nat.toDigits 10 n) 0 := by
    rw [Nat.ofDigitChars_eq_foldl, digitsValue, digitBytes, List.foldl_map]
    apply List.foldl_ext
    intro k c hc
    rw [(toNat_digit hc).2]
    rfl
  rw [hfold, Nat.ofDigitChars_ten_toDigits]

/-- A number of thirty-two bits is inside a `long`. -/
theorem clampLong_toInt (w : Word) : clampLong w.toInt = w.toInt := by
  have hlt := @BitVec.toInt_lt 32 w
  have hle := @BitVec.le_toInt 32 w
  rw [clampLong]
  omega

theorem afterSign_decimalText {spaces : List UInt8} (hspaces : ∀ c ∈ spaces, isSpace c = true) (i : Int)
    (rest : List UInt8) :
    afterSign (spaces ++ (decimalText i ++ rest)) =
      (decide (i < 0), digitBytes i.natAbs ++ rest) := by
  rw [afterSign, List.dropWhile_append_of_pos hspaces, decimalText_eq]
  by_cases hneg : i < 0
  · rw [if_pos hneg, List.cons_append, List.dropWhile_cons_of_neg (by decide), decide_eq_true hneg]
    rfl
  · rw [if_neg hneg, decide_eq_false hneg]
    obtain ⟨b, bs, hb⟩ := List.exists_cons_of_ne_nil (digitBytes_ne_nil i.natAbs)
    have hdigit : isDigit b = true := isDigit_of_mem_digitBytes b (by rw [hb]; exact List.mem_cons_self)
    have hspace : ¬ isSpace b = true := by
      rw [isSpace_of_isDigit hdigit]
      exact Bool.false_ne_true
    rw [hb, List.cons_append, List.dropWhile_cons_of_neg hspace]
    split
    next heq =>
      obtain rfl := (List.cons.inj heq).1
      cases hdigit
    next heq =>
      obtain rfl := (List.cons.inj heq).1
      cases hdigit
    · rfl

/-- `scanf` finds the number that `printf` has put down, and stops behind it. -/
theorem scanfWord_decimalText {spaces : List UInt8} (hspaces : ∀ c ∈ spaces, isSpace c = true)
    (w v : Word) {c : UInt8} (hc : isDigit c = false) (rest : List UInt8) :
    scanfWord w (spaces ++ (decimalText v.toInt ++ c :: rest)) = (v, c :: rest) := by
  have hstop : ¬ isDigit c = true := by
    rw [hc]
    exact Bool.false_ne_true
  have hvalue : (if decide (v.toInt < 0) = true then -(v.toInt.natAbs : Int) else v.toInt.natAbs) =
      v.toInt := by
    simp only [decide_eq_true_eq]
    omega
  rw [scanfWord_eq, afterSign_decimalText hspaces, List.span_eq_takeWhile_dropWhile,
    List.takeWhile_append_of_pos isDigit_of_mem_digitBytes,
    List.dropWhile_append_of_pos isDigit_of_mem_digitBytes, List.takeWhile_cons_of_neg hstop,
    List.dropWhile_cons_of_neg hstop, List.append_nil]
  cases hdigits : digitBytes v.toInt.natAbs with
  | nil => exact absurd hdigits (digitBytes_ne_nil _)
  | cons b bs =>
    simp only
    rw [← hdigits, digitsValue_digitBytes, hvalue, clampLong_toInt, BitVec.ofInt_toInt]

/-! ## Numbers in a row -/

/-- Words that are written in numeric mode, one after the other -/
def writeNumbers (ws : List Word) (m : State N) : State N := ws.foldl (fun m w => cwrite 0 w m) m

/-- As many words read in numeric mode as there are contents for the local word to start from -/
def readNumbers : List Word → State N → List Word × State N
  | [], m => ([], m)
  | w :: inits, m =>
    let (v, m) := cread w 0 m
    let (vs, m) := readNumbers inits m
    (v :: vs, m)

/-- The lines that words are printed as -/
def numberLines (ws : List Word) : List UInt8 :=
  ws.flatMap fun w => decimalText w.toInt ++ [newline]

theorem writeNumbers_stdout (ws : List Word) (m : State N) :
    (writeNumbers ws m).stdout = m.stdout ++ numberLines ws := by
  induction ws generalizing m with
  | nil => exact (List.append_nil m.stdout).symm
  | cons w ws ih =>
    show (writeNumbers ws (cwrite 0 w m)).stdout = _
    rw [ih, numberLines, numberLines, List.flatMap_cons, ← List.append_assoc]
    show m.stdout ++ decimalText w.toInt ++ [newline] ++ _ = _
    rw [List.append_assoc m.stdout]

theorem readNumbers_numberLines {ws inits : List Word} (hlength : inits.length = ws.length)
    {m : State N} {spaces : List UInt8} (more : List UInt8) (hspaces : ∀ c ∈ spaces, isSpace c = true)
    (hstdin : m.stdin = spaces ++ (numberLines ws ++ more)) :
    ∃ left, (∀ c ∈ left, isSpace c = true) ∧
      readNumbers inits m = (ws, { m with stdin := left ++ more }) := by
  induction ws generalizing inits m spaces with
  | nil =>
    obtain rfl := List.length_eq_zero_iff.mp hlength
    refine ⟨spaces, hspaces, ?_⟩
    rw [readNumbers, ← show m.stdin = spaces ++ more from hstdin]
  | cons v ws ih =>
    obtain ⟨w, inits, rfl⟩ := List.exists_cons_of_length_eq_add_one hlength
    have hread : cread w 0 m = (v, { m with stdin := newline :: (numberLines ws ++ more) }) := by
      have hscan : scanfWord w m.stdin = (v, newline :: (numberLines ws ++ more)) := by
        rw [hstdin, numberLines, List.flatMap_cons, List.append_assoc, List.append_assoc]
        exact scanfWord_decimalText hspaces w v rfl _
      show ((scanfWord w m.stdin).1, { m with stdin := (scanfWord w m.stdin).2 }) = _
      rw [hscan]
    obtain ⟨left, hleft, hrest⟩ := @ih inits (by simpa using hlength)
      { m with stdin := newline :: (numberLines ws ++ more) } [newline]
      (by
        intro c hc
        rw [List.mem_singleton.mp hc]
        rfl) rfl
    refine ⟨left, hleft, ?_⟩
    simp only [readNumbers, hread, hrest]

/-- **Numbers survive the console.** The words that one emulator writes in numeric mode are read back by
another, in order and whatever its local word starts from, where the output is put into its input behind
white space. The reads leave what follows, behind white space again, and change nothing else. -/
theorem readNumbers_writeNumbers (ws : List Word) (m : State N) {inits : List Word}
    (hlength : inits.length = ws.length) {out : List UInt8}
    (hout : (writeNumbers ws m).stdout = m.stdout ++ out) (m' : State N') {spaces : List UInt8}
    (hspaces : ∀ c ∈ spaces, isSpace c = true) (more : List UInt8)
    (hstdin : m'.stdin = spaces ++ (out ++ more)) :
    ∃ left, (∀ c ∈ left, isSpace c = true) ∧
      readNumbers inits m' = (ws, { m' with stdin := left ++ more }) := by
  rw [writeNumbers_stdout] at hout
  rw [← List.append_cancel_left hout] at hstdin
  exact readNumbers_numberLines hlength more hspaces hstdin

/-- -5 and 7, printed by one emulator and typed into another -/
theorem readNumbers_writeNumbers_two : ∃ left, (∀ c ∈ left, isSpace c = true) ∧
    readNumbers [0, 0] (initialState Fin.elim0 (numberLines [-5, 7]) : State 0) =
      ([-5, 7], { initialState Fin.elim0 (numberLines [-5, 7]) with stdin := left ++ [] }) :=
  @readNumbers_writeNumbers 0 0 [-5, 7] (initialState Fin.elim0 []) [0, 0] rfl
    (numberLines [-5, 7]) (writeNumbers_stdout [-5, 7] (initialState Fin.elim0 []))
    (initialState Fin.elim0 (numberLines [-5, 7])) [] (List.forall_mem_nil _) [] (List.append_nil _).symm

end Rbml.Machine
