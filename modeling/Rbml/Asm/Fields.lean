import Rbml.Asm.Literals

/-!
# Operands that fit their fields

An operand reaches its word in one of three ways. A register token has a number below 16, which the
scanner sees to. Neither the scanner nor a parser action looks at the value of a `NUMBER`, or at where
`strtol` stopped in it, and nothing bounds the number of words, so that `RBML_INST` and `RBML_SET_ARG3`
mask numbers of 16 and more, negative ones, and addresses from 65536 on. The number that is written is
the one that the whole lexeme denotes (`cLiteral`): of `019`, which denotes none, the `9` is lost before
any field is filled. The words of an accepted program say what is written exactly if every number is a
literal, and no number and no address is out of the range of its field (`accepted_faithful_iff`).
-/

namespace Rbml.Asm

/-- The fields of a word are the operation, the operands and the label that a statement is written
with. -/
def Faithful (lines : List SourceLine) (w : Word) : Statement → Prop
  | .word _ => True
  | .inst0 op => rbmlOpcode w = op.code
  | .inst1a op ident =>
    rbmlOpcode w = op.code ∧ position lines ident = some (rbmlArg3 w).toNat
  | .inst1r op reg => rbmlOpcode w = op.code ∧ rbmlArg1 w = reg
  | .inst2rr op reg₁ reg₂ => rbmlOpcode w = op.code ∧ rbmlArg1 w = reg₁ ∧ rbmlArg2 w = reg₂
  | .inst2ra op reg ident =>
    rbmlOpcode w = op.code ∧ rbmlArg1 w = reg ∧ position lines ident = some (rbmlArg3 w).toNat
  | .inst2nr op text reg =>
    rbmlOpcode w = op.code ∧ cLiteral text = some ((rbmlArg1 w).toNat : Int) ∧ rbmlArg2 w = reg

/-- The number that the scanner takes from a lexeme is in 0..15. -/
def NumberFits (text : List Char) : Prop := 0 ≤ literalValue text ∧ literalValue text < 16

instance (text : List Char) : Decidable (NumberFits text) := inferInstanceAs (Decidable (_ ∧ _))

/-- A lexeme is a literal as a whole, and its value is in 0..15. -/
def LiteralFits (text : List Char) : Prop := ∃ v, cLiteral text = some v ∧ 0 ≤ v ∧ v < 16

/-- A label has an address of 16 bits. -/
def LabelFits (lines : List SourceLine) (ident : String) : Prop :=
  ∀ n, position lines ident = some n → n < 65536

/-- The number and the label of a statement fit their fields. -/
def Statement.Fits (lines : List SourceLine) : Statement → Prop
  | .inst2nr _ text _ => LiteralFits text
  | .inst1a _ ident | .inst2ra _ _ ident => LabelFits lines ident
  | _ => True

/-! ## The three ways of an operand -/

/-- A register always fits. -/
theorem reg_and_f {reg : Word} (h : reg.toNat < 16) : reg &&& 0xf = reg := by
  apply BitVec.eq_of_toNat_eq
  rw [toNat_and_f, Nat.mod_eq_of_lt h]

/-- A number in 0..15 is the scanner's value of its lexeme. -/
theorem numberValue_toNat {text : List Char} (h : NumberFits text) :
    ((numberValue text).toNat : Int) = literalValue text := by
  obtain ⟨hpos, hlt⟩ := h
  rw [numberValue, min_eq_left (by omega), max_eq_right (by omega), BitVec.toNat_ofInt]
  omega

/-- Of a literal the scanner takes the whole value. -/
theorem numberFits_of_literal {text : List Char} {v : Int} (hv : cLiteral text = some v) (hpos : 0 ≤ v)
    (hlt : v < 16) : NumberFits text := by
  rw [NumberFits, literalValue_of_literal hv]
  exact ⟨hpos, hlt⟩

/-- The field of a number is what is written exactly if the lexeme is a literal that fits it. -/
theorem number_field_iff (text : List Char) :
    cLiteral text = some (((numberValue text &&& 0xf).toNat : Nat) : Int) ↔ LiteralFits text := by
  rw [toNat_and_f]
  constructor
  · intro h
    exact ⟨_, h, by omega, by omega⟩
  · rintro ⟨v, hv, hpos, hlt⟩
    have hvalue := numberValue_toNat (numberFits_of_literal hv hpos hlt)
    rw [literalValue_of_literal hv] at hvalue
    rw [hv, Option.some.injEq]
    omega

/-- The field of a label is its address exactly if that has 16 bits. -/
theorem label_field_iff {lines : List SourceLine} {ident : String} {n : Nat}
    (h : position lines ident = some n) :
    position lines ident = some (BitVec.ofNat 32 n &&& 0xffff).toNat ↔ LabelFits lines ident := by
  rw [toNat_and_ffff, BitVec.toNat_ofNat, h, Option.some.injEq]
  constructor
  · intro hn m hm
    obtain rfl : n = m := Option.some.inj (h.symm.trans hm)
    omega
  · intro hfits
    have hlt := hfits n h
    omega

/-! ## Statements -/

/-- The word of a statement with a label that is defined -/
theorem encoded_of_position {lines : List SourceLine} {stmt : Statement} {ident : String} {n : Nat}
    (hident : stmt.ident? = some ident) (h : position lines ident = some n) :
    stmt.encoded lines = stmt.instruction.encode (BitVec.ofNat 32 n) := by
  simp only [Statement.encoded, hident, Option.bind_some, h]

/-- The word of a statement says what is written exactly if the number or the label of the statement
fits its field. -/
theorem faithful_encoded_iff {lines : List SourceLine} {stmt : Statement}
    (hdefined : ∀ name, stmt.ident? = some name → ∃ n, position lines name = some n)
    (hlexical : ∀ t ∈ stmt.tokens, t.Lexical) :
    Faithful lines (stmt.encoded lines) stmt ↔ stmt.Fits lines := by
  have hreg : ∀ r, .reg r ∈ stmt.tokens → r &&& 0xf = r := fun r hr => reg_and_f (hlexical _ hr)
  cases stmt with
  | word text => exact Iff.rfl
  | inst0 op => exact iff_of_true (rbmlOpcode_code op 0 0 0) trivial
  | inst1r op reg =>
    refine iff_of_true ⟨rbmlOpcode_code op reg 0 0, ?_⟩ trivial
    exact (rbmlArg1_inst op.code reg 0 0).trans (hreg reg (by simp [Statement.tokens]))
  | inst2rr op reg₁ reg₂ =>
    refine iff_of_true ⟨rbmlOpcode_code op reg₁ reg₂ 0, ?_, ?_⟩ trivial
    · exact (rbmlArg1_inst op.code reg₁ reg₂ 0).trans (hreg reg₁ (by simp [Statement.tokens]))
    · exact (rbmlArg2_inst op.code reg₁ reg₂ 0).trans (hreg reg₂ (by simp [Statement.tokens]))
  | inst1a op ident =>
    obtain ⟨n, hn⟩ := hdefined ident rfl
    rw [encoded_of_position rfl hn]
    simp only [Faithful, Statement.instruction, Instruction.encode, rbmlOpcode_code, rbmlArg3_inst,
      true_and]
    exact label_field_iff hn
  | inst2ra op reg ident =>
    obtain ⟨n, hn⟩ := hdefined ident rfl
    rw [encoded_of_position rfl hn]
    simp only [Faithful, Statement.instruction, Instruction.encode, rbmlOpcode_code, rbmlArg1_inst,
      rbmlArg3_inst, hreg reg (by simp [Statement.tokens]), true_and]
    exact label_field_iff hn
  | inst2nr op text reg =>
    simp only [Faithful, Statement.encoded, Statement.instruction, Instruction.encode,
      rbmlOpcode_code, rbmlArg1_inst, rbmlArg2_inst, hreg reg (by simp [Statement.tokens]),
      true_and, and_true]
    exact number_field_iff text

/-- An accepted text is written as one program, and its code has one word for each statement. Every
word says what is written exactly if every number is a literal in 0..15 and every label that is named
has an address of 16 bits. -/
theorem accepted_faithful_iff (inputFile : String) (text : List Char) (c : Code)
    (h : (compile (rbmlParse text) inputFile).written = some c) :
    ∃ lines, WrittenAs text lines ∧ (∀ lines', WrittenAs text lines' → lines' = lines) ∧
      c.text.length = (statements lines).length ∧
      ((∀ (i : Nat) (stmt : Statement) (w : Word), (statements lines)[i]? = some stmt →
          c.text[i]? = some w → Faithful lines w stmt) ↔
        ∀ stmt ∈ statements lines, stmt.Fits lines) := by
  obtain ⟨lines, hwritten, hcompiles⟩ := program_of_accepted h
  refine ⟨lines, hwritten, fun _ h' => writtenAs_unique h' hwritten, ?_, ?_⟩
  · rw [hcompiles.text, List.length_map]
  have hiff : ∀ stmt ∈ statements lines,
      (Faithful lines (stmt.encoded lines) stmt ↔ stmt.Fits lines) := fun stmt hstmt =>
    faithful_encoded_iff (hcompiles.defined stmt hstmt) (hcompiles.lexical stmt hstmt)
  constructor
  · intro hfaithful stmt hstmt
    obtain ⟨i, hi⟩ := List.mem_iff_getElem?.mp hstmt
    refine (hiff stmt hstmt).mp (hfaithful i stmt _ hi ?_)
    rw [hcompiles.text, List.getElem?_map, hi, Option.map_some]
  · intro hfits i stmt w hi hw
    have hstmt := List.mem_of_getElem? hi
    rw [hcompiles.text, List.getElem?_map, hi, Option.map_some] at hw
    cases hw
    exact (hiff stmt hstmt).mpr (hfits stmt hstmt)

/-- A program that reads a number into a register with the control number 16, which is masked to 0 -/
def crdr16 : List Char := "CRDR 16, r0".toList

/-- It is accepted, and the control number is lost. -/
theorem crdr16_accepted :
    (compile (rbmlParse crdr16) "crdr16.asm").written.map Code.text =
      some [rbmlInst Opcode.crdr.code 0 0 0] := by decide +kernel

theorem crdr16_writtenAs : WrittenAs crdr16 [⟨none, some (.inst2nr .crdr ['1', '6'] 0)⟩] :=
  ⟨List.cons_ne_nil _ _, by decide +kernel, by decide +kernel⟩

/-- Not every word of an accepted program says what is written. -/
theorem crdr16_not_faithful :
    ¬ ∀ (inputFile : String) (text : List Char) (c : Code),
      (compile (rbmlParse text) inputFile).written = some c →
      ∀ lines, WrittenAs text lines → ∀ (i : Nat) (stmt : Statement) (w : Word),
        (statements lines)[i]? = some stmt → c.text[i]? = some w → Faithful lines w stmt := by
  intro h
  obtain ⟨c, hc, htext⟩ := Option.map_eq_some_iff.mp crdr16_accepted
  have hfaithful := h "crdr16.asm" crdr16 c hc _ crdr16_writtenAs 0
    (.inst2nr .crdr ['1', '6'] 0) (rbmlInst Opcode.crdr.code 0 0 0) rfl (by rw [htext]; rfl)
  exact absurd hfaithful.2.1 (by decide)

/-- The program is accepted although its number does not fit. -/
theorem crdr16_not_fits :
    ∃ lines, WrittenAs crdr16 lines ∧ ¬ ∀ stmt ∈ statements lines, stmt.Fits lines := by
  obtain ⟨c, hc, htext⟩ := Option.map_eq_some_iff.mp crdr16_accepted
  obtain ⟨lines, hwritten, hunique, -, hiff⟩ := accepted_faithful_iff "crdr16.asm" crdr16 c hc
  obtain rfl := hunique _ crdr16_writtenAs
  refine ⟨_, crdr16_writtenAs, fun hfits => ?_⟩
  have hfaithful := hiff.mpr hfits 0 (.inst2nr .crdr ['1', '6'] 0)
    (rbmlInst Opcode.crdr.code 0 0 0) rfl (by rw [htext]; rfl)
  exact absurd hfaithful.2.1 (by decide)

end Rbml.Asm
