import Rbml.Lib.BitField

/-!
# The machine word and its fields (`rbml.h`)

`rbml_word` is `int32_t`, and every C `int` of the program has the same width, so both are
`Word`: thirty-two bits, read as a signed number with `toInt`. An instruction word packs an
opcode (8 bits), two register-sized arguments (4 bits each) and a 16-bit argument. The decoding
macros shift a signed word right, so they are written with the arithmetic shift and a mask.

Each macro is read as arithmetic first: an instruction is the sum of its fields in a mixed radix. The
laws after that are the ones every later module uses instead of bit arithmetic: each decoder of
`rbmlInst` returns the masked argument, and patching the low field of an instruction is the same as
having encoded it with the new field.
-/

namespace Rbml

open Lib

/-- `rbml_word`, and `int` -/
abbrev Word := BitVec 32

/-- `RBML_INST` -/
def rbmlInst (op arg1 arg2 arg3 : Word) : Word :=
  (op &&& 0xff) <<< 24 ||| (arg1 &&& 0xf) <<< 20 ||| (arg2 &&& 0xf) <<< 16 ||| arg3 &&& 0xffff

/-- `RBML_OPCODE` -/
def rbmlOpcode (w : Word) : Word := w.sshiftRight 24 &&& 0xff

/-- `RBML_ARG1` -/
def rbmlArg1 (w : Word) : Word := w.sshiftRight 20 &&& 0xf

/-- `RBML_ARG2` -/
def rbmlArg2 (w : Word) : Word := w.sshiftRight 16 &&& 0xf

/-- `RBML_ARG3` -/
def rbmlArg3 (w : Word) : Word := w &&& 0xffff

/-- `RBML_SET_ARG3`: the two assignments of the macro, in order. -/
def rbmlSetArg3 (w arg3 : Word) : Word :=
  let w := w &&& ~~~0xffff
  w ||| arg3 &&& 0xffff

/-! ## Masks -/

theorem toNat_and_ff (w : Word) : (w &&& 0xff).toNat = w.toNat % 256 :=
  @toNat_and_lowMask 32 8 w (by decide)

theorem toNat_and_f (w : Word) : (w &&& 0xf).toNat = w.toNat % 16 :=
  @toNat_and_lowMask 32 4 w (by decide)

theorem toNat_and_ffff (w : Word) : (w &&& 0xffff).toNat = w.toNat % 65536 :=
  @toNat_and_lowMask 32 16 w (by decide)

/-! An integer of any size and sign keeps its remainder. -/

theorem toInt_and_ff (x : Int) : (BitVec.ofInt 32 x &&& 0xff).toInt = x % 2 ^ 8 :=
  @toInt_and_lowMask 32 8 x (by decide)

theorem toInt_and_f (x : Int) : (BitVec.ofInt 32 x &&& 0xf).toInt = x % 2 ^ 4 :=
  @toInt_and_lowMask 32 4 x (by decide)

theorem toInt_and_ffff (x : Int) : (BitVec.ofInt 32 x &&& 0xffff).toInt = x % 2 ^ 16 :=
  @toInt_and_lowMask 32 16 x (by decide)

/-! ## The macros as arithmetic -/

/-- An instruction is the sum of its fields, each in its place. -/
theorem toNat_rbmlInst (op a1 a2 a3 : Word) :
    (rbmlInst op a1 a2 a3).toNat =
      op.toNat % 256 * 2 ^ 24 + a1.toNat % 16 * 2 ^ 20 + a2.toNat % 16 * 2 ^ 16 +
        a3.toNat % 65536 := by
  have hop : ((op &&& 0xff) <<< 24).toNat = op.toNat % 256 * 2 ^ 24 :=
    @toNat_place 32 24 8 op (by decide)
  have h1 : ((a1 &&& 0xf) <<< 20).toNat = a1.toNat % 16 * 2 ^ 20 :=
    @toNat_place 32 20 4 a1 (by decide)
  have h2 : ((a2 &&& 0xf) <<< 16).toNat = a2.toNat % 16 * 2 ^ 16 :=
    @toNat_place 32 16 4 a2 (by decide)
  have h3 := toNat_and_ffff a3
  -- each part lies below the ones before it
  have hop1 := @toNat_or_of_dvd 32 24 ((op &&& 0xff) <<< 24) ((a1 &&& 0xf) <<< 20)
    (by omega) (by omega)
  have hop2 := @toNat_or_of_dvd 32 20 ((op &&& 0xff) <<< 24 ||| (a1 &&& 0xf) <<< 20)
    ((a2 &&& 0xf) <<< 16) (by omega) (by omega)
  have hop3 := @toNat_or_of_dvd 32 16
    ((op &&& 0xff) <<< 24 ||| (a1 &&& 0xf) <<< 20 ||| (a2 &&& 0xf) <<< 16) (a3 &&& 0xffff)
    (by omega) (by omega)
  rw [rbmlInst, hop3, hop2, hop1, hop, h1, h2, h3]

theorem toNat_rbmlOpcode (w : Word) : (rbmlOpcode w).toNat = w.toNat / 2 ^ 24 % 256 :=
  @toNat_field 32 24 8 w (by decide)

theorem toNat_rbmlArg1 (w : Word) : (rbmlArg1 w).toNat = w.toNat / 2 ^ 20 % 16 :=
  @toNat_field 32 20 4 w (by decide)

theorem toNat_rbmlArg2 (w : Word) : (rbmlArg2 w).toNat = w.toNat / 2 ^ 16 % 16 :=
  @toNat_field 32 16 4 w (by decide)

theorem toNat_rbmlArg3 (w : Word) : (rbmlArg3 w).toNat = w.toNat % 65536 :=
  toNat_and_ffff w

/-- The low half is replaced. -/
theorem toNat_rbmlSetArg3 (w arg3 : Word) :
    (rbmlSetArg3 w arg3).toNat = w.toNat / 65536 * 65536 + arg3.toNat % 65536 := by
  have hclear : (w &&& ~~~0xffff).toNat = w.toNat / 65536 * 65536 :=
    @toNat_and_not_lowMask 32 w 16
  have hset := toNat_and_ffff arg3
  rw [rbmlSetArg3, @toNat_or_of_dvd 32 16 _ _ (by omega) (by omega), hclear, hset]

/-! ## Field laws -/

@[simp] theorem rbmlOpcode_inst (op a1 a2 a3 : Word) :
    rbmlOpcode (rbmlInst op a1 a2 a3) = op &&& 0xff := by
  apply BitVec.eq_of_toNat_eq
  rw [toNat_rbmlOpcode, toNat_rbmlInst, toNat_and_ff]
  omega

@[simp] theorem rbmlArg1_inst (op a1 a2 a3 : Word) :
    rbmlArg1 (rbmlInst op a1 a2 a3) = a1 &&& 0xf := by
  apply BitVec.eq_of_toNat_eq
  rw [toNat_rbmlArg1, toNat_rbmlInst, toNat_and_f]
  omega

@[simp] theorem rbmlArg2_inst (op a1 a2 a3 : Word) :
    rbmlArg2 (rbmlInst op a1 a2 a3) = a2 &&& 0xf := by
  apply BitVec.eq_of_toNat_eq
  rw [toNat_rbmlArg2, toNat_rbmlInst, toNat_and_f]
  omega

@[simp] theorem rbmlArg3_inst (op a1 a2 a3 : Word) :
    rbmlArg3 (rbmlInst op a1 a2 a3) = a3 &&& 0xffff := by
  apply BitVec.eq_of_toNat_eq
  rw [toNat_rbmlArg3, toNat_rbmlInst, toNat_and_ffff]
  omega

/-- Patching the address of an instruction is encoding it with that address. The provisional
address a forward reference was emitted with leaves no trace. -/
@[simp] theorem rbmlSetArg3_inst (op a1 a2 a3 a3' : Word) :
    rbmlSetArg3 (rbmlInst op a1 a2 a3) a3' = rbmlInst op a1 a2 a3' := by
  apply BitVec.eq_of_toNat_eq
  rw [toNat_rbmlSetArg3, toNat_rbmlInst, toNat_rbmlInst]
  omega

/-- Patching the address keeps the other half of the word. -/
theorem rbmlSetArg3_highHalf (w arg3 : Word) : rbmlSetArg3 w arg3 >>> 16 = w >>> 16 := by
  apply BitVec.eq_of_toNat_eq
  rw [BitVec.toNat_ushiftRight, BitVec.toNat_ushiftRight, toNat_rbmlSetArg3,
    Nat.shiftRight_eq_div_pow, Nat.shiftRight_eq_div_pow]
  omega

theorem rbmlArg1_lt (w : Word) : (rbmlArg1 w).toNat < 16 := by
  rw [toNat_rbmlArg1]
  exact Nat.mod_lt _ (by decide)

theorem rbmlArg2_lt (w : Word) : (rbmlArg2 w).toNat < 16 := by
  rw [toNat_rbmlArg2]
  exact Nat.mod_lt _ (by decide)

theorem rbmlArg3_lt (w : Word) : (rbmlArg3 w).toNat < 65536 := by
  rw [toNat_rbmlArg3]
  exact Nat.mod_lt _ (by decide)

/-! ## Opcodes -/

/-- The operations that `rbml.h` numbers. -/
inductive Opcode where
  | sto | stoa | stoj | lod | loda | lodj | mov | mova | movj
  | crdm | crdr | crda | crdj | writ | wrta | wrtj
  | frdm | frdr | frda | frdj | fwrt | fwta | fwtj | repo | pres | open | clos
  | add | adda | addj | sub | suba | subj | div | diva | divj
  | mult | mlta | mltj | mod | moda | modj
  | cjnt | cjna | cjnj | djnt | djna | djnj | comp | compa | compj
  | lsft | lsfa | lsfj | rsft | rsfa | rsfj
  | cmp | cmpa | cmpj | cmpm
  | bran | brgt | brlt | breq | brge | brle
  | call | cagt | calt | caeq | cage | cale | «end»
  | halt | herr
  deriving DecidableEq, Repr

/-- The `OP_` constants. -/
def Opcode.code : Opcode → Word
  | .sto => 0x00 | .stoa => 0x01 | .stoj => 0x02
  | .lod => 0x03 | .loda => 0x04 | .lodj => 0x05
  | .mov => 0x06 | .mova => 0x07 | .movj => 0x08
  | .crdm => 0xb0 | .crdr => 0xb1 | .crda => 0xb2 | .crdj => 0xb3
  | .writ => 0xb4 | .wrta => 0xb5 | .wrtj => 0xb6
  | .frdm => 0xb7 | .frdr => 0xb8 | .frda => 0xb9 | .frdj => 0xba
  | .fwrt => 0xbb | .fwta => 0xbc | .fwtj => 0xbd | .repo => 0xbe | .pres => 0xbf
  | .open => 0xc0 | .clos => 0xc1
  | .add => 0xa0 | .adda => 0xa1 | .addj => 0xa2
  | .sub => 0xa3 | .suba => 0xa4 | .subj => 0xa5
  | .div => 0xa6 | .diva => 0xa7 | .divj => 0xa8
  | .mult => 0xa9 | .mlta => 0xaa | .mltj => 0xab
  | .mod => 0xac | .moda => 0xad | .modj => 0xae
  | .cjnt => 0x10 | .cjna => 0x11 | .cjnj => 0x12
  | .djnt => 0x13 | .djna => 0x14 | .djnj => 0x15
  | .comp => 0x16 | .compa => 0x17 | .compj => 0x18
  | .lsft => 0x19 | .lsfa => 0x1a | .lsfj => 0x1b
  | .rsft => 0x1c | .rsfa => 0x1d | .rsfj => 0x1e
  | .cmp => 0x20 | .cmpa => 0x21 | .cmpj => 0x22 | .cmpm => 0x23
  | .bran => 0x30 | .brgt => 0x31 | .brlt => 0x32 | .breq => 0x33 | .brge => 0x34 | .brle => 0x35
  | .call => 0x40 | .cagt => 0x41 | .calt => 0x42 | .caeq => 0x43 | .cage => 0x44 | .cale => 0x45
  | .end => 0x4f
  | .halt => 0xff | .herr => 0xee

/-- The names of the `OP_` constants -/
def Opcode.name : Opcode → String
  | .sto => "STO" | .stoa => "STOA" | .stoj => "STOJ" | .lod => "LOD" | .loda => "LODA"
  | .lodj => "LODJ" | .mov => "MOV" | .mova => "MOVA" | .movj => "MOVJ" | .crdm => "CRDM"
  | .crdr => "CRDR" | .crda => "CRDA" | .crdj => "CRDJ" | .writ => "WRIT" | .wrta => "WRTA"
  | .wrtj => "WRTJ" | .frdm => "FRDM" | .frdr => "FRDR" | .frda => "FRDA" | .frdj => "FRDJ"
  | .fwrt => "FWRT" | .fwta => "FWTA" | .fwtj => "FWTJ" | .repo => "REPO" | .pres => "PRES"
  | .open => "OPEN" | .clos => "CLOS" | .add => "ADD" | .adda => "ADDA" | .addj => "ADDJ"
  | .sub => "SUB" | .suba => "SUBA" | .subj => "SUBJ" | .div => "DIV" | .diva => "DIVA"
  | .divj => "DIVJ" | .mult => "MULT" | .mlta => "MLTA" | .mltj => "MLTJ" | .mod => "MOD"
  | .moda => "MODA" | .modj => "MODJ" | .cjnt => "CJNT" | .cjna => "CJNA" | .cjnj => "CJNJ"
  | .djnt => "DJNT" | .djna => "DJNA" | .djnj => "DJNJ" | .comp => "COMP" | .compa => "COMPA"
  | .compj => "COMPJ" | .lsft => "LSFT" | .lsfa => "LSFA" | .lsfj => "LSFJ" | .rsft => "RSFT"
  | .rsfa => "RSFA" | .rsfj => "RSFJ" | .cmp => "CMP" | .cmpa => "CMPA" | .cmpj => "CMPJ"
  | .cmpm => "CMPM" | .bran => "BRAN" | .brgt => "BRGT" | .brlt => "BRLT" | .breq => "BREQ"
  | .brge => "BRGE" | .brle => "BRLE" | .call => "CALL" | .cagt => "CAGT" | .calt => "CALT"
  | .caeq => "CAEQ" | .cage => "CAGE" | .cale => "CALE" | .end => "END" | .halt => "HALT"
  | .herr => "HERR"

/-- An opcode fits the field it is masked to. -/
theorem Opcode.code_and_ff (op : Opcode) : op.code &&& 0xff = op.code := by
  cases op <;> rfl

@[simp] theorem rbmlOpcode_code (op : Opcode) (a1 a2 a3 : Word) :
    rbmlOpcode (rbmlInst op.code a1 a2 a3) = op.code := by
  rw [rbmlOpcode_inst, Opcode.code_and_ff]

end Rbml
