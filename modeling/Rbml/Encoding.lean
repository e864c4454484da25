import Mathlib.Logic.Equiv.Defs
import Rbml.Machine.Step

/-!
# Instructions and their words

An instruction word is its four fields side by side, and every word is (`Fields.equiv`). The macros of
`rbml.h` are the two directions of that bijection. `RBML_INST` cuts its arguments to the widths of the
fields and joins them. Each decoding macro reads one field and extends it with zeros: the top field
reaches the sign bit, but the copies of the sign that the right shift brings in are masked off.
`RBML_SET_ARG3` replaces the last field and leaves the others.

The arguments of the macros are C integers of either sign. What a field keeps of one is the remainder,
which is never negative.
-/

namespace Rbml

open Lib

/-- The fields of an instruction, the first one at the top -/
structure Fields where
  opcode : BitVec 8
  arg1 : BitVec 4
  arg2 : BitVec 4
  arg3 : BitVec 16
  deriving DecidableEq

namespace Fields

/-- The fields side by side -/
def encode (f : Fields) : Word := f.opcode ++ f.arg1 ++ f.arg2 ++ f.arg3

/-- The fields that stand side by side in a word -/
def decode (w : Word) : Fields :=
  ⟨w.extractLsb' 24 8, w.extractLsb' 20 4, w.extractLsb' 16 4, w.extractLsb' 0 16⟩

/-- The value of a word of four fields -/
theorem toNat_encode (f : Fields) :
    f.encode.toNat =
      f.opcode.toNat * 2 ^ 24 + f.arg1.toNat * 2 ^ 20 + f.arg2.toNat * 2 ^ 16 + f.arg3.toNat := by
  calc f.encode.toNat
      = ((f.opcode.toNat * 2 ^ 4 + f.arg1.toNat) * 2 ^ 4 + f.arg2.toNat) * 2 ^ 16 +
          f.arg3.toNat := by rw [encode, toNat_append, toNat_append, toNat_append]
    _ = f.opcode.toNat * 2 ^ 24 + f.arg1.toNat * 2 ^ 20 + f.arg2.toNat * 2 ^ 16 +
          f.arg3.toNat := by omega

/-! ## The four fields of a word -/

/-- The highest byte of a word -/
theorem toNat_opcode (w : Word) : (decode w).opcode.toNat = w.toNat / 2 ^ 24 % 2 ^ 8 :=
  toNat_slice w 24 8

theorem toNat_arg1 (w : Word) : (decode w).arg1.toNat = w.toNat / 2 ^ 20 % 2 ^ 4 :=
  toNat_slice w 20 4

theorem toNat_arg2 (w : Word) : (decode w).arg2.toNat = w.toNat / 2 ^ 16 % 2 ^ 4 :=
  toNat_slice w 16 4

/-- The lower half of a word -/
theorem toNat_arg3 (w : Word) : (decode w).arg3.toNat = w.toNat % 2 ^ 16 := by
  rw [decode, toNat_slice, Nat.pow_zero, Nat.div_one]

/-- A word is put together again from its fields. -/
theorem encode_decode (w : Word) : (decode w).encode = w := by
  have hw := w.isLt
  apply BitVec.eq_of_toNat_eq
  rw [toNat_encode, toNat_opcode, toNat_arg1, toNat_arg2, toNat_arg3]
  omega

/-- Fields are taken apart again from their word. -/
theorem decode_encode (f : Fields) : decode f.encode = f := by
  have hsum := toNat_encode f
  have hop := f.opcode.isLt
  have h1 := f.arg1.isLt
  have h2 := f.arg2.isLt
  have h3 := f.arg3.isLt
  have hopcode : (decode f.encode).opcode = f.opcode := by
    apply BitVec.eq_of_toNat_eq
    rw [toNat_opcode]
    omega
  have harg1 : (decode f.encode).arg1 = f.arg1 := by
    apply BitVec.eq_of_toNat_eq
    rw [toNat_arg1]
    omega
  have harg2 : (decode f.encode).arg2 = f.arg2 := by
    apply BitVec.eq_of_toNat_eq
    rw [toNat_arg2]
    omega
  have harg3 : (decode f.encode).arg3 = f.arg3 := by
    apply BitVec.eq_of_toNat_eq
    rw [toNat_arg3]
    omega
  rw [Fields.mk.injEq]
  exact ⟨hopcode, harg1, harg2, harg3⟩

/-- Words are fields. -/
def equiv : Word ≃ Fields where
  toFun := decode
  invFun := encode
  left_inv := encode_decode
  right_inv := decode_encode

end Fields

open Fields

/-! ## The macros -/

/-- `RBML_INST` joins its arguments, each cut to the width of its field. -/
theorem rbmlInst_eq_encode (op a1 a2 a3 : Word) :
    rbmlInst op a1 a2 a3 =
      encode ⟨op.setWidth 8, a1.setWidth 4, a2.setWidth 4, a3.setWidth 16⟩ := by
  apply BitVec.eq_of_toNat_eq
  rw [toNat_rbmlInst, toNat_encode]
  simp only [BitVec.toNat_setWidth]

/-- `RBML_INST` cuts each of its arguments to its field. -/
theorem decode_rbmlInst (op a1 a2 a3 : Word) :
    decode (rbmlInst op a1 a2 a3) =
      ⟨op.setWidth 8, a1.setWidth 4, a2.setWidth 4, a3.setWidth 16⟩ := by
  rw [rbmlInst_eq_encode, decode_encode]

/-- `RBML_OPCODE` is the first field. -/
theorem rbmlOpcode_eq_decode (w : Word) : rbmlOpcode w = (decode w).opcode.setWidth 32 := by
  apply BitVec.eq_of_toNat_eq
  rw [toNat_rbmlOpcode, BitVec.toNat_setWidth, toNat_opcode]
  omega

theorem rbmlArg1_eq_decode (w : Word) : rbmlArg1 w = (decode w).arg1.setWidth 32 := by
  apply BitVec.eq_of_toNat_eq
  rw [toNat_rbmlArg1, BitVec.toNat_setWidth, toNat_arg1]
  omega

theorem rbmlArg2_eq_decode (w : Word) : rbmlArg2 w = (decode w).arg2.setWidth 32 := by
  apply BitVec.eq_of_toNat_eq
  rw [toNat_rbmlArg2, BitVec.toNat_setWidth, toNat_arg2]
  omega

theorem rbmlArg3_eq_decode (w : Word) : rbmlArg3 w = (decode w).arg3.setWidth 32 := by
  apply BitVec.eq_of_toNat_eq
  rw [toNat_rbmlArg3, BitVec.toNat_setWidth, toNat_arg3]
  omega

/-- The decoding macros have read all of a word: `RBML_INST` puts it together again. -/
theorem rbmlInst_decoded (w : Word) :
    rbmlInst (rbmlOpcode w) (rbmlArg1 w) (rbmlArg2 w) (rbmlArg3 w) = w := by
  rw [rbmlInst_eq_encode, rbmlOpcode_eq_decode, rbmlArg1_eq_decode, rbmlArg2_eq_decode,
    rbmlArg3_eq_decode]
  simp only [BitVec.setWidth_setWidth_of_le, Nat.reduceLeDiff, BitVec.setWidth_eq]
  exact encode_decode w

/-- `RBML_SET_ARG3` replaces the last field. -/
theorem decode_rbmlSetArg3 (w a3 : Word) :
    decode (rbmlSetArg3 w a3) = { decode w with arg3 := a3.setWidth 16 } := by
  rw [← rbmlInst_decoded w, rbmlSetArg3_inst, decode_rbmlInst, decode_rbmlInst]

/-- A patched word is the instruction of the other fields. -/
theorem rbmlSetArg3_eq_inst (w a3 : Word) :
    rbmlSetArg3 w a3 = rbmlInst (rbmlOpcode w) (rbmlArg1 w) (rbmlArg2 w) a3 := by
  rw [← rbmlSetArg3_inst _ _ _ (rbmlArg3 w), rbmlInst_decoded]

/-- Of two patches of the last field, the second one counts. -/
theorem rbmlSetArg3_rbmlSetArg3 (w a3 a3' : Word) :
    rbmlSetArg3 (rbmlSetArg3 w a3) a3' = rbmlSetArg3 w a3' := by
  rw [rbmlSetArg3_eq_inst w a3, rbmlSetArg3_inst, ← rbmlSetArg3_eq_inst]

/-- Of successive patches the last one is left. -/
theorem foldl_rbmlSetArg3 (patches : List Word) (last w : Word) :
    (patches ++ [last]).foldl rbmlSetArg3 w = rbmlSetArg3 w last := by
  induction patches generalizing w with
  | nil => rfl
  | cons a3 patches ih => rw [List.cons_append, List.foldl_cons, ih, rbmlSetArg3_rbmlSetArg3]

/-- What `RBML_INST` has encoded is decoded again as far as it fits its field, a word is what its
decoded fields encode, and a patch is the encoding of the fields with the new address. -/
theorem encoding_inverse :
    (∀ op a1 a2 a3 : Int,
      let w := rbmlInst (BitVec.ofInt 32 op) (BitVec.ofInt 32 a1) (BitVec.ofInt 32 a2)
        (BitVec.ofInt 32 a3)
      (rbmlOpcode w).toInt = op % 2 ^ 8 ∧ (rbmlArg1 w).toInt = a1 % 2 ^ 4 ∧
        (rbmlArg2 w).toInt = a2 % 2 ^ 4 ∧ (rbmlArg3 w).toInt = a3 % 2 ^ 16) ∧
    (∀ w : Word, rbmlInst (rbmlOpcode w) (rbmlArg1 w) (rbmlArg2 w) (rbmlArg3 w) = w) ∧
    (∀ (w : Word) (a3 : Int),
      rbmlSetArg3 w (BitVec.ofInt 32 a3) =
        rbmlInst (rbmlOpcode w) (rbmlArg1 w) (rbmlArg2 w) (BitVec.ofInt 32 a3)) ∧
    ∀ (w : Word) (patches : List Int) (last : Int),
      (patches ++ [last]).foldl (fun w a3 => rbmlSetArg3 w (BitVec.ofInt 32 a3)) w =
        rbmlSetArg3 w (BitVec.ofInt 32 last) := by
  refine ⟨?_, rbmlInst_decoded, fun w a3 => rbmlSetArg3_eq_inst w _, ?_⟩
  · intro op a1 a2 a3 w
    refine ⟨?_, ?_, ?_, ?_⟩
    · rw [rbmlOpcode_inst, toInt_and_ff]
    · rw [rbmlArg1_inst, toInt_and_f]
    · rw [rbmlArg2_inst, toInt_and_f]
    · rw [rbmlArg3_inst, toInt_and_ffff]
  · intro w patches last
    have hfold := foldl_rbmlSetArg3 (patches.map (BitVec.ofInt 32)) (BitVec.ofInt 32 last) w
    rw [← List.map_singleton, ← List.map_append, List.foldl_map] at hfold
    exact hfold

namespace Machine

variable {N : Nat}

/-! ## What the emulator takes apart -/

theorem arg1Of_eq_decode (w : Word) : arg1Of w = (decode w).arg1.toFin := by
  apply Fin.ext
  show (rbmlArg1 w).toNat = (decode w).arg1.toNat
  have hmacro := toNat_rbmlArg1 w
  have hfield := toNat_arg1 w
  omega

theorem arg2Of_eq_decode (w : Word) : arg2Of w = (decode w).arg2.toFin := by
  apply Fin.ext
  show (rbmlArg2 w).toNat = (decode w).arg2.toNat
  have hmacro := toNat_rbmlArg2 w
  have hfield := toNat_arg2 w
  omega

theorem arg3Of_eq_decode (w : Word) : arg3Of w = (decode w).arg3.toFin := by
  apply Fin.ext
  show (rbmlArg3 w).toNat = (decode w).arg3.toNat
  have hmacro := toNat_rbmlArg3 w
  have hfield := toNat_arg3 w
  omega

/-- An instruction that was encoded is run with its arguments cut to the widths of the fields. -/
theorem evaluateInstruction_inst (op : Opcode) (a1 a2 a3 : Word) (env : Env) {m : State N}
    (h : m.instructionRegister = rbmlInst op.code a1 a2 a3) :
    evaluateInstruction env m =
      handler op env (a1.setWidth 4).toFin (a2.setWidth 4).toFin (a3.setWidth 16).toFin m := by
  have harg1 : arg1Of (rbmlInst op.code a1 a2 a3) = (a1.setWidth 4).toFin := by
    rw [arg1Of_eq_decode, decode_rbmlInst]
  have harg2 : arg2Of (rbmlInst op.code a1 a2 a3) = (a2.setWidth 4).toFin := by
    rw [arg2Of_eq_decode, decode_rbmlInst]
  have harg3 : arg3Of (rbmlInst op.code a1 a2 a3) = (a3.setWidth 16).toFin := by
    rw [arg3Of_eq_decode, decode_rbmlInst]
  simp only [evaluateInstruction, h, rbmlOpcode_code, opcodes_code, harg1, harg2, harg3]

end Machine

end Rbml
