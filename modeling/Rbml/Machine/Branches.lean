import Rbml.Machine.Run

/-!
# Branches and calls under a comparison

The flags are those of the last compare instruction, however long ago it was executed. Each of the
ten conditional instructions should therefore act on the relation that its name gives between the
two operands of that instruction. Nine of them do. `BRLE` tests `greater || less`, where `CALE` tests
`less || equal`, so it is right only when the first operand is less than the second.
-/

namespace Rbml.Machine

open Lib

variable {N : Nat}

/-- The relations that a conditional instruction can name -/
inductive Relation where
  | gt | lt | eq | ge | le
  deriving DecidableEq, Repr

/-- The relation between two words as signed numbers -/
def Relation.Holds (r : Relation) (a b : Word) : Prop :=
  match r with
  | .gt => a.toInt > b.toInt
  | .lt => a.toInt < b.toInt
  | .eq => a.toInt = b.toInt
  | .ge => a.toInt ≥ b.toInt
  | .le => a.toInt ≤ b.toInt

instance (r : Relation) (a b : Word) : Decidable (r.Holds a b) := by
  unfold Relation.Holds
  cases r <;> infer_instance

/-- The branch instruction of a relation -/
def Relation.branch : Relation → Opcode
  | .gt => .brgt | .lt => .brlt | .eq => .breq | .ge => .brge | .le => .brle

/-- The call instruction of a relation -/
def Relation.call : Relation → Opcode
  | .gt => .cagt | .lt => .calt | .eq => .caeq | .ge => .cage | .le => .cale

/-- The operands of the last compare instruction, after one more event -/
def trackCompare (last : Option (Word × Word)) : Event → Option (Word × Word)
  | .compare a b => some (a, b)
  | _ => last

/-- The operands of the last compare instruction of a run -/
def lastCompare (events : List Event) : Option (Word × Word) := events.foldl trackCompare none

/-- In this state the instruction `op` acts as `transfer` if `p`, and does nothing otherwise, whatever
its arguments are. -/
def ActsIf (p : Prop) [Decidable p] (transfer : OpcodeFn N) (op : Opcode) (m : State N) : Prop :=
  ∀ env w, opcodes (rbmlOpcode w) = some op →
    evaluateInstruction env (fetched m w) =
      if p then transfer env (arg1Of w) (arg2Of w) (arg3Of w) (fetched m w) else .ok (fetched m w)

/-! ## The flags are those of the last comparison -/

/-- The run lemma of the flags -/
theorem flags_of_lastCompare {m₀ m : State N} {events : List Event} {a b : Word}
    (hrun : Path Turn m₀ events m) (hlast : lastCompare events = some (a, b)) :
    m.flags = flagsOf a b := by
  have hflags : ∀ a b, lastCompare events = some (a, b) → m.flags = flagsOf a b := by
    refine Path.summary (R := fun last (m : State N) =>
      ∀ a b, last = some (a, b) → m.flags = flagsOf a b) ?_ hrun ?_
    · intro last m e m' hm hturn x y hnext
      rw [(turn_event hturn).1]
      cases e with
      | compare a b =>
        cases hnext
        rfl
      | call | «end» | jumpWrite | other => exact hm x y hnext
    · intro x y hnone
      cases hnone
  exact hflags a b hlast

section
variable {m : State N} {a b : Word}

theorem flags_eq_iff : m.flags = flagsOf a b ↔
    m.less = a.slt b ∧ m.equal = decide (a = b) ∧ m.greater = b.slt a := by
  simp only [State.flags, flagsOf, Flags.mk.injEq]

/-- The call instructions test the relation they name. -/
theorem test_call_iff (r : Relation) (h : m.flags = flagsOf a b) :
    test r.call m = true ↔ r.Holds a b := by
  obtain ⟨hless, hequal, hgreater⟩ := flags_eq_iff.mp h
  cases r <;>
    simp only [Relation.call, test, Relation.Holds, hless, hequal, hgreater, Bool.or_eq_true,
      BitVec.slt_iff_toInt_lt, decide_eq_true_eq, ← BitVec.toInt_inj]
  all_goals omega

/-- The branch instructions test the relation they name, except that `BRLE` tests for being
different. -/
theorem test_branch_iff (r : Relation) (h : m.flags = flagsOf a b) :
    test r.branch m = true ↔ if r = .le then a.toInt ≠ b.toInt else r.Holds a b := by
  obtain ⟨hless, hequal, hgreater⟩ := flags_eq_iff.mp h
  cases r <;>
    simp only [Relation.branch, test, Relation.Holds, hless, hequal, hgreater, Bool.or_eq_true,
      BitVec.slt_iff_toInt_lt, decide_eq_true_eq, ← BitVec.toInt_inj, reduceCtorEq, if_true,
      if_false]
  all_goals omega

/-! ## An instruction under a test -/

/-- An instruction that sets the counter from its address is never without effect: one of two
addresses changes the counter. -/
theorem exists_word_moves (op : Opcode) (m : State N) :
    ∃ w, opcodes (rbmlOpcode w) = some op ∧ intOfArg (arg3Of w) - 1 ≠ m.instructionCounter := by
  have haddress : ∀ n : Fin 2,
      arg3Of (rbmlInst op.code 0 0 (BitVec.ofNat 32 n)) = ⟨n, by omega⟩ := by
    intro n
    apply Fin.ext
    simp only [arg3Of, rbmlArg3_inst, toNat_and_ffff, BitVec.toNat_ofNat]
    omega
  by_cases hcounter : m.instructionCounter = -1
  · refine ⟨rbmlInst op.code 0 0 (BitVec.ofNat 32 (1 : Fin 2)), ?_, ?_⟩
    · rw [rbmlOpcode_code, opcodes_code]
    · rw [haddress, hcounter]
      decide
  · refine ⟨rbmlInst op.code 0 0 (BitVec.ofNat 32 (0 : Fin 2)), ?_, ?_⟩
    · rw [rbmlOpcode_code, opcodes_code]
    · rw [haddress]
      exact fun h => hcounter h.symm

/-- An instruction that does `transfer` under its test acts under `p` exactly if the test is `p`. -/
theorem actsIf_iff {p : Prop} [Decidable p] {transfer : OpcodeFn N} {op : Opcode}
    (hop : handler op = onTest (test op) transfer)
    (hmoves : ∀ env arg1 arg2 arg3 (m m' : State N), transfer env arg1 arg2 arg3 m = .ok m' →
      m'.instructionCounter = intOfArg arg3 - 1) :
    ActsIf p transfer op m ↔ (test op m = true ↔ p) := by
  constructor
  · intro h
    obtain ⟨w, hw, hne⟩ := exists_word_moves op m
    have hact := h .silent w hw
    rw [evaluateInstruction_fetched .silent m hw, hop] at hact
    have hmoved : transfer .silent (arg1Of w) (arg2Of w) (arg3Of w) (fetched m w) ≠
        .ok (fetched m w) := fun hsame => hne (hmoves _ _ _ _ _ _ hsame).symm
    have hsame : test op (fetched m w) = test op m := rfl
    unfold onTest at hact
    rw [hsame] at hact
    by_cases htest : test op m = true
    · apply iff_of_true htest
      by_contra hp
      rw [if_pos htest, if_neg hp] at hact
      exact hmoved hact
    · apply iff_of_false htest
      intro hp
      rw [if_neg htest, if_pos hp] at hact
      exact hmoved hact.symm
  · intro htest env w hw
    rw [evaluateInstruction_fetched env m hw, hop]
    unfold onTest
    have hsame : (test op (fetched m w) = true) = p := propext htest
    simp only [hsame]

theorem bran_moves (env : Env) (arg1 arg2 : Fin 16) (arg3 : Fin 65536) (m m' : State N)
    (h : bran env arg1 arg2 arg3 m = .ok m') : m'.instructionCounter = intOfArg arg3 - 1 := by
  cases h
  rfl

theorem call_moves (env : Env) (arg1 arg2 : Fin 16) (arg3 : Fin 65536) (m m' : State N)
    (h : call env arg1 arg2 arg3 m = .ok m') : m'.instructionCounter = intOfArg arg3 - 1 := by
  obtain ⟨_, -, h⟩ := bind_eq_ok.mp h
  cases h
  rfl

end

/-- After a compare instruction, and until the next one, each conditional call acts on the relation
that it names between the operands. So does the conditional branch, except for `BRLE`, which does
exactly if the first operand is less than the second. The same holds for a branch and a call of one
relation to agree. -/
theorem conditionals_follow_last_compare {m₀ m : State N} {events : List Event} {a b : Word}
    (hrun : Path Turn m₀ events m) (hlast : lastCompare events = some (a, b)) (r : Relation) :
    ActsIf (r.Holds a b) call r.call m ∧
      (ActsIf (r.Holds a b) bran r.branch m ↔ (r = .le → a.toInt < b.toInt)) ∧
      ((test r.branch m = test r.call m) ↔ (r = .le → a.toInt < b.toInt)) := by
  have hflags := flags_of_lastCompare hrun hlast
  have hcall := test_call_iff r hflags
  have hbranch := test_branch_iff r hflags
  have hexact : (test r.branch m = true ↔ r.Holds a b) ↔ (r = .le → a.toInt < b.toInt) := by
    rw [hbranch]
    split
    next hle =>
      subst hle
      simp only [Relation.Holds, forall_true_left]
      omega
    next hle => simp only [hle, false_imp_iff]
  refine ⟨?_, ?_, ?_⟩
  · rw [actsIf_iff (handler_call (by cases r <;> rfl)) call_moves]
    exact hcall
  · rw [actsIf_iff (handler_branch (by cases r <;> rfl)) bran_moves]
    exact hexact
  · rw [Bool.eq_iff_iff, hcall]
    exact hexact

/-- `CMP r0, r0`, then `BRLE 0` -/
def equalThenBrle : Fin 2 → Word := fun k =>
  [rbmlInst Opcode.cmp.code 0 0 0, rbmlInst Opcode.brle.code 0 0 0].getD k 0

/-- `BRLE` is not taken after a comparison of equal numbers. -/
theorem brle_not_taken_on_equal :
    ¬ ∀ (N : Nat) (memory : Fin N → Word) (stdin : List UInt8) (events : List Event) (m : State N)
        (a b : Word) (r : Relation),
      Path Turn (initialState memory stdin) events m → lastCompare events = some (a, b) →
      ActsIf (r.Holds a b) bran r.branch m ∧ ActsIf (r.Holds a b) call r.call m := by
  intro h
  obtain ⟨events, m, hrun, hm⟩ := @exists_path_of_turns 2 _ .silent 1
    (initialState equalThenBrle []) (fun events m => (events, test .brle m))
    ([.compare 0 0], false) (by decide +kernel)
  obtain ⟨rfl, htest⟩ := Prod.mk.inj hm
  have hact := (h 2 equalThenBrle [] _ m 0 0 .le hrun rfl).1
  rw [actsIf_iff (handler_branch rfl) bran_moves] at hact
  have htaken : test .brle m = true := hact.mpr (by decide)
  rw [htest] at htaken
  cases htaken

/-- `LOD r1, 5`, `CMP r0, r1`, `ADD r1, r1`, `STOA 5`, `BRLT 0`, and the 3 that is loaded -/
def compareThenStore : Fin 6 → Word := fun k =>
  [rbmlInst Opcode.lod.code 1 0 5, rbmlInst Opcode.cmp.code 0 1 0, rbmlInst Opcode.add.code 1 1 0,
   rbmlInst Opcode.stoa.code 0 0 5, rbmlInst Opcode.brlt.code 0 0 0, 3].getD k 0

/-- The addition and the store leave the comparison of 0 with 3 in force. `CALT`, `BRLT` and `BRLE` act on
it as they should. -/
theorem compareThenStore_brlt_acts : ∃ m,
    Path Turn (initialState compareThenStore []) [.other, .compare 0 3, .other, .other] m ∧
      m.memory 5 = 6 ∧ ActsIf (Relation.lt.Holds 0 3) call .calt m ∧
      ActsIf (Relation.lt.Holds 0 3) bran .brlt m ∧ ActsIf (Relation.le.Holds 0 3) bran .brle m := by
  obtain ⟨events, m, hrun, hm⟩ := @exists_path_of_turns 6 _ .silent 4
    (initialState compareThenStore []) (fun events m => (events, m.memory 5))
    ([.other, .compare 0 3, .other, .other], 6) (by decide +kernel)
  obtain ⟨rfl, hword⟩ := Prod.mk.inj hm
  obtain ⟨hcall, hbranch, -⟩ := conditionals_follow_last_compare hrun rfl .lt
  exact ⟨m, hrun, hword, hcall, hbranch.mpr (by decide),
    (conditionals_follow_last_compare hrun rfl .le).2.1.mpr (by decide)⟩

end Rbml.Machine
