import Rbml.Machine.Arithmetic

/-!
# Products and quotients

`multiplication` tests for overflow with a quotient of the bound by its first operand. For a positive
operand the test is exact above the range and says nothing below it. For a negative one it fires
where the next multiple is still in the range, that is, where the product is. The quotient of the
least word by -1 does not exist, so that a first operand of -1 is undefined behaviour, unless the
second is 0.

`multiplication_eq` is that reading of the code, on which the exactness of the flag, the symmetry of
`MULT` and the undefined quotients of the nine instructions rest.
-/

namespace Rbml.Machine

open Lib

variable {N : Nat}

/-- The overflow test of `multiplication`, in exact numbers -/
def ProductTest (a b : Word) : Prop :=
  (0 < a.toInt ∧ rbmlWordMax.toInt < a.toInt * b.toInt) ∨
    (a.toInt < 0 ∧ rbmlWordMin.toInt ≤ a.toInt * (b.toInt + 1))

instance (a b : Word) : Decidable (ProductTest a b) := inferInstanceAs (Decidable (_ ∨ _))

theorem cDiv_rbmlWordMax {a : Word} (ha : a ≠ 0) :
    (cDiv rbmlWordMax a : Except (Stop N) Word) = .ok (rbmlWordMax.sdiv a) := by
  have hexists : QuotientExists rbmlWordMax a := ⟨ha, fun h => absurd h.1 (by decide)⟩
  rw [cDiv, if_pos hexists]

theorem cDiv_rbmlWordMin {a : Word} (ha : a ≠ 0) :
    (cDiv rbmlWordMin a : Except (Stop N) Word) =
      if a = -1 then .error (.fault .quotient) else .ok (rbmlWordMin.sdiv a) := by
  have hexists : QuotientExists rbmlWordMin a ↔ a ≠ -1 := by
    unfold QuotientExists
    tauto
  simp only [cDiv, hexists, ite_not]

theorem multiplicationOverflow_eq {a b : Word} (ha : a ≠ 0) :
    (multiplicationOverflow a b : Except (Stop N) Bool) =
      if a = -1 then .error (.fault .quotient) else .ok (decide (ProductTest a b)) := by
  have hne : a.toInt ≠ 0 := fun h => ha (toInt_eq_zero_iff.mp h)
  unfold multiplicationOverflow
  rw [cDiv_rbmlWordMax ha, cDiv_rbmlWordMin ha]
  rcases lt_or_gt_of_ne hne with hneg | hpos
  · have hsign : ¬ BitVec.slt 0 a = true := fun h => by
      rw [zero_slt_iff] at h
      omega
    rw [if_neg hsign, if_pos ((slt_zero_iff a).mpr hneg)]
    by_cases hone : a = -1
    · rw [if_pos hone, if_pos hone]
      rfl
    · rw [if_neg hone, if_neg hone]
      have htest : b.slt (rbmlWordMin.sdiv a) = decide (ProductTest a b) := by
        rw [Bool.eq_iff_iff, decide_eq_true_eq, rbmlWordMin,
          slt_intMin_sdiv_iff (by omega) hneg hone, ProductTest, rbmlWordMin_toInt]
        omega
      exact congrArg Except.ok htest
  · have hone : a ≠ -1 := fun h => by
      rw [← toInt_eq_neg_one_iff] at h
      omega
    rw [if_pos ((zero_slt_iff a).mpr hpos), if_neg hone]
    have htest : (rbmlWordMax.sdiv a).slt b = decide (ProductTest a b) := by
      rw [Bool.eq_iff_iff, decide_eq_true_eq, rbmlWordMax, intMax_sdiv_slt_iff (by omega) hpos,
        ProductTest, rbmlWordMax_toInt]
      omega
    exact congrArg Except.ok htest

/-- What `multiplication` does on any two words -/
theorem multiplication_eq (a b : Word) (m : State N) :
    multiplication a b m =
      if a = 0 ∨ b = 0 then .ok (0, { m with overflow := false })
      else if a = -1 then .error (.fault .quotient)
      else .ok (a * b, { m with overflow := decide (ProductTest a b) }) := by
  unfold multiplication
  by_cases hzero : a = 0 ∨ b = 0
  · rw [if_pos hzero, if_pos hzero]
  · rw [if_neg hzero, if_neg hzero, multiplicationOverflow_eq fun h => hzero (.inl h)]
    split <;> rfl

/-! ## The overflow flag -/

/-- The operands for which the test of `multiplication` is right. With a negative first operand other
than -1 the product has to be out of range for a negative second one, and for a positive second one
it has to be the last multiple in range. -/
def ProductReported (a b : Word) : Prop :=
  a = 0 ∨ b = 0 ∨
    (0 < a.toInt ∧ (0 < b.toInt ∨ rbmlWordMin.toInt ≤ a.toInt * b.toInt)) ∨
    (a.toInt < -1 ∧ b.toInt < 0 ∧ rbmlWordMax.toInt < a.toInt * b.toInt) ∨
    (a.toInt < -1 ∧ 0 < b.toInt ∧ rbmlWordMin.toInt ≤ a.toInt * b.toInt ∧
      a.toInt * (b.toInt + 1) < rbmlWordMin.toInt)

instance (a b : Word) : Decidable (ProductReported a b) :=
  inferInstanceAs (Decidable (_ ∨ _))

/-- For a first operand other than 0 and -1 the test is right exactly where `ProductReported` says. -/
theorem productTest_exact_iff {a b : Word} (ha : a ≠ 0) (hb : b ≠ 0) (hone : a ≠ -1) :
    (ProductTest a b ↔ ¬ InWord (a.toInt * b.toInt)) ↔ ProductReported a b := by
  have ha' : a.toInt ≠ 0 := fun h => ha (toInt_eq_zero_iff.mp h)
  have hb' : b.toInt ≠ 0 := fun h => hb (toInt_eq_zero_iff.mp h)
  have hone' : a.toInt ≠ -1 := fun h => hone (toInt_eq_neg_one_iff.mp h)
  have hrange := inWord_toInt a
  unfold ProductTest ProductReported InWord at *
  simp only [ha, hb, false_or]
  rw [Int.mul_add, Int.mul_one, rbmlWordMin_toInt, rbmlWordMax_toInt] at *
  rcases lt_or_gt_of_ne ha' with hneg | hpos
  · rcases lt_or_gt_of_ne hb' with hbneg | hbpos
    · have hproduct := Int.mul_pos_of_neg_of_neg hneg hbneg
      omega
    · have hproduct := Int.mul_neg_of_neg_of_pos hneg hbpos
      omega
  · rcases lt_or_gt_of_ne hb' with hbneg | hbpos
    · have hproduct := Int.mul_neg_of_pos_of_neg hpos hbneg
      omega
    · have hproduct := Int.mul_pos hpos hbpos
      omega

theorem not_productReported_neg_one {b : Word} (hb : b ≠ 0) : ¬ ProductReported (-1) b := by
  have hone : (-1 : Word).toInt = -1 := rfl
  unfold ProductReported
  rw [hone]
  simp only [hb, false_or]
  rintro (h | h | h | h)
  · exact absurd h (by decide)
  · omega
  · omega
  · omega

theorem multiplication_reports_words (a b : Word) (m : State N) :
    (∃ w m', multiplication a b m = .ok (w, m') ∧ Reports (a.toInt * b.toInt) w m') ↔
      ProductReported a b := by
  rw [multiplication_eq]
  by_cases hzero : a = 0 ∨ b = 0
  · have hproduct : a.toInt * b.toInt = 0 := by
      rw [Int.mul_eq_zero, toInt_eq_zero_iff, toInt_eq_zero_iff]
      exact hzero
    have hreported : ProductReported a b := by
      rcases hzero with ha | hb
      · exact .inl ha
      · exact .inr (.inl hb)
    rw [if_pos hzero, hproduct]
    refine iff_of_true ⟨_, _, rfl, rfl, ?_⟩ hreported
    exact iff_of_false Bool.false_ne_true (not_not_intro (by decide))
  · obtain ⟨ha, hb⟩ := not_or.mp hzero
    rw [if_neg hzero]
    by_cases hone : a = -1
    · rw [if_pos hone, hone]
      refine iff_of_false ?_ (not_productReported_neg_one hb)
      rintro ⟨w, m', h, -⟩
      cases h
    · rw [if_neg hone, ← productTest_exact_iff ha hb hone]
      constructor
      · rintro ⟨w, m', h, -, hflag⟩
        cases h
        rw [decide_eq_true_eq] at hflag
        exact hflag
      · intro h
        refine ⟨_, _, rfl, mul_eq_ofInt a b, ?_⟩
        rw [decide_eq_true_eq]
        exact h

theorem handler_mult (s : Operand) (env : Env) (arg1 arg2 : Fin 16) (arg3 : Fin 65536)
    (m : State N) :
    handler s.mult env arg1 arg2 arg3 m = (do
      let (w, m) ← multiplication (s.first arg1 m) (s.second arg1 arg2 m) m
      .ok { m with accumulator := w }) := by
  cases s <;> rfl

theorem handler_mult_eq_ok {s : Operand} {env : Env} {arg1 arg2 : Fin 16} {arg3 : Fin 65536}
    {m m' : State N} :
    handler s.mult env arg1 arg2 arg3 m = .ok m' ↔
      ∃ w m₁, multiplication (s.first arg1 m) (s.second arg1 arg2 m) m = .ok (w, m₁) ∧
        m' = { m₁ with accumulator := w } := by
  rw [handler_mult, bind_eq_ok]
  constructor
  · rintro ⟨⟨w, m₁⟩, hmul, h⟩
    cases h
    exact ⟨w, m₁, hmul, rfl⟩
  · rintro ⟨w, m₁, hmul, rfl⟩
    exact ⟨(w, m₁), hmul, rfl⟩

/-- The operands that `MULT` treats alike in both orders. An operand of -1 faults as the first one,
and the test sees a negative factor only there. -/
def ProductSymmetric (a b : Word) : Prop :=
  a = 0 ∨ b = 0 ∨ (0 < a.toInt ∧ 0 < b.toInt) ∨ (a.toInt < -1 ∧ b.toInt < -1) ∨
    (0 < a.toInt ∧ b.toInt < -1 ∧ b.toInt * (a.toInt + 1) < rbmlWordMin.toInt) ∨
    (a.toInt < -1 ∧ 0 < b.toInt ∧ a.toInt * (b.toInt + 1) < rbmlWordMin.toInt)

instance (a b : Word) : Decidable (ProductSymmetric a b) :=
  inferInstanceAs (Decidable (_ ∨ _))

/-- Away from 0 two operands are treated alike where neither is -1 and the test is symmetric. -/
theorem productSymmetric_iff {a b : Word} (ha : a ≠ 0) (hb : b ≠ 0) :
    ProductSymmetric a b ↔ a ≠ -1 ∧ b ≠ -1 ∧ (ProductTest a b ↔ ProductTest b a) := by
  have ha' : a.toInt ≠ 0 := fun h => ha (toInt_eq_zero_iff.mp h)
  have hb' : b.toInt ≠ 0 := fun h => hb (toInt_eq_zero_iff.mp h)
  have harange := inWord_toInt a
  have hbrange := inWord_toInt b
  unfold ProductTest ProductSymmetric InWord at *
  simp only [ha, hb, false_or, ne_eq, ← toInt_eq_neg_one_iff]
  rw [Int.mul_add, Int.mul_add, Int.mul_one, Int.mul_one, Int.mul_comm b.toInt,
    rbmlWordMin_toInt, rbmlWordMax_toInt] at *
  rcases lt_or_gt_of_ne ha' with hneg | hpos
  · rcases lt_or_gt_of_ne hb' with hbneg | hbpos
    · have hproduct := Int.mul_pos_of_neg_of_neg hneg hbneg
      omega
    · have hproduct := Int.mul_neg_of_neg_of_pos hneg hbpos
      omega
  · rcases lt_or_gt_of_ne hb' with hbneg | hbpos
    · have hproduct := Int.mul_neg_of_pos_of_neg hpos hbneg
      omega
    · have hproduct := Int.mul_pos hpos hbpos
      omega

/-- Two runs of `MULT`, on operands in the two orders, that both return the same result and flag -/
def MultCommutes (env : Env) (arg1 arg2 : Fin 16) (arg3 : Fin 65536) (m : State N) : Prop :=
  ∃ m₁ m₂, mult env arg1 arg2 arg3 m = .ok m₁ ∧ mult env arg2 arg1 arg3 m = .ok m₂ ∧
    m₁.accumulator = m₂.accumulator ∧ m₁.overflow = m₂.overflow

theorem multCommutes_iff (env : Env) (arg1 arg2 : Fin 16) (arg3 : Fin 65536) (m : State N) :
    MultCommutes env arg1 arg2 arg3 m ↔ ProductSymmetric (m.reg arg1) (m.reg arg2) := by
  have hmult (i j : Fin 16) : mult env i j arg3 m = handler Operand.register.mult env i j arg3 m :=
    rfl
  unfold MultCommutes
  simp only [hmult, handler_mult, Operand.first, Operand.second, multiplication_eq]
  by_cases hzero : m.reg arg1 = 0 ∨ m.reg arg2 = 0
  · rw [if_pos hzero, if_pos hzero.symm]
    refine iff_of_true ⟨_, _, rfl, rfl, rfl, rfl⟩ ?_
    rcases hzero with ha | hb
    · exact .inl ha
    · exact .inr (.inl hb)
  · obtain ⟨ha, hb⟩ := not_or.mp hzero
    have hzero' : ¬ (m.reg arg2 = 0 ∨ m.reg arg1 = 0) := fun h => hzero h.symm
    rw [if_neg hzero, if_neg hzero', productSymmetric_iff ha hb]
    by_cases haone : m.reg arg1 = -1
    · rw [if_pos haone]
      refine iff_of_false ?_ fun h => h.1 haone
      rintro ⟨m₁, m₂, h, -⟩
      cases h
    by_cases hbone : m.reg arg2 = -1
    · rw [if_pos hbone]
      refine iff_of_false ?_ fun h => h.2.1 hbone
      rintro ⟨m₁, m₂, -, h, -⟩
      cases h
    rw [if_neg haone, if_neg hbone]
    constructor
    · rintro ⟨m₁, m₂, h₁, h₂, -, hflag⟩
      cases h₁
      cases h₂
      exact ⟨haone, hbone, decide_eq_decide.mp hflag⟩
    · rintro ⟨-, -, htest⟩
      exact ⟨_, _, rfl, rfl, BitVec.mul_comm _ _, decide_eq_decide.mpr htest⟩

/-- The result and the flag are right exactly for the operands of `ProductReported`, in
`multiplication` and in its three instructions, and `MULT` is commutative in both exactly for those
of `ProductSymmetric`. -/
theorem multiplication_reports_iff :
    (∀ (a b : Word) (m : State N),
      (∃ w m', multiplication a b m = .ok (w, m') ∧ Reports (a.toInt * b.toInt) w m') ↔
        ProductReported a b) ∧
    (∀ (s : Operand) (env : Env) (arg1 arg2 : Fin 16) (arg3 : Fin 65536) (m : State N),
      (∃ m', handler s.mult env arg1 arg2 arg3 m = .ok m' ∧
        Reports ((s.first arg1 m).toInt * (s.second arg1 arg2 m).toInt) m'.accumulator m') ↔
        ProductReported (s.first arg1 m) (s.second arg1 arg2 m)) ∧
    ∀ (env : Env) (arg1 arg2 : Fin 16) (arg3 : Fin 65536) (m : State N),
      MultCommutes env arg1 arg2 arg3 m ↔ ProductSymmetric (m.reg arg1) (m.reg arg2) := by
  refine ⟨multiplication_reports_words, fun s env arg1 arg2 arg3 m => ?_, multCommutes_iff⟩
  rw [← multiplication_reports_words _ _ m]
  constructor
  · rintro ⟨m', h, hreports⟩
    obtain ⟨w, m₁, hmul, rfl⟩ := handler_mult_eq_ok.mp h
    exact ⟨w, m₁, hmul, hreports⟩
  · rintro ⟨w, m₁, hmul, hreports⟩
    exact ⟨_, handler_mult_eq_ok.mpr ⟨w, m₁, hmul, rfl⟩, hreports⟩

/-- The product of -2 and 3 is reported as an overflow. -/
theorem multiplication_false_overflow :
    ¬ ∀ (N : Nat) (a b : Word) (m : State N),
      ∃ w m', multiplication a b m = .ok (w, m') ∧ Reports (a.toInt * b.toInt) w m' := by
  intro h
  have hreported := (multiplication_reports_words (-2) 3 _).mp
    (h 0 (-2) 3 (initialState Fin.elim0 []))
  exact absurd hreported (by decide)

/-! ## Undefined quotients -/

/-- The operands for which every quotient that a product evaluates exists -/
def ProductDefined (a b : Word) : Prop := a = -1 → b = 0

/-- The operands for which the quotient or remainder that a division evaluates exists, if it
evaluates one -/
def DivisionDefined (a b : Word) : Prop := ¬ (a = rbmlWordMin ∧ b = -1)

theorem multiplication_faults_iff (a b : Word) (m : State N) :
    multiplication a b m = .error (.fault .quotient) ↔ ¬ ProductDefined a b := by
  rw [multiplication_eq, ProductDefined]
  by_cases hzero : a = 0 ∨ b = 0
  · rw [if_pos hzero]
    refine iff_of_false (fun h => by cases h) (not_not_intro ?_)
    rintro rfl
    exact hzero.resolve_left (by decide)
  · obtain ⟨ha, hb⟩ := not_or.mp hzero
    rw [if_neg hzero]
    by_cases hone : a = -1
    · rw [if_pos hone]
      exact iff_of_true rfl fun h => hb (h hone)
    · rw [if_neg hone]
      exact iff_of_false (fun h => by cases h) fun h => h fun hone' => absurd hone' hone

theorem divisionDefined_zero (a : Word) : DivisionDefined a 0 :=
  fun h => absurd h.2 (by decide)

/-- A quotient that is evaluated fails exactly where it does not exist. -/
theorem guarded_faults_iff {a b v : Word} (hb : b ≠ 0) :
    (if QuotientExists a b then .ok v else .error (.fault .quotient) : Except (Stop N) Word) =
      .error (.fault .quotient) ↔ ¬ DivisionDefined a b := by
  have hexists : QuotientExists a b ↔ DivisionDefined a b := and_iff_right hb
  rw [← hexists]
  split
  next hdefined => exact iff_of_false (fun h => by cases h) (not_not_intro hdefined)
  next hdefined => exact iff_of_true rfl hdefined

theorem division_faults_iff (a b : Word) (m : State N) :
    division a b m = .error (.fault .quotient) ↔ ¬ DivisionDefined a b := by
  unfold division
  by_cases hb : b = 0
  · rw [if_pos hb, hb]
    exact iff_of_false (fun h => by cases h) (not_not_intro (divisionDefined_zero a))
  · rw [if_neg hb, bind_ok_eq_error]
    exact guarded_faults_iff hb

theorem modulus_faults_iff (a b : Word) (m : State N) :
    modulus a b m = .error (.fault .quotient) ↔ ¬ DivisionDefined a b := by
  unfold modulus
  by_cases hb : b = 0
  · rw [if_pos hb, hb]
    exact iff_of_false (fun h => by cases h) (not_not_intro (divisionDefined_zero a))
  · rw [if_neg hb, bind_ok_eq_error]
    exact guarded_faults_iff hb

/-- A zero for the divisor 0, and else a quotient or remainder `q` that has to exist -/
theorem guarded_returns_iff {a b q v : Word} {m₁ m₂ : State N} :
    (∃ m', (if b = 0 then .ok (0, m₁)
      else (if QuotientExists a b then .ok q else .error (.fault .quotient)) >>=
        fun q => .ok (q, m₂) : Except (Stop N) (Word × State N)) = .ok (v, m')) ↔
      (b = 0 ∧ v = 0) ∨ (QuotientExists a b ∧ v = q) := by
  by_cases hb : b = 0
  · rw [if_pos hb]
    constructor
    · rintro ⟨m', h⟩
      cases h
      exact .inl ⟨hb, rfl⟩
    · rintro (⟨-, rfl⟩ | ⟨h, -⟩)
      · exact ⟨_, rfl⟩
      · exact absurd hb h.1
  · rw [if_neg hb]
    by_cases hexists : QuotientExists a b
    · rw [if_pos hexists]
      constructor
      · rintro ⟨m', h⟩
        cases h
        exact .inr ⟨hexists, rfl⟩
      · rintro (⟨h, -⟩ | ⟨-, rfl⟩)
        · exact absurd h hb
        · exact ⟨_, rfl⟩
    · rw [if_neg hexists]
      refine iff_of_false ?_ ?_
      · rintro ⟨m', h⟩
        cases h
      · rintro (⟨h, -⟩ | ⟨h, -⟩)
        · exact hb h
        · exact hexists h

theorem division_returns_iff {a b v : Word} {m : State N} :
    (∃ m', division a b m = .ok (v, m')) ↔
      (b = 0 ∧ v = 0) ∨ (QuotientExists a b ∧ v = a.sdiv b) :=
  guarded_returns_iff

theorem modulus_returns_iff {a b v : Word} {m : State N} :
    (∃ m', modulus a b m = .ok (v, m')) ↔
      (b = 0 ∧ v = 0) ∨ (QuotientExists a b ∧ v = a.srem b) :=
  guarded_returns_iff

/-- Every quotient that an instruction evaluates exists. -/
def QuotientsExist (op : Opcode) (arg1 arg2 : Fin 16) (m : State N) : Prop :=
  match op with
  | .mult => ProductDefined (m.reg arg1) (m.reg arg2)
  | .mlta => ProductDefined m.accumulator (m.reg arg1)
  | .mltj => ProductDefined m.jump (m.reg arg1)
  | .div | .mod => DivisionDefined (m.reg arg1) (m.reg arg2)
  | .diva | .moda => DivisionDefined m.accumulator (m.reg arg1)
  | .divj | .modj => DivisionDefined m.jump (m.reg arg1)
  | _ => True

/-- The instructions that evaluate a quotient fault exactly where one does not exist, and the others
never on a quotient. -/
theorem handler_quotient_iff (op : Opcode) (env : Env) (arg1 arg2 : Fin 16) (arg3 : Fin 65536)
    (m : State N) :
    handler op env arg1 arg2 arg3 m = .error (.fault .quotient) ↔
      ¬ QuotientsExist op arg1 arg2 m := by
  cases op
  case mult | mlta | mltj => exact bind_ok_eq_error.trans (multiplication_faults_iff _ _ m)
  case div | diva | divj => exact bind_ok_eq_error.trans (division_faults_iff _ _ m)
  case mod | moda | modj => exact bind_ok_eq_error.trans (modulus_faults_iff _ _ m)
  all_goals refine iff_of_false ?_ (not_not_intro trivial)
  case lsft | lsfa | lsfj =>
    intro h
    cases cShl_error (bind_ok_eq_error.mp h)
  case rsft | rsfa | rsfj =>
    intro h
    cases cShr_error (bind_ok_eq_error.mp h)
  case sto | stoa | stoj | lod | loda | lodj | cmpm | crdm =>
    intro h
    cases ((handler_memory_error rfl).mp h).2
  case call | cagt | calt | caeq | cage | cale =>
    rw [handler_call rfl, onTest]
    split
    · intro h
      cases call_error h
    · intro h
      cases h
  case «end» =>
    intro h
    obtain ⟨i, hi⟩ := end_error h
    cases hi
  case brgt | brlt | breq | brge | brle =>
    rw [handler_branch rfl, onTest]
    split <;> intro h <;> cases h
  case clos =>
    simp only [handler, clos]
    split <;> intro h <;> cases h
  case «open» =>
    simp only [handler, «open»]
    split <;> intro h <;> cases h
  case mova =>
    simp only [handler, mova]
    split <;> intro h <;> cases h
  case movj =>
    simp only [handler, movj]
    split <;> intro h <;> cases h
  all_goals
    intro h
    cases h

/-- No quotient is undefined in an instruction, and none in a turn of the loop, exactly where the
operands exclude the least word by -1 from the divisions and -1 from the first factor of a product
other than 0. -/
theorem quotients_exist_iff :
    (∀ (op : Opcode) (env : Env) (arg1 arg2 : Fin 16) (arg3 : Fin 65536) (m : State N),
      handler op env arg1 arg2 arg3 m ≠ .error (.fault .quotient) ↔
        QuotientsExist op arg1 arg2 m) ∧
    ∀ (env : Env) (m : State N), step env m ≠ .error (.fault .quotient) ↔
      ∀ (w : Word) (op : Opcode), nextWord m = some w → opcodes (rbmlOpcode w) = some op →
        QuotientsExist op (arg1Of w) (arg2Of w) m := by
  refine ⟨fun op env arg1 arg2 arg3 m => ?_, fun env m => ?_⟩
  · rw [ne_eq, handler_quotient_iff, not_not]
  · cases hw : nextWord m with
    | none =>
      rw [step_of_nextWord_none env hw]
      exact iff_of_true (fun h => by cases h) fun w op h => by cases h
    | some w =>
      rw [ne_eq, step_eq_fault hw]
      cases hop : opcodes (rbmlOpcode w) with
      | none =>
        refine iff_of_true (fun h => ?_) fun w' op h hop' => ?_
        · simp only [evaluateInstruction, fetched, hop] at h
          cases h
        · cases h
          rw [hop] at hop'
          cases hop'
      | some op =>
        have hfetched : QuotientsExist op (arg1Of w) (arg2Of w) (fetched m w) ↔
            QuotientsExist op (arg1Of w) (arg2Of w) m := by
          cases op <;> rfl
        rw [evaluateInstruction_fetched env m hop, handler_quotient_iff, not_not, hfetched]
        constructor
        · intro h w' op' hw' hop'
          cases hw'
          rw [hop] at hop'
          cases hop'
          exact h
        · intro h
          exact h w op rfl hop

/-- `MULT` of -1 and 1 divides the least word by -1. -/
theorem mult_neg_one_faults :
    ¬ ∀ (N : Nat) (env : Env) (arg1 arg2 : Fin 16) (arg3 : Fin 65536) (m : State N),
      handler .mult env arg1 arg2 arg3 m ≠ .error (.fault .quotient) := by
  intro h
  refine h 0 .silent 0 1 0
    { initialState Fin.elim0 [] with reg := fun i => if i = 0 then -1 else 1 } ?_
  rw [handler_quotient_iff]
  intro hdefined
  exact absurd (hdefined rfl) (by decide)

end Rbml.Machine
