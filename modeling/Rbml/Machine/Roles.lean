import Rbml.Machine.Products
import Rbml.Machine.Shifts

/-!
# Operand roles

The operations that are not commutative take their operands in an order, and the moves between a
register and the accumulator or the jump register take a direction. `langspec.tex` gives both for
each instruction, and `langspec` below is its text. The handlers have some of them otherwise: `SUB`
subtracts the other way round, the accumulator and jump forms of the divisions and shifts take the
register as the second operand, and `MOVA` and `MOVJ` read the register from the second field and
the direction from the first.

A wrong order does not show on every operand. `RolesAgree` is the condition under which an instruction
writes what the language asks for, and `follows_langspec_iff` says that it does so nowhere else.
-/

namespace Rbml.Machine

open Lib

variable {N : Nat}

/-! ## The language -/

/-- Where an instruction writes its value -/
inductive Place where
  | accumulator | jump
  | reg (i : Fin 16)
  deriving DecidableEq, Repr

def Place.read (p : Place) (m : State N) : Word :=
  match p with
  | .accumulator => m.accumulator
  | .jump => m.jump
  | .reg i => m.reg i

def Place.write (p : Place) (w : Word) (m : State N) : State N :=
  match p with
  | .accumulator => { m with accumulator := w }
  | .jump => { m with jump := w }
  | .reg i => m.setReg i w

/-- A word for the accumulator, under a condition -/
def accumulatorIf (P : Prop) [Decidable P] (w : Word) : Option (Place × Word) :=
  if P then some (.accumulator, w) else none

theorem accumulatorIf_eq_some {P : Prop} [Decidable P] {w v : Word} {p : Place}
    (h : accumulatorIf P w = some (p, v)) : P ∧ p = .accumulator ∧ v = w := by
  unfold accumulatorIf at h
  split at h
  next hP =>
    cases h
    exact ⟨hP, rfl, rfl⟩
  next => cases h

/-- A quotient exists for a divisor other than 0, the least word by -1 apart. -/
def quotientOf (a b : Word) : Option (Place × Word) :=
  accumulatorIf (QuotientExists a b) (a.sdiv b)

def remainderOf (a b : Word) : Option (Place × Word) :=
  accumulatorIf (QuotientExists a b) (a.srem b)

/-- A shift is by 0 to 31 positions. -/
def leftShiftOf (a n : Word) : Option (Place × Word) :=
  accumulatorIf (n.toNat < 32) (a <<< n.toNat)

def rightShiftOf (a n : Word) : Option (Place × Word) :=
  accumulatorIf (n.toNat < 32) (a.sshiftRight n.toNat)

/-- The move between the register of ARG1 and `p`, in the direction of ARG3 -/
def moveOf (p : Place) (arg1 : Fin 16) (arg3 : Fin 65536) (m : State N) : Place × Word :=
  if arg3 = 0 then (p, m.reg arg1) else (.reg arg1, p.read m)

/-- What `langspec.tex` has an instruction write, and where. Only the instructions whose operands
have roles have an entry, and only where the operation is defined. -/
def langspec (op : Opcode) (arg1 arg2 : Fin 16) (arg3 : Fin 65536) (m : State N) :
    Option (Place × Word) :=
  match op with
  | .sub => some (.accumulator, m.reg arg2 - m.reg arg1)
  | .suba => some (.accumulator, m.accumulator - m.reg arg1)
  | .subj => some (.accumulator, m.jump - m.reg arg1)
  | .div => quotientOf (m.reg arg1) (m.reg arg2)
  | .diva => quotientOf (m.reg arg1) m.accumulator
  | .divj => quotientOf (m.reg arg1) m.jump
  | .mod => remainderOf (m.reg arg1) (m.reg arg2)
  | .moda => remainderOf (m.reg arg1) m.accumulator
  | .modj => remainderOf (m.reg arg1) m.jump
  | .lsft => leftShiftOf (m.reg arg1) (m.reg arg2)
  | .lsfa => leftShiftOf (m.reg arg1) m.accumulator
  | .lsfj => leftShiftOf (m.reg arg1) m.jump
  | .rsft => rightShiftOf (m.reg arg1) (m.reg arg2)
  | .rsfa => rightShiftOf (m.reg arg1) m.accumulator
  | .rsfj => rightShiftOf (m.reg arg1) m.jump
  | .mova => some (moveOf .accumulator arg1 arg3 m)
  | .movj => some (moveOf .jump arg1 arg3 m)
  | _ => none

/-- The registers that an instruction can write hold the same words. -/
structure SameRegisters (m m' : State N) : Prop where
  accumulator : m.accumulator = m'.accumulator
  jump : m.jump = m'.jump
  reg : m.reg = m'.reg

/-- An instruction returns with the registers that the language asks for. -/
def FollowsLangspec (op : Opcode) (env : Env) (arg1 arg2 : Fin 16) (arg3 : Fin 65536)
    (m : State N) (p : Place) (w : Word) : Prop :=
  ∃ m', handler op env arg1 arg2 arg3 m = .ok m' ∧ SameRegisters m' (p.write w m)

/-! ## Operands for which the order does not show -/

/-- A difference is its own negation for equal words and for those that differ by the least word. -/
theorem sub_swap_iff (a b : Word) : a - b = b - a ↔ a = b ∨ a = b + rbmlWordMin := by
  have hmin : rbmlWordMin = 2147483648#32 := rfl
  rw [hmin]
  bv_omega

/-- Of the two quotients of two words the one exists and is equal to the other for words of one
absolute value. -/
theorem sdiv_swap_iff {a b : Word} (ha : a ≠ 0) (hexists : QuotientExists a b) :
    (QuotientExists b a ∧ a.sdiv b = b.sdiv a) ↔ a.toInt.natAbs = b.toInt.natAbs := by
  have ha' : a.toInt ≠ 0 := fun h => ha (toInt_eq_zero_iff.mp h)
  have hb' : b.toInt ≠ 0 := fun h => hexists.1 (toInt_eq_zero_iff.mp h)
  by_cases hswap : QuotientExists b a
  · rw [and_iff_right hswap, ← BitVec.toInt_inj,
      BitVec.toInt_sdiv_of_ne_or_ne a b (not_and_or.mp hexists.2),
      BitVec.toInt_sdiv_of_ne_or_ne b a (not_and_or.mp hswap.2), tdiv_swap_iff ha' hb']
  · obtain ⟨rfl, rfl⟩ : b = rbmlWordMin ∧ a = -1 := not_not.mp fun h => hswap ⟨ha, h⟩
    exact iff_of_false (fun h => hswap h.1) (by decide)

theorem srem_swap_iff {a b : Word} (ha : a ≠ 0) (hexists : QuotientExists a b) :
    (QuotientExists b a ∧ a.srem b = b.srem a) ↔ a.toInt.natAbs = b.toInt.natAbs := by
  have ha' : a.toInt ≠ 0 := fun h => ha (toInt_eq_zero_iff.mp h)
  have hb' : b.toInt ≠ 0 := fun h => hexists.1 (toInt_eq_zero_iff.mp h)
  by_cases hswap : QuotientExists b a
  · rw [and_iff_right hswap, ← BitVec.toInt_inj, BitVec.toInt_srem, BitVec.toInt_srem,
      tmod_swap_iff ha' hb']
  · obtain ⟨rfl, rfl⟩ : b = rbmlWordMin ∧ a = -1 := not_not.mp fun h => hswap ⟨ha, h⟩
    exact iff_of_false (fun h => hswap h.1) (by decide)

/-- Shifted to the left by each other, two counts are equal where they are the same, or 1 and 2. -/
theorem shiftLeft_swap_iff (n k : Fin 32) :
    BitVec.ofNat 32 k <<< n.val = BitVec.ofNat 32 n <<< k.val ↔
      n.val = k.val ∨ (n.val = 1 ∧ k.val = 2) ∨ (n.val = 2 ∧ k.val = 1) := by
  revert n k
  decide +kernel

/-- Shifted to the right by each other, two counts are equal where they are the same, or both shifts
leave nothing. -/
theorem sshiftRight_swap_iff (n k : Fin 32) :
    (BitVec.ofNat 32 k).sshiftRight n.val = (BitVec.ofNat 32 n).sshiftRight k.val ↔
      n.val = k.val ∨ (n.val < 2 ^ k.val ∧ k.val < 2 ^ n.val) := by
  revert n k
  decide +kernel

/-- The operands of the accumulator and jump forms of the divisions for which the order does not
show: a register of 0, or two words of one absolute value -/
def DivisionAgrees (r a : Word) : Prop := r = 0 ∨ r.toInt.natAbs = a.toInt.natAbs

/-- The same for the shifts to the left -/
def LeftShiftAgrees (r a : Word) : Prop := r = a ∨ (r = 1 ∧ a = 2) ∨ (r = 2 ∧ a = 1)

/-- The same for the shifts to the right -/
def RightShiftAgrees (r a : Word) : Prop :=
  r = a ∨ (r.toNat < 32 ∧ r.toNat < 2 ^ a.toNat ∧ a.toNat < 2 ^ r.toNat)

/-- A move to or from `p`: register and direction are the same from either field, or there is
nothing to move. -/
def MoveAgrees (p : Place) (arg1 arg2 : Fin 16) (arg3 : Fin 65536) (m : State N) : Prop :=
  (arg1 ≠ 0 ∧ arg3 ≠ 0 ∧ arg1 = arg2) ∨ (arg1 = 0 ∧ arg3 = 0 ∧ m.reg arg1 = m.reg arg2) ∨
    (m.reg arg1 = p.read m ∧ m.reg arg2 = p.read m)

/-- The operands for which a handler writes what the language asks for -/
def RolesAgree (op : Opcode) (arg1 arg2 : Fin 16) (arg3 : Fin 65536) (m : State N) : Prop :=
  match op with
  | .sub => m.reg arg1 = m.reg arg2 ∨ m.reg arg1 = m.reg arg2 + rbmlWordMin
  | .diva | .moda => DivisionAgrees (m.reg arg1) m.accumulator
  | .divj | .modj => DivisionAgrees (m.reg arg1) m.jump
  | .lsfa => LeftShiftAgrees (m.reg arg1) m.accumulator
  | .lsfj => LeftShiftAgrees (m.reg arg1) m.jump
  | .rsfa => RightShiftAgrees (m.reg arg1) m.accumulator
  | .rsfj => RightShiftAgrees (m.reg arg1) m.jump
  | .mova => MoveAgrees .accumulator arg1 arg2 arg3 m
  | .movj => MoveAgrees .jump arg1 arg2 arg3 m
  | _ => True

/-! ## What the handlers write -/

section
variable {op : Opcode} {env : Env} {arg1 arg2 : Fin 16} {arg3 : Fin 65536} {m m' : State N}
  {a r v : Word}

/-- A handler that returns a word to the accumulator -/
theorem follows_of_returns {w : Word} (h : handler op env arg1 arg2 arg3 m = .ok m')
    (hm' : m'.accumulator = w) (hjump : m'.jump = m.jump) (hreg : m'.reg = m.reg) :
    FollowsLangspec op env arg1 arg2 arg3 m .accumulator v ↔ v = w := by
  constructor
  · rintro ⟨m₁, h₁, hsame⟩
    rw [h] at h₁
    cases h₁
    exact hsame.accumulator.symm.trans hm'
  · rintro rfl
    exact ⟨m', h, ⟨hm', hjump, hreg⟩⟩

/-- A handler that puts the result of a computation of `f` into the accumulator -/
theorem follows_of_bind {f : Except (Stop N) (Word × State N)}
    (h : handler op env arg1 arg2 arg3 m = (do
      let (w, m) ← f
      .ok { m with accumulator := w }))
    (hframe : ∀ w m', f = .ok (w, m') → m'.jump = m.jump ∧ m'.reg = m.reg) :
    FollowsLangspec op env arg1 arg2 arg3 m .accumulator v ↔ ∃ m', f = .ok (v, m') := by
  unfold FollowsLangspec
  rw [h]
  constructor
  · rintro ⟨m', hret, hsame⟩
    obtain ⟨⟨w, m₁⟩, hf, hret⟩ := bind_eq_ok.mp hret
    cases hret
    have hv : w = v := hsame.accumulator
    rw [hv] at hf
    exact ⟨m₁, hf⟩
  · rintro ⟨m₁, hf⟩
    obtain ⟨hjump, hreg⟩ := hframe _ _ hf
    exact ⟨_, bind_eq_ok.mpr ⟨_, hf, rfl⟩, ⟨rfl, hjump, hreg⟩⟩

theorem follows_division (h : handler op env arg1 arg2 arg3 m = (do
      let (w, m) ← division a r m
      .ok { m with accumulator := w })) :
    FollowsLangspec op env arg1 arg2 arg3 m .accumulator v ↔
      (r = 0 ∧ v = 0) ∨ (QuotientExists a r ∧ v = a.sdiv r) := by
  rw [← @division_returns_iff _ a r v m]
  refine follows_of_bind h fun w m' hret => ?_
  obtain ⟨_, rfl⟩ := division_snd hret
  exact ⟨rfl, rfl⟩

theorem follows_modulus (h : handler op env arg1 arg2 arg3 m = (do
      let (w, m) ← modulus a r m
      .ok { m with accumulator := w })) :
    FollowsLangspec op env arg1 arg2 arg3 m .accumulator v ↔
      (r = 0 ∧ v = 0) ∨ (QuotientExists a r ∧ v = a.srem r) := by
  rw [← @modulus_returns_iff _ a r v m]
  refine follows_of_bind h fun w m' hret => ?_
  obtain ⟨_, rfl⟩ := modulus_snd hret
  exact ⟨rfl, rfl⟩

/-- With the operands exchanged it is right for the words of `DivisionAgrees`. -/
theorem division_exchanged (hexists : QuotientExists r a) :
    ((r = 0 ∧ r.sdiv a = 0) ∨ (QuotientExists a r ∧ r.sdiv a = a.sdiv r)) ↔
      DivisionAgrees r a := by
  unfold DivisionAgrees
  by_cases hr : r = 0
  · exact iff_of_true (.inl ⟨hr, by rw [hr]; exact BitVec.zero_sdiv⟩) (.inl hr)
  · rw [sdiv_swap_iff hr hexists]
    simp only [hr, false_and, false_or]

theorem modulus_exchanged (hexists : QuotientExists r a) :
    ((r = 0 ∧ r.srem a = 0) ∨ (QuotientExists a r ∧ r.srem a = a.srem r)) ↔
      DivisionAgrees r a := by
  unfold DivisionAgrees
  by_cases hr : r = 0
  · exact iff_of_true (.inl ⟨hr, by rw [hr]; exact BitVec.zero_srem⟩) (.inl hr)
  · rw [srem_swap_iff hr hexists]
    simp only [hr, false_and, false_or]

theorem follows_lsf {s : Operand} :
    FollowsLangspec s.lsf env arg1 arg2 arg3 m .accumulator v ↔
      (s.second arg1 arg2 m).toNat < 32 ∧
        v = s.first arg1 m <<< (s.second arg1 arg2 m).toNat := by
  by_cases hcount : (s.second arg1 arg2 m).toNat < 32
  · rw [and_iff_right hcount]
    exact follows_of_returns (handler_lsf_eq_ok.mpr ⟨hcount, rfl⟩) rfl rfl rfl
  · refine iff_of_false ?_ fun h => hcount h.1
    rintro ⟨m', h, -⟩
    exact hcount (handler_lsf_eq_ok.mp h).1

theorem follows_rsf {s : Operand} :
    FollowsLangspec s.rsf env arg1 arg2 arg3 m .accumulator v ↔
      (s.second arg1 arg2 m).toNat < 32 ∧
        v = (s.first arg1 m).sshiftRight (s.second arg1 arg2 m).toNat := by
  by_cases hcount : (s.second arg1 arg2 m).toNat < 32
  · rw [and_iff_right hcount]
    exact follows_of_returns (handler_rsf_eq_ok.mpr ⟨hcount, rfl⟩) rfl rfl rfl
  · refine iff_of_false ?_ fun h => hcount h.1
    rintro ⟨m', h, -⟩
    exact hcount (handler_rsf_eq_ok.mp h).1

theorem leftShift_exchanged (hcount : a.toNat < 32) :
    (r.toNat < 32 ∧ r <<< a.toNat = a <<< r.toNat) ↔ LeftShiftAgrees r a := by
  by_cases hr : r.toNat < 32
  · have hswap := shiftLeft_swap_iff ⟨a.toNat, hcount⟩ ⟨r.toNat, hr⟩
    rw [BitVec.ofNat_toNat, BitVec.ofNat_toNat, BitVec.setWidth_eq, BitVec.setWidth_eq] at hswap
    rw [and_iff_right hr, hswap, LeftShiftAgrees]
    bv_omega
  · refine iff_of_false (fun h => hr h.1) ?_
    rintro (rfl | ⟨rfl, -⟩ | ⟨rfl, -⟩)
    · exact hr hcount
    · exact hr (by decide)
    · exact hr (by decide)

theorem rightShift_exchanged (hcount : a.toNat < 32) :
    (r.toNat < 32 ∧ r.sshiftRight a.toNat = a.sshiftRight r.toNat) ↔ RightShiftAgrees r a := by
  by_cases hr : r.toNat < 32
  · have hswap := sshiftRight_swap_iff ⟨a.toNat, hcount⟩ ⟨r.toNat, hr⟩
    rw [BitVec.ofNat_toNat, BitVec.ofNat_toNat, BitVec.setWidth_eq, BitVec.setWidth_eq] at hswap
    rw [and_iff_right hr, hswap, RightShiftAgrees, ← BitVec.toNat_inj, and_iff_right hr,
      eq_comm (a := a.toNat), and_comm (a := a.toNat < _)]
  · refine iff_of_false (fun h => hr h.1) ?_
    rintro (rfl | ⟨h, -⟩)
    · exact hr hcount
    · exact hr h

end

/-! ## Moves -/

section
variable {op : Opcode} {env : Env} {arg1 arg2 : Fin 16} {arg3 : Fin 65536} {m m' : State N}
  {p : Place} {i j : Fin 16} {v w : Word}

theorem SameRegisters.symm (h : SameRegisters m m') : SameRegisters m' m :=
  ⟨h.accumulator.symm, h.jump.symm, h.reg.symm⟩

theorem sameRegisters_reg_reg :
    SameRegisters ((Place.reg i).write w m) ((Place.reg j).write w m) ↔
      i = j ∨ (m.reg i = w ∧ m.reg j = w) := by
  constructor
  · intro h
    by_cases hij : i = j
    · exact .inl hij
    · have hi := congrFun h.reg i
      have hj := congrFun h.reg j
      simp only [Place.write, State.setReg, Function.update_self,
        Function.update_of_ne (Ne.symm hij), Function.update_of_ne hij] at hi hj
      exact .inr ⟨hi.symm, hj⟩
  · rintro (rfl | ⟨hi, hj⟩)
    · exact ⟨rfl, rfl, rfl⟩
    · refine ⟨rfl, rfl, ?_⟩
      simp only [Place.write, State.setReg]
      rw [← hi, Function.update_eq_self, hi, ← hj, Function.update_eq_self]

/-- A write to a register and one to `p` agree where neither changes anything. -/
theorem sameRegisters_reg_place (hp : p = .accumulator ∨ p = .jump) :
    SameRegisters ((Place.reg i).write (p.read m) m) (p.write v m) ↔
      m.reg i = p.read m ∧ v = p.read m := by
  have hreg : Function.update m.reg i (p.read m) = m.reg ↔ m.reg i = p.read m := by
    rw [Function.update_eq_self_iff, eq_comm]
  rw [← hreg]
  rcases hp with rfl | rfl
  · constructor
    · intro h
      exact ⟨h.reg, h.accumulator.symm⟩
    · rintro ⟨h, rfl⟩
      exact ⟨rfl, rfl, h⟩
  · constructor
    · intro h
      exact ⟨h.reg, h.jump.symm⟩
    · rintro ⟨h, rfl⟩
      exact ⟨rfl, rfl, h⟩

theorem sameRegisters_place_place (hp : p = .accumulator ∨ p = .jump) :
    SameRegisters (p.write v m) (p.write w m) ↔ v = w := by
  rcases hp with rfl | rfl
  · constructor
    · intro h
      exact h.accumulator
    · rintro rfl
      exact ⟨rfl, rfl, rfl⟩
  · constructor
    · intro h
      exact h.jump
    · rintro rfl
      exact ⟨rfl, rfl, rfl⟩

/-- A handler that moves between `p` and the register of ARG2 in the direction of ARG1 -/
theorem follows_move (hp : p = .accumulator ∨ p = .jump)
    (h : handler op env arg1 arg2 arg3 m =
      .ok (if arg1 ≠ 0 then (Place.reg arg2).write (p.read m) m else p.write (m.reg arg2) m)) :
    FollowsLangspec op env arg1 arg2 arg3 m (moveOf p arg1 arg3 m).1 (moveOf p arg1 arg3 m).2 ↔
      MoveAgrees p arg1 arg2 arg3 m := by
  have hfollows : ∀ q w, FollowsLangspec op env arg1 arg2 arg3 m q w ↔
      SameRegisters (if arg1 ≠ 0 then (Place.reg arg2).write (p.read m) m
        else p.write (m.reg arg2) m) (q.write w m) := by
    intro q w
    unfold FollowsLangspec
    rw [h]
    constructor
    · rintro ⟨m', hm', hsame⟩
      cases hm'
      exact hsame
    · intro hsame
      exact ⟨_, rfl, hsame⟩
  rw [hfollows, moveOf, MoveAgrees]
  by_cases hin : arg1 = 0
  · rw [if_neg (not_not_intro hin)]
    by_cases hdir : arg3 = 0
    · rw [if_pos hdir, sameRegisters_place_place hp]
      constructor
      · intro h
        exact .inr (.inl ⟨hin, hdir, h.symm⟩)
      · rintro (⟨h, -⟩ | ⟨-, -, h⟩ | ⟨h₁, h₂⟩)
        · exact absurd hin h
        · exact h.symm
        · exact h₂.trans h₁.symm
    · rw [if_neg hdir]
      have hsame := sameRegisters_reg_place (i := arg1) (m := m) (v := m.reg arg2) hp
      constructor
      · intro h
        exact .inr (.inr (hsame.mp h.symm))
      · rintro (⟨h, -⟩ | ⟨-, h, -⟩ | h)
        · exact absurd hin h
        · exact absurd h hdir
        · exact (hsame.mpr h).symm
  · rw [if_pos hin]
    by_cases hdir : arg3 = 0
    · rw [if_pos hdir, sameRegisters_reg_place hp]
      simp only [hin, hdir]
      tauto
    · rw [if_neg hdir, sameRegisters_reg_reg]
      simp only [hin, hdir]
      tauto

end

/-! ## The roles of the operands -/

/-- Wherever the language says what an instruction writes, the handler writes it exactly for the
operands of `RolesAgree`. -/
theorem follows_langspec_iff {op : Opcode} {arg1 arg2 : Fin 16} {arg3 : Fin 65536} {m : State N}
    {p : Place} {w : Word} (hspec : langspec op arg1 arg2 arg3 m = some (p, w)) (env : Env) :
    FollowsLangspec op env arg1 arg2 arg3 m p w ↔ RolesAgree op arg1 arg2 arg3 m := by
  cases op
  case sub =>
    cases hspec
    exact (follows_of_returns (handler_sub .register ..) rfl rfl rfl).trans
      (eq_comm.trans (sub_swap_iff _ _))
  case suba =>
    cases hspec
    exact (follows_of_returns (handler_sub .accumulator ..) rfl rfl rfl).trans (iff_true_intro rfl)
  case subj =>
    cases hspec
    exact (follows_of_returns (handler_sub .jump ..) rfl rfl rfl).trans (iff_true_intro rfl)
  case div =>
    obtain ⟨hexists, rfl, rfl⟩ := accumulatorIf_eq_some hspec
    exact (follows_division rfl).trans (iff_true_intro (.inr ⟨hexists, rfl⟩))
  case mod =>
    obtain ⟨hexists, rfl, rfl⟩ := accumulatorIf_eq_some hspec
    exact (follows_modulus rfl).trans (iff_true_intro (.inr ⟨hexists, rfl⟩))
  case diva | divj =>
    obtain ⟨hexists, rfl, rfl⟩ := accumulatorIf_eq_some hspec
    exact (follows_division rfl).trans (division_exchanged hexists)
  case moda | modj =>
    obtain ⟨hexists, rfl, rfl⟩ := accumulatorIf_eq_some hspec
    exact (follows_modulus rfl).trans (modulus_exchanged hexists)
  case lsft =>
    obtain ⟨hcount, rfl, rfl⟩ := accumulatorIf_eq_some hspec
    exact (follows_lsf (s := .register)).trans (iff_true_intro ⟨hcount, rfl⟩)
  case rsft =>
    obtain ⟨hcount, rfl, rfl⟩ := accumulatorIf_eq_some hspec
    exact (follows_rsf (s := .register)).trans (iff_true_intro ⟨hcount, rfl⟩)
  case lsfa =>
    obtain ⟨hcount, rfl, rfl⟩ := accumulatorIf_eq_some hspec
    exact (follows_lsf (s := .accumulator)).trans (leftShift_exchanged hcount)
  case lsfj =>
    obtain ⟨hcount, rfl, rfl⟩ := accumulatorIf_eq_some hspec
    exact (follows_lsf (s := .jump)).trans (leftShift_exchanged hcount)
  case rsfa =>
    obtain ⟨hcount, rfl, rfl⟩ := accumulatorIf_eq_some hspec
    exact (follows_rsf (s := .accumulator)).trans (rightShift_exchanged hcount)
  case rsfj =>
    obtain ⟨hcount, rfl, rfl⟩ := accumulatorIf_eq_some hspec
    exact (follows_rsf (s := .jump)).trans (rightShift_exchanged hcount)
  case mova =>
    obtain ⟨rfl, rfl⟩ := Prod.mk.inj (Option.some.inj hspec)
    refine follows_move (.inl rfl) ?_
    simp only [handler, mova, apply_ite Except.ok]
    rfl
  case movj =>
    obtain ⟨rfl, rfl⟩ := Prod.mk.inj (Option.some.inj hspec)
    refine follows_move (.inr rfl) ?_
    simp only [handler, movj, apply_ite Except.ok]
    rfl
  all_goals cases hspec

/-- `DIVA` of the accumulator 3 by a register of -3 leaves the quotient -1, as the language has it. -/
theorem follows_langspec_diva :
    FollowsLangspec .diva .silent 1 0 0
      { (initialState Fin.elim0 [] : State 0) with
        accumulator := 3, reg := fun i => if i = 1 then -3 else 0 }
      .accumulator (-1) :=
  (follows_langspec_iff (p := .accumulator) (w := -1) rfl .silent).mpr (.inr rfl)

/-- `SUB` with 3 in the register of ARG1 and 5 in that of ARG2 leaves -2, and not 2. -/
theorem sub_exchanged :
    ¬ ∀ (N : Nat) (op : Opcode) (env : Env) (arg1 arg2 : Fin 16) (arg3 : Fin 65536) (m : State N)
        (p : Place) (w : Word), langspec op arg1 arg2 arg3 m = some (p, w) →
      FollowsLangspec op env arg1 arg2 arg3 m p w := by
  intro h
  obtain ⟨m', hsub, hsame⟩ := h 0 .sub .silent 0 1 0
    { initialState Fin.elim0 [] with reg := fun i => if i = 0 then 3 else 5 } .accumulator 2 rfl
  cases hsub
  exact absurd hsame.accumulator (by decide)

end Rbml.Machine
