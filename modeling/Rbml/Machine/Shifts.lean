import Rbml.Machine.Arithmetic

/-!
# Shifts

The shift instructions use the shift of C, which exists for the counts 0 to 31. There it is the shift
by one position, repeated: to the left the product with a power of two reduced to a word, to the
right the floor of the quotient. Repeating it goes on beyond 31, and the shift of C does not.
-/

namespace Rbml.Machine

open Lib

variable {N : Nat}

/-- The left shift of an operand -/
def Operand.lsf : Operand → Opcode
  | .register => .lsft | .accumulator => .lsfa | .jump => .lsfj

/-- The right shift of an operand -/
def Operand.rsf : Operand → Opcode
  | .register => .rsft | .accumulator => .rsfa | .jump => .rsfj

section
variable (s : Operand) (env : Env) (arg1 arg2 : Fin 16) (arg3 : Fin 65536) (m : State N)

/-- The three left shifts are one, of their operands. -/
theorem handler_lsf :
    handler s.lsf env arg1 arg2 arg3 m = (do
      let w ← cShl (s.first arg1 m) (s.second arg1 arg2 m)
      .ok { m with accumulator := w }) := by
  cases s <;> rfl

/-- The three right shifts are one, of their operands. -/
theorem handler_rsf :
    handler s.rsf env arg1 arg2 arg3 m = (do
      let w ← cShr (s.first arg1 m) (s.second arg1 arg2 m)
      .ok { m with accumulator := w }) := by
  cases s <;> rfl

end

/-- A value under a condition -/
theorem guarded_eq_ok {P : Prop} [Decidable P] {v w : Word} {f : Fault} :
    (if P then .ok v else .error (.fault f) : Except (Stop N) Word) = .ok w ↔ P ∧ w = v := by
  by_cases h : P
  · rw [if_pos h, Except.ok.injEq, and_iff_right h, eq_comm]
  · rw [if_neg h]
    exact iff_of_false (fun h' => by cases h') fun h' => h h'.1

/-- `<<` is defined for counts below 32. -/
theorem cShl_eq_ok {a n w : Word} :
    (cShl a n : Except (Stop N) Word) = .ok w ↔ n.toNat < 32 ∧ w = a <<< n.toNat :=
  guarded_eq_ok

/-- `>>` is defined for counts below 32. -/
theorem cShr_eq_ok {a n w : Word} :
    (cShr a n : Except (Stop N) Word) = .ok w ↔ n.toNat < 32 ∧ w = a.sshiftRight n.toNat :=
  guarded_eq_ok

theorem handler_lsf_eq_ok {s : Operand} {env : Env} {arg1 arg2 : Fin 16} {arg3 : Fin 65536}
    {m m' : State N} :
    handler s.lsf env arg1 arg2 arg3 m = .ok m' ↔
      (s.second arg1 arg2 m).toNat < 32 ∧
        m' = { m with accumulator := s.first arg1 m <<< (s.second arg1 arg2 m).toNat } := by
  rw [handler_lsf, bind_eq_ok]
  constructor
  · rintro ⟨w, hw, h⟩
    obtain ⟨hcount, rfl⟩ := cShl_eq_ok.mp hw
    cases h
    exact ⟨hcount, rfl⟩
  · rintro ⟨hcount, rfl⟩
    exact ⟨_, cShl_eq_ok.mpr ⟨hcount, rfl⟩, rfl⟩

theorem handler_rsf_eq_ok {s : Operand} {env : Env} {arg1 arg2 : Fin 16} {arg3 : Fin 65536}
    {m m' : State N} :
    handler s.rsf env arg1 arg2 arg3 m = .ok m' ↔
      (s.second arg1 arg2 m).toNat < 32 ∧
        m' = { m with
          accumulator := (s.first arg1 m).sshiftRight (s.second arg1 arg2 m).toNat } := by
  rw [handler_rsf, bind_eq_ok]
  constructor
  · rintro ⟨w, hw, h⟩
    obtain ⟨hcount, rfl⟩ := cShr_eq_ok.mp hw
    cases h
    exact ⟨hcount, rfl⟩
  · rintro ⟨hcount, rfl⟩
    exact ⟨_, cShr_eq_ok.mpr ⟨hcount, rfl⟩, rfl⟩

/-- A shift to the left by `n` is the product with `2 ^ n` and `n` shifts by one position. -/
def ShiftsLeft (a : Word) (n : Nat) (w : Word) : Prop :=
  w = BitVec.ofInt 32 (a.toInt * 2 ^ n) ∧ w = (fun x : Word => x <<< 1)^[n] a

/-- A shift to the right by `n` is the floor of the quotient by `2 ^ n` and `n` shifts by one
position. -/
def ShiftsRight (a : Word) (n : Nat) (w : Word) : Prop :=
  w.toInt = a.toInt / 2 ^ n ∧ w = (fun x : Word => x.sshiftRight 1)^[n] a

theorem shiftsLeft_shiftLeft (a : Word) (n : Nat) : ShiftsLeft a n (a <<< n) :=
  ⟨shiftLeft_eq_ofInt a n, (shiftLeft_one_iterate a n).symm⟩

theorem shiftsRight_sshiftRight (a : Word) (n : Nat) : ShiftsRight a n (a.sshiftRight n) := by
  refine ⟨?_, (sshiftRight_one_iterate a n).symm⟩
  rw [BitVec.toInt_sshiftRight, Int.shiftRight_eq_div_pow]
  norm_cast

/-- A word that is not negative has its value as its unsigned reading. -/
theorem toNat_of_toInt_eq {w : Word} {n : Nat} (h : w.toInt = n) : w.toNat = n := by
  have hcond := BitVec.toInt_eq_toNat_cond w
  have hlt := w.isLt
  rw [h] at hcond
  split at hcond <;> omega

/-- A shift instruction with a count that is not negative repeats the shift by one position exactly
for the counts 0 to 31. -/
theorem shifts_repeat_iff (s : Operand) (env : Env) (arg1 arg2 : Fin 16) (arg3 : Fin 65536)
    (m : State N) (n : Nat) (hcount : (s.second arg1 arg2 m).toInt = n) :
    ((∃ m', handler s.lsf env arg1 arg2 arg3 m = .ok m' ∧
        ShiftsLeft (s.first arg1 m) n m'.accumulator) ↔ n ≤ 31) ∧
    ((∃ m', handler s.rsf env arg1 arg2 arg3 m = .ok m' ∧
        ShiftsRight (s.first arg1 m) n m'.accumulator) ↔ n ≤ 31) := by
  have htoNat := toNat_of_toInt_eq hcount
  simp only [handler_lsf_eq_ok, handler_rsf_eq_ok, htoNat]
  refine ⟨⟨?_, fun h => ?_⟩, ⟨?_, fun h => ?_⟩⟩
  · rintro ⟨m', ⟨hlt, -⟩, -⟩
    omega
  · exact ⟨_, ⟨by omega, rfl⟩, shiftsLeft_shiftLeft _ n⟩
  · rintro ⟨m', ⟨hlt, -⟩, -⟩
    omega
  · exact ⟨_, ⟨by omega, rfl⟩, shiftsRight_sshiftRight _ n⟩

/-- `LSFT` of 3 by 3 gives 24, and `RSFT` gives 0. -/
theorem shifts_repeat_three :
    ∃ m m₁ m₂ : State 0, handler Operand.register.lsf .silent 0 0 0 m = .ok m₁ ∧
      handler Operand.register.rsf .silent 0 0 0 m = .ok m₂ ∧
      ShiftsLeft 3 3 m₁.accumulator ∧ ShiftsRight 3 3 m₂.accumulator := by
  have h := shifts_repeat_iff .register .silent 0 0 0
    ({ initialState Fin.elim0 [] with reg := fun _ => 3 } : State 0) 3 rfl
  obtain ⟨m₁, hleft, hshiftsLeft⟩ := h.1.mpr (by omega)
  obtain ⟨m₂, hright, hshiftsRight⟩ := h.2.mpr (by omega)
  exact ⟨_, m₁, m₂, hleft, hright, hshiftsLeft, hshiftsRight⟩

/-- A shift by 32 is undefined. -/
theorem shift_by_32_faults :
    ¬ ∀ (N : Nat) (s : Operand) (env : Env) (arg1 arg2 : Fin 16) (arg3 : Fin 65536) (m : State N)
        (n : Nat), (s.second arg1 arg2 m).toInt = n →
      ∃ m', handler s.lsf env arg1 arg2 arg3 m = .ok m' ∧
        ShiftsLeft (s.first arg1 m) n m'.accumulator := by
  intro h
  obtain ⟨m', hshift, -⟩ := h 0 .register .silent 0 0 0
    { initialState Fin.elim0 [] with reg := fun _ => 32 } 32 rfl
  obtain ⟨hlt, -⟩ := handler_lsf_eq_ok.mp hshift
  exact absurd hlt (by decide)

end Rbml.Machine
