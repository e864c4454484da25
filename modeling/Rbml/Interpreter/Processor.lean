import Rbml.Lib.Lockstep
import Rbml.Machine.Effects

/-!
# The processor

The processor is the emulator without its memory: the registers, the flags, the call stack, the disks
and the console. An instruction that neither accesses the memory nor branches does the same to a
processor alone as to one inside an emulator, and it ignores the address field of its word
(`handler_lockstep`).
-/

namespace Rbml.Interpreter

open Lib Machine

/-- The emulator with a memory of no words -/
abbrev Processor := State 0

variable {N : Nat}

/-- A processor in an emulator, with the memory and the word that has been fetched -/
def within (memory : Fin N → Word) (w : Word) (p : Processor) : State N :=
  { p with memory, instructionRegister := w }

/-- The stops of a processor and of the emulator it is in -/
inductive SameStop (memory : Fin N → Word) (w : Word) : Stop 0 → Stop N → Prop
  | exit (status : Nat) (p : Processor) :
    SameStop memory w (.exit status p) (.exit status (within memory w p))
  | fault (f : Fault) : SameStop memory w (.fault f) (.fault f)

/-- The results of a processor and of the emulator it is in -/
abbrev Same (memory : Fin N → Word) (w : Word) :
    Except (Stop 0) Processor → Except (Stop N) (State N) → Prop :=
  Lockstep (fun p m => m = within memory w p) (SameStop memory w) fun _ => False

section
variable {memory : Fin N → Word} {w : Word} {op : Opcode} {env : Env} {arg1 arg2 : Fin 16}
  {arg3 arg3' : Fin 65536} {p : Processor}

/-! ## The operations that are not total -/

/-- Results that do not hold a state -/
abbrev SameValue {α : Type} (memory : Fin N → Word) (w : Word) :
    Except (Stop 0) α → Except (Stop N) α → Prop :=
  Lockstep (fun x y => y = x) (SameStop memory w) fun _ => False

/-- A value under a condition, and a fault without it -/
theorem guarded_lockstep (P : Prop) [Decidable P] (v : Word) (f : Fault) :
    SameValue memory w (if P then .ok v else .error (.fault f))
      (if P then .ok v else .error (.fault f)) := by
  split
  · exact .ok rfl
  · exact .error (.fault f)

/-- A quotient does not depend on the memory. -/
theorem cDiv_lockstep (a b : Word) : SameValue memory w (cDiv a b) (cDiv a b) :=
  guarded_lockstep (QuotientExists a b) (a.sdiv b) .quotient

theorem cMod_lockstep (a b : Word) : SameValue memory w (cMod a b) (cMod a b) :=
  guarded_lockstep (QuotientExists a b) (a.srem b) .quotient

theorem cShl_lockstep (a n : Word) : SameValue memory w (cShl a n) (cShl a n) :=
  guarded_lockstep (n.toNat < 32) (a <<< n.toNat) .shiftCount

theorem cShr_lockstep (a n : Word) : SameValue memory w (cShr a n) (cShr a n) :=
  guarded_lockstep (n.toNat < 32) (a.sshiftRight n.toNat) .shiftCount

theorem multiplicationOverflow_lockstep (a b : Word) :
    SameValue memory w (multiplicationOverflow a b) (multiplicationOverflow a b) := by
  unfold multiplicationOverflow
  split
  · apply (cDiv_lockstep _ _).map
    intro q q' hq
    rw [hq]
  split
  · apply (cDiv_lockstep _ _).map
    intro q q' hq
    rw [hq]
  · exact .ok rfl

/-- The results of the arithmetic that sets an error flag -/
abbrev SameResult (memory : Fin N → Word) (w : Word) :
    Except (Stop 0) (Word × Processor) → Except (Stop N) (Word × State N) → Prop :=
  Lockstep (fun x y => y = (x.1, within memory w x.2)) (SameStop memory w) fun _ => False

/-- A product is the same inside the emulator. -/
theorem multiplication_lockstep (a b : Word) (p : Processor) :
    SameResult memory w (multiplication a b p) (multiplication a b (within memory w p)) := by
  by_cases hzero : a = 0 ∨ b = 0
  · simp only [multiplication, if_pos hzero]
    exact .ok rfl
  · simp only [multiplication, if_neg hzero]
    apply (multiplicationOverflow_lockstep a b).map
    intro overflow overflow' hoverflow
    rw [hoverflow]
    rfl

/-- A quotient is the same, with its flag. -/
theorem division_lockstep (a b : Word) (p : Processor) :
    SameResult memory w (division a b p) (division a b (within memory w p)) := by
  by_cases hzero : b = 0
  · simp only [division, if_pos hzero]
    exact .ok rfl
  · simp only [division, if_neg hzero]
    apply (cDiv_lockstep a b).map
    intro q q' hq
    rw [hq]
    rfl

/-- A remainder is the same, with its flag. -/
theorem modulus_lockstep (a b : Word) (p : Processor) :
    SameResult memory w (modulus a b p) (modulus a b (within memory w p)) := by
  by_cases hzero : b = 0
  · simp only [modulus, if_pos hzero]
    exact .ok rfl
  · simp only [modulus, if_neg hzero]
    apply (cMod_lockstep a b).map
    intro r r' hr
    rw [hr]
    rfl

/-- The call stack is read alike. -/
theorem readCallStack_lockstep (p : Processor) (i : Int) :
    SameValue memory w (p.readCallStack i) ((within memory w p).readCallStack i) := by
  unfold State.readCallStack
  cases cIndex sizeOfCallstack i with
  | none => exact .error (.fault _)
  | some k => exact .ok rfl

/-- The call stack is written alike. -/
theorem writeCallStack_lockstep (p : Processor) (i : Int) (v : Word) :
    Same memory w (p.writeCallStack i v) ((within memory w p).writeCallStack i v) := by
  unfold State.writeCallStack
  cases cIndex sizeOfCallstack i with
  | none => exact .error (.fault _)
  | some k => exact .ok rfl

/-! ## Instructions -/

/-- `END` uses no field of its word. -/
theorem end_lockstep (p : Processor) :
    Same memory w (handler .end env arg1 arg2 arg3 p)
      (handler .end env arg1 arg2 arg3' (within memory w p)) := by
  by_cases hcounter : p.callStackCounter = 0
  · have hcounter' : (within memory w p).callStackCounter = 0 := hcounter
    simp only [handler, «end», if_pos hcounter, if_pos hcounter']
    apply (readCallStack_lockstep { p with instructionCounter := p.jump } 0).bind
    rintro v _ rfl
    exact writeCallStack_lockstep { p with instructionCounter := p.jump, jump := _ } 0 0
  · have hcounter' : (within memory w p).callStackCounter ≠ 0 := hcounter
    simp only [handler, «end», if_neg hcounter, if_neg hcounter']
    refine (readCallStack_lockstep { p with
      instructionCounter := p.jump
      callStackCounter := p.callStackCounter - 1 } _).map ?_
    intro v v' hv
    rw [hv]
    rfl

/-- The first half of a call is the same inside the emulator. -/
theorem saveReturn_lockstep (p : Processor) :
    Same memory w (saveReturn p) (saveReturn (within memory w p)) := by
  by_cases hjump : p.jump = 0
  · have hjump' : (within memory w p).jump = 0 := hjump
    simp only [saveReturn, if_pos hjump, if_pos hjump']
    exact .ok rfl
  · have hjump' : (within memory w p).jump ≠ 0 := hjump
    simp only [saveReturn, if_neg hjump, if_neg hjump']
    apply (writeCallStack_lockstep p _ _).map
    intro p' m hm
    rw [hm]
    rfl

/-- An instruction that neither accesses the memory nor branches does the same in the emulator as to
the processor alone. -/
theorem handler_lockstep (hmemory : accessesMemory op = false) (hbranch : kind op ≠ .branch)
    (hcall : kind op ≠ .call) :
    Same memory w (handler op env arg1 arg2 arg3 p)
      (handler op env arg1 arg2 arg3' (within memory w p)) := by
  cases op
  case sto | stoa | stoj | lod | loda | lodj | cmpm | crdm => cases hmemory
  case bran | brgt | brlt | breq | brge | brle => exact absurd rfl hbranch
  case call | cagt | calt | caeq | cage | cale => exact absurd rfl hcall
  case halt | herr => exact .error (.exit _ p)
  case «end» => exact end_lockstep p
  case writ | wrta | wrtj | mova | movj | «open» =>
    simp only [handler, writ, wrta, wrtj, mova, movj, «open», cwrite]
    split <;> exact .ok rfl
  case clos =>
    simp only [handler, clos, within]
    cases p.disk arg1 with
    | none => exact .error (.fault _)
    | some _ => exact .ok rfl
  case mult | mlta | mltj =>
    apply (multiplication_lockstep _ _ p).map
    intro result result' hresult
    rw [hresult]
    rfl
  case div | diva | divj =>
    apply (division_lockstep _ _ p).map
    intro result result' hresult
    rw [hresult]
    rfl
  case mod | moda | modj =>
    apply (modulus_lockstep _ _ p).map
    intro result result' hresult
    rw [hresult]
    rfl
  case lsft | lsfa | lsfj =>
    apply (cShl_lockstep _ _).map
    intro v v' hv
    rw [hv]
    rfl
  case rsft | rsfa | rsfj =>
    apply (cShr_lockstep _ _).map
    intro v v' hv
    rw [hv]
    rfl
  all_goals exact .ok rfl

/-- The test of a branch looks at the flags only. -/
theorem test_within (op : Opcode) (p : Processor) : test op (within memory w p) = test op p := by
  cases op <;> rfl

end

end Rbml.Interpreter
