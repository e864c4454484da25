import Rbml.Lib.Path
import Rbml.Machine.Step

/-!
# What an instruction can do

The operations fall into seven kinds by the part of the state that they write outside the registers,
the devices and the error flags. The lemmas from `handler_plain` to `handler_call` say for each kind
what a handler that returns has done to the memory, the comparison flags, the call state and the
instruction counter. This is the only place where all the handlers are unfolded for it, and the
invariants of the later modules are read off these lemmas. `handler_error_cases` says how a handler
ends the run.
-/

namespace Rbml.Machine

open Lib

variable {N : Nat}

/-- What an operation writes outside the registers, the devices and the error flags -/
inductive Kind where
  /-- nothing -/
  | plain
  /-- a memory cell -/
  | store
  /-- the comparison flags -/
  | compare
  /-- the jump register -/
  | jump
  /-- the instruction counter -/
  | branch
  /-- the instruction counter and the call state -/
  | call
  | «end»
  deriving DecidableEq, Repr

/-- The kind of each instruction -/
def kind : Opcode → Kind
  | .sto | .stoa | .stoj | .crdm => .store
  | .cmp | .cmpa | .cmpj | .cmpm => .compare
  | .lodj | .movj | .crdj => .jump
  | .bran | .brgt | .brlt | .breq | .brge | .brle => .branch
  | .call | .cagt | .calt | .caeq | .cage | .cale => .call
  | .end => .end
  | _ => .plain

/-- The condition that a branch or call instruction tests -/
def test (op : Opcode) (m : State N) : Bool :=
  match op with
  | .brgt | .cagt => m.greater
  | .brlt | .calt => m.less
  | .breq | .caeq => m.equal
  | .brge | .cage => m.greater || m.equal
  | .brle => m.greater || m.less
  | .cale => m.less || m.equal
  | _ => true

/-- A jump-register instruction writes the jump register, unless it is a `MOVJ` out of it. -/
def writesJump (op : Opcode) (arg1 : Fin 16) : Bool :=
  match op with
  | .lodj | .crdj => true
  | .movj => arg1 = 0
  | _ => false

/-- The instructions that access the memory cell of their address -/
def accessesMemory : Opcode → Bool
  | .sto | .stoa | .stoj | .lod | .loda | .lodj | .cmpm | .crdm => true
  | _ => false

/-- The operands of a compare instruction. Those of `CMPM` exist where its address is in memory. -/
def operands (op : Opcode) (arg1 arg2 : Fin 16) (arg3 : Fin 65536) (m : State N) :
    Option (Word × Word) :=
  match op with
  | .cmp => some (m.reg arg1, m.reg arg2)
  | .cmpa => some (m.accumulator, m.reg arg1)
  | .cmpj => some (m.jump, m.reg arg1)
  | .cmpm => (cIndex N arg3.val).map fun k => (m.reg arg1, m.memory k)
  | _ => none

/-- Nothing but registers, devices and error flags has changed. -/
structure Quiet (m m' : State N) : Prop where
  memory : m'.memory = m.memory
  jump : m'.jump = m.jump
  callStack : m'.callStack = m.callStack
  callStackCounter : m'.callStackCounter = m.callStackCounter
  less : m'.less = m.less
  equal : m'.equal = m.equal
  greater : m'.greater = m.greater
  instructionCounter : m'.instructionCounter = m.instructionCounter

/-! ## The operations that are not total -/

/-- A read of the memory returns inside of it. -/
theorem readMemory_eq_ok {m : State N} {i : Int} {w : Word} :
    m.readMemory i = .ok w ↔ ∃ k, cIndex N i = some k ∧ w = m.memory k := by
  unfold State.readMemory
  cases cIndex N i <;> simp [eq_comm]

/-- A write to the memory returns inside of it, and changes one word. -/
theorem writeMemory_eq_ok {m m' : State N} {i : Int} {w : Word} :
    m.writeMemory i w = .ok m' ↔
      ∃ k, cIndex N i = some k ∧ m' = { m with memory := Function.update m.memory k w } := by
  unfold State.writeMemory
  cases cIndex N i <;> simp [eq_comm]

theorem readCallStack_eq_ok {m : State N} {i : Int} {w : Word} :
    m.readCallStack i = .ok w ↔ ∃ k, cIndex sizeOfCallstack i = some k ∧ w = m.callStack k := by
  unfold State.readCallStack
  cases cIndex sizeOfCallstack i <;> simp [eq_comm]

/-- A write to the call stack returns inside of it, and changes one cell. -/
theorem writeCallStack_eq_ok {m m' : State N} {i : Int} {w : Word} :
    m.writeCallStack i w = .ok m' ↔
      ∃ k, cIndex sizeOfCallstack i = some k ∧
        m' = { m with callStack := Function.update m.callStack k w } := by
  unfold State.writeCallStack
  cases cIndex sizeOfCallstack i <;> simp [eq_comm]

theorem readMemory_eq_error {m : State N} {i : Int} {e : Stop N} :
    m.readMemory i = .error e ↔ cIndex N i = none ∧ e = .fault (.memory i) := by
  unfold State.readMemory
  cases cIndex N i <;> simp [eq_comm]

theorem writeMemory_eq_error {m : State N} {i : Int} {w : Word} {e : Stop N} :
    m.writeMemory i w = .error e ↔ cIndex N i = none ∧ e = .fault (.memory i) := by
  unfold State.writeMemory
  cases cIndex N i <;> simp [eq_comm]

theorem readCallStack_eq_error {m : State N} {i : Int} {e : Stop N} :
    m.readCallStack i = .error e ↔
      cIndex sizeOfCallstack i = none ∧ e = .fault (.callStack i) := by
  unfold State.readCallStack
  cases cIndex sizeOfCallstack i <;> simp [eq_comm]

theorem writeCallStack_eq_error {m : State N} {i : Int} {w : Word} {e : Stop N} :
    m.writeCallStack i w = .error e ↔
      cIndex sizeOfCallstack i = none ∧ e = .fault (.callStack i) := by
  unfold State.writeCallStack
  cases cIndex sizeOfCallstack i <;> simp [eq_comm]

/-- A product changes no more than the overflow flag. -/
theorem multiplication_snd {a b w : Word} {m m' : State N}
    (h : multiplication a b m = .ok (w, m')) : ∃ overflow, m' = { m with overflow } := by
  unfold multiplication at h
  split at h
  · cases h
    exact ⟨_, rfl⟩
  · obtain ⟨_, -, h⟩ := bind_eq_ok.mp h
    cases h
    exact ⟨_, rfl⟩

/-- A quotient changes no more than the flag of a divisor of 0. -/
theorem division_snd {a b w : Word} {m m' : State N} (h : division a b m = .ok (w, m')) :
    ∃ divzero, m' = { m with divzero } := by
  unfold division at h
  split at h
  · cases h
    exact ⟨_, rfl⟩
  · obtain ⟨_, -, h⟩ := bind_eq_ok.mp h
    cases h
    exact ⟨_, rfl⟩

theorem modulus_snd {a b w : Word} {m m' : State N} (h : modulus a b m = .ok (w, m')) :
    ∃ divzero, m' = { m with divzero } := by
  unfold modulus at h
  split at h
  · cases h
    exact ⟨_, rfl⟩
  · obtain ⟨_, -, h⟩ := bind_eq_ok.mp h
    cases h
    exact ⟨_, rfl⟩

/-! ## What a handler that returns has done -/

section
variable {op : Opcode} {env : Env} {arg1 arg2 : Fin 16} {arg3 : Fin 65536} {m m' : State N}

/-- A plain instruction leaves memory, flags of comparisons, jump register and counters alone. -/
theorem handler_plain (hkind : kind op = .plain)
    (h : handler op env arg1 arg2 arg3 m = .ok m') : Quiet m m' := by
  cases op
  case lod | loda | lsft | lsfa | lsfj | rsft | rsfa | rsfj =>
    obtain ⟨_, -, h⟩ := bind_eq_ok.mp h
    cases h
    constructor <;> rfl
  case mult | mlta | mltj =>
    obtain ⟨⟨_, _⟩, hmul, h⟩ := bind_eq_ok.mp h
    obtain ⟨_, rfl⟩ := multiplication_snd hmul
    cases h
    constructor <;> rfl
  case div | diva | divj =>
    obtain ⟨⟨_, _⟩, hdiv, h⟩ := bind_eq_ok.mp h
    obtain ⟨_, rfl⟩ := division_snd hdiv
    cases h
    constructor <;> rfl
  case mod | moda | modj =>
    obtain ⟨⟨_, _⟩, hmod, h⟩ := bind_eq_ok.mp h
    obtain ⟨_, rfl⟩ := modulus_snd hmod
    cases h
    constructor <;> rfl
  case crdr | crda =>
    cases h
    constructor <;> rfl
  case writ | wrta | wrtj =>
    simp only [handler, writ, wrta, wrtj, cwrite] at h
    cases h
    split <;> constructor <;> rfl
  case mova =>
    simp only [handler, mova] at h
    split at h <;> cases h <;> constructor <;> rfl
  case «open» =>
    simp only [handler, «open»] at h
    split at h <;> cases h <;> constructor <;> rfl
  case clos =>
    simp only [handler, clos] at h
    split at h
    · cases h
    · cases h
      constructor <;> rfl
  case halt | herr => cases h
  all_goals first
    | (cases hkind; done)
    | (cases h; constructor <;> rfl)

/-- A store changes one word of the memory, the one at `arg3`. -/
theorem handler_store (hkind : kind op = .store)
    (h : handler op env arg1 arg2 arg3 m = .ok m') :
    ∃ k w stdin, cIndex N arg3.val = some k ∧
      m' = { m with memory := Function.update m.memory k w, stdin } := by
  cases op
  case sto | stoa | stoj =>
    obtain ⟨k, hk, rfl⟩ := writeMemory_eq_ok.mp h
    exact ⟨k, _, m.stdin, hk, rfl⟩
  case crdm =>
    obtain ⟨k, hk, rfl⟩ := writeMemory_eq_ok.mp h
    exact ⟨k, _, _, hk, rfl⟩
  all_goals cases hkind

/-- A comparison sets the three flags, for its operands. -/
theorem handler_compare (hkind : kind op = .compare)
    (h : handler op env arg1 arg2 arg3 m = .ok m') :
    ∃ a b, operands op arg1 arg2 arg3 m = some (a, b) ∧ m' = compare a b m := by
  cases op
  case cmp | cmpa | cmpj =>
    cases h
    exact ⟨_, _, rfl, rfl⟩
  case cmpm =>
    obtain ⟨w, hw, h⟩ := bind_eq_ok.mp h
    obtain ⟨k, hk, rfl⟩ := readMemory_eq_ok.mp hw
    cases h
    refine ⟨_, _, ?_, rfl⟩
    simp only [operands, hk, Option.map_some]
  all_goals cases hkind

/-- An instruction that may write the jump register does nothing else. -/
theorem handler_jump (hkind : kind op = .jump) (h : handler op env arg1 arg2 arg3 m = .ok m') :
    if writesJump op arg1 then ∃ w stdin, m' = { m with jump := w, stdin } else Quiet m m' := by
  cases op
  case lodj =>
    obtain ⟨w, -, h⟩ := bind_eq_ok.mp h
    cases h
    exact ⟨w, m.stdin, rfl⟩
  case crdj =>
    cases h
    exact ⟨_, _, rfl⟩
  case movj =>
    by_cases hin : arg1 = 0
    · simp only [handler, movj, hin, ne_eq, not_true_eq_false, if_false] at h
      cases h
      simp only [writesJump, hin, decide_true, if_true]
      exact ⟨_, m.stdin, rfl⟩
    · simp only [handler, movj, hin, ne_eq, not_false_eq_true, if_true] at h
      cases h
      simp only [writesJump, hin, decide_false, Bool.false_eq_true, if_false]
      constructor <;> rfl
  all_goals cases hkind

/-- A branch instruction is `bran` under its test. -/
theorem handler_branch (hkind : kind op = .branch) :
    handler (N := N) op = onTest (test op) bran := by
  cases op
  case bran | brgt | brlt | breq | brge | brle => rfl
  all_goals cases hkind

/-- A call instruction is `call` under its test. -/
theorem handler_call (hkind : kind op = .call) :
    handler (N := N) op = onTest (test op) call := by
  cases op
  case call | cagt | calt | caeq | cage | cale => rfl
  all_goals cases hkind

/-! ## How a handler fails -/

/-- A value under a condition, and a fault without it -/
theorem guarded_error {P : Prop} [Decidable P] {v : Word} {f : Fault} {e : Stop N}
    (h : (if P then .ok v else .error (.fault f) : Except (Stop N) Word) = .error e) :
    e = .fault f := by
  split at h <;> cases h
  rfl

/-- A quotient that does not exist is the only fault of a division. -/
theorem cDiv_error {a b : Word} {e : Stop N} (h : cDiv a b = .error e) : e = .fault .quotient :=
  guarded_error h

theorem cMod_error {a b : Word} {e : Stop N} (h : cMod a b = .error e) : e = .fault .quotient :=
  guarded_error h

/-- A count that is too large is the only fault of a shift. -/
theorem cShl_error {a n : Word} {e : Stop N} (h : cShl a n = .error e) : e = .fault .shiftCount :=
  guarded_error h

theorem cShr_error {a n : Word} {e : Stop N} (h : cShr a n = .error e) : e = .fault .shiftCount :=
  guarded_error h

/-- The overflow test of a product has no other fault than a quotient. -/
theorem multiplication_error {a b : Word} {e : Stop N} (h : multiplication a b m = .error e) :
    e = .fault .quotient := by
  unfold multiplication at h
  split at h
  · cases h
  rcases bind_eq_error.mp h with h | ⟨_, -, h⟩
  · unfold multiplicationOverflow at h
    split at h
    · rcases bind_eq_error.mp h with h | ⟨_, -, h⟩
      · exact cDiv_error h
      · cases h
    split at h
    · rcases bind_eq_error.mp h with h | ⟨_, -, h⟩
      · exact cDiv_error h
      · cases h
    · cases h
  · cases h

theorem division_error {a b : Word} {e : Stop N} (h : division a b m = .error e) :
    e = .fault .quotient := by
  unfold division at h
  split at h
  · cases h
  rcases bind_eq_error.mp h with h | ⟨_, -, h⟩
  · exact cDiv_error h
  · cases h

theorem modulus_error {a b : Word} {e : Stop N} (h : modulus a b m = .error e) :
    e = .fault .quotient := by
  unfold modulus at h
  split at h
  · cases h
  rcases bind_eq_error.mp h with h | ⟨_, -, h⟩
  · exact cMod_error h
  · cases h

/-- The stops of an instruction that accesses neither memory nor the call stack -/
inductive OrdinaryStop (m : State N) : Stop N → Prop
  | exit (status : Nat) : OrdinaryStop m (.exit status m)
  | quotient : OrdinaryStop m (.fault .quotient)
  | shiftCount : OrdinaryStop m (.fault .shiftCount)
  | nullStream : OrdinaryStop m (.fault .nullStream)

/-- An instruction that uses neither the memory nor the call stack stops only as `OrdinaryStop` says. -/
theorem handler_error {e : Stop N} (hmemory : accessesMemory op = false) (hcall : kind op ≠ .call)
    (hend : kind op ≠ .end) (h : handler op env arg1 arg2 arg3 m = .error e) :
    OrdinaryStop m e := by
  cases op
  case lsft | lsfa | lsfj =>
    rcases bind_eq_error.mp h with h | ⟨_, -, h⟩
    · rw [cShl_error h]
      exact .shiftCount
    · cases h
  case rsft | rsfa | rsfj =>
    rcases bind_eq_error.mp h with h | ⟨_, -, h⟩
    · rw [cShr_error h]
      exact .shiftCount
    · cases h
  case mult | mlta | mltj =>
    rcases bind_eq_error.mp h with h | ⟨_, -, h⟩
    · rw [multiplication_error h]
      exact .quotient
    · cases h
  case div | diva | divj =>
    rcases bind_eq_error.mp h with h | ⟨_, -, h⟩
    · rw [division_error h]
      exact .quotient
    · cases h
  case mod | moda | modj =>
    rcases bind_eq_error.mp h with h | ⟨_, -, h⟩
    · rw [modulus_error h]
      exact .quotient
    · cases h
  case clos =>
    simp only [handler, clos] at h
    split at h <;> cases h
    exact .nullStream
  case «open» =>
    simp only [handler, «open»] at h
    split at h <;> cases h
  case mova =>
    simp only [handler, mova] at h
    split at h <;> cases h
  case movj =>
    simp only [handler, movj] at h
    split at h <;> cases h
  case brgt | brlt | breq | brge | brle =>
    rw [handler_branch rfl] at h
    unfold onTest at h
    split at h <;> cases h
  case halt | herr =>
    cases h
    exact .exit _
  case sto | stoa | stoj | lod | loda | lodj | cmpm | crdm => cases hmemory
  case call | cagt | calt | caeq | cage | cale => exact absurd rfl hcall
  case «end» => exact absurd rfl hend
  all_goals cases h

/-- An instruction with an address in memory fails exactly on an address outside. -/
theorem handler_memory_error {e : Stop N} (hmemory : accessesMemory op = true) :
    handler op env arg1 arg2 arg3 m = .error e ↔
      N ≤ arg3.val ∧ e = .fault (.memory arg3.val) := by
  have hindex : cIndex N (arg3.val : Int) = none ↔ N ≤ arg3.val := by
    rw [cIndex_eq_none_iff]
    omega
  rw [← hindex]
  cases op
  case sto | stoa | stoj | crdm => exact writeMemory_eq_error
  case lod | loda | lodj | cmpm =>
    constructor
    · intro h
      rcases bind_eq_error.mp h with h | ⟨_, -, h⟩
      · exact readMemory_eq_error.mp h
      · cases h
    · intro h
      exact bind_eq_error.mpr (.inl (readMemory_eq_error.mpr h))
  all_goals cases hmemory

/-- `call` fails only in its store to the call stack. -/
theorem call_error {e : Stop N} (h : call env arg1 arg2 arg3 m = .error e) :
    e = .fault (.callStack m.callStackCounter) := by
  rcases bind_eq_error.mp h with h | ⟨_, -, h⟩
  · unfold saveReturn at h
    split at h
    · cases h
    · rcases bind_eq_error.mp h with h | ⟨_, -, h⟩
      · exact (writeCallStack_eq_error.mp h).2
      · cases h
  · cases h

/-- `END` fails only in its access to the call stack. -/
theorem end_error {e : Stop N} (h : handler .end env arg1 arg2 arg3 m = .error e) :
    ∃ i, e = .fault (.callStack i) := by
  simp only [handler, «end»] at h
  split at h
  · rcases bind_eq_error.mp h with h | ⟨_, -, h⟩
    · exact ⟨_, (readCallStack_eq_error.mp h).2⟩
    · exact ⟨_, (writeCallStack_eq_error.mp h).2⟩
  · rcases bind_eq_error.mp h with h | ⟨_, -, h⟩
    · exact ⟨_, (readCallStack_eq_error.mp h).2⟩
    · cases h

/-- The ways in which an instruction can end the run -/
theorem handler_error_cases {e : Stop N} (h : handler op env arg1 arg2 arg3 m = .error e) :
    OrdinaryStop m e ∨ (accessesMemory op = true ∧ N ≤ arg3.val ∧ e = .fault (.memory arg3.val)) ∨
      ∃ i, e = .fault (.callStack i) := by
  cases hmemory : accessesMemory op with
  | true => exact .inr (.inl ⟨rfl, (handler_memory_error hmemory).mp h⟩)
  | false =>
    by_cases hcall : kind op = .call
    · rw [handler_call hcall, onTest] at h
      split at h
      · exact .inr (.inr ⟨_, call_error h⟩)
      · cases h
    by_cases hend : kind op = .end
    · obtain rfl : op = .end := by cases op <;> first | rfl | cases hend
      exact .inr (.inr (end_error h))
    · exact .inl (handler_error hmemory hcall hend h)

end

end Rbml.Machine
