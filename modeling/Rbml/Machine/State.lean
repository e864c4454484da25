import Mathlib.Logic.Function.Basic
import Rbml.Word

/-!
# The state of the emulator (`rbml.c`)

The globals of `rbml.c` as one record, for a main memory of `N` words. Memory, the call stack and
the register file are functions of an index that is in range by its type, so an access out of range
cannot be written down: C's `a[i]` goes through `cIndex`, which has an index only where `i` is one.

A run can end in three ways. The program exits, the run loop breaks because the counter left the
memory region, or C leaves the behaviour of the emulator undefined. The third is a `Fault` and names
the operation: an access outside an array, a quotient that does not exist, a shift count outside the
word, or `fclose` on no stream. Nothing is claimed about the emulator after a fault.
-/

namespace Rbml.Machine

/-- `SIZE_OF_CALLSTACK`, which no option changes -/
def sizeOfCallstack : Nat := 100

instance : NeZero sizeOfCallstack := ⟨by decide⟩

/-- Registers and disks are numbered from 0. -/
instance neZero_registers : NeZero 16 := ⟨by decide⟩

/-- The addresses of an instruction begin at 0. -/
instance neZero_addresses : NeZero 65536 := ⟨by decide⟩

/-- The globals of `rbml.c`, with the console and the diagnostics. A stream of `disk` is the number
of the successful `fopen` that returned it. -/
structure State (N : Nat) where
  accumulator : Word
  jump : Word
  reg : Fin 16 → Word
  instructionRegister : Word
  instructionCounter : Word
  memory : Fin N → Word
  callStack : Fin sizeOfCallstack → Word
  callStackCounter : Int
  less : Bool
  equal : Bool
  greater : Bool
  overflow : Bool
  ioerr : Bool
  divzero : Bool
  disk : Fin 16 → Option Nat
  streams : Nat
  stdin : List UInt8
  stdout : List UInt8
  stderr : List String

/-- An operation whose behaviour C does not define -/
inductive Fault where
  /-- `memory[instructionCounter]` outside the memory -/
  | fetch (index : Int)
  /-- `memory[arg3]` outside the memory -/
  | memory (index : Int)
  /-- `callStack[index]` outside the call stack -/
  | callStack (index : Int)
  /-- division by zero, or of the least integer by -1 -/
  | quotient
  /-- a shift by a count outside 0..31 -/
  | shiftCount
  /-- `fclose(NULL)` -/
  | nullStream
  deriving DecidableEq, Repr

/-- The end of a run -/
inductive Stop (N : Nat) where
  /-- `exit(status)` -/
  | exit (status : Nat) (m : State N)
  /-- the run loop breaks: the instruction counter is out of the memory region -/
  | outOfMemoryRegion (m : State N)
  | fault (f : Fault)

/-- What the emulator takes from outside at one step: the content that the local `w` of `cread`
happens to have before it is read into, and which files `fopen` can open. -/
structure Env where
  w : Word
  fopen : String → Bool

/-- `a[i]` for an array of `n` cells: the cell, where `i` is the index of one -/
def cIndex (n : Nat) (i : Int) : Option (Fin n) :=
  if h : 0 ≤ i ∧ i < n then some ⟨i.toNat, by omega⟩ else none

theorem cIndex_eq_some_iff {n : Nat} {i : Int} {k : Fin n} : cIndex n i = some k ↔ i = k := by
  unfold cIndex
  split
  · rw [Option.some.injEq, Fin.ext_iff]
    constructor <;> intro h <;> simp only at h ⊢ <;> omega
  next hrange =>
    constructor
    · intro h
      cases h
    · rintro rfl
      exact absurd ⟨Int.natCast_nonneg _, Int.ofNat_lt.mpr k.isLt⟩ hrange

theorem cIndex_eq_none_iff {n : Nat} {i : Int} : cIndex n i = none ↔ ¬ (0 ≤ i ∧ i < n) := by
  unfold cIndex
  split <;> simp_all

variable {N : Nat}

/-- Read `memory[i]` -/
def State.readMemory (m : State N) (i : Int) : Except (Stop N) Word :=
  match cIndex N i with
  | none => .error (.fault (.memory i))
  | some k => .ok (m.memory k)

/-- `memory[i] = w` -/
def State.writeMemory (m : State N) (i : Int) (w : Word) : Except (Stop N) (State N) :=
  match cIndex N i with
  | none => .error (.fault (.memory i))
  | some k => .ok { m with memory := Function.update m.memory k w }

/-- Read `callStack[i]` -/
def State.readCallStack (m : State N) (i : Int) : Except (Stop N) Word :=
  match cIndex sizeOfCallstack i with
  | none => .error (.fault (.callStack i))
  | some k => .ok (m.callStack k)

/-- `callStack[i] = w` -/
def State.writeCallStack (m : State N) (i : Int) (w : Word) : Except (Stop N) (State N) :=
  match cIndex sizeOfCallstack i with
  | none => .error (.fault (.callStack i))
  | some k => .ok { m with callStack := Function.update m.callStack k w }

/-- `reg[i] = w` -/
def State.setReg (m : State N) (i : Fin 16) (w : Word) : State N :=
  { m with reg := Function.update m.reg i w }

/-! ## C arithmetic

The operators of C that are not total. Addition, subtraction and multiplication wrap around. -/

/-- `RBML_WORD_MIN` -/
def rbmlWordMin : Word := BitVec.intMin 32

/-- `RBML_WORD_MAX` -/
def rbmlWordMax : Word := BitVec.intMax 32

/-- The quotient of `a` and `b` exists: `b` is not 0, and it is not the quotient of the least
integer by -1. -/
def QuotientExists (a b : Word) : Prop := b ≠ 0 ∧ ¬ (a = rbmlWordMin ∧ b = -1)

instance (a b : Word) : Decidable (QuotientExists a b) :=
  inferInstanceAs (Decidable (_ ∧ _))

/-- `a / b`, which truncates towards zero -/
def cDiv (a b : Word) : Except (Stop N) Word :=
  if QuotientExists a b then .ok (a.sdiv b) else .error (.fault .quotient)

/-- `a % b`, with the sign of `a` -/
def cMod (a b : Word) : Except (Stop N) Word :=
  if QuotientExists a b then .ok (a.srem b) else .error (.fault .quotient)

/-- `a << n` -/
def cShl (a n : Word) : Except (Stop N) Word :=
  if n.toNat < 32 then .ok (a <<< n.toNat) else .error (.fault .shiftCount)

/-- `a >> n`, an arithmetic shift -/
def cShr (a n : Word) : Except (Stop N) Word :=
  if n.toNat < 32 then .ok (a.sshiftRight n.toNat) else .error (.fault .shiftCount)

end Rbml.Machine
