import Rbml.Machine.Console

/-!
# The instruction handlers (`rbml.c`)

One definition for each `OPCODE` of the source, under its name, in the order of the source. A
handler gets the three argument fields and the globals, and gives the globals it leaves or the way
the run ends. The comparisons and branches of C on a flag are tests of a Boolean here: `compare`,
`addition` and their kin are the only writers of the flags, and they write 0 and 1.
-/

namespace Rbml.Machine

variable {N : Nat}

/-- `opcode_fn`; the environment is read by the handlers that do input. -/
abbrev OpcodeFn (N : Nat) :=
  Env → (arg1 arg2 : Fin 16) → (arg3 : Fin 65536) → State N → Except (Stop N) (State N)

/-- An argument field as the `int` it is passed as -/
def intOfArg (arg3 : Fin 65536) : Word := BitVec.ofNat 32 arg3

/-! ## Registers and memory -/

/-- `memory[arg3] = reg[arg1]` -/
def sto : OpcodeFn N := fun _ arg1 _ arg3 m => m.writeMemory arg3.val (m.reg arg1)

/-- `memory[arg3] = accumulator` -/
def stoa : OpcodeFn N := fun _ _ _ arg3 m => m.writeMemory arg3.val m.accumulator

/-- `memory[arg3] = jump` -/
def stoj : OpcodeFn N := fun _ _ _ arg3 m => m.writeMemory arg3.val m.jump

/-- `reg[arg1] = memory[arg3]` -/
def lod : OpcodeFn N := fun _ arg1 _ arg3 m => do
  let w ← m.readMemory arg3.val
  .ok (m.setReg arg1 w)

/-- `accumulator = memory[arg3]` -/
def loda : OpcodeFn N := fun _ _ _ arg3 m => do
  let w ← m.readMemory arg3.val
  .ok { m with accumulator := w }

/-- `jump = memory[arg3]` -/
def lodj : OpcodeFn N := fun _ _ _ arg3 m => do
  let w ← m.readMemory arg3.val
  .ok { m with jump := w }

/-- `reg[arg2] = reg[arg1]` -/
def mov : OpcodeFn N := fun _ arg1 arg2 _ m => .ok (m.setReg arg2 (m.reg arg1))

/-- `arg1` says in which direction, and `arg2` is the register. -/
def mova : OpcodeFn N := fun _ arg1 arg2 _ m =>
  if arg1 ≠ 0 then .ok (m.setReg arg2 m.accumulator)
  else .ok { m with accumulator := m.reg arg2 }

/-- The same with the jump register -/
def movj : OpcodeFn N := fun _ arg1 arg2 _ m =>
  if arg1 ≠ 0 then .ok (m.setReg arg2 m.jump)
  else .ok { m with jump := m.reg arg2 }

/-! ## Console and disks -/

/-- `cwrite(arg1, reg[arg2])` -/
def writ : OpcodeFn N := fun _ arg1 arg2 _ m => .ok (cwrite arg1 (m.reg arg2) m)

/-- `cwrite(arg1, accumulator)` -/
def wrta : OpcodeFn N := fun _ arg1 _ _ m => .ok (cwrite arg1 m.accumulator m)

/-- `cwrite(arg1, jump)` -/
def wrtj : OpcodeFn N := fun _ arg1 _ _ m => .ok (cwrite arg1 m.jump m)

/-- `memory[arg3] = cread(arg1)` -/
def crdm : OpcodeFn N := fun env arg1 _ arg3 m =>
  let (w, m) := cread env.w arg1 m
  m.writeMemory arg3.val w

/-- `accumulator = cread(arg1)` -/
def crda : OpcodeFn N := fun env arg1 _ _ m =>
  let (w, m) := cread env.w arg1 m
  .ok { m with accumulator := w }

/-- `jump = cread(arg1)` -/
def crdj : OpcodeFn N := fun env arg1 _ _ m =>
  let (w, m) := cread env.w arg1 m
  .ok { m with jump := w }

/-- `reg[arg2] = cread(arg1)` -/
def crdr : OpcodeFn N := fun env arg1 arg2 _ m =>
  let (w, m) := cread env.w arg1 m
  .ok (m.setReg arg2 w)

/-- `snprintf(name, sizeof(name), "disk%d.rbdi", arg1)` -/
def diskName (arg1 : Fin 16) : String := s!"disk{arg1.val}.rbdi"

/-- The disk has a new stream, or none and the I/O error flag. -/
def «open» : OpcodeFn N := fun env arg1 _ _ m =>
  let m := { m with ioerr := false }
  if env.fopen (diskName arg1) then
    .ok { m with
      disk := Function.update m.disk arg1 (some m.streams)
      streams := m.streams + 1 }
  else
    .ok { m with disk := Function.update m.disk arg1 none, ioerr := true }

/-- `fclose` of a disk that is not open has no stream to close. -/
def clos : OpcodeFn N := fun _ arg1 _ _ m =>
  match m.disk arg1 with
  | none => .error (.fault .nullStream)
  | some _ => .ok { m with disk := Function.update m.disk arg1 none }

/-- The nine file instructions that are not implemented print one line. -/
def notImplemented : OpcodeFn N := fun _ _ _ _ m =>
  .ok { m with stderr := m.stderr ++ ["Instruction not implemented"] }

def frdm : OpcodeFn N := notImplemented
def frdr : OpcodeFn N := notImplemented
def frda : OpcodeFn N := notImplemented
def frdj : OpcodeFn N := notImplemented
def fwrt : OpcodeFn N := notImplemented
def fwta : OpcodeFn N := notImplemented
def fwtj : OpcodeFn N := notImplemented
def repo : OpcodeFn N := notImplemented
def pres : OpcodeFn N := notImplemented

/-! ## Arithmetic -/

/-- The sum, as a word, and the overflow flag by the two guards of the source -/
def addition (a b : Word) (m : State N) : Word × State N :=
  let overflow :=
    (BitVec.slt 0 a && (rbmlWordMax - a).slt b) || (a.slt 0 && b.slt (rbmlWordMin - a))
  (a + b, { m with overflow })

/-- `accumulator = addition(reg[arg1], reg[arg2])` -/
def add : OpcodeFn N := fun _ arg1 arg2 _ m =>
  let (w, m) := addition (m.reg arg1) (m.reg arg2) m
  .ok { m with accumulator := w }

/-- `accumulator = addition(accumulator, reg[arg1])` -/
def adda : OpcodeFn N := fun _ arg1 _ _ m =>
  let (w, m) := addition m.accumulator (m.reg arg1) m
  .ok { m with accumulator := w }

/-- `accumulator = addition(jump, reg[arg1])` -/
def addj : OpcodeFn N := fun _ arg1 _ _ m =>
  let (w, m) := addition m.jump (m.reg arg1) m
  .ok { m with accumulator := w }

/-- `subtraction` tests for overflow as `addition` does. -/
def subtraction (a b : Word) (m : State N) : Word × State N :=
  let overflow :=
    (BitVec.slt 0 a && (rbmlWordMax - a).slt b) || (a.slt 0 && b.slt (rbmlWordMin - a))
  (a - b, { m with overflow })

/-- `accumulator = subtraction(reg[arg1], reg[arg2])` -/
def sub : OpcodeFn N := fun _ arg1 arg2 _ m =>
  let (w, m) := subtraction (m.reg arg1) (m.reg arg2) m
  .ok { m with accumulator := w }

/-- `accumulator = subtraction(accumulator, reg[arg1])` -/
def suba : OpcodeFn N := fun _ arg1 _ _ m =>
  let (w, m) := subtraction m.accumulator (m.reg arg1) m
  .ok { m with accumulator := w }

/-- `accumulator = subtraction(jump, reg[arg1])` -/
def subj : OpcodeFn N := fun _ arg1 _ _ m =>
  let (w, m) := subtraction m.jump (m.reg arg1) m
  .ok { m with accumulator := w }

/-- The overflow test of `multiplication`. The signs in its two disjuncts exclude each other, and
each quotient is evaluated only after its sign test. -/
def multiplicationOverflow (a b : Word) : Except (Stop N) Bool :=
  if BitVec.slt 0 a then do
    let q ← cDiv rbmlWordMax a
    .ok (q.slt b)
  else if a.slt 0 then do
    let q ← cDiv rbmlWordMin a
    .ok (b.slt q)
  else .ok false

/-- The product, as a word, and the overflow flag. A factor of 0 needs no quotient. -/
def multiplication (a b : Word) (m : State N) : Except (Stop N) (Word × State N) :=
  if a = 0 ∨ b = 0 then .ok (0, { m with overflow := false })
  else do
    let overflow ← multiplicationOverflow a b
    .ok (a * b, { m with overflow })

/-- `accumulator = multiplication(reg[arg1], reg[arg2])` -/
def mult : OpcodeFn N := fun _ arg1 arg2 _ m => do
  let (w, m) ← multiplication (m.reg arg1) (m.reg arg2) m
  .ok { m with accumulator := w }

/-- `accumulator = multiplication(accumulator, reg[arg1])` -/
def mlta : OpcodeFn N := fun _ arg1 _ _ m => do
  let (w, m) ← multiplication m.accumulator (m.reg arg1) m
  .ok { m with accumulator := w }

/-- `accumulator = multiplication(jump, reg[arg1])` -/
def mltj : OpcodeFn N := fun _ arg1 _ _ m => do
  let (w, m) ← multiplication m.jump (m.reg arg1) m
  .ok { m with accumulator := w }

/-- The quotient, or 0 and the flag for a divisor of 0 -/
def division (a b : Word) (m : State N) : Except (Stop N) (Word × State N) :=
  if b = 0 then .ok (0, { m with divzero := true })
  else do
    let q ← cDiv a b
    .ok (q, { m with divzero := false })

/-- `accumulator = division(reg[arg1], reg[arg2])` -/
def div_ : OpcodeFn N := fun _ arg1 arg2 _ m => do
  let (w, m) ← division (m.reg arg1) (m.reg arg2) m
  .ok { m with accumulator := w }

/-- `accumulator = division(accumulator, reg[arg1])` -/
def diva : OpcodeFn N := fun _ arg1 _ _ m => do
  let (w, m) ← division m.accumulator (m.reg arg1) m
  .ok { m with accumulator := w }

/-- `accumulator = division(jump, reg[arg1])` -/
def divj : OpcodeFn N := fun _ arg1 _ _ m => do
  let (w, m) ← division m.jump (m.reg arg1) m
  .ok { m with accumulator := w }

/-- The remainder, or 0 and the flag for a divisor of 0 -/
def modulus (a b : Word) (m : State N) : Except (Stop N) (Word × State N) :=
  if b = 0 then .ok (0, { m with divzero := true })
  else do
    let r ← cMod a b
    .ok (r, { m with divzero := false })

/-- `accumulator = modulus(reg[arg1], reg[arg2])` -/
def mod : OpcodeFn N := fun _ arg1 arg2 _ m => do
  let (w, m) ← modulus (m.reg arg1) (m.reg arg2) m
  .ok { m with accumulator := w }

/-- `accumulator = modulus(accumulator, reg[arg1])` -/
def moda : OpcodeFn N := fun _ arg1 _ _ m => do
  let (w, m) ← modulus m.accumulator (m.reg arg1) m
  .ok { m with accumulator := w }

/-- `accumulator = modulus(jump, reg[arg1])` -/
def modj : OpcodeFn N := fun _ arg1 _ _ m => do
  let (w, m) ← modulus m.jump (m.reg arg1) m
  .ok { m with accumulator := w }

/-! ## Bits -/

/-- `accumulator = reg[arg1] & reg[arg2]`, and the same with `accumulator` and `jump` on the left -/
def cjnt : OpcodeFn N := fun _ arg1 arg2 _ m => .ok { m with accumulator := m.reg arg1 &&& m.reg arg2 }
def cjna : OpcodeFn N := fun _ arg1 _ _ m => .ok { m with accumulator := m.accumulator &&& m.reg arg1 }
def cjnj : OpcodeFn N := fun _ arg1 _ _ m => .ok { m with accumulator := m.jump &&& m.reg arg1 }

/-- `accumulator = reg[arg1] | reg[arg2]`, and the same with `accumulator` and `jump` on the left -/
def djnt : OpcodeFn N := fun _ arg1 arg2 _ m => .ok { m with accumulator := m.reg arg1 ||| m.reg arg2 }
def djna : OpcodeFn N := fun _ arg1 _ _ m => .ok { m with accumulator := m.accumulator ||| m.reg arg1 }
def djnj : OpcodeFn N := fun _ arg1 _ _ m => .ok { m with accumulator := m.jump ||| m.reg arg1 }

/-- `accumulator = ~reg[arg1]`, and the same of `accumulator` and `jump` -/
def comp : OpcodeFn N := fun _ arg1 _ _ m => .ok { m with accumulator := ~~~m.reg arg1 }
def compa : OpcodeFn N := fun _ _ _ _ m => .ok { m with accumulator := ~~~m.accumulator }
def compj : OpcodeFn N := fun _ _ _ _ m => .ok { m with accumulator := ~~~m.jump }

/-- `accumulator = reg[arg1] << reg[arg2]` -/
def lsft : OpcodeFn N := fun _ arg1 arg2 _ m => do
  let w ← cShl (m.reg arg1) (m.reg arg2)
  .ok { m with accumulator := w }

/-- `accumulator = accumulator << reg[arg1]` -/
def lsfa : OpcodeFn N := fun _ arg1 _ _ m => do
  let w ← cShl m.accumulator (m.reg arg1)
  .ok { m with accumulator := w }

/-- `accumulator = jump << reg[arg1]` -/
def lsfj : OpcodeFn N := fun _ arg1 _ _ m => do
  let w ← cShl m.jump (m.reg arg1)
  .ok { m with accumulator := w }

/-- `accumulator = reg[arg1] >> reg[arg2]` -/
def rsft : OpcodeFn N := fun _ arg1 arg2 _ m => do
  let w ← cShr (m.reg arg1) (m.reg arg2)
  .ok { m with accumulator := w }

/-- `accumulator = accumulator >> reg[arg1]` -/
def rsfa : OpcodeFn N := fun _ arg1 _ _ m => do
  let w ← cShr m.accumulator (m.reg arg1)
  .ok { m with accumulator := w }

/-- `accumulator = jump >> reg[arg1]` -/
def rsfj : OpcodeFn N := fun _ arg1 _ _ m => do
  let w ← cShr m.jump (m.reg arg1)
  .ok { m with accumulator := w }

/-! ## Comparison, branches and calls -/

/-- The three flags, of the words as signed numbers -/
def compare (a b : Word) (m : State N) : State N :=
  { m with less := a.slt b, equal := decide (a = b), greater := b.slt a }

/-- `compare(reg[arg1], reg[arg2])`, and the same with `accumulator` and `jump` on the left -/
def cmp : OpcodeFn N := fun _ arg1 arg2 _ m => .ok (compare (m.reg arg1) (m.reg arg2) m)
def cmpa : OpcodeFn N := fun _ arg1 _ _ m => .ok (compare m.accumulator (m.reg arg1) m)
def cmpj : OpcodeFn N := fun _ arg1 _ _ m => .ok (compare m.jump (m.reg arg1) m)

/-- `compare(reg[arg1], memory[arg3])` -/
def cmpm : OpcodeFn N := fun _ arg1 _ arg3 m => do
  let w ← m.readMemory arg3.val
  .ok (compare (m.reg arg1) w m)

/-- The loop adds to the counter what is taken from it here. -/
def bran : OpcodeFn N := fun _ _ _ arg3 m => .ok { m with instructionCounter := intOfArg arg3 - 1 }

/-- `if (test) op(arg1, arg2, arg3)` -/
def onTest (test : State N → Bool) (op : OpcodeFn N) : OpcodeFn N := fun env arg1 arg2 arg3 m =>
  if test m then op env arg1 arg2 arg3 m else .ok m

def brgt : OpcodeFn N := onTest (fun m => m.greater) bran
def brlt : OpcodeFn N := onTest (fun m => m.less) bran
def breq : OpcodeFn N := onTest (fun m => m.equal) bran
def brge : OpcodeFn N := onTest (fun m => m.greater || m.equal) bran

/-- `greater` stands where `cale` has `equal`. -/
def brle : OpcodeFn N := onTest (fun m => m.greater || m.less) bran

/-- The first half of `call`: the return address goes to the jump register, and the jump register
to the call stack unless it is 0. -/
def saveReturn (m : State N) : Except (Stop N) (State N) :=
  if m.jump = 0 then .ok { m with jump := m.instructionCounter }
  else do
    let m ← m.writeCallStack m.callStackCounter m.jump
    let m := { m with callStackCounter := m.callStackCounter + 1 }
    .ok { m with jump := m.instructionCounter }

/-- `jump` and the call stack first, then the branch -/
def call : OpcodeFn N := fun _ _ _ arg3 m => do
  let m ← saveReturn m
  .ok { m with instructionCounter := intOfArg arg3 - 1 }

def cagt : OpcodeFn N := onTest (fun m => m.greater) call
def calt : OpcodeFn N := onTest (fun m => m.less) call
def caeq : OpcodeFn N := onTest (fun m => m.equal) call
def cage : OpcodeFn N := onTest (fun m => m.greater || m.equal) call
def cale : OpcodeFn N := onTest (fun m => m.less || m.equal) call

/-- The counter goes back to `jump`, and `jump` to what is on the call stack. With a counter of 0 this is
the first cell all the same. -/
def «end» : OpcodeFn N := fun _ _ _ _ m =>
  let m := { m with instructionCounter := m.jump }
  if m.callStackCounter = 0 then do
    let w ← m.readCallStack 0
    let m := { m with jump := w }
    m.writeCallStack 0 0
  else do
    let m := { m with callStackCounter := m.callStackCounter - 1 }
    let w ← m.readCallStack m.callStackCounter
    .ok { m with jump := w }

/-- `exit(0)` -/
def halt : OpcodeFn N := fun _ _ _ _ m => .error (.exit 0 m)

/-- `exit(2)` -/
def herr : OpcodeFn N := fun _ _ _ _ m => .error (.exit 2 m)

end Rbml.Machine
