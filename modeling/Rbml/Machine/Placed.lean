import Rbml.Lib.Lockstep
import Rbml.Machine.Effects

/-!
# One emulator inside another

What an instruction does depends on the memory it addresses and on the input it reads, and not on what
else there is. `State.place` puts the state of an emulator into one with more memory, other input and
other diagnostics, and `step_together` says that the two take each turn together. The only turns left out
are those that end the first run for the size of its memory.

The input and the diagnostics of the two are related by `I` and `E`. `E` has to survive a line that both
print, and `I` has to survive a read where the instruction reads.
-/

namespace Rbml.Machine

open Lib

variable {N N' : Nat}

/-- The state `m` in an emulator whose memory goes on with `rest` -/
def State.place (rest : Fin N' → Word) (stdin : List UInt8) (stderr : List String) (m : State N) :
    State N' :=
  { m with
    memory := fun k => if h : k.val < N then m.memory ⟨k, h⟩ else rest k
    stdin
    stderr }

/-- The ends that come from the size of the memory -/
def Stop.ForSize : Stop N → Prop
  | .fault (.fetch _) | .fault (.memory _) | .outOfMemoryRegion _ => True
  | _ => False

section
variable (rest : Fin N' → Word) (I : List UInt8 → List UInt8 → Prop)
  (E : List String → List String → Prop)

/-- The second state is the first one, placed. -/
def Placed (m : State N) (m' : State N') : Prop :=
  ∃ stdin stderr, I m.stdin stdin ∧ E m.stderr stderr ∧ m' = m.place rest stdin stderr

/-- The ends of the two runs -/
inductive PlacedStop : Stop N → Stop N' → Prop
  | exit (status : Nat) {m : State N} {m' : State N'} (h : Placed rest I E m m') :
    PlacedStop (.exit status m) (.exit status m')
  | outOfMemoryRegion {m : State N} {m' : State N'} (h : Placed rest I E m m') :
    PlacedStop (.outOfMemoryRegion m) (.outOfMemoryRegion m')
  | fault (f : Fault) : PlacedStop (.fault f) (.fault f)

/-- In a memory that is really larger, nothing is said of an end that comes from the size. -/
abbrev Outgrown (N' : Nat) (e : Stop N) : Prop := N < N' ∧ e.ForSize

/-- The results of the two emulators -/
abbrev Together : Except (Stop N) (State N) → Except (Stop N') (State N') → Prop :=
  Lockstep (Placed rest I E) (PlacedStop rest I E) (Outgrown N')

/-- Results that do not hold a state -/
abbrev TogetherValue {α : Type} : Except (Stop N) α → Except (Stop N') α → Prop :=
  Lockstep (fun x y => y = x) (PlacedStop rest I E) (Outgrown N')

end

/-! ## Reading a word from the console -/

/-- The instructions that read from the console -/
def readsConsole : Opcode → Bool
  | .crdm | .crda | .crdj | .crdr => true
  | _ => false

/-- What `cread` reads, and the input it leaves -/
def readWord (w : Word) (fcontrol : Fin 16) (stdin : List UInt8) : Word × List UInt8 :=
  if fcontrol ≠ 0 then fgetsWord w stdin else scanfWord w stdin

/-- What is read goes to the caller, and what is unread stays. -/
theorem cread_eq (w : Word) (fcontrol : Fin 16) (m : State N) :
    cread w fcontrol m =
      ((readWord w fcontrol m.stdin).1, { m with stdin := (readWord w fcontrol m.stdin).2 }) := rfl

/-- Two inputs that a read does not tell apart -/
def ReadsAlike (I : List UInt8 → List UInt8 → Prop) (w : Word) (fcontrol : Fin 16)
    (stdin stdin' : List UInt8) : Prop :=
  (readWord w fcontrol stdin').1 = (readWord w fcontrol stdin).1 ∧
    I (readWord w fcontrol stdin).2 (readWord w fcontrol stdin').2

section
variable {rest : Fin N' → Word} {I : List UInt8 → List UInt8 → Prop}
  {E : List String → List String → Prop} {stdin : List UInt8} {stderr : List String} {m : State N}

@[simp] theorem place_stdin : (m.place rest stdin stderr).stdin = stdin := rfl

/-! ## The memory -/

/-- The first words are those of the smaller memory. -/
theorem place_memory_of_lt (hN : N ≤ N') (k : Fin N) :
    (m.place rest stdin stderr).memory (Fin.castLE hN k) = m.memory k := by
  simp only [State.place, Fin.val_castLE, k.isLt, dif_pos]

/-- An index in the smaller memory is one in the larger. -/
theorem cIndex_castLE (hN : N ≤ N') {i : Int} {k : Fin N} (hk : cIndex N i = some k) :
    cIndex N' i = some (Fin.castLE hN k) := by
  rw [cIndex_eq_some_iff] at hk ⊢
  exact hk

/-- A word that is written among the first ones is written in the smaller memory. -/
theorem place_update (hN : N ≤ N') (k : Fin N) (w : Word) :
    { m.place rest stdin stderr with
        memory := Function.update (m.place rest stdin stderr).memory (Fin.castLE hN k) w } =
      { m with memory := Function.update m.memory k w }.place rest stdin stderr := by
  have hmemory : Function.update (m.place rest stdin stderr).memory (Fin.castLE hN k) w =
      ({ m with memory := Function.update m.memory k w }.place rest stdin stderr).memory := by
    ext1 j
    by_cases hj : j = Fin.castLE hN k
    · rw [hj, Function.update_self, place_memory_of_lt]
      exact (Function.update_self k w m.memory).symm
    · rw [Function.update_of_ne hj]
      simp only [State.place]
      split
      next hlt =>
        have hne : (⟨j, hlt⟩ : Fin N) ≠ k := by
          rintro rfl
          exact hj rfl
        rw [Function.update_of_ne hne]
      next => rfl
  rw [hmemory]
  rfl

/-- Outside the smaller memory the two differ only where the larger one is really larger. -/
theorem outside_together {α β : Type} {R : α → β → Prop} (hN : N ≤ N') {i : Int} {f : Fault}
    (hi : cIndex N i = none) (hf : (Stop.fault f : Stop N).ForSize) {y : Except (Stop N') β}
    (hy : cIndex N' i = none → y = .error (.fault f)) :
    Lockstep R (PlacedStop rest I E) (Outgrown N') (.error (.fault f : Stop N)) y := by
  rcases Nat.lt_or_eq_of_le hN with hlt | rfl
  · exact .free ⟨hlt, hf⟩
  · rw [hy hi]
    exact .error (.fault f)

/-- A read of the smaller memory is one of the larger. -/
theorem readMemory_together (hN : N ≤ N') (i : Int) :
    TogetherValue rest I E (m.readMemory i) ((m.place rest stdin stderr).readMemory i) := by
  cases hi : cIndex N i with
  | none =>
    simp only [State.readMemory, hi]
    apply outside_together (f := .memory i) hN hi trivial
    intro hi'
    simp only [hi']
  | some k =>
    simp only [State.readMemory, hi, cIndex_castLE hN hi]
    exact .ok (place_memory_of_lt hN k)

/-- A write to the smaller memory is one to the larger. -/
theorem writeMemory_together (hN : N ≤ N') (hI : I m.stdin stdin) (hE : E m.stderr stderr) (i : Int)
    (w : Word) :
    Together rest I E (m.writeMemory i w) ((m.place rest stdin stderr).writeMemory i w) := by
  cases hi : cIndex N i with
  | none =>
    simp only [State.writeMemory, hi]
    apply outside_together (f := .memory i) hN hi trivial
    intro hi'
    simp only [hi']
  | some k =>
    simp only [State.writeMemory, hi, cIndex_castLE hN hi]
    exact .ok ⟨stdin, stderr, hI, hE, place_update hN k w⟩

/-! ## The operations that are not total -/

/-- A value under a condition, and a fault without it -/
theorem guarded_together (P : Prop) [Decidable P] (v : Word) (f : Fault) :
    TogetherValue (N := N) rest I E (if P then .ok v else .error (.fault f))
      (if P then .ok v else .error (.fault f)) := by
  split
  · exact .ok rfl
  · exact .error (.fault f)

theorem cDiv_together (a b : Word) : TogetherValue (N := N) rest I E (cDiv a b) (cDiv a b) :=
  guarded_together (QuotientExists a b) (a.sdiv b) .quotient

theorem cMod_together (a b : Word) : TogetherValue (N := N) rest I E (cMod a b) (cMod a b) :=
  guarded_together (QuotientExists a b) (a.srem b) .quotient

theorem cShl_together (a n : Word) : TogetherValue (N := N) rest I E (cShl a n) (cShl a n) :=
  guarded_together (n.toNat < 32) (a <<< n.toNat) .shiftCount

theorem cShr_together (a n : Word) : TogetherValue (N := N) rest I E (cShr a n) (cShr a n) :=
  guarded_together (n.toNat < 32) (a.sshiftRight n.toNat) .shiftCount

theorem multiplicationOverflow_together (a b : Word) :
    TogetherValue (N := N) rest I E (multiplicationOverflow a b) (multiplicationOverflow a b) := by
  unfold multiplicationOverflow
  split
  · apply (cDiv_together _ _).map
    rintro q _ rfl
    rfl
  split
  · apply (cDiv_together _ _).map
    rintro q _ rfl
    rfl
  · exact .ok rfl

/-- The results of the arithmetic that sets an error flag: the input and the diagnostics are kept. -/
abbrev TogetherResult (rest : Fin N' → Word) (I : List UInt8 → List UInt8 → Prop)
    (E : List String → List String → Prop) (stdin : List UInt8) (stderr : List String) (m : State N) :
    Except (Stop N) (Word × State N) → Except (Stop N') (Word × State N') → Prop :=
  Lockstep (fun x y => x.2.stdin = m.stdin ∧ x.2.stderr = m.stderr ∧
    y = (x.1, x.2.place rest stdin stderr)) (PlacedStop rest I E) (Outgrown N')

/-- A product is the same in both, with its flag. -/
theorem multiplication_together (a b : Word) :
    TogetherResult rest I E stdin stderr m (multiplication a b m)
      (multiplication a b (m.place rest stdin stderr)) := by
  by_cases hzero : a = 0 ∨ b = 0
  · simp only [multiplication, if_pos hzero]
    exact .ok ⟨rfl, rfl, rfl⟩
  · simp only [multiplication, if_neg hzero]
    apply (multiplicationOverflow_together a b).map
    rintro overflow _ rfl
    exact ⟨rfl, rfl, rfl⟩

/-- A quotient is the same in both, with its flag. -/
theorem division_together (a b : Word) :
    TogetherResult rest I E stdin stderr m (division a b m)
      (division a b (m.place rest stdin stderr)) := by
  by_cases hzero : b = 0
  · simp only [division, if_pos hzero]
    exact .ok ⟨rfl, rfl, rfl⟩
  · simp only [division, if_neg hzero]
    apply (cDiv_together a b).map
    rintro q _ rfl
    exact ⟨rfl, rfl, rfl⟩

/-- A remainder is the same in both, with its flag. -/
theorem modulus_together (a b : Word) :
    TogetherResult rest I E stdin stderr m (modulus a b m)
      (modulus a b (m.place rest stdin stderr)) := by
  by_cases hzero : b = 0
  · simp only [modulus, if_pos hzero]
    exact .ok ⟨rfl, rfl, rfl⟩
  · simp only [modulus, if_neg hzero]
    apply (cMod_together a b).map
    rintro r _ rfl
    exact ⟨rfl, rfl, rfl⟩

/-- The call stack is the same in both. -/
theorem readCallStack_together (i : Int) :
    TogetherValue rest I E (m.readCallStack i) ((m.place rest stdin stderr).readCallStack i) := by
  unfold State.readCallStack
  cases cIndex sizeOfCallstack i with
  | none => exact .error (.fault _)
  | some k => exact .ok rfl

theorem writeCallStack_together (hI : I m.stdin stdin) (hE : E m.stderr stderr) (i : Int) (w : Word) :
    Together rest I E (m.writeCallStack i w) ((m.place rest stdin stderr).writeCallStack i w) := by
  unfold State.writeCallStack
  cases cIndex sizeOfCallstack i with
  | none => exact .error (.fault _)
  | some k => exact .ok ⟨stdin, stderr, hI, hE, rfl⟩

/-! ## Instructions -/

/-- `END` does the same in both. -/
theorem end_together (env : Env) (arg1 arg2 : Fin 16) (arg3 : Fin 65536) (hI : I m.stdin stdin)
    (hE : E m.stderr stderr) :
    Together rest I E («end» env arg1 arg2 arg3 m)
      («end» env arg1 arg2 arg3 (m.place rest stdin stderr)) := by
  by_cases hcounter : m.callStackCounter = 0
  · have hcounter' : (m.place rest stdin stderr).callStackCounter = 0 := hcounter
    simp only [«end», if_pos hcounter, if_pos hcounter']
    apply (@readCallStack_together _ _ rest I E stdin stderr
      { m with instructionCounter := m.jump } 0).bind
    rintro w _ rfl
    exact @writeCallStack_together _ _ rest I E stdin stderr
      { m with instructionCounter := m.jump, jump := _ } hI hE 0 0
  · have hcounter' : (m.place rest stdin stderr).callStackCounter ≠ 0 := hcounter
    simp only [«end», if_neg hcounter, if_neg hcounter']
    refine (@readCallStack_together _ _ rest I E stdin stderr { m with
      instructionCounter := m.jump
      callStackCounter := m.callStackCounter - 1 } _).map ?_
    rintro w _ rfl
    exact ⟨stdin, stderr, hI, hE, rfl⟩

theorem saveReturn_together (hI : I m.stdin stdin) (hE : E m.stderr stderr) :
    Together rest I E (saveReturn m) (saveReturn (m.place rest stdin stderr)) := by
  by_cases hjump : m.jump = 0
  · have hjump' : (m.place rest stdin stderr).jump = 0 := hjump
    simp only [saveReturn, if_pos hjump, if_pos hjump']
    exact .ok ⟨stdin, stderr, hI, hE, rfl⟩
  · have hjump' : (m.place rest stdin stderr).jump ≠ 0 := hjump
    simp only [saveReturn, if_neg hjump, if_neg hjump']
    apply (writeCallStack_together hI hE _ _).map
    rintro p _ ⟨stdin', stderr', hI', hE', rfl⟩
    exact ⟨stdin', stderr', hI', hE', rfl⟩

/-- A call does the same in both. -/
theorem call_together (env : Env) (arg1 arg2 : Fin 16) (arg3 : Fin 65536) (hI : I m.stdin stdin)
    (hE : E m.stderr stderr) :
    Together rest I E (call env arg1 arg2 arg3 m)
      (call env arg1 arg2 arg3 (m.place rest stdin stderr)) := by
  apply (saveReturn_together hI hE).map
  rintro p _ ⟨stdin', stderr', hI', hE', rfl⟩
  exact ⟨stdin', stderr', hI', hE', rfl⟩

/-- The test of a branch looks at the flags only. -/
theorem test_place (op : Opcode) : test op (m.place rest stdin stderr) = test op m := by
  cases op <;> rfl

/-- An instruction does the same in both emulators. -/
theorem handler_together (hN : N ≤ N') {op : Opcode} {env : Env} {arg1 arg2 : Fin 16}
    {arg3 : Fin 65536} (hI : I m.stdin stdin) (hE : E m.stderr stderr)
    (hread : readsConsole op = true → ReadsAlike I env.w arg1 m.stdin stdin)
    (hline : ∀ s s' line, E s s' → E (s ++ [line]) (s' ++ [line])) :
    Together rest I E (handler op env arg1 arg2 arg3 m)
      (handler op env arg1 arg2 arg3 (m.place rest stdin stderr)) := by
  cases hkind : kind op with
  | branch =>
    rw [handler_branch hkind, handler_branch hkind, onTest, onTest, test_place]
    split <;> exact .ok ⟨stdin, stderr, hI, hE, rfl⟩
  | call =>
    rw [handler_call hkind, handler_call hkind, onTest, onTest, test_place]
    split
    · exact call_together env arg1 arg2 arg3 hI hE
    · exact .ok ⟨stdin, stderr, hI, hE, rfl⟩
  | «end» =>
    obtain rfl : op = .end := by cases op <;> first | rfl | cases hkind
    exact end_together env arg1 arg2 arg3 hI hE
  | _ =>
    cases op
    case sto | stoa | stoj => exact writeMemory_together hN hI hE _ _
    case lod | loda | lodj | cmpm =>
      apply (readMemory_together hN _).map
      rintro w _ rfl
      exact ⟨stdin, stderr, hI, hE, rfl⟩
    case crdm =>
      obtain ⟨hw, hI'⟩ := hread rfl
      simp only [handler, crdm, cread_eq, place_stdin, hw]
      exact @writeMemory_together _ _ rest I E _ stderr
        { m with stdin := (readWord env.w arg1 m.stdin).2 } hN hI' hE _ _
    case crda | crdj | crdr =>
      obtain ⟨hw, hI'⟩ := hread rfl
      simp only [handler, crda, crdj, crdr, cread_eq, place_stdin, hw]
      exact .ok ⟨_, stderr, hI', hE, rfl⟩
    case writ | wrta | wrtj | mova | movj | «open» =>
      simp only [handler, writ, wrta, wrtj, mova, movj, «open», cwrite]
      split <;> exact .ok ⟨stdin, stderr, hI, hE, rfl⟩
    case clos =>
      simp only [handler, clos, State.place]
      cases m.disk arg1 with
      | none => exact .error (.fault _)
      | some _ => exact .ok ⟨stdin, stderr, hI, hE, rfl⟩
    case frdm | frdr | frda | frdj | fwrt | fwta | fwtj | repo | pres =>
      exact .ok ⟨stdin, _, hI, hline _ _ _ hE, rfl⟩
    case mult | mlta | mltj =>
      apply (multiplication_together _ _).map
      rintro ⟨w, m₁⟩ _ ⟨hstdin, hstderr, rfl⟩
      exact ⟨stdin, stderr, hstdin ▸ hI, hstderr ▸ hE, rfl⟩
    case div | diva | divj =>
      apply (division_together _ _).map
      rintro ⟨w, m₁⟩ _ ⟨hstdin, hstderr, rfl⟩
      exact ⟨stdin, stderr, hstdin ▸ hI, hstderr ▸ hE, rfl⟩
    case mod | moda | modj =>
      apply (modulus_together _ _).map
      rintro ⟨w, m₁⟩ _ ⟨hstdin, hstderr, rfl⟩
      exact ⟨stdin, stderr, hstdin ▸ hI, hstderr ▸ hE, rfl⟩
    case lsft | lsfa | lsfj =>
      apply (cShl_together _ _).map
      rintro w _ rfl
      exact ⟨stdin, stderr, hI, hE, rfl⟩
    case rsft | rsfa | rsfj =>
      apply (cShr_together _ _).map
      rintro w _ rfl
      exact ⟨stdin, stderr, hI, hE, rfl⟩
    case halt | herr => exact .error (.exit _ ⟨stdin, stderr, hI, hE, rfl⟩)
    case bran | brgt | brlt | breq | brge | brle => cases hkind
    case call | cagt | calt | caeq | cage | cale => cases hkind
    case «end» => cases hkind
    all_goals exact .ok ⟨stdin, stderr, hI, hE, rfl⟩

/-! ## A turn of the loop -/

/-- The next word is the same in both, where the smaller memory has one. -/
theorem fetch_together (hN : N ≤ N') (hI : I m.stdin stdin) (hE : E m.stderr stderr) :
    Together rest I E (fetch m) (fetch (m.place rest stdin stderr)) := by
  have hcounter : (m.place rest stdin stderr).instructionCounter = m.instructionCounter := rfl
  cases hi : cIndex N m.instructionCounter.toInt with
  | none =>
    simp only [fetch, hcounter, hi]
    apply outside_together (f := .fetch m.instructionCounter.toInt) hN hi trivial
    intro hi'
    simp only [hi']
  | some k =>
    simp only [fetch, hcounter, hi, cIndex_castLE hN hi, place_memory_of_lt]
    exact .ok ⟨stdin, stderr, hI, hE, rfl⟩

/-- An instruction does the same in both, if it reads the same from the console. -/
theorem evaluateInstruction_together (hN : N ≤ N') {env : Env} (hI : I m.stdin stdin)
    (hE : E m.stderr stderr)
    (hread : ∀ op, opcodes (rbmlOpcode m.instructionRegister) = some op → readsConsole op = true →
      ReadsAlike I env.w (arg1Of m.instructionRegister) m.stdin stdin)
    (hline : ∀ s s' line, E s s' → E (s ++ [line]) (s' ++ [line])) :
    Together rest I E (evaluateInstruction env m)
      (evaluateInstruction env (m.place rest stdin stderr)) := by
  have hregister : (m.place rest stdin stderr).instructionRegister = m.instructionRegister := rfl
  cases hop : opcodes (rbmlOpcode m.instructionRegister) with
  | none =>
    simp only [evaluateInstruction, hregister, hop]
    exact .ok ⟨stdin, _, hI, hline _ _ _ hE, rfl⟩
  | some op =>
    simp only [evaluateInstruction, hregister, hop]
    exact handler_together hN hI hE (hread op hop) hline

/-- The guard breaks both loops, or the first one for the size of its memory. -/
theorem advance_together (hN : N ≤ N') (hI : I m.stdin stdin) (hE : E m.stderr stderr)
    (hline : ∀ s s' line, E s s' → E (s ++ [line]) (s' ++ [line])) :
    Together rest I E (advance m) (advance (m.place rest stdin stderr)) := by
  have hcounter : (m.place rest stdin stderr).instructionCounter = m.instructionCounter := rfl
  by_cases hout : N ≤ sizeT (m.instructionCounter + 1)
  · simp only [advance, if_pos hout]
    rcases Nat.lt_or_eq_of_le hN with hlt | rfl
    · exact .free ⟨hlt, trivial⟩
    · rw [hcounter, if_pos hout]
      exact .error (.outOfMemoryRegion ⟨stdin, _, hI, hline _ _ _ hE, rfl⟩)
  · have hin : ¬ N' ≤ sizeT (m.instructionCounter + 1) := fun h => hout (Nat.le_trans hN h)
    simp only [advance, hcounter, if_neg hout, if_neg hin]
    exact .ok ⟨stdin, stderr, hI, hE, rfl⟩

/-- The two emulators take a turn together, where no read tells their inputs apart. -/
theorem step_together (hN : N ≤ N') {env : Env} (hI : I m.stdin stdin) (hE : E m.stderr stderr)
    (hread : ∀ w fcontrol s s', I s s' → ReadsAlike I w fcontrol s s')
    (hline : ∀ s s' line, E s s' → E (s ++ [line]) (s' ++ [line])) :
    Together rest I E (step env m) (step env (m.place rest stdin stderr)) := by
  apply (fetch_together hN hI hE).bind
  rintro m₀ _ ⟨stdin₀, stderr₀, hI₀, hE₀, rfl⟩
  apply (evaluateInstruction_together hN hI₀ hE₀ (fun _ _ _ => hread _ _ _ _ hI₀) hline).bind
  rintro m₁ _ ⟨stdin₁, stderr₁, hI₁, hE₁, rfl⟩
  exact advance_together hN hI₁ hE₁ hline

end

end Rbml.Machine
