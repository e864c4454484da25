import Rbml.Machine.Run

/-!
# What a turn leaves alone

Each instruction has its own part of the state, and the functions from `writesMemory` to
`writesAccumulator` say which by its operation and its argument fields. `HandlerFrame` has one field
for each component of the state: a component that has changed is one of the instruction. A field is
closed where the component is untouched, so that the proof for a handler names only what it writes.

`turn_frame` is the same for a turn of the loop, whatever word it fetches.
-/

namespace Rbml.Machine

open Lib

variable {N : Nat}

/-! ## The part of the state that an operation can write -/

def writesMemory : Opcode → Bool
  | .sto | .stoa | .stoj | .crdm => true
  | _ => false

/-- The register of the register file -/
def target (op : Opcode) (arg1 arg2 : Fin 16) : Option (Fin 16) :=
  match op with
  | .lod => some arg1
  | .mov | .crdr => some arg2
  | .mova | .movj => if arg1 ≠ 0 then some arg2 else none
  | _ => none

def writesFlags : Opcode → Bool
  | .cmp | .cmpa | .cmpj | .cmpm => true
  | _ => false

def writesOverflow : Opcode → Bool
  | .add | .adda | .addj | .sub | .suba | .subj | .mult | .mlta | .mltj => true
  | _ => false

def writesDivzero : Opcode → Bool
  | .div | .diva | .divj | .mod | .moda | .modj => true
  | _ => false

def writesIoerr : Opcode → Bool
  | .open => true
  | _ => false

def writesDisk : Opcode → Bool
  | .open | .clos => true
  | _ => false

def writesAccumulator (op : Opcode) (arg1 : Fin 16) : Bool :=
  match op with
  | .loda | .crda => true
  | .mova => arg1 = 0
  | .add | .adda | .addj | .sub | .suba | .subj | .mult | .mlta | .mltj
  | .div | .diva | .divj | .mod | .moda | .modj
  | .cjnt | .cjna | .cjnj | .djnt | .djna | .djnj | .comp | .compa | .compj
  | .lsft | .lsfa | .lsfj | .rsft | .rsfa | .rsfj => true
  | _ => false

/-- A branch instruction whose test holds -/
def TakenBranch (op : Opcode) (m : State N) : Prop := kind op = .branch ∧ test op m = true

/-- A call instruction whose test holds -/
def TakenCall (op : Opcode) (m : State N) : Prop := kind op = .call ∧ test op m = true

/-- An instruction changes only its own part of the state. -/
structure HandlerFrame (op : Opcode) (arg1 arg2 : Fin 16) (arg3 : Fin 65536) (m m' : State N) :
    Prop where
  memory : ∀ k, m'.memory k ≠ m.memory k → writesMemory op = true ∧ k.val = arg3.val := by
    exact fun k h => absurd rfl h
  reg : ∀ i, m'.reg i ≠ m.reg i → target op arg1 arg2 = some i := by
    exact fun i h => absurd rfl h
  flags : m'.flags ≠ m.flags → writesFlags op = true := by
    exact fun h => absurd rfl h
  overflow : m'.overflow ≠ m.overflow → writesOverflow op = true := by
    exact fun h => absurd rfl h
  divzero : m'.divzero ≠ m.divzero → writesDivzero op = true := by
    exact fun h => absurd rfl h
  ioerr : m'.ioerr ≠ m.ioerr → writesIoerr op = true := by
    exact fun h => absurd rfl h
  jump : m'.jump ≠ m.jump → writesJump op arg1 = true ∨ TakenCall op m ∨ op = .end := by
    exact fun h => absurd rfl h
  callStack : m'.callStack ≠ m.callStack → TakenCall op m ∨ op = .end := by
    exact fun h => absurd rfl h
  callStackCell : ∃ k, ∀ j, j ≠ k → m'.callStack j = m.callStack j := by
    exact ⟨0, fun _ _ => rfl⟩
  callStackCounter : m'.callStackCounter ≠ m.callStackCounter → TakenCall op m ∨ op = .end := by
    exact fun h => absurd rfl h
  disk : ∀ i, m'.disk i ≠ m.disk i → writesDisk op = true ∧ i = arg1 := by
    exact fun i h => absurd rfl h
  accumulator : m'.accumulator ≠ m.accumulator → writesAccumulator op arg1 = true := by
    exact fun h => absurd rfl h
  instructionCounter : m'.instructionCounter ≠ m.instructionCounter →
      TakenBranch op m ∨ TakenCall op m ∨ op = .end := by
    exact fun h => absurd rfl h

/-- An entry of an updated function that has changed is the one updated. -/
theorem eq_of_update_ne {α β : Type} [DecidableEq α] {f : α → β} {a i : α} {b : β}
    (h : Function.update f a b i ≠ f i) : i = a := by
  by_contra hne
  exact h (Function.update_of_ne hne _ _)

section
variable {op : Opcode} {env : Env} {arg1 arg2 : Fin 16} {arg3 : Fin 65536} {m m' : State N}

theorem store_frame (hkind : kind op = .store) (hop : writesMemory op = true)
    (h : handler op env arg1 arg2 arg3 m = .ok m') : HandlerFrame op arg1 arg2 arg3 m m' := by
  obtain ⟨k, w, stdin, hk, rfl⟩ := handler_store hkind h
  rw [cIndex_eq_some_iff] at hk
  exact { memory := fun i hi => ⟨hop, by rw [eq_of_update_ne hi]; omega⟩ }

theorem call_frame (hkind : kind op = .call)
    (h : handler op env arg1 arg2 arg3 m = .ok m') : HandlerFrame op arg1 arg2 arg3 m m' := by
  rw [handler_call hkind, onTest] at h
  split at h
  next htest =>
    have htaken : TakenCall op m := ⟨hkind, htest⟩
    obtain ⟨m₁, hsave, h⟩ := bind_eq_ok.mp h
    cases h
    unfold saveReturn at hsave
    split at hsave
    · cases hsave
      exact {
        jump := fun _ => .inr (.inl htaken)
        instructionCounter := fun _ => .inr (.inl htaken) }
    · obtain ⟨m₂, hwrite, hsave⟩ := bind_eq_ok.mp hsave
      obtain ⟨k, -, rfl⟩ := writeCallStack_eq_ok.mp hwrite
      cases hsave
      exact {
        jump := fun _ => .inr (.inl htaken)
        callStack := fun _ => .inl htaken
        callStackCell := ⟨k, fun j hj => Function.update_of_ne hj _ _⟩
        callStackCounter := fun _ => .inl htaken
        instructionCounter := fun _ => .inr (.inl htaken) }
  next =>
    cases h
    exact {}

theorem end_frame (h : handler .end env arg1 arg2 arg3 m = .ok m') :
    HandlerFrame .end arg1 arg2 arg3 m m' := by
  simp only [handler, «end»] at h
  split at h
  · obtain ⟨w, -, h⟩ := bind_eq_ok.mp h
    obtain ⟨k, -, rfl⟩ := writeCallStack_eq_ok.mp h
    exact {
      jump := fun _ => .inr (.inr rfl)
      callStack := fun _ => .inr rfl
      callStackCell := ⟨k, fun j hj => Function.update_of_ne hj _ _⟩
      instructionCounter := fun _ => .inr (.inr rfl) }
  · obtain ⟨w, -, h⟩ := bind_eq_ok.mp h
    cases h
    exact {
      jump := fun _ => .inr (.inr rfl)
      callStackCounter := fun _ => .inr rfl
      instructionCounter := fun _ => .inr (.inr rfl) }

theorem handler_frame (h : handler op env arg1 arg2 arg3 m = .ok m') :
    HandlerFrame op arg1 arg2 arg3 m m' := by
  cases op
  case sto | stoa | stoj | crdm => exact store_frame rfl rfl h
  case call | cagt | calt | caeq | cage | cale => exact call_frame rfl h
  case «end» => exact end_frame h
  case lod =>
    obtain ⟨w, -, h⟩ := bind_eq_ok.mp h
    cases h
    exact { reg := fun i hi => congrArg some (eq_of_update_ne hi).symm }
  case mov | crdr =>
    cases h
    exact { reg := fun i hi => congrArg some (eq_of_update_ne hi).symm }
  case mova =>
    simp only [handler, mova] at h
    split at h
    next hout =>
      cases h
      exact { reg := fun i hi => (if_pos hout).trans (congrArg some (eq_of_update_ne hi).symm) }
    next hin =>
      cases h
      exact { accumulator := fun _ => decide_eq_true (not_not.mp hin) }
  case movj =>
    simp only [handler, movj] at h
    split at h
    next hout =>
      cases h
      exact { reg := fun i hi => (if_pos hout).trans (congrArg some (eq_of_update_ne hi).symm) }
    next hin =>
      cases h
      exact { jump := fun _ => .inl (decide_eq_true (not_not.mp hin)) }
  case loda | lsft | lsfa | lsfj | rsft | rsfa | rsfj =>
    obtain ⟨w, -, h⟩ := bind_eq_ok.mp h
    cases h
    exact { accumulator := fun _ => rfl }
  case lodj =>
    obtain ⟨w, -, h⟩ := bind_eq_ok.mp h
    cases h
    exact { jump := fun _ => .inl rfl }
  case crdj =>
    cases h
    exact { jump := fun _ => .inl rfl }
  case crda | cjnt | cjna | cjnj | djnt | djna | djnj | comp | compa | compj =>
    cases h
    exact { accumulator := fun _ => rfl }
  case add | adda | addj | sub | suba | subj =>
    cases h
    exact { overflow := fun _ => rfl, accumulator := fun _ => rfl }
  case mult | mlta | mltj =>
    obtain ⟨⟨w, m₁⟩, hmul, h⟩ := bind_eq_ok.mp h
    obtain ⟨_, rfl⟩ := multiplication_snd hmul
    cases h
    exact { overflow := fun _ => rfl, accumulator := fun _ => rfl }
  case div | diva | divj =>
    obtain ⟨⟨w, m₁⟩, hdiv, h⟩ := bind_eq_ok.mp h
    obtain ⟨_, rfl⟩ := division_snd hdiv
    cases h
    exact { divzero := fun _ => rfl, accumulator := fun _ => rfl }
  case mod | moda | modj =>
    obtain ⟨⟨w, m₁⟩, hmod, h⟩ := bind_eq_ok.mp h
    obtain ⟨_, rfl⟩ := modulus_snd hmod
    cases h
    exact { divzero := fun _ => rfl, accumulator := fun _ => rfl }
  case cmp | cmpa | cmpj =>
    cases h
    exact { flags := fun _ => rfl }
  case cmpm =>
    obtain ⟨w, -, h⟩ := bind_eq_ok.mp h
    cases h
    exact { flags := fun _ => rfl }
  case bran =>
    cases h
    exact { instructionCounter := fun _ => .inl ⟨rfl, rfl⟩ }
  case brgt | brlt | breq | brge | brle =>
    rw [handler_branch rfl, onTest] at h
    split at h
    next htest =>
      cases h
      exact { instructionCounter := fun _ => .inl ⟨rfl, htest⟩ }
    next =>
      cases h
      exact {}
  case «open» =>
    simp only [handler, «open»] at h
    split at h
    all_goals
      cases h
      exact { ioerr := fun _ => rfl, disk := fun i hi => ⟨rfl, eq_of_update_ne hi⟩ }
  case clos =>
    simp only [handler, clos] at h
    split at h
    · cases h
    · cases h
      exact { disk := fun i hi => ⟨rfl, eq_of_update_ne hi⟩ }
  case writ | wrta | wrtj =>
    simp only [handler, writ, wrta, wrtj, cwrite] at h
    cases h
    split <;> exact {}
  case halt | herr => cases h
  all_goals
    cases h
    exact {}

end

/-! ## A turn of the loop -/

/-- The state after a turn that neither exits nor faults: the loop goes on, or breaks because the
counter has left the memory region. -/
def Next (env : Env) (m m' : State N) : Prop :=
  step env m = .ok m' ∨ step env m = .error (.outOfMemoryRegion m')

/-- Only the guard of the loop breaks it. -/
theorem evaluateInstruction_ne_outOfMemoryRegion (env : Env) (m : State N) (w : Word)
    (m' : State N) : evaluateInstruction env (fetched m w) ≠ .error (.outOfMemoryRegion m') := by
  intro h
  cases hop : opcodes (rbmlOpcode w) with
  | none =>
    simp only [evaluateInstruction, fetched, hop] at h
    cases h
  | some op =>
    rw [evaluateInstruction_fetched env m hop] at h
    rcases handler_error_cases h with h | ⟨-, -, h⟩ | ⟨i, h⟩ <;> cases h

/-- An instruction that returns leaves the counter to the increment. -/
theorem next_cases {env : Env} {m m' : State N} (h : Next env m m') :
    ∃ w m₁ stderr, nextWord m = some w ∧ evaluateInstruction env (fetched m w) = .ok m₁ ∧
      m' = { m₁ with instructionCounter := m₁.instructionCounter + 1, stderr } := by
  rcases h with h | h
  · obtain ⟨w, m₁, hw, heval, -, rfl⟩ := step_eq_ok h
    exact ⟨w, m₁, m₁.stderr, hw, heval, rfl⟩
  · cases hw : nextWord m with
    | none =>
      rw [step_of_nextWord_none env hw] at h
      cases h
    | some w =>
      rw [step_of_nextWord env hw] at h
      rcases bind_eq_error.mp h with heval | ⟨m₁, heval, h⟩
      · exact absurd heval (evaluateInstruction_ne_outOfMemoryRegion env m w m')
      · simp only [advance] at h
        split at h
        · cases h
          exact ⟨w, m₁, _, rfl, heval, rfl⟩
        · cases h

/-- The word has the opcode of an operation that meets `P`. -/
def Executes (w : Word) (P : Opcode → Prop) : Prop :=
  ∃ op, opcodes (rbmlOpcode w) = some op ∧ P op

/-- A turn on the word `w` changes only the part of the state that belongs to its instruction, and
the counter goes on by 1 but for a taken branch, a taken call and `END`. -/
structure TurnFrame (w : Word) (m m' : State N) : Prop where
  memory : ∀ k, m'.memory k ≠ m.memory k →
      k.val = (arg3Of w).val ∧ Executes w fun op => writesMemory op = true := by
    exact fun k h => absurd rfl h
  reg : ∀ i, m'.reg i ≠ m.reg i → Executes w fun op => target op (arg1Of w) (arg2Of w) = some i := by
    exact fun i h => absurd rfl h
  flags : m'.flags ≠ m.flags → Executes w fun op => writesFlags op = true := by
    exact fun h => absurd rfl h
  overflow : m'.overflow ≠ m.overflow → Executes w fun op => writesOverflow op = true := by
    exact fun h => absurd rfl h
  divzero : m'.divzero ≠ m.divzero → Executes w fun op => writesDivzero op = true := by
    exact fun h => absurd rfl h
  ioerr : m'.ioerr ≠ m.ioerr → Executes w fun op => writesIoerr op = true := by
    exact fun h => absurd rfl h
  jump : m'.jump ≠ m.jump → Executes w fun op =>
      writesJump op (arg1Of w) = true ∨ TakenCall op m ∨ op = .end := by
    exact fun h => absurd rfl h
  callStack : m'.callStack ≠ m.callStack → Executes w fun op => TakenCall op m ∨ op = .end := by
    exact fun h => absurd rfl h
  callStackCell : ∃ k, ∀ j, j ≠ k → m'.callStack j = m.callStack j := by
    exact ⟨0, fun _ _ => rfl⟩
  callStackCounter : m'.callStackCounter ≠ m.callStackCounter →
      Executes w fun op => TakenCall op m ∨ op = .end := by
    exact fun h => absurd rfl h
  disk : ∀ i, m'.disk i ≠ m.disk i →
      i = arg1Of w ∧ Executes w fun op => writesDisk op = true := by
    exact fun i h => absurd rfl h
  accumulator : m'.accumulator ≠ m.accumulator →
      Executes w fun op => writesAccumulator op (arg1Of w) = true := by
    exact fun h => absurd rfl h
  instructionCounter : m'.instructionCounter ≠ m.instructionCounter + 1 →
      Executes w fun op => TakenBranch op m ∨ TakenCall op m ∨ op = .end := by
    exact fun h => absurd rfl h

/-- A turn changes only the part of the state that belongs to the instruction it has fetched. -/
theorem turn_frame {env : Env} {m m' : State N} {w : Word} (hw : nextWord m = some w)
    (h : Next env m m') : TurnFrame w m m' := by
  obtain ⟨w', m₁, stderr, hw', heval, rfl⟩ := next_cases h
  obtain rfl : w = w' := Option.some.inj (hw.symm.trans hw')
  cases hop : opcodes (rbmlOpcode w) with
  | none =>
    simp only [evaluateInstruction, fetched, hop] at heval
    cases heval
    exact {}
  | some op =>
    rw [evaluateInstruction_fetched env m hop] at heval
    have hframe := handler_frame heval
    exact {
      memory := fun k hk => ⟨(hframe.memory k hk).2, op, hop, (hframe.memory k hk).1⟩
      reg := fun i hi => ⟨op, hop, hframe.reg i hi⟩
      flags := fun hc => ⟨op, hop, hframe.flags hc⟩
      overflow := fun hc => ⟨op, hop, hframe.overflow hc⟩
      divzero := fun hc => ⟨op, hop, hframe.divzero hc⟩
      ioerr := fun hc => ⟨op, hop, hframe.ioerr hc⟩
      jump := fun hc => ⟨op, hop, hframe.jump hc⟩
      callStack := fun hc => ⟨op, hop, hframe.callStack hc⟩
      callStackCell := hframe.callStackCell
      callStackCounter := fun hc => ⟨op, hop, hframe.callStackCounter hc⟩
      disk := fun i hi => ⟨(hframe.disk i hi).2, op, hop, (hframe.disk i hi).1⟩
      accumulator := fun hc => ⟨op, hop, hframe.accumulator hc⟩
      instructionCounter := fun hc =>
        ⟨op, hop, hframe.instructionCounter fun heq => hc (congrArg (· + 1) heq)⟩ }

/-- The machine before `STO r1, 1`, with 7 in `r1` -/
def storing : State 2 :=
  { initialState (fun k => [rbmlInst Opcode.sto.code 1 0 1, 0].getD k 0) [] with
    reg := fun i => if i = 1 then 7 else 0 }

/-- The 7 in `r1` is stored behind the `STO`. -/
theorem turn_frame_storing : ∃ m', Next .silent storing m' ∧ m'.memory 1 = 7 ∧
    TurnFrame (rbmlInst Opcode.sto.code 1 0 1) storing m' := by
  obtain ⟨m', h, hword⟩ : ∃ m', Next .silent storing m' ∧ m'.memory 1 = 7 := ⟨_, .inl rfl, rfl⟩
  exact ⟨m', h, hword, turn_frame rfl h⟩

end Rbml.Machine
