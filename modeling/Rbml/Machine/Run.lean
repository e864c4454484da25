import Rbml.Machine.Effects

/-!
# Runs

A run is a path of turns of the loop, each labelled with what its instruction does to the
comparison flags and to the call state. `turn_event` is the step lemma of every result about runs.
It projects a turn on the flags and on the three variables that make up the call state, on which a
taken call and an `END` are steps of their own.
-/

namespace Rbml.Machine

open Lib

variable {N : Nat}

/-! ## Events -/

/-- What a turn does to the comparison flags and the call state -/
inductive Event where
  /-- a compare instruction, with its operands -/
  | compare (a b : Word)
  /-- a taken call, with the address it is made from -/
  | call (site : Word)
  | «end»
  /-- another instruction that writes the jump register -/
  | jumpWrite
  | other
  deriving DecidableEq, Repr

def eventOf (op : Opcode) (arg1 arg2 : Fin 16) (arg3 : Fin 65536) (m : State N) : Event :=
  match kind op with
  | .compare =>
    match operands op arg1 arg2 arg3 m with
    | some (a, b) => .compare a b
    | none => .other
  | .jump => if writesJump op arg1 then .jumpWrite else .other
  | .call => if test op m then .call m.instructionCounter else .other
  | .end => .end
  | _ => .other

theorem eventOf_eq_call_iff {op : Opcode} {arg1 arg2 : Fin 16} {arg3 : Fin 65536} {m : State N}
    {site : Word} :
    eventOf op arg1 arg2 arg3 m = .call site ↔
      kind op = .call ∧ test op m = true ∧ site = m.instructionCounter := by
  cases hkind : kind op with
  | call =>
    simp only [eventOf, hkind, true_and]
    split
    next htest => simp only [htest, Event.call.injEq, true_and, eq_comm]
    next htest => simp only [htest, reduceCtorEq, false_and]
  | compare =>
    simp only [eventOf, hkind, reduceCtorEq, false_and, iff_false]
    cases operands op arg1 arg2 arg3 m <;> intro h <;> cases h
  | jump =>
    simp only [eventOf, hkind, reduceCtorEq, false_and, iff_false]
    split <;> intro h <;> cases h
  | plain | store | branch | «end» =>
    simp only [eventOf, hkind, reduceCtorEq, false_and]

theorem eventOf_eq_end_iff {op : Opcode} {arg1 arg2 : Fin 16} {arg3 : Fin 65536} {m : State N} :
    eventOf op arg1 arg2 arg3 m = .end ↔ op = .end := by
  constructor
  · intro h
    cases hkind : kind op with
    | «end» => cases op <;> first | rfl | cases hkind
    | compare =>
      simp only [eventOf, hkind] at h
      split at h <;> cases h
    | jump =>
      simp only [eventOf, hkind] at h
      split at h <;> cases h
    | call =>
      simp only [eventOf, hkind] at h
      split at h <;> cases h
    | plain | store | branch =>
      simp only [eventOf, hkind, reduceCtorEq] at h
  · rintro rfl
    rfl

/-- The word that the next turn fetches -/
def nextWord (m : State N) : Option Word :=
  (cIndex N m.instructionCounter.toInt).map m.memory

/-- What the next turn does to the comparison flags and the call state -/
def event (m : State N) : Event :=
  match nextWord m with
  | none => .other
  | some w =>
    match opcodes (rbmlOpcode w) with
    | none => .other
    | some op => eventOf op (arg1Of w) (arg2Of w) (arg3Of w) m

theorem event_eq_end_iff {m : State N} :
    event m = .end ↔ ∃ w, nextWord m = some w ∧ opcodes (rbmlOpcode w) = some .end := by
  cases hw : nextWord m with
  | none => simp only [event, hw, reduceCtorEq, false_and, exists_false]
  | some w =>
    cases hop : opcodes (rbmlOpcode w) with
    | none => simp only [event, hw, hop, reduceCtorEq, Option.some.injEq, exists_eq_left']
    | some op =>
      simp only [event, hw, hop, eventOf_eq_end_iff, Option.some.injEq, exists_eq_left']

/-- A turn that does not stop, with its event -/
def Turn (m : State N) (e : Event) (m' : State N) : Prop :=
  event m = e ∧ ∃ env, step env m = .ok m'

/-- The state that an instruction is evaluated in -/
def fetched (m : State N) (w : Word) : State N := { m with instructionRegister := w }

/-- The event of an instruction does not depend on the instruction register. -/
theorem eventOf_fetched (op : Opcode) (arg1 arg2 : Fin 16) (arg3 : Fin 65536) (m : State N)
    (w : Word) : eventOf op arg1 arg2 arg3 (fetched m w) = eventOf op arg1 arg2 arg3 m := rfl

theorem fetch_of_nextWord {m : State N} {w : Word} (h : nextWord m = some w) :
    fetch m = .ok (fetched m w) := by
  obtain ⟨k, hk, rfl⟩ := Option.map_eq_some_iff.mp h
  simp only [fetch, hk, fetched]

theorem fetch_eq_ok {m m₀ : State N} (h : fetch m = .ok m₀) :
    ∃ w, nextWord m = some w ∧ m₀ = fetched m w := by
  unfold fetch at h
  split at h
  · cases h
  next k hk =>
    cases h
    exact ⟨m.memory k, by simp only [nextWord, hk, Option.map_some], rfl⟩

theorem advance_eq_ok {m m' : State N} :
    advance m = .ok m' ↔ sizeT (m.instructionCounter + 1) < N ∧
      m' = { m with instructionCounter := m.instructionCounter + 1 } := by
  simp only [advance]
  split
  next hout =>
    constructor
    · intro h
      cases h
    · rintro ⟨hin, -⟩
      exact absurd hin (Nat.not_lt.mpr hout)
  next hout =>
    constructor
    · intro h
      cases h
      exact ⟨Nat.not_le.mp hout, rfl⟩
    · rintro ⟨-, rfl⟩
      rfl

/-- The three parts of a turn -/
theorem step_eq_ok {env : Env} {m m' : State N} (h : step env m = .ok m') :
    ∃ w m₁, nextWord m = some w ∧ evaluateInstruction env (fetched m w) = .ok m₁ ∧
      sizeT (m₁.instructionCounter + 1) < N ∧
      m' = { m₁ with instructionCounter := m₁.instructionCounter + 1 } := by
  obtain ⟨m₀, hfetch, h⟩ := bind_eq_ok.mp h
  obtain ⟨w, hw, rfl⟩ := fetch_eq_ok hfetch
  obtain ⟨m₁, heval, h⟩ := bind_eq_ok.mp h
  obtain ⟨hin, rfl⟩ := advance_eq_ok.mp h
  exact ⟨w, m₁, hw, heval, hin, rfl⟩

/-- Without a word to fetch a turn faults there. -/
theorem step_of_nextWord_none {m : State N} (env : Env) (hw : nextWord m = none) :
    step env m = .error (.fault (.fetch m.instructionCounter.toInt)) := by
  have hk : cIndex N m.instructionCounter.toInt = none := Option.map_eq_none_iff.mp hw
  simp only [step, fetch, hk]
  rfl

theorem step_of_nextWord {m : State N} {w : Word} (env : Env) (hw : nextWord m = some w) :
    step env m = evaluateInstruction env (fetched m w) >>= advance := by
  unfold step
  rw [fetch_of_nextWord hw]
  rfl

/-- A turn with a word to fetch stops with a fault exactly when its instruction does. -/
theorem step_eq_fault {env : Env} {m : State N} {w : Word} (hw : nextWord m = some w) {f : Fault} :
    step env m = .error (.fault f) ↔
      evaluateInstruction env (fetched m w) = .error (.fault f) := by
  rw [step_of_nextWord env hw, bind_eq_error]
  constructor
  · rintro (h | ⟨m₁, -, h⟩)
    · exact h
    · simp only [advance] at h
      split at h <;> cases h
  · exact .inl

/-- The evaluation of a word whose opcode has a row -/
theorem evaluateInstruction_fetched (env : Env) (m : State N) {w : Word} {op : Opcode}
    (hop : opcodes (rbmlOpcode w) = some op) :
    evaluateInstruction env (fetched m w) =
      handler op env (arg1Of w) (arg2Of w) (arg3Of w) (fetched m w) := by
  simp only [evaluateInstruction, fetched, hop]

/-- A word whose opcode has no row changes nothing but the diagnostics. -/
theorem evaluateInstruction_unknown {env : Env} {m m₁ : State N} {w : Word}
    (hop : opcodes (rbmlOpcode w) = none)
    (h : evaluateInstruction env (fetched m w) = .ok m₁) : Quiet m m₁ := by
  simp only [evaluateInstruction, fetched, hop] at h
  cases h
  constructor <;> rfl

/-! ## The comparison flags -/

structure Flags where
  less : Bool
  equal : Bool
  greater : Bool
  deriving DecidableEq, Repr

def State.flags (m : State N) : Flags := ⟨m.less, m.equal, m.greater⟩

/-- The flags that `compare` leaves -/
def flagsOf (a b : Word) : Flags := ⟨a.slt b, decide (a = b), b.slt a⟩

/-- A compare instruction sets the flags from its operands. No other instruction writes them. -/
def Event.flags : Event → Flags → Flags
  | .compare a b, _ => flagsOf a b
  | _, f => f

theorem Quiet.flags {m m' : State N} (h : Quiet m m') : m'.flags = m.flags := by
  simp only [State.flags, h.less, h.equal, h.greater]

/-! ## The call state -/

structure CallState where
  jump : Word
  callStack : Fin sizeOfCallstack → Word
  callStackCounter : Int

def State.callState (m : State N) : CallState := ⟨m.jump, m.callStack, m.callStackCounter⟩

/-- The effect of an event on the call state, where the call stack is accessed inside its bounds -/
inductive CallStep : CallState → Event → CallState → Prop
  /-- `CALL` with the jump register 0 -/
  | callEmpty {c : CallState} (site : Word) (hjump : c.jump = 0) :
    CallStep c (.call site) { c with jump := site }
  | callPush {c : CallState} (site : Word) (hjump : c.jump ≠ 0) {k : Fin sizeOfCallstack}
    (hk : cIndex sizeOfCallstack c.callStackCounter = some k) :
    CallStep c (.call site)
      ⟨site, Function.update c.callStack k c.jump, c.callStackCounter + 1⟩
  /-- `END` with the counter 0 -/
  | endEmpty {c : CallState} (hcounter : c.callStackCounter = 0) :
    CallStep c .end ⟨c.callStack 0, Function.update c.callStack 0 0, c.callStackCounter⟩
  | endPop {c : CallState} (hcounter : c.callStackCounter ≠ 0) {k : Fin sizeOfCallstack}
    (hk : cIndex sizeOfCallstack (c.callStackCounter - 1) = some k) :
    CallStep c .end ⟨c.callStack k, c.callStack, c.callStackCounter - 1⟩
  | jumpWrite {c : CallState} (w : Word) : CallStep c .jumpWrite { c with jump := w }
  | compare {c : CallState} (a b : Word) : CallStep c (.compare a b) c
  | other {c : CallState} : CallStep c .other c

theorem Quiet.callState {m m' : State N} (h : Quiet m m') : m'.callState = m.callState := by
  simp only [State.callState, h.jump, h.callStack, h.callStackCounter]

theorem CallStep.other_of_eq {c c' : CallState} (h : c' = c) : CallStep c .other c' := by
  rw [h]
  exact .other

/-! ## The effect of a handler and of a turn -/

section
variable {op : Opcode} {env : Env} {arg1 arg2 : Fin 16} {arg3 : Fin 65536} {m m' : State N}

theorem call_event (h : call env arg1 arg2 arg3 m = .ok m') :
    m'.flags = m.flags ∧ CallStep m.callState (.call m.instructionCounter) m'.callState := by
  obtain ⟨m₁, hsave, h⟩ := bind_eq_ok.mp h
  cases h
  unfold saveReturn at hsave
  split at hsave
  next hjump =>
    cases hsave
    exact ⟨rfl, .callEmpty _ hjump⟩
  next hjump =>
    obtain ⟨m₂, hwrite, hsave⟩ := bind_eq_ok.mp hsave
    obtain ⟨k, hk, rfl⟩ := writeCallStack_eq_ok.mp hwrite
    cases hsave
    exact ⟨rfl, .callPush _ hjump hk⟩

theorem end_event (h : «end» env arg1 arg2 arg3 m = .ok m') :
    m'.flags = m.flags ∧ CallStep m.callState .end m'.callState := by
  simp only [«end»] at h
  split at h
  next hcounter =>
    obtain ⟨w, hread, h⟩ := bind_eq_ok.mp h
    obtain ⟨k, hk, rfl⟩ := readCallStack_eq_ok.mp hread
    obtain ⟨k', hk', rfl⟩ := writeCallStack_eq_ok.mp h
    cases hk
    cases hk'
    exact ⟨rfl, .endEmpty hcounter⟩
  next hcounter =>
    obtain ⟨w, hread, h⟩ := bind_eq_ok.mp h
    obtain ⟨k, hk, rfl⟩ := readCallStack_eq_ok.mp hread
    cases h
    exact ⟨rfl, .endPop hcounter hk⟩

/-- The effect of a handler on the flags and the call state is that of its event. -/
theorem handler_event (h : handler op env arg1 arg2 arg3 m = .ok m') :
    m'.flags = (eventOf op arg1 arg2 arg3 m).flags m.flags ∧
      CallStep m.callState (eventOf op arg1 arg2 arg3 m) m'.callState := by
  cases hkind : kind op with
  | plain =>
    have hquiet := handler_plain hkind h
    simp only [eventOf, hkind]
    exact ⟨hquiet.flags, .other_of_eq hquiet.callState⟩
  | store =>
    obtain ⟨k, w, stdin, -, rfl⟩ := handler_store hkind h
    simp only [eventOf, hkind]
    exact ⟨rfl, .other⟩
  | compare =>
    obtain ⟨a, b, hab, rfl⟩ := handler_compare hkind h
    simp only [eventOf, hkind, hab]
    exact ⟨rfl, .compare a b⟩
  | jump =>
    have hjump := handler_jump hkind h
    simp only [eventOf, hkind]
    cases hw : writesJump op arg1 with
    | true =>
      simp only [hw, if_true] at hjump
      obtain ⟨w, stdin, rfl⟩ := hjump
      exact ⟨rfl, .jumpWrite w⟩
    | false =>
      simp only [hw, Bool.false_eq_true, if_false] at hjump
      exact ⟨hjump.flags, .other_of_eq hjump.callState⟩
  | branch =>
    rw [handler_branch hkind, onTest] at h
    simp only [eventOf, hkind]
    split at h
    · cases h
      exact ⟨rfl, .other⟩
    · cases h
      exact ⟨rfl, .other⟩
  | call =>
    rw [handler_call hkind, onTest] at h
    simp only [eventOf, hkind]
    split at h
    next htest =>
      rw [if_pos htest]
      exact call_event h
    next htest =>
      rw [if_neg htest]
      cases h
      exact ⟨rfl, .other⟩
  | «end» =>
    obtain rfl : op = .end := by cases op <;> first | rfl | cases hkind
    exact @end_event _ env arg1 arg2 arg3 _ _ h

/-- The step lemma: a turn changes the flags and the call state as its event says. -/
theorem turn_event {e : Event} (h : Turn m e m') :
    m'.flags = e.flags m.flags ∧ CallStep m.callState e m'.callState := by
  obtain ⟨rfl, env, h⟩ := h
  obtain ⟨w, m₁, hw, heval, -, rfl⟩ := step_eq_ok h
  cases hop : opcodes (rbmlOpcode w) with
  | none =>
    have hquiet := evaluateInstruction_unknown hop heval
    simp only [event, hw, hop]
    exact ⟨hquiet.flags, .other_of_eq hquiet.callState⟩
  | some op =>
    rw [evaluateInstruction_fetched env m hop] at heval
    simp only [event, hw, hop]
    have heffect := handler_event heval
    rw [eventOf_fetched] at heffect
    exact heffect

end

/-- The call states of a run -/
theorem callState_path {m m' : State N} {events : List Event} (h : Path Turn m events m') :
    Path CallStep m.callState events m'.callState :=
  h.map State.callState fun _ _ _ hturn => (turn_event hturn).2

/-- `n` turns of the loop in one environment, with their events -/
def turns (env : Env) : Nat → State N → Except (Stop N) (List Event × State N)
  | 0, m => .ok ([], m)
  | n + 1, m => do
    let m' ← step env m
    let (events, m'') ← turns env n m'
    .ok (event m :: events, m'')

theorem turns_path {env : Env} {n : Nat} {m m' : State N} {events : List Event}
    (h : turns env n m = .ok (events, m')) : Path Turn m events m' := by
  induction n generalizing m events with
  | zero =>
    cases h
    exact .nil _
  | succ n ih =>
    obtain ⟨m₁, hstep, h⟩ := bind_eq_ok.mp h
    obtain ⟨⟨events, m₂⟩, hturns, h⟩ := bind_eq_ok.mp h
    cases h
    exact .cons ⟨rfl, env, hstep⟩ (ih hturns)

/-- An environment without input or disks -/
def Env.silent : Env := ⟨0, fun _ => false⟩

/-- A run read off an evaluation of the loop -/
theorem exists_path_of_turns {β : Type} {env : Env} {n : Nat} {m : State N}
    {f : List Event → State N → β} {b : β}
    (h : (turns env n m).toOption.map (fun p => f p.1 p.2) = some b) :
    ∃ events m', Path Turn m events m' ∧ f events m' = b := by
  obtain ⟨⟨events, m'⟩, hturns, hf⟩ := Option.map_eq_some_iff.mp h
  refine ⟨events, m', @turns_path _ env n _ _ _ ?_, hf⟩
  cases hresult : turns env n m with
  | error e =>
    rw [hresult] at hturns
    cases hturns
  | ok p =>
    rw [hresult] at hturns
    cases hturns
    rfl

end Rbml.Machine
