import Rbml.Machine.Run

/-!
# The return stack

The return address of the innermost open call is in the jump register and the others are in
`callStack`, below `callStackCounter`. `returnStack` is that one stack, innermost first. A taken call
pushes its address on it, `END` pops one, and the two places where the code departs from this are
those that the step lemmas below name: a call with the jump register 0 replaces the top, and an `END`
with the counter 0 leaves whatever `callStack[0]` holds.

The counter stays between 0 and `SIZE_OF_CALLSTACK` in every run. Nothing checks for a full call
stack, so the bound is kept by the undefined store that the next call makes.
-/

namespace Rbml.Machine

open Lib

variable {N : Nat}

/-- The entries of a call stack below `n`, the last one first -/
def entriesBelow (callStack : Fin sizeOfCallstack → Word) : Nat → List Word
  | 0 => []
  | n + 1 =>
    (if h : n < sizeOfCallstack then callStack ⟨n, h⟩ else 0) :: entriesBelow callStack n

/-- The live entries: `callStack[callStackCounter - 1]` down to `callStack[0]` -/
def CallState.live (c : CallState) : List Word := entriesBelow c.callStack c.callStackCounter.toNat

/-- The return addresses of the open calls, innermost first -/
def CallState.returnStack (c : CallState) : List Word := c.jump :: c.live

/-- The counter is in its range. -/
def CallState.Bounded (c : CallState) : Prop :=
  0 ≤ c.callStackCounter ∧ c.callStackCounter ≤ sizeOfCallstack

theorem entriesBelow_length (callStack : Fin sizeOfCallstack → Word) (n : Nat) :
    (entriesBelow callStack n).length = n := by
  induction n with
  | zero => rfl
  | succ n ih => simp only [entriesBelow, List.length_cons, ih]

/-- A store at or above `n` leaves the entries below `n`. -/
theorem entriesBelow_update (callStack : Fin sizeOfCallstack → Word) (w : Word) {n : Nat}
    {k : Fin sizeOfCallstack} (hk : n ≤ k) :
    entriesBelow (Function.update callStack k w) n = entriesBelow callStack n := by
  induction n with
  | zero => rfl
  | succ n ih =>
    simp only [entriesBelow]
    rw [ih (Nat.le_of_succ_le hk)]
    split
    next h =>
      rw [Function.update_of_ne]
      intro heq
      rw [← heq] at hk
      exact absurd hk (Nat.not_succ_le_self n)
    · rfl

theorem entriesBelow_succ (callStack : Fin sizeOfCallstack → Word) (k : Fin sizeOfCallstack) :
    entriesBelow callStack (k + 1) = callStack k :: entriesBelow callStack k := by
  simp only [entriesBelow, dif_pos k.isLt]

theorem entriesBelow_getLast (callStack : Fin sizeOfCallstack → Word) (n : Nat) :
    (entriesBelow callStack (n + 1)).getLast? = some (callStack 0) := by
  induction n with
  | zero => rfl
  | succ n ih =>
    rw [entriesBelow, List.getLast?_cons, ih]
    rfl

theorem CallState.live_length {c : CallState} (h : c.Bounded) :
    (c.live.length : Int) = c.callStackCounter := by
  rw [live, entriesBelow_length]
  exact Int.toNat_of_nonneg h.1

theorem CallState.live_eq_nil_iff {c : CallState} (h : c.Bounded) :
    c.live = [] ↔ c.callStackCounter = 0 := by
  rw [← List.length_eq_zero_iff, ← live_length h]
  exact Int.natCast_eq_zero.symm

/-! ## Step lemmas -/

variable {c c' : CallState} {site : Word}

theorem CallStep.bounded {e : Event} (h : CallStep c e c') (hc : c.Bounded) : c'.Bounded := by
  obtain ⟨hlow, hhigh⟩ := hc
  cases h with
  | callPush site hjump hk =>
    have hrange := cIndex_eq_some_iff.mp hk
    constructor <;> simp only <;> omega
  | endPop hcounter hk =>
    constructor <;> simp only <;> omega
  | callEmpty | endEmpty | jumpWrite | compare | other => exact ⟨hlow, hhigh⟩

/-- A call with the jump register 0 takes the top of the return stack for no call. -/
theorem CallStep.returnStack_call_empty (h : CallStep c (.call site) c') (hjump : c.jump = 0) :
    c'.returnStack = site :: c.live := by
  cases h with
  | callEmpty => rfl
  | callPush _ hne => exact absurd hjump hne

/-- Every other call is a push. -/
theorem CallStep.returnStack_call (h : CallStep c (.call site) c') (hjump : c.jump ≠ 0) :
    c'.returnStack = site :: c.returnStack := by
  cases h with
  | callEmpty _ hzero => exact absurd hzero hjump
  | @callPush _ _ k hk =>
    have hcounter := cIndex_eq_some_iff.mp hk
    have hold : c.callStackCounter.toNat = k := by omega
    have hnew : (c.callStackCounter + 1).toNat = k + 1 := by omega
    simp only [CallState.returnStack, CallState.live, hold, hnew, entriesBelow_succ,
      Function.update_self, entriesBelow_update _ _ (Nat.le_refl _)]

/-- `END` with live entries is a pop. -/
theorem CallStep.returnStack_end (h : CallStep c .end c') (hcounter : c.callStackCounter ≠ 0) :
    c'.returnStack = c.live ∧ c'.callStack = c.callStack := by
  cases h with
  | endEmpty hzero => exact absurd hzero hcounter
  | @endPop _ k hk =>
    have hk := cIndex_eq_some_iff.mp hk
    have hold : c.callStackCounter.toNat = k + 1 := by omega
    have hnew : (c.callStackCounter - 1).toNat = k := by omega
    simp only [CallState.returnStack, CallState.live, hold, hnew, entriesBelow_succ, and_self]

/-- `END` with the counter 0 leaves `callStack[0]` in the jump register. -/
theorem CallStep.returnStack_end_empty (h : CallStep c .end c') (hcounter : c.callStackCounter = 0) :
    c'.returnStack = [c.callStack 0] ∧ c'.callStack 0 = 0 := by
  cases h with
  | endEmpty =>
    simp only [CallState.returnStack, CallState.live, hcounter, Int.toNat_zero, entriesBelow,
      Function.update_self, and_self]
  | endPop hne => exact absurd hcounter hne

/-! ## The bounds of the call stack -/

theorem path_bounded {events : List Event} (h : Path CallStep c events c') (hc : c.Bounded) :
    c'.Bounded :=
  h.invariant (fun _ _ _ hb hstep => hstep.bounded hb) hc

theorem initialState_bounded (memory : Fin N → Word) (stdin : List UInt8) :
    (initialState memory stdin).callState.Bounded :=
  ⟨Int.le_refl 0, Int.natCast_nonneg _⟩

section
variable {op : Opcode} {env : Env} {arg1 arg2 : Fin 16} {arg3 : Fin 65536} {m : State N} {i : Int}

theorem saveReturn_error {e : Stop N} (hm : m.callState.Bounded) :
    saveReturn m = .error e ↔ m.jump ≠ 0 ∧ m.callStackCounter = sizeOfCallstack ∧
      e = .fault (.callStack m.callStackCounter) := by
  obtain ⟨hlow, hhigh⟩ := hm
  have hindex : cIndex sizeOfCallstack m.callStackCounter = none ↔
      m.callStackCounter = sizeOfCallstack := by
    rw [cIndex_eq_none_iff]
    simp only [State.callState] at hlow hhigh
    omega
  unfold saveReturn
  split
  next hjump =>
    constructor
    · intro h
      cases h
    · intro h
      exact absurd hjump h.1
  next hjump =>
    rw [bind_eq_error, writeCallStack_eq_error, hindex]
    constructor
    · rintro (h | ⟨m', -, h⟩)
      · exact ⟨hjump, h⟩
      · cases h
    · intro h
      exact .inl h.2

theorem end_ne_error {e : Stop N} (hm : m.callState.Bounded) :
    handler .end env arg1 arg2 arg3 m ≠ .error e := by
  obtain ⟨hlow, hhigh⟩ := hm
  simp only [State.callState] at hlow hhigh
  intro h
  simp only [handler, «end»] at h
  split at h
  next hcounter =>
    rcases bind_eq_error.mp h with h | ⟨w, -, h⟩
    · exact absurd (readCallStack_eq_error.mp h).1 (by decide)
    · exact absurd (writeCallStack_eq_error.mp h).1 (by decide)
  next hcounter =>
    rcases bind_eq_error.mp h with h | ⟨w, -, h⟩
    · have hindex := cIndex_eq_none_iff.mp (readCallStack_eq_error.mp h).1
      omega
    · cases h

/-- The only instruction that accesses the call stack outside its bounds is a taken call that
pushes on a full one. -/
theorem handler_callStack_fault (hm : m.callState.Bounded) :
    handler op env arg1 arg2 arg3 m = .error (.fault (.callStack i)) ↔
      (∃ site, eventOf op arg1 arg2 arg3 m = .call site) ∧ m.jump ≠ 0 ∧
        m.callStackCounter = sizeOfCallstack ∧ i = m.callStackCounter := by
  by_cases hcall : kind op = .call
  · rw [handler_call hcall, onTest]
    simp only [eventOf_eq_call_iff, hcall, true_and, exists_and_left, exists_eq, and_true]
    split
    next htest =>
      rw [call, bind_eq_error, saveReturn_error hm]
      simp only [htest, true_and]
      constructor
      · rintro (⟨hjump, hfull, h⟩ | ⟨m', -, h⟩)
        · cases h
          exact ⟨hjump, hfull, rfl⟩
        · cases h
      · rintro ⟨hjump, hfull, rfl⟩
        exact .inl ⟨hjump, hfull, rfl⟩
    next htest => simp only [reduceCtorEq, htest, false_and]
  · have hevent : ¬ ∃ site, eventOf op arg1 arg2 arg3 m = .call site := by
      rintro ⟨site, h⟩
      exact hcall (eventOf_eq_call_iff.mp h).1
    simp only [hevent, false_and, iff_false]
    intro h
    by_cases hend : op = .end
    · subst hend
      exact end_ne_error hm h
    have hkind : kind op ≠ .end := by
      intro hkind
      cases op <;> first | exact hend rfl | cases hkind
    cases hmemory : accessesMemory op with
    | true =>
      obtain ⟨-, h⟩ := (handler_memory_error hmemory).mp h
      cases h
    | false =>
      have hordinary := handler_error hmemory hcall hkind h
      cases hordinary

/-- The same for a turn -/
theorem step_callStack_fault (hm : m.callState.Bounded) :
    step env m = .error (.fault (.callStack i)) ↔
      (∃ site, event m = .call site) ∧ m.jump ≠ 0 ∧
        m.callStackCounter = sizeOfCallstack ∧ i = m.callStackCounter := by
  cases hw : nextWord m with
  | none =>
    rw [step_of_nextWord_none env hw]
    simp only [event, hw, Except.error.injEq, Stop.fault.injEq, reduceCtorEq, exists_false,
      false_and]
  | some w =>
    rw [step_eq_fault hw]
    cases hop : opcodes (rbmlOpcode w) with
    | none =>
      simp only [evaluateInstruction, fetched, event, hw, hop, reduceCtorEq, exists_false,
        false_and]
    | some op =>
      rw [evaluateInstruction_fetched env m hop, handler_callStack_fault (m := fetched m w) hm,
        eventOf_fetched]
      simp only [event, hw, hop]
      rfl

end

/-- In every run the counter is in its range, and the next turn accesses the call stack outside its
bounds exactly if it pushes on a full call stack. -/
theorem callStack_in_bounds_iff (memory : Fin N → Word) (stdin : List UInt8) {events : List Event}
    {m : State N} (hrun : Path Turn (initialState memory stdin) events m) :
    (0 ≤ m.callStackCounter ∧ m.callStackCounter ≤ sizeOfCallstack) ∧
      ∀ env, (∀ i, step env m ≠ .error (.fault (.callStack i))) ↔
        ¬ ((∃ site, event m = .call site) ∧ m.jump ≠ 0 ∧
          m.callStackCounter = sizeOfCallstack) := by
  have hbounded := path_bounded (callState_path hrun) (initialState_bounded memory stdin)
  refine ⟨hbounded, fun env => ?_⟩
  constructor
  · rintro hsafe ⟨hcall, hjump, hfull⟩
    exact hsafe _ ((step_callStack_fault hbounded).mpr ⟨hcall, hjump, hfull, rfl⟩)
  · intro hroom i h
    obtain ⟨hcall, hjump, hfull, -⟩ := (step_callStack_fault hbounded).mp h
    exact hroom ⟨hcall, hjump, hfull⟩

/-- `BRAN 1` and, at address 1, `CALL 1` -/
def recursion : Fin 2 → Word := fun k =>
  [rbmlInst Opcode.bran.code 0 0 1, rbmlInst Opcode.call.code 0 0 1].getD k 0

/-- The recursion fills the call stack in 102 turns. -/
theorem recursion_path : ∃ events m, Path Turn (initialState recursion []) events m ∧
    (event m, m.jump, m.callStackCounter) = (Event.call 1, 1, 100) :=
  @exists_path_of_turns 2 _ .silent 102 _ _ _ (by decide +kernel)

/-- The next call of the recursion stores at `callStack[100]`. -/
theorem recursion_leaves_callStack :
    ¬ ∀ (N : Nat) (memory : Fin N → Word) (stdin : List UInt8) (events : List Event) (m : State N),
      Path Turn (initialState memory stdin) events m →
      (0 ≤ m.callStackCounter ∧ m.callStackCounter ≤ sizeOfCallstack) ∧
        ∀ env i, step env m ≠ .error (.fault (.callStack i)) := by
  intro h
  obtain ⟨events, m, hrun, hm⟩ := recursion_path
  obtain ⟨hcall, hjump, hcounter⟩ : event m = .call 1 ∧ m.jump = 1 ∧ m.callStackCounter = 100 := by
    simpa only [Prod.mk.injEq] using hm
  obtain ⟨hbounded, hsafe⟩ := h 2 recursion [] events m hrun
  refine hsafe .silent 100 ((step_callStack_fault hbounded).mpr ⟨⟨1, hcall⟩, ?_, ?_, ?_⟩)
  · rw [hjump]
    decide
  · exact hcounter
  · exact hcounter.symm

/-- With the call stack full, the counter is still in its range, and the next turn is not safe. -/
theorem recursion_full_callStack : ∃ events m, Path Turn (initialState recursion []) events m ∧
    (0 ≤ m.callStackCounter ∧ m.callStackCounter ≤ sizeOfCallstack) ∧
      ¬ ∀ i, step .silent m ≠ .error (.fault (.callStack i)) := by
  obtain ⟨events, m, hrun, hm⟩ := recursion_path
  obtain ⟨hcall, hjump, hcounter⟩ : event m = .call 1 ∧ m.jump = 1 ∧ m.callStackCounter = 100 := by
    simpa only [Prod.mk.injEq] using hm
  obtain ⟨hbounded, hsafe⟩ := callStack_in_bounds_iff recursion [] hrun
  refine ⟨events, m, hrun, hbounded, fun h => (hsafe .silent).mp h ⟨⟨1, hcall⟩, ?_, hcounter⟩⟩
  rw [hjump]
  decide

end Rbml.Machine
