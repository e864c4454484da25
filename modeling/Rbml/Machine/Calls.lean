import Rbml.Machine.CallStack

/-!
# Calls and returns

The open calls of a run are read off its events: a taken call opens one, `END` closes the last one.
As long as no call is taken directly inside a call that was made from address 0, the return stack of
the machine begins with the open calls, so that `END` returns behind the call that it closes. The
address 0 is excluded because 0 in the jump register also stands for an empty stack: the next call
takes its place and the address is lost.
-/

namespace Rbml.Machine

open Lib

variable {N : Nat}

/-- The open calls after one more event, innermost first -/
def track (opened : List Word) : Event → List Word
  | .call site => site :: opened
  | .end => opened.tail
  | _ => opened

/-- The addresses of the open calls of a run, innermost first -/
def openCalls (events : List Event) : List Word := events.foldl track []

/-- Each `END` has a call to close, and nothing else writes the jump register. -/
def WellNested (opened : List Word) : Event → Prop
  | .end => opened ≠ []
  | .jumpWrite => False
  | _ => True

/-- No call is taken directly inside a call made from address 0. -/
def OutsideZero (opened : List Word) : Event → Prop
  | .call _ => opened.head? ≠ some 0
  | _ => True

instance (opened : List Word) (e : Event) : Decidable (WellNested opened e) := by
  unfold WellNested
  cases e <;> infer_instance

instance (opened : List Word) (e : Event) : Decidable (OutsideZero opened e) := by
  unfold OutsideZero
  cases e <;> infer_instance

/-! ## `END` returns behind its call -/

/-- The return stack is the open calls, over at most one more entry: the empty marker, or what an
earlier call left in `callStack[0]`. -/
def Represents (opened : List Word) (c : CallState) : Prop :=
  ∃ base, base.length ≤ 1 ∧ c.returnStack = opened ++ base

theorem represents_step {opened : List Word} {c c' : CallState} {e : Event}
    (hnest : WellNested opened e) (hzero : OutsideZero opened e)
    (hc : c.Bounded ∧ Represents opened c) (h : CallStep c e c') :
    c'.Bounded ∧ Represents (track opened e) c' := by
  obtain ⟨hbounded, base, hbase, hstack⟩ := hc
  refine ⟨h.bounded hbounded, ?_⟩
  cases e with
  | call site =>
    by_cases hjump : c.jump = 0
    · -- the marker of an empty stack: no call is open, since the innermost one is not from 0
      have hnone : opened = [] := by
        cases opened with
        | nil => rfl
        | cons x opened =>
          have hx : c.jump = x := (List.cons.inj hstack).1
          refine absurd ?_ hzero
          rw [List.head?_cons, ← hx, hjump]
      subst hnone
      have hlive : c.live = [] := by
        have hlength := congrArg List.length hstack
        simp only [CallState.returnStack, List.length_cons, List.nil_append] at hlength
        exact List.length_eq_zero_iff.mp (by omega)
      refine ⟨[], Nat.zero_le 1, ?_⟩
      rw [h.returnStack_call_empty hjump, hlive]
      rfl
    · refine ⟨base, hbase, ?_⟩
      rw [h.returnStack_call hjump, hstack]
      rfl
  | «end» =>
    cases opened with
    | nil => exact absurd rfl hnest
    | cons x opened =>
      have hlive : c.live = opened ++ base := (List.cons.inj hstack).2
      by_cases hcounter : c.callStackCounter = 0
      · have hempty := hlive.symm.trans ((CallState.live_eq_nil_iff hbounded).mpr hcounter)
        obtain ⟨rfl, -⟩ := List.append_eq_nil_iff.mp hempty
        exact ⟨[c.callStack 0], Nat.le_refl 1, (h.returnStack_end_empty hcounter).1⟩
      · refine ⟨base, hbase, ?_⟩
        rw [(h.returnStack_end hcounter).1, hlive]
        rfl
  | jumpWrite => exact hnest.elim
  | compare a b =>
    cases h
    exact ⟨base, hbase, hstack⟩
  | other =>
    cases h
    exact ⟨base, hbase, hstack⟩

/-- The run lemma of the return stack -/
theorem represents_run (memory : Fin N → Word) (stdin : List UInt8) {events : List Event}
    {m : State N} (hrun : Path Turn (initialState memory stdin) events m)
    (hnest : Along track WellNested [] events) (hzero : Along track OutsideZero [] events) :
    m.callState.Bounded ∧ Represents (openCalls events) m.callState := by
  refine Path.foldl (R := fun opened c => c.Bounded ∧ Represents opened c) ?_
    (callState_path hrun) (hnest.and hzero) ?_
  · intro opened c e c' hok hc hstep
    exact represents_step hok.1 hok.2 hc hstep
  · exact ⟨initialState_bounded memory stdin, [0], Nat.le_refl 1, rfl⟩

/-- The next turn goes on behind address `site`, or leaves the memory region there. -/
def ReturnsTo (site : Word) (m : State N) : Prop :=
  ∀ env, (∃ m', step env m = .ok m' ∧ m'.instructionCounter = site + 1) ∨
    (N ≤ sizeT (site + 1) ∧ ∃ m', step env m = .error (.outOfMemoryRegion m'))

theorem handler_end_instructionCounter {env : Env} {arg1 arg2 : Fin 16} {arg3 : Fin 65536}
    {m m' : State N} (h : handler .end env arg1 arg2 arg3 m = .ok m') :
    m'.instructionCounter = m.jump := by
  simp only [handler, «end»] at h
  split at h
  · obtain ⟨w, -, h⟩ := bind_eq_ok.mp h
    obtain ⟨k, -, rfl⟩ := writeCallStack_eq_ok.mp h
    rfl
  · obtain ⟨w, -, h⟩ := bind_eq_ok.mp h
    cases h
    rfl

/-- `END` goes on behind the address in the jump register. -/
theorem returnsTo_jump {m : State N} (hm : m.callState.Bounded) (hend : event m = .end) :
    ReturnsTo m.jump m := by
  intro env
  obtain ⟨w, hw, hop⟩ := event_eq_end_iff.mp hend
  have hturn := step_of_nextWord env hw
  rw [evaluateInstruction_fetched env m hop] at hturn
  cases hresult : handler .end env (arg1Of w) (arg2Of w) (arg3Of w) (fetched m w) with
  | error e => exact absurd hresult (end_ne_error hm)
  | ok m₁ =>
    have hcounter : m₁.instructionCounter = (fetched m w).jump :=
      handler_end_instructionCounter hresult
    change m₁.instructionCounter = m.jump at hcounter
    rw [hresult] at hturn
    have hstep : step env m = advance m₁ := hturn
    by_cases hin : sizeT (m.jump + 1) < N
    · refine .inl ⟨_, hstep.trans (advance_eq_ok.mpr ⟨?_, rfl⟩), ?_⟩
      · rwa [hcounter]
      · simp only [hcounter]
    · have hout : N ≤ sizeT (m.jump + 1) := Nat.not_lt.mp hin
      refine .inr ⟨hout, ?_⟩
      rw [hstep]
      simp only [advance, hcounter, if_pos hout]
      exact ⟨_, rfl⟩

/-- In a run whose `END`s and calls are well nested, and where no call is taken directly inside a
call made from address 0, an `END` returns behind the call it closes, and a call within the depth of
the call stack does not leave it. -/
theorem end_returns_behind_its_call (memory : Fin N → Word) (stdin : List UInt8)
    {events : List Event} {m : State N} (hrun : Path Turn (initialState memory stdin) events m)
    (hnest : Along track WellNested [] events) (hzero : Along track OutsideZero [] events) :
    (∀ site outer, openCalls events = site :: outer → event m = .end → ReturnsTo site m) ∧
      ((openCalls events).length < sizeOfCallstack →
        ∀ env i, step env m ≠ .error (.fault (.callStack i))) := by
  obtain ⟨hbounded, base, hbase, hstack⟩ := represents_run memory stdin hrun hnest hzero
  constructor
  · intro site outer hopen hend
    rw [hopen] at hstack
    have hsite : m.jump = site := (List.cons.inj hstack).1
    rw [← hsite]
    exact returnsTo_jump hbounded hend
  · intro hdepth env i h
    obtain ⟨-, -, hfull, -⟩ := (step_callStack_fault hbounded).mp h
    have hlive := CallState.live_length hbounded
    have hlength := congrArg List.length hstack
    simp only [CallState.returnStack, List.length_cons, List.length_append] at hlength
    simp only [State.callState] at hlive hlength
    omega

/-- `0: CALL 2`, `1: HALT`, `2: CALL 4`, `3: END`, `4: CALL 6`, `5: END`, `6: END` -/
def callsFromZero : Fin 8 → Word := fun k =>
  [rbmlInst Opcode.call.code 0 0 2, rbmlInst Opcode.halt.code 0 0 0,
   rbmlInst Opcode.call.code 0 0 4, rbmlInst Opcode.end.code 0 0 0,
   rbmlInst Opcode.call.code 0 0 6, rbmlInst Opcode.end.code 0 0 0,
   rbmlInst Opcode.end.code 0 0 0].getD k 0

/-- Three nested calls, the outermost from address 0, of which two have been closed -/
theorem callsFromZero_path : ∃ events m, Path Turn (initialState callsFromZero []) events m ∧
    (events, event m, (step .silent m).toOption.map State.instructionCounter) =
      ([.call 0, .call 2, .call 4, .end, .end], .end, some 3) :=
  @exists_path_of_turns 8 _ .silent 5 _
    (fun events m => (events, event m, (step .silent m).toOption.map State.instructionCounter)) _
    (by decide +kernel)

/-- The `END` of the call from address 0 returns to address 3, not to address 1. -/
theorem callsFromZero_end_goes_astray :
    ¬ ∀ (N : Nat) (memory : Fin N → Word) (stdin : List UInt8) (events : List Event) (m : State N),
      Path Turn (initialState memory stdin) events m →
      Along track (fun opened e => WellNested opened e ∧ opened.length ≤ sizeOfCallstack) []
        events →
      ∀ site outer, openCalls events = site :: outer → event m = .end → ReturnsTo site m := by
  intro h
  obtain ⟨events, m, hrun, hm⟩ := callsFromZero_path
  obtain ⟨rfl, hend, hstep⟩ : events = [.call 0, .call 2, .call 4, .end, .end] ∧
      event m = .end ∧ (step .silent m).toOption.map State.instructionCounter = some 3 := by
    simpa only [Prod.mk.injEq] using hm
  rcases h 8 callsFromZero [] _ m hrun (by decide) 0 [] rfl hend .silent with
    ⟨m', hok, hcounter⟩ | ⟨hout, -⟩
  · rw [hok] at hstep
    have hthree : m'.instructionCounter = 3 := Option.some.inj hstep
    rw [hcounter] at hthree
    exact absurd hthree (by decide)
  · exact absurd hout (by decide)

/-- `0: BRAN 1`, `1: CALL 3`, `2: HALT`, `3: CALL 5`, `4: END`, `5: END` -/
def nestedCalls : Fin 6 → Word := fun k =>
  [rbmlInst Opcode.bran.code 0 0 1, rbmlInst Opcode.call.code 0 0 3,
   rbmlInst Opcode.halt.code 0 0 0, rbmlInst Opcode.call.code 0 0 5,
   rbmlInst Opcode.end.code 0 0 0, rbmlInst Opcode.end.code 0 0 0].getD k 0

/-- The inner call of `nestedCalls` returns behind address 3. -/
theorem nestedCalls_returns :
    ∃ m, Path Turn (initialState nestedCalls []) [.other, .call 1, .call 3] m ∧ ReturnsTo 3 m := by
  obtain ⟨events, m, hrun, hm⟩ := @exists_path_of_turns 6 _ .silent 3
    (initialState nestedCalls []) (fun events m => (events, event m))
    ([.other, .call 1, .call 3], .end) (by decide +kernel)
  obtain ⟨rfl, hend⟩ := Prod.mk.inj hm
  exact ⟨m, hrun, (end_returns_behind_its_call nestedCalls [] hrun (by decide) (by decide)).1
    3 [1] rfl hend⟩

end Rbml.Machine
