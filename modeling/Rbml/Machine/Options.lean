import Rbml.Machine.Placed

/-!
# The options of the emulator (`main` of `rbml.c`)

`-m` sets the size of the memory and `-d` makes each turn of the loop print what it fetches and, after
the instruction, the registers.

A larger memory does not change a run that stays in the smaller one (`run_of_larger_memory`): the first
words are the same at each turn, the words behind them stay as they were loaded, and all the rest of the
state is equal. Debugging changes nothing but the diagnostics, and these are the transcript of the run
(`run_debug`).
-/

namespace Rbml.Machine

open Lib

variable {N N' : Nat}

/-! ## The loop with `-d` -/

/-- `%08x` -/
def hex8Text (w : Word) : String :=
  String.ofList (List.leftpad 8 '0' (Nat.toDigits 16 w.toNat))

/-- A line on `stderr` -/
def State.print (m : State N) (lines : List String) : State N :=
  { m with stderr := m.stderr ++ lines }

/-- What is printed before the instruction is evaluated -/
def traceLine (m : State N) : String :=
  s!"--> 0x{hex8Text m.instructionCounter}: {hex8Text m.instructionRegister}"

/-- The line of the registers `i` and `i + 8` -/
def registerLine (m : State N) (i : Fin 16) : String :=
  s!"r{i.val}:\t0x{hex8Text (m.reg i)}\tr{i.val + 8}:\t0x{hex8Text (m.reg (i + 8))}"

/-- `dump_registers` -/
def dumpRegisters (m : State N) : List String :=
  [0, 1, 2, 3, 4, 5, 6, 7].map (registerLine m) ++
    [s!"acc:\t0x{hex8Text m.accumulator}\tjump:\t0x{hex8Text m.jump}"]

/-- A turn of the loop of `main`, with `debug` -/
def turn (debug : Bool) (env : Env) (m : State N) : Except (Stop N) (State N) := do
  let m ← fetch m
  let m := if debug then m.print [traceLine m] else m
  let m ← evaluateInstruction env m
  let m := if debug then m.print (dumpRegisters m) else m
  advance m

/-- Turns of the loop, one for each environment -/
def run (debug : Bool) (inputs : List Env) (m : State N) : Except (Stop N) (State N) :=
  inputs.foldlM (fun m env => turn debug env m) m

theorem turn_false (env : Env) (m : State N) : turn false env m = step env m := rfl

/-! ## A larger memory -/

section
variable {file : List UInt8}

/-- The word at `k` is made of the bytes from `4 * k` on. -/
theorem wordAt_take {bytes : List UInt8} {n k : Nat} (hk : 4 * k + 4 ≤ n) :
    wordAt (bytes.take n) k = wordAt bytes k := by
  have hbyte : ∀ i, i < n → (bytes.take n).getD i 0 = bytes.getD i 0 := by
    intro i hi
    rw [List.getD_eq_getElem?_getD, List.getD_eq_getElem?_getD, List.getElem?_take_of_lt hi]
  simp only [wordAt]
  rw [hbyte _ (by omega), hbyte _ (by omega), hbyte _ (by omega), hbyte _ (by omega)]

/-- What is loaded below `N` does not depend on what is behind it. -/
theorem loadMemory_castLE (hN : N ≤ N') (k : Fin N) :
    loadMemory N' file (Fin.castLE hN k) = loadMemory N file k := by
  have hk := k.isLt
  simp only [loadMemory, Fin.val_castLE]
  by_cases hsmall : sizeT (programSize file) < N * 4
  · have hlarge : sizeT (programSize file) < N' * 4 := by omega
    rw [if_pos hsmall, if_pos hlarge]
  · rw [if_neg hsmall, wordAt_take (by omega)]
    split <;> rw [wordAt_take (by omega)]

theorem place_initialState (hN : N ≤ N') (stdin : List UInt8) :
    (initialState (loadMemory N file) stdin).place (loadMemory N' file) stdin [] =
      initialState (loadMemory N' file) stdin := by
  have hmemory : ((initialState (loadMemory N file) stdin).place (loadMemory N' file) stdin
      []).memory = loadMemory N' file := by
    ext1 k
    simp only [State.place]
    split
    next hlt => exact (loadMemory_castLE hN ⟨k, hlt⟩).symm
    next => rfl
  rw [State.place] at hmemory ⊢
  simp only [initialState] at hmemory ⊢
  rw [hmemory]

end

/-- What is loaded into a larger memory is what is loaded into the smaller one, and more behind it. -/
theorem load_grown (hN : N ≤ N') {name : String} {file stdin : List UInt8} {m : State N}
    (hload : load name file stdin = .ok m) :
    load name file stdin = .ok (m.place (loadMemory N' file) stdin []) ∧ m.stdin = stdin ∧
      m.stderr = [] := by
  simp only [load] at hload ⊢
  split at hload
  · cases hload
  next hsize =>
    cases hload
    rw [if_neg hsize, place_initialState hN]
    exact ⟨rfl, rfl, rfl⟩

/-- **A larger memory changes nothing.** Take a program file that is loaded into `N` words. It is loaded
into a larger memory too. For as long as the run in the smaller memory does not end for its size, each
turn leaves the same state in both, with the words behind the first `N` as they were loaded, and the
runs end in the same way. -/
theorem run_of_larger_memory (hN : N ≤ N') (name : String) (file stdin : List UInt8) {m : State N}
    (hload : load name file stdin = .ok m) :
    ∃ m' : State N', load name file stdin = .ok m' ∧
      ∀ inputs, Together (loadMemory N' file) Eq Eq (run false inputs m) (run false inputs m') := by
  obtain ⟨hload', hstdin, hstderr⟩ := load_grown hN hload
  refine ⟨_, hload', fun inputs => ?_⟩
  apply Lockstep.foldlM
  · rintro env m _ ⟨_, _, rfl, rfl, rfl⟩
    apply step_together hN rfl rfl
    · rintro w fcontrol s _ rfl
      exact ⟨rfl, rfl⟩
    · rintro s _ line rfl
      rfl
  · exact ⟨stdin, [], hstdin, hstderr, rfl⟩

/-- `COMP r0`, `STOA 3`, `BRAN 0`: the complement of 0 is stored behind the program, again and again. -/
def storingLoop : List Word :=
  [rbmlInst Opcode.comp.code 0 0 0, rbmlInst Opcode.stoa.code 0 0 3, rbmlInst Opcode.bran.code 0 0 0]

/-- `storingLoop` in memories of four words and of six: it stores and branches, and the runs are the same. -/
theorem run_of_larger_memory_storing :
    ∃ (m : State 4) (m' : State 6), load "storing.rbml" (imageOf storingLoop) [] = .ok m ∧
      load "storing.rbml" (imageOf storingLoop) [] = .ok m' ∧
      (run false (List.replicate 4 ⟨0, fun _ => false⟩) m).toOption.map
        (fun m => (m.memory 3, m.instructionCounter)) = some (-1, 1) ∧
      ∀ inputs, Together (loadMemory 6 (imageOf storingLoop)) Eq Eq (run false inputs m)
        (run false inputs m') := by
  have hload : load "storing.rbml" (imageOf storingLoop) [] =
      .ok (initialState (loadMemory 4 (imageOf storingLoop)) []) := rfl
  obtain ⟨m', hload', htogether⟩ := run_of_larger_memory (by decide : 4 ≤ 6) _ _ _ hload
  exact ⟨_, m', hload, hload', by decide +kernel, htogether⟩

/-! ## What `-d` prints -/

/-- The state with other diagnostics -/
def State.withStderr (m : State N) (stderr : List String) : State N := { m with stderr }

theorem place_self (rest : Fin N → Word) (stderr : List String) (m : State N) :
    m.place rest m.stdin stderr = m.withStderr stderr := by
  have hmemory : (m.place rest m.stdin stderr).memory = m.memory := by
    ext1 k
    simp only [State.place, k.isLt, dif_pos]
  rw [State.place] at hmemory ⊢
  simp only at hmemory
  rw [hmemory]
  rfl

/-- The result with other diagnostics. The line of the guard of the loop comes after `log`. -/
def redirect (log : List String) : Except (Stop N) (State N) → Except (Stop N) (State N)
  | .ok m => .ok (m.withStderr log)
  | .error (.exit status m) => .error (.exit status (m.withStderr log))
  | .error (.outOfMemoryRegion m) =>
    .error (.outOfMemoryRegion
      (m.withStderr (log ++ ["Instruction counter out of memory region"])))
  | .error (.fault f) => .error (.fault f)

/-- What a turn prints with `-d`, up to the guard of the loop: the word it fetches, what its instruction
prints, and the registers after it -/
def turnTranscript (env : Env) (m : State N) : List String :=
  match fetch m with
  | .error _ => []
  | .ok m₀ =>
    match evaluateInstruction env (m₀.withStderr []) with
    | .error _ => [traceLine m₀]
    | .ok m₁ => [traceLine m₀] ++ m₁.stderr ++ dumpRegisters m₁

/-- What a run prints with `-d` -/
def transcript : List Env → State N → List String
  | [], _ => []
  | env :: inputs, m =>
    turnTranscript env m ++
      match step env m with
      | .ok m' => transcript inputs m'
      | .error _ => []

/-- The result with more diagnostics in front -/
def prepend (log : List String) : Except (Stop N) (State N) → Except (Stop N) (State N)
  | .ok m => .ok (m.withStderr (log ++ m.stderr))
  | .error (.exit status m) => .error (.exit status (m.withStderr (log ++ m.stderr)))
  | .error (.outOfMemoryRegion m) => .error (.outOfMemoryRegion (m.withStderr (log ++ m.stderr)))
  | .error (.fault f) => .error (.fault f)

/-- A result that is placed behind other diagnostics has these in front. -/
theorem eq_prepend {rest : Fin N → Word} {log : List String} {x y : Except (Stop N) (State N)}
    (h : Together rest Eq (fun s s' => s' = log ++ s) x y) : y = prepend log x := by
  cases h with
  | ok h =>
    obtain ⟨_, _, rfl, rfl, rfl⟩ := h
    rw [place_self]
    rfl
  | error h =>
    cases h with
    | exit status h =>
      obtain ⟨_, _, rfl, rfl, rfl⟩ := h
      rw [place_self]
      rfl
    | outOfMemoryRegion h =>
      obtain ⟨_, _, rfl, rfl, rfl⟩ := h
      rw [place_self]
      rfl
    | fault f => rfl
  | free h => exact absurd h.1 (Nat.lt_irrefl N)

/-- An instruction prints behind what has been printed, and looks at none of it. -/
theorem evaluateInstruction_withStderr (env : Env) (m : State N) (log : List String) :
    evaluateInstruction env (m.withStderr log) =
      prepend log (evaluateInstruction env (m.withStderr [])) := by
  have htogether := @evaluateInstruction_together N N m.memory Eq (fun s s' => s' = log ++ s) m.stdin
    log (m.withStderr []) (Nat.le_refl N) env rfl (List.append_nil log).symm
    (fun _ _ _ => ⟨rfl, rfl⟩) (by rintro s _ line rfl; exact List.append_assoc ..)
  have hplace : (m.withStderr []).place m.memory m.stdin log = m.withStderr log :=
    place_self m.memory log (m.withStderr [])
  rw [hplace] at htogether
  exact eq_prepend htogether

theorem fetch_withStderr (m : State N) (log : List String) :
    fetch (m.withStderr log) = redirect log (fetch m) := by
  have hcounter : (m.withStderr log).instructionCounter = m.instructionCounter := rfl
  simp only [fetch, hcounter]
  cases cIndex N m.instructionCounter.toInt with
  | none => rfl
  | some k => rfl

/-- The guard of the loop, with other diagnostics -/
theorem advance_withStderr (m : State N) (log : List String) :
    advance (m.withStderr log) = redirect log (advance m) := by
  have hcounter : (m.withStderr log).instructionCounter = m.instructionCounter := rfl
  simp only [advance, hcounter]
  split <;> rfl

theorem redirect_redirect (log log' : List String) (x : Except (Stop N) (State N)) :
    redirect log (redirect log' x) = redirect log x := by
  cases x with
  | ok m => rfl
  | error e => cases e <;> rfl

/-- An instruction that does not return has printed nothing. -/
theorem evaluateInstruction_error {env : Env} {m : State N} {e : Stop N}
    (h : evaluateInstruction env m = .error e) : (∃ status, e = .exit status m) ∨ ∃ f, e = .fault f := by
  simp only [evaluateInstruction] at h
  split at h
  · cases h
  · rcases handler_error_cases h with hstop | ⟨-, -, rfl⟩ | ⟨i, rfl⟩
    · cases hstop with
      | exit status => exact .inl ⟨status, rfl⟩
      | quotient | shiftCount | nullStream => exact .inr ⟨_, rfl⟩
    · exact .inr ⟨_, rfl⟩
    · exact .inr ⟨_, rfl⟩

/-- A turn with `-d` does what the turn does without, but for its transcript. -/
theorem turn_true (env : Env) (m : State N) (log : List String) :
    turn true env (m.withStderr log) = redirect (log ++ turnTranscript env m) (step env m) := by
  unfold turn step
  rw [fetch_withStderr]
  cases hfetch : fetch m with
  | error e =>
    obtain ⟨i, rfl⟩ : ∃ i, e = .fault (.fetch i) := by
      unfold fetch at hfetch
      split at hfetch
      · cases hfetch
        exact ⟨_, rfl⟩
      · cases hfetch
    rfl
  | ok m₀ =>
    have hdebug := evaluateInstruction_withStderr env m₀ (log ++ [traceLine m₀])
    have hplain := evaluateInstruction_withStderr env m₀ m₀.stderr
    show (evaluateInstruction env (m₀.withStderr (log ++ [traceLine m₀])) >>= fun m =>
        advance (m.print (dumpRegisters m))) =
      redirect _ (evaluateInstruction env (m₀.withStderr m₀.stderr) >>= advance)
    rw [hdebug, hplain]
    cases hresult : evaluateInstruction env (m₀.withStderr []) with
    | ok m₁ =>
      have htranscript : turnTranscript env m =
          [traceLine m₀] ++ m₁.stderr ++ dumpRegisters m₁ := by
        simp only [turnTranscript, hfetch, hresult]
      rw [htranscript]
      show advance (m₁.withStderr (log ++ [traceLine m₀] ++ m₁.stderr ++ dumpRegisters m₁)) =
        redirect (log ++ ([traceLine m₀] ++ m₁.stderr ++ dumpRegisters m₁))
          (advance (m₁.withStderr (m₀.stderr ++ m₁.stderr)))
      rw [advance_withStderr, advance_withStderr, redirect_redirect]
      simp only [List.append_assoc]
    | error e =>
      have htranscript : turnTranscript env m = [traceLine m₀] := by
        simp only [turnTranscript, hfetch, hresult]
      rw [htranscript]
      rcases evaluateInstruction_error hresult with ⟨status, rfl⟩ | ⟨f, rfl⟩
      · show Except.error (Stop.exit status (m₀.withStderr (log ++ [traceLine m₀] ++ []))) = _
        rw [List.append_nil]
        rfl
      · rfl

/-- **Debugging changes nothing but the diagnostics.** For every list of environments, the run with `-d`
leaves the state that the run without it leaves, or ends as it ends, with the transcript of the run as
the diagnostics. -/
theorem run_debug (inputs : List Env) (m : State N) (log : List String) :
    run true inputs (m.withStderr log) =
      redirect (log ++ transcript inputs m) (run false inputs m) := by
  induction inputs generalizing m log with
  | nil =>
    rw [transcript, List.append_nil]
    rfl
  | cons env inputs ih =>
    have hturn := turn_true env m log
    simp only [run, List.foldlM_cons, transcript, turn_false] at ih ⊢
    rw [hturn]
    cases hstep : step env m with
    | ok m' =>
      show List.foldlM _ (m'.withStderr _) inputs = redirect _ (List.foldlM _ m' inputs)
      rw [ih, List.append_assoc]
    | error e =>
      rw [List.append_nil]
      cases e <;> rfl

end Rbml.Machine
