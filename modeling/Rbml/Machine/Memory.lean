import Rbml.Machine.Run

/-!
# Accesses to memory

The run loop checks the counter before each fetch, and that check is enough: compared as a `size_t`,
a negative counter is out of range as well (`fetch_in_memory`).

No handler checks the address of a data access. The address has 16 bits and the memory has the size
that the user asks for, so that a data access leaves the memory exactly if its address does, and no
image can make it do so exactly if the memory has 65536 words or more (`data_access_faults_iff`).
-/

namespace Rbml.Machine

open Lib

variable {N : Nat}

/-! ## Loading -/

/-- A conversion to `size_t` adds the multiple of `2 ^ 32` that a negative number lacks. -/
theorem sizeT_eq (w : Word) : sizeT w = w.toNat + if w.msb then 2 ^ 64 - 2 ^ 32 else 0 := by
  rw [sizeT, BitVec.toNat_signExtend, BitVec.toNat_setWidth, Nat.mod_eq_of_lt (by omega)]

theorem sizeT_ofNat {n : Nat} (h : n < 2 ^ 31) : sizeT (BitVec.ofNat 32 n) = n := by
  have hsize : (BitVec.ofNat 32 n).toNat = n := by
    rw [BitVec.toNat_ofNat]
    exact Nat.mod_eq_of_lt (by omega)
  have hmsb : (BitVec.ofNat 32 n).msb = false := by
    rw [BitVec.msb_eq_false_iff_two_mul_lt, hsize]
    omega
  rw [sizeT_eq, hmsb, hsize]
  rfl

theorem sizeT_programSize {file : List UInt8} (h : file.length < 2 ^ 31) :
    sizeT (programSize file) = file.length := sizeT_ofNat h

/-- What was written is in memory, followed by zeros. -/
theorem loadMemory_imageOf {words : List Word} (h : words.length ≤ N)
    (hsize : 4 * words.length < 2 ^ 31) (k : Fin N) :
    loadMemory N (imageOf words) k = words.getD k 0 := by
  have hlength : (imageOf words).length < 2 ^ 31 := by rwa [imageOf_length]
  simp only [loadMemory, sizeT_programSize hlength]
  rw [← wordAt_imageOf]
  split
  · rw [List.take_length]
  · rw [List.take_of_length_le]
    rw [imageOf_length]
    omega

/-! ## Fetches -/

/-- A counter that passes the guard of the loop is an index. -/
theorem toInt_of_sizeT_lt {w : Word} (hmax : N ≤ 2147483647) (h : sizeT w < N) :
    0 ≤ w.toInt ∧ w.toInt < N := by
  rw [sizeT_eq] at h
  cases hmsb : w.msb with
  | true =>
    rw [hmsb, if_pos rfl] at h
    omega
  | false =>
    rw [hmsb] at h
    rw [BitVec.toInt_eq_msb_cond, hmsb]
    simp only [Bool.false_eq_true, if_false] at h ⊢
    omega

/-- The guard of the loop keeps the counter in memory from one turn to the next. -/
theorem turn_instructionCounter {m m' : State N} {e : Event} (h : Turn m e m') :
    sizeT m'.instructionCounter < N := by
  obtain ⟨-, env, h⟩ := h
  obtain ⟨w, m₁, -, -, hin, rfl⟩ := step_eq_ok h
  exact hin

/-- A word that is fetched is evaluated without another fetch. -/
theorem step_ne_fetch_fault {env : Env} {m : State N} {w : Word} (hw : nextWord m = some w)
    (i : Int) : step env m ≠ .error (.fault (.fetch i)) := by
  rw [Ne, step_eq_fault hw]
  intro h
  cases hop : opcodes (rbmlOpcode w) with
  | none =>
    simp only [evaluateInstruction, fetched, hop] at h
    cases h
  | some op =>
    rw [evaluateInstruction_fetched env m hop] at h
    rcases handler_error_cases h with h | ⟨-, -, h⟩ | ⟨_, h⟩ <;> cases h

/-- For every memory size that an `int` can hold, every content of memory and every run, the next
fetch is inside the memory. -/
theorem fetch_in_memory (hN : 1 ≤ N) (hmax : N ≤ 2147483647) (memory : Fin N → Word)
    (stdin : List UInt8) {events : List Event} {m : State N}
    (hrun : Path Turn (initialState memory stdin) events m) :
    (0 ≤ m.instructionCounter.toInt ∧ m.instructionCounter.toInt < N) ∧
      ∀ env i, step env m ≠ .error (.fault (.fetch i)) := by
  have hstart : sizeT (initialState memory stdin).instructionCounter < N := hN
  have hguard : sizeT m.instructionCounter < N := by
    refine hrun.invariant (P := fun m : State N => sizeT m.instructionCounter < N) ?_ hstart
    intro m e m' _ hturn
    exact turn_instructionCounter hturn
  have hrange := toInt_of_sizeT_lt hmax hguard
  refine ⟨hrange, fun env i => ?_⟩
  cases hw : nextWord m with
  | some w => exact step_ne_fetch_fault hw i
  | none =>
    have hindex : cIndex N m.instructionCounter.toInt = none := Option.map_eq_none_iff.mp hw
    exact absurd hrange (cIndex_eq_none_iff.mp hindex)

/-- `BRAN 0`, then `END` -/
def branchToZero : Fin 2 → Word := fun k =>
  [rbmlInst Opcode.bran.code 0 0 0, rbmlInst Opcode.end.code 0 0 0].getD k 0

/-- After a branch to address 0, the next fetch is inside the memory. -/
theorem branchToZero_fetch_in_memory :
    ∃ m, Path Turn (initialState branchToZero []) [.other] m ∧
      0 ≤ m.instructionCounter.toInt ∧ m.instructionCounter.toInt < 2 := by
  obtain ⟨events, m, hrun, rfl⟩ := @exists_path_of_turns 2 _ .silent 1
    (initialState branchToZero []) (fun events _ => events) [.other] (by decide +kernel)
  exact ⟨m, hrun, (fetch_in_memory (by decide) (by decide) branchToZero [] hrun).1⟩

/-! ## Data accesses -/

/-- The next turn leaves the memory exactly if it executes a data instruction with an address that
is not in memory. -/
theorem step_memory_fault {env : Env} {m : State N} {i : Int} :
    step env m = .error (.fault (.memory i)) ↔
      ∃ w op, nextWord m = some w ∧ opcodes (rbmlOpcode w) = some op ∧ accessesMemory op = true ∧
        N ≤ (arg3Of w).val ∧ i = (arg3Of w).val := by
  constructor
  · intro h
    cases hw : nextWord m with
    | none =>
      rw [step_of_nextWord_none env hw] at h
      cases h
    | some w =>
      rw [step_eq_fault hw] at h
      cases hop : opcodes (rbmlOpcode w) with
      | none =>
        simp only [evaluateInstruction, fetched, hop] at h
        cases h
      | some op =>
        rw [evaluateInstruction_fetched env m hop] at h
        rcases handler_error_cases h with h | ⟨hmemory, hout, h⟩ | ⟨_, h⟩
        · cases h
        · cases h
          exact ⟨w, op, rfl, hop, hmemory, hout, rfl⟩
        · cases h
  · rintro ⟨w, op, hw, hop, hmemory, hout, rfl⟩
    rw [step_eq_fault hw, evaluateInstruction_fetched env m hop]
    exact (handler_memory_error hmemory).mpr ⟨hout, rfl⟩

/-- The first word of a program file is the first that is executed. -/
theorem nextWord_load (hN : 1 ≤ N) (name : String) (w : Word) (stdin : List UInt8) :
    ∃ m : State N, load name (imageOf [w]) stdin = .ok m ∧ nextWord m = some w := by
  have hlength : (imageOf [w]).length = 4 := rfl
  have hsize : sizeT (programSize (imageOf [w])) = 4 := sizeT_programSize (by omega)
  refine ⟨initialState (loadMemory N (imageOf [w])) stdin, ?_, ?_⟩
  · simp only [load, hsize]
    rfl
  · have hfirst : loadMemory N (imageOf [w]) ⟨0, hN⟩ = w :=
      @loadMemory_imageOf N [w] hN (show 4 * 1 < 2 ^ 31 by decide) ⟨0, hN⟩
    have hindex : cIndex N (0 : Word).toInt = some ⟨0, hN⟩ := cIndex_eq_some_iff.mpr rfl
    simp only [nextWord, initialState, hindex, Option.map_some, hfirst]

/-- With at least one word of memory, take every program file, every input and every run. The next
turn accesses data outside the memory exactly if it executes a data instruction whose address is not
in memory. No program can do this exactly if the memory has 65536 words or more. -/
theorem data_access_faults_iff (hN : 1 ≤ N) :
    (∀ name file stdin (m₀ m : State N) events, load name file stdin = .ok m₀ →
      Path Turn m₀ events m → ∀ env,
        (∀ i, step env m ≠ .error (.fault (.memory i))) ↔
          ∀ w op, nextWord m = some w → opcodes (rbmlOpcode w) = some op →
            accessesMemory op = true → (arg3Of w).val < N) ∧
    ((∀ name file stdin (m₀ m : State N) events, load name file stdin = .ok m₀ →
      Path Turn m₀ events m → ∀ env i, step env m ≠ .error (.fault (.memory i))) ↔
        65536 ≤ N) := by
  constructor
  · intro name file stdin m₀ m events _ _ env
    constructor
    · intro hsafe w op hw hop hmemory
      by_contra hout
      exact hsafe _ (step_memory_fault.mpr ⟨w, op, hw, hop, hmemory, Nat.not_lt.mp hout, rfl⟩)
    · intro haddress i h
      obtain ⟨w, op, hw, hop, hmemory, hout, -⟩ := step_memory_fault.mp h
      exact absurd (haddress w op hw hop hmemory) (Nat.not_lt.mpr hout)
  · constructor
    · intro hsafe
      by_contra hsmall
      -- the program whose one instruction stores at the first address behind the memory
      let w := rbmlInst Opcode.sto.code 0 0 (BitVec.ofNat 32 N)
      obtain ⟨m, hload, hw⟩ := nextWord_load hN "" w []
      have haddress : (arg3Of w).val = N := by
        simp only [arg3Of, w, rbmlArg3_inst, toNat_and_ffff, BitVec.toNat_ofNat]
        omega
      refine hsafe "" (imageOf [w]) [] m m [] hload (.nil m) .silent N
        (step_memory_fault.mpr ⟨w, .sto, hw, ?_, rfl, haddress.ge, by rw [haddress]⟩)
      rw [rbmlOpcode_code, opcodes_code]
    · intro hlarge name file stdin m₀ m events _ _ env i h
      obtain ⟨w, op, -, -, -, hout, -⟩ := step_memory_fault.mp h
      have := (arg3Of w).isLt
      omega

/-- A program of one instruction, `STO r0, 1024`, run in the default memory of 1024 words -/
theorem sto_1024_leaves_memory :
    ¬ ∀ (N : Nat), 1 ≤ N → ∀ name file stdin (m₀ m : State N) events,
      load name file stdin = .ok m₀ → Path Turn m₀ events m →
      ∀ env i, step env m ≠ .error (.fault (.memory i)) := by
  intro h
  obtain ⟨m, hload, hw⟩ := @nextWord_load 1024 (by decide) "" 0x00000400 []
  exact h 1024 (by decide) "" _ [] m m [] hload (.nil m) .silent 1024
    (step_memory_fault.mpr ⟨_, .sto, hw, by decide, rfl, by decide, by decide⟩)

/-- In the default memory some program accesses data outside it. -/
theorem default_memory_unsafe :
    ¬ ∀ name file stdin (m₀ m : State 1024) events, load name file stdin = .ok m₀ →
      Path Turn m₀ events m → ∀ env i, step env m ≠ .error (.fault (.memory i)) :=
  fun h => absurd ((data_access_faults_iff (N := 1024) (by decide)).2.mp h) (by decide)

end Rbml.Machine
