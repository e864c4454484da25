import Rbml.Interpreter.Interpreter
import Rbml.Machine.Memory

/-!
# The emulator simulates the source program

A program that is compiled, written, loaded and run does what the source-level interpreter says, one
turn of the loop for each statement (`program_simulates_source`). An emulator represents an
interpreter when its processor is the interpreter's, its counter is the position of the statement,
and its memory holds the cells. What keeps this going is the soundness of the interpreter: the cells
of instructions hold their words, and the return addresses are positions of statements.

A branch target is the address less one, which the turn increments. At address 0 this is -1, and the
increment wraps around to 0, so that branches need no case for it.
-/

namespace Rbml.Interpreter

open Lib Machine Asm

variable {N : Nat} {lines : List SourceLine}

/-! ## The relation -/

/-- What the interpreter keeps: control is in the program or right behind it, no instruction has been
overwritten, and the return addresses are positions of statements, or 0. -/
structure Config.Sound (lines : List SourceLine) (s : Config) : Prop where
  position : s.position ≤ (statements lines).length
  code : ∀ (k : Nat) (stmt : Statement), (statements lines)[k]? = some stmt →
    isWord lines k = false → s.cells k = stmt.encoded lines
  jump : s.processor.jump.toNat < max 1 (statements lines).length
  callStack : ∀ i, (s.processor.callStack i).toNat < max 1 (statements lines).length

/-- An emulator represents an interpreter. -/
structure Represents (lines : List SourceLine) (s : Config) (m : State N) : Prop where
  sound : s.Sound lines
  state : ∃ w, m = within (fun k => s.cells k) w s.located

/-- The ends of an interpreter and of the emulator that represents it -/
inductive SameEnding : Ending → Stop N → Prop
  | exit (status : Nat) (s : Config) (w : Word) :
    SameEnding (.exit status s) (.exit status (within (fun k => s.cells k) w s.processor))
  | fault (f : Fault) : SameEnding (.fault f) (.fault f)

/-- The results of an interpreter and of the emulator that represents it, as long as the interpreter
keeps to the discipline of the language -/
abbrev Simulates (lines : List SourceLine) :
    Except Ending Config → Except (Stop N) (State N) → Prop :=
  Lockstep (Represents lines) SameEnding Ending.Undisciplined

/-- What is known of a program that has been compiled, and asked of its size and its numbers -/
structure Runnable (lines : List SourceLine) (N : Nat) : Prop where
  defined : ∀ stmt ∈ statements lines, ∀ name, stmt.ident? = some name →
    ∃ n, position lines name = some n
  lexical : ∀ stmt ∈ statements lines, ∀ t ∈ stmt.tokens, t.Lexical
  numbers : ∀ op text reg, .inst2nr op text reg ∈ statements lines → NumberFits text
  size : (statements lines).length < min 65536 N

/-! ## Operands and fields -/

/-- The operations that a class of mnemonics has -/
def Form.allows : Form → Opcode → Bool
  | .inst0, op => !accessesMemory op && (kind op = .plain || op = .end)
  | .inst1a, op => kind op = .branch || kind op = .call
  | .inst2ra, op => op = .sto || op = .lod
  | .inst1r, op | .inst2rr, op | .inst2nr, op =>
    !accessesMemory op && (kind op = .plain || kind op = .compare)

theorem mnemonics_allowed : ∀ entry ∈ mnemonics, Form.allows entry.2.1 entry.2.2 = true := by
  decide

theorem allows_of_lexical {form : Form} {op : Opcode} (h : (Token.inst form op).Lexical) :
    Form.allows form op = true := by
  obtain ⟨name, hname⟩ := h
  exact mnemonics_allowed _ hname

theorem operand_of_lt {n : Nat} (h : n < 16) : operand n = .ok ⟨n, h⟩ := by
  have hindex : cIndex 16 (n : Int) = some ⟨n, h⟩ := cIndex_eq_some_iff.mpr rfl
  simp only [operand, hindex]

theorem target_of_position {ident : String} {n : Nat} (h : position lines ident = some n) :
    target lines ident = .ok n := by
  simp only [target, h]

theorem arg1Of_inst {a : Word} (h : a.toNat < 16) (op b c : Word) :
    arg1Of (rbmlInst op a b c) = ⟨a.toNat, h⟩ := by
  simp only [arg1Of, rbmlArg1_inst, reg_and_f h]

theorem arg2Of_inst {b : Word} (h : b.toNat < 16) (op a c : Word) :
    arg2Of (rbmlInst op a b c) = ⟨b.toNat, h⟩ := by
  simp only [arg2Of, rbmlArg2_inst, reg_and_f h]

theorem arg3Of_inst {n : Nat} (h : n < 65536) (op a b : Word) :
    arg3Of (rbmlInst op a b (BitVec.ofNat 32 n)) = ⟨n, h⟩ := by
  apply Fin.ext
  simp only [arg3Of, rbmlArg3_inst, toNat_and_ffff, BitVec.toNat_ofNat]
  omega

/-! ## One turn -/

/-- The effect of an operation -/
theorem effect_simulates {s : Config} {w : Word} {op : Processor → Except (Stop 0) Processor}
    {y : Except (Stop N) (State N)} (h : Same (fun k => s.cells k) w (op s.located) y) :
    Lockstep (fun p m => m = within (fun k => s.cells k) w p ∧ op s.located = .ok p) SameEnding
      Ending.Undisciplined (s.effect op) y := by
  unfold Config.effect
  generalize op s.located = x at h ⊢
  cases h with
  | ok h => exact .ok ⟨h, rfl⟩
  | error h =>
    cases h with
    | exit status p => exact .error (.exit status { s with processor := p } w)
    | fault f => exact .error (.fault f)
  | free h => exact h.elim

section
variable {s : Config} {m : State N} {w c : Word} {p : Processor} {n : Nat}

/-- The increment takes the emulator to the position that the interpreter goes to. -/
theorem goto_simulates (hrun : Runnable lines N) (hsound : s.Sound lines)
    (hn : n ≤ (statements lines).length) (hcounter : c + 1 = BitVec.ofNat 32 n)
    (hjump : p.jump.toNat < max 1 (statements lines).length)
    (hstack : ∀ i, (p.callStack i).toNat < max 1 (statements lines).length) :
    Simulates (N := N) lines (.ok (s.goto n p))
      (advance (within (fun k => s.cells k) w { p with instructionCounter := c })) := by
  have hsize := hrun.size
  have hadvance : advance (within (N := N) (fun k => s.cells k) w { p with instructionCounter := c }) =
      .ok (within (fun k => s.cells k) w { p with instructionCounter := c + 1 }) := by
    refine advance_eq_ok.mpr ⟨?_, rfl⟩
    show sizeT (c + 1) < N
    rw [hcounter, sizeT_ofNat (by omega)]
    omega
  rw [hadvance, hcounter]
  exact .ok ⟨⟨hn, hsound.code, hjump, hstack⟩, w, rfl⟩

/-- An operation that leaves the return addresses alone: the next statement -/
theorem next_simulates (hrun : Runnable lines N) (hsound : s.Sound lines)
    (hlt : s.position < (statements lines).length) (hcounter : c = BitVec.ofNat 32 s.position)
    (hjump : p.jump = s.processor.jump) (hstack : p.callStack = s.processor.callStack) :
    Simulates (N := N) lines (.ok (s.goto (s.position + 1) p))
      (advance (within (fun k => s.cells k) w { p with instructionCounter := c })) := by
  refine goto_simulates hrun hsound hlt ?_ (hjump ▸ hsound.jump) (hstack ▸ hsound.callStack)
  rw [hcounter, BitVec.ofNat_add]
  rfl

theorem toNat_position (hrun : Runnable lines N) (hlt : s.position < (statements lines).length) :
    (BitVec.ofNat 32 s.position).toNat = s.position := by
  have hsize := hrun.size
  rw [BitVec.toNat_ofNat]
  omega

/-- A turn at an instruction evaluates the word of the instruction. -/
theorem step_of_represents (hrun : Runnable lines N) (hrep : Represents lines s m)
    {stmt : Statement} (hstmt : (statements lines)[s.position]? = some stmt)
    (hword : isWord lines s.position = false) {op : Opcode}
    (hop : rbmlOpcode (stmt.encoded lines) = op.code) (env : Env) :
    step env m = handler op env (arg1Of (stmt.encoded lines)) (arg2Of (stmt.encoded lines))
      (arg3Of (stmt.encoded lines))
      (within (fun k => s.cells k) (stmt.encoded lines) s.located) >>= advance := by
  have hsize := hrun.size
  obtain ⟨hlt, -⟩ := List.getElem?_eq_some_iff.mp hstmt
  obtain ⟨w, rfl⟩ := hrep.state
  have hnext : nextWord (within (N := N) (fun k => s.cells k) w s.located) =
      some (stmt.encoded lines) := by
    have hcounter : (BitVec.ofNat 32 s.position).toInt = s.position := by
      have hposition := toNat_position hrun hlt
      rw [BitVec.toInt_eq_toNat_of_lt (by omega), hposition]
    have hindex : cIndex N (BitVec.ofNat 32 s.position).toInt = some ⟨s.position, by omega⟩ :=
      cIndex_eq_some_iff.mpr hcounter
    show (cIndex N (BitVec.ofNat 32 s.position).toInt).map _ = _
    rw [hindex, Option.map_some]
    exact congrArg some (hrep.sound.code s.position stmt hstmt hword)
  rw [step_of_nextWord env hnext, evaluateInstruction_fetched env _ (by rw [hop, opcodes_code])]
  rfl

/-- An operation on registers, flags and devices -/
theorem plain_simulates (hrun : Runnable lines N) (hsound : s.Sound lines)
    (hlt : s.position < (statements lines).length) {op : Opcode}
    (hmemory : accessesMemory op = false) (hkind : kind op = .plain ∨ kind op = .compare)
    (env : Env) (arg1 arg2 : Fin 16) (arg3 : Fin 65536) :
    Simulates lines
      (s.effect (handler op env arg1 arg2 0) >>= fun p => .ok (s.goto (s.position + 1) p))
      (handler op env arg1 arg2 arg3 (within (N := N) (fun k => s.cells k) w s.located) >>=
        advance) := by
  have hbranch : kind op ≠ .branch := by rcases hkind with h | h <;> rw [h] <;> nofun
  have hcall : kind op ≠ .call := by rcases hkind with h | h <;> rw [h] <;> nofun
  apply (effect_simulates (handler_lockstep hmemory hbranch hcall)).bind
  rintro p _ ⟨rfl, hok⟩
  rcases hkind with hkind | hkind
  · have hquiet := handler_plain hkind hok
    exact next_simulates hrun hsound hlt hquiet.instructionCounter hquiet.jump hquiet.callStack
  · obtain ⟨a, b, -, rfl⟩ := handler_compare hkind hok
    exact next_simulates hrun hsound hlt rfl rfl rfl

/-! ## Calls and returns -/

theorem update_eq_or (f : Fin sizeOfCallstack → Word) (k i : Fin sizeOfCallstack) (v : Word) :
    Function.update f k v i = f i ∨ Function.update f k v i = v := by
  by_cases hi : i = k
  · rw [hi]
    exact .inr (Function.update_self ..)
  · exact .inl (Function.update_of_ne hi ..)

/-- `END` goes on behind its return address, and takes the next one from the call stack. -/
theorem end_eq_ok {env : Env} {arg1 arg2 : Fin 16} {arg3 : Fin 65536} {p p' : Processor}
    (h : handler .end env arg1 arg2 arg3 p = .ok p') :
    p'.instructionCounter = p.jump ∧ (∃ i, p'.jump = p.callStack i) ∧
      ∀ i, p'.callStack i = p.callStack i ∨ p'.callStack i = 0 := by
  simp only [handler, «end»] at h
  split at h
  · obtain ⟨v, hread, h⟩ := bind_eq_ok.mp h
    obtain ⟨k, -, rfl⟩ := readCallStack_eq_ok.mp hread
    obtain ⟨k', -, rfl⟩ := writeCallStack_eq_ok.mp h
    exact ⟨rfl, ⟨k, rfl⟩, fun i => update_eq_or p.callStack k' i 0⟩
  · obtain ⟨v, hread, h⟩ := bind_eq_ok.mp h
    obtain ⟨k, -, rfl⟩ := readCallStack_eq_ok.mp hread
    cases h
    exact ⟨rfl, ⟨k, rfl⟩, fun i => .inl rfl⟩

/-- A call makes its own address the return address, and may push the old one. -/
theorem saveReturn_eq_ok {p p' : Processor} (h : saveReturn p = .ok p') :
    p'.jump = p.instructionCounter ∧
      ∀ i, p'.callStack i = p.callStack i ∨ p'.callStack i = p.jump := by
  unfold saveReturn at h
  split at h
  · cases h
    exact ⟨rfl, fun i => .inl rfl⟩
  · obtain ⟨p₁, hwrite, h⟩ := bind_eq_ok.mp h
    obtain ⟨k, -, rfl⟩ := writeCallStack_eq_ok.mp hwrite
    cases h
    exact ⟨rfl, fun i => update_eq_or p.callStack k i p.jump⟩

theorem end_simulates (hrun : Runnable lines N) (hsound : s.Sound lines)
    (hlt : s.position < (statements lines).length) (env : Env) (arg3 : Fin 65536) :
    Simulates lines
      (s.effect (handler .end env 0 0 0) >>= fun p =>
        .ok (s.goto (p.instructionCounter.toNat + 1) p))
      (handler .end env 0 0 arg3 (within (N := N) (fun k => s.cells k) w s.located) >>=
        advance) := by
  apply (effect_simulates (end_lockstep s.located)).bind
  rintro p _ ⟨rfl, hok⟩
  obtain ⟨hcounter, ⟨i, hjump⟩, hstack⟩ := end_eq_ok hok
  have hreturn : p.instructionCounter.toNat < max 1 (statements lines).length :=
    hcounter ▸ hsound.jump
  refine goto_simulates hrun hsound (by omega) ?_ (hjump ▸ hsound.callStack i) fun i => ?_
  · rw [BitVec.ofNat_add, BitVec.ofNat_toNat, BitVec.setWidth_eq]
    rfl
  · rcases hstack i with h | h
    · rw [h]
      exact hsound.callStack i
    · rw [h]
      exact Nat.lt_of_lt_of_le Nat.one_pos (Nat.le_max_left ..)

/-- The test of a branch does not look at the counter. -/
theorem test_located (op : Opcode) (s : Config) : test op s.located = test op s.processor := by
  cases op <;> rfl

theorem call_simulates (hrun : Runnable lines N) (hsound : s.Sound lines)
    (hlt : s.position < (statements lines).length) (hn : n ≤ (statements lines).length)
    (h : n < 65536) {op : Opcode} (hkind : kind op = .call) (env : Env) (arg1 arg2 : Fin 16) :
    Simulates lines
      (if test op s.processor then s.effect saveReturn >>= fun p => .ok (s.goto n p)
        else .ok (s.goto (s.position + 1) s.processor))
      (handler op env arg1 arg2 ⟨n, h⟩ (within (N := N) (fun k => s.cells k) w s.located) >>=
        advance) := by
  rw [handler_call hkind]
  simp only [onTest, test_within, test_located]
  split
  · rw [call, bind_assoc]
    apply (effect_simulates (saveReturn_lockstep s.located)).bind
    rintro p _ ⟨rfl, hok⟩
    obtain ⟨hjump, hstack⟩ := saveReturn_eq_ok hok
    refine goto_simulates hrun hsound hn (BitVec.sub_add_cancel ..) ?_ fun i => ?_
    · have hposition : p.jump.toNat = s.position := by rw [hjump, ← toNat_position hrun hlt]; rfl
      omega
    · rcases hstack i with h | h
      · rw [h]
        exact hsound.callStack i
      · rw [h]
        exact hsound.jump
  · exact next_simulates hrun hsound hlt rfl rfl rfl

theorem branch_simulates (hrun : Runnable lines N) (hsound : s.Sound lines)
    (hlt : s.position < (statements lines).length) (hn : n ≤ (statements lines).length)
    (h : n < 65536) {op : Opcode} (hkind : kind op = .branch) (env : Env) (arg1 arg2 : Fin 16) :
    Simulates lines
      (.ok (s.goto (if test op s.processor then n else s.position + 1) s.processor))
      (handler op env arg1 arg2 ⟨n, h⟩ (within (N := N) (fun k => s.cells k) w s.located) >>=
        advance) := by
  rw [handler_branch hkind]
  simp only [onTest, test_within, test_located]
  split
  · exact goto_simulates hrun hsound hn (BitVec.sub_add_cancel ..) hsound.jump hsound.callStack
  · exact next_simulates hrun hsound hlt rfl rfl rfl

/-! ## Loads and stores -/

theorem lod_simulates (hrun : Runnable lines N) (hsound : s.Sound lines)
    (hlt : s.position < (statements lines).length) (hn : n ≤ (statements lines).length)
    (h : n < 65536) (env : Env) (arg1 arg2 : Fin 16) :
    Simulates lines (.ok (s.goto (s.position + 1) (s.processor.setReg arg1 (s.cells n))))
      (handler .lod env arg1 arg2 ⟨n, h⟩ (within (N := N) (fun k => s.cells k) w s.located) >>=
        advance) := by
  have hsize := hrun.size
  have hread : (within (N := N) (fun k => s.cells k) w s.located).readMemory n =
      .ok (s.cells n) :=
    readMemory_eq_ok.mpr ⟨⟨n, by omega⟩, cIndex_eq_some_iff.mpr rfl, rfl⟩
  simp only [handler, lod, hread]
  exact next_simulates hrun hsound hlt rfl rfl rfl

theorem sto_simulates (hrun : Runnable lines N) (hsound : s.Sound lines)
    (hlt : s.position < (statements lines).length) (hn : n ≤ (statements lines).length)
    (h : n < 65536) (hword : isWord lines n = true) (env : Env) (arg1 arg2 : Fin 16) :
    Simulates lines
      (.ok { s.goto (s.position + 1) s.processor with
        cells := Function.update s.cells n (s.processor.reg arg1) })
      (handler .sto env arg1 arg2 ⟨n, h⟩ (within (N := N) (fun k => s.cells k) w s.located) >>=
        advance) := by
  have hsize := hrun.size
  have hcells : Function.update (fun k : Fin N => s.cells k) ⟨n, by omega⟩ (s.processor.reg arg1) =
      fun k : Fin N => Function.update s.cells n (s.processor.reg arg1) k := by
    funext k
    simp only [Function.update_apply, Fin.ext_iff]
  have hwrite : (within (N := N) (fun k => s.cells k) w s.located).writeMemory n
        (s.processor.reg arg1) =
      .ok (within (fun k => Function.update s.cells n (s.processor.reg arg1) k) w s.located) :=
    writeMemory_eq_ok.mpr ⟨⟨n, by omega⟩, cIndex_eq_some_iff.mpr rfl, by rw [← hcells]; rfl⟩
  have hsound' : Config.Sound lines
      { s with cells := Function.update s.cells n (s.processor.reg arg1) } := by
    refine ⟨hsound.position, fun k stmt hstmt hnot => ?_, hsound.jump, hsound.callStack⟩
    have hne : k ≠ n := by
      rintro rfl
      rw [hword] at hnot
      cases hnot
    exact (Function.update_of_ne hne ..).trans (hsound.code k stmt hstmt hnot)
  show Simulates lines _
    ((within (N := N) (fun k => s.cells k) w s.located).writeMemory n (s.processor.reg arg1) >>= _)
  rw [hwrite]
  exact next_simulates hrun hsound' hlt rfl rfl rfl

/-! ## One step of both -/

/-- A statement with a mnemonic is no `WORD`. -/
theorem isWord_eq_false {k : Nat} {stmt : Statement} (hstmt : (statements lines)[k]? = some stmt)
    {form : Form} {op : Opcode} (htoken : .inst form op ∈ stmt.tokens) : isWord lines k = false := by
  unfold isWord
  rw [hstmt]
  cases stmt with
  | word text => simp [Statement.tokens] at htoken
  | _ => rfl

/-- The class of a mnemonic allows its operation. -/
theorem Runnable.allows (hrun : Runnable lines N) {stmt : Statement} {form : Form} {op : Opcode}
    (hmem : stmt ∈ statements lines) (htoken : .inst form op ∈ stmt.tokens) :
    Form.allows form op = true := allows_of_lexical (hrun.lexical stmt hmem _ htoken)

theorem Runnable.reg_lt (hrun : Runnable lines N) {stmt : Statement} {reg : Word}
    (hmem : stmt ∈ statements lines) (htoken : .reg reg ∈ stmt.tokens) : reg.toNat < 16 :=
  hrun.lexical stmt hmem _ htoken

/-- A symbol that is named has a position in the program or right behind it. -/
theorem Runnable.label (hrun : Runnable lines N) {stmt : Statement} {ident : String}
    (hmem : stmt ∈ statements lines) (hident : stmt.ident? = some ident) :
    ∃ n, position lines ident = some n ∧ n ≤ (statements lines).length ∧ n < 65536 := by
  obtain ⟨n, hn⟩ := hrun.defined stmt hmem ident hident
  have hsize := hrun.size
  have hle := position_le hn
  exact ⟨n, hn, hle, by omega⟩

section
variable (hrun : Runnable lines N) (hrep : Represents lines s m) (env : Env)
include hrun hrep

/-- A statement whose operation has its effect on the processor only -/
theorem register_simulates {stmt : Statement}
    (hstmt : (statements lines)[s.position]? = some stmt) {op : Opcode}
    (hop : rbmlOpcode (stmt.encoded lines) = op.code) {form : Form}
    (hform : form = .inst1r ∨ form = .inst2rr ∨ form = .inst2nr)
    (htoken : .inst form op ∈ stmt.tokens) :
    Simulates lines
      (s.effect (handler op env (arg1Of (stmt.encoded lines)) (arg2Of (stmt.encoded lines)) 0) >>=
        fun p => .ok (s.goto (s.position + 1) p))
      (step env m) := by
  obtain ⟨hlt, -⟩ := List.getElem?_eq_some_iff.mp hstmt
  have hallows := hrun.allows (List.mem_of_getElem? hstmt) htoken
  have hregister : accessesMemory op = false ∧ (kind op = .plain ∨ kind op = .compare) := by
    rcases hform with rfl | rfl | rfl <;> simpa [Form.allows] using hallows
  rw [step_of_represents hrun hrep hstmt (isWord_eq_false hstmt htoken) hop env]
  exact plain_simulates hrun hrep.sound hlt hregister.1 hregister.2 env _ _ _

theorem inst0_simulates {op : Opcode}
    (hstmt : (statements lines)[s.position]? = some (.inst0 op)) :
    Simulates lines (execute lines env s (.inst0 op)) (step env m) := by
  obtain ⟨hlt, -⟩ := List.getElem?_eq_some_iff.mp hstmt
  have htoken : .inst .inst0 op ∈ (Statement.inst0 op).tokens := List.mem_singleton_self _
  have hallows := hrun.allows (List.mem_of_getElem? hstmt) htoken
  have harg1 : arg1Of (Statement.encoded lines (.inst0 op)) = 0 :=
    arg1Of_inst (a := 0) (by decide) op.code 0 0
  have harg2 : arg2Of (Statement.encoded lines (.inst0 op)) = 0 :=
    arg2Of_inst (b := 0) (by decide) op.code 0 0
  rw [step_of_represents hrun hrep hstmt (isWord_eq_false hstmt htoken) (rbmlOpcode_code op 0 0 0)
    env, harg1, harg2]
  simp only [Form.allows, Bool.and_eq_true, Bool.not_eq_true', Bool.or_eq_true,
    decide_eq_true_eq] at hallows
  obtain ⟨hmemory, hplain | rfl⟩ := hallows
  · have hend : op ≠ .end := by
      rintro rfl
      cases hplain
    simp only [execute, if_neg hend]
    exact plain_simulates hrun hrep.sound hlt hmemory (.inl hplain) env 0 0 _
  · exact end_simulates hrun hrep.sound hlt env _

theorem inst1a_simulates {op : Opcode} {ident : String}
    (hstmt : (statements lines)[s.position]? = some (.inst1a op ident)) :
    Simulates lines (execute lines env s (.inst1a op ident)) (step env m) := by
  obtain ⟨hlt, -⟩ := List.getElem?_eq_some_iff.mp hstmt
  have hmem := List.mem_of_getElem? hstmt
  have htoken : .inst .inst1a op ∈ (Statement.inst1a op ident).tokens := List.mem_cons_self
  have hallows := hrun.allows hmem htoken
  obtain ⟨n, hn, hle, haddress⟩ := hrun.label hmem rfl
  have harg3 : arg3Of (Statement.encoded lines (.inst1a op ident)) = ⟨n, haddress⟩ := by
    rw [encoded_of_position rfl hn]
    exact arg3Of_inst haddress op.code 0 0
  rw [step_of_represents hrun hrep hstmt (isWord_eq_false hstmt htoken) (rbmlOpcode_code op 0 0 _)
    env, harg3]
  simp only [Form.allows, Bool.or_eq_true, decide_eq_true_eq] at hallows
  rcases hallows with hbranch | hcall
  · have hexecute : execute lines env s (.inst1a op ident) =
        .ok (s.goto (if test op s.processor then n else s.position + 1) s.processor) := by
      simp only [execute, target_of_position hn, hbranch, reduceCtorEq, if_false, if_true]
      rfl
    rw [hexecute]
    exact branch_simulates hrun hrep.sound hlt hle haddress hbranch env _ _
  · have hexecute : execute lines env s (.inst1a op ident) =
        if test op s.processor then s.effect saveReturn >>= fun p => .ok (s.goto n p)
        else .ok (s.goto (s.position + 1) s.processor) := by
      simp only [execute, target_of_position hn, hcall, if_true]
      rfl
    rw [hexecute]
    exact call_simulates hrun hrep.sound hlt hle haddress hcall env _ _

theorem inst1r_simulates {op : Opcode} {reg : Word}
    (hstmt : (statements lines)[s.position]? = some (.inst1r op reg)) :
    Simulates lines (execute lines env s (.inst1r op reg)) (step env m) := by
  have hreg : reg.toNat < 16 :=
    hrun.reg_lt (List.mem_of_getElem? hstmt) (by simp [Statement.tokens])
  have harg1 : arg1Of (Statement.encoded lines (.inst1r op reg)) = ⟨reg.toNat, hreg⟩ :=
    arg1Of_inst hreg op.code 0 0
  have harg2 : arg2Of (Statement.encoded lines (.inst1r op reg)) = 0 :=
    arg2Of_inst (b := 0) (by decide) op.code reg 0
  have hstep := register_simulates hrun hrep env hstmt (rbmlOpcode_code op reg 0 0) (.inl rfl)
    List.mem_cons_self
  rw [harg1, harg2] at hstep
  simp only [execute, operand_of_lt hreg]
  exact hstep

theorem inst2rr_simulates {op : Opcode} {reg₁ reg₂ : Word}
    (hstmt : (statements lines)[s.position]? = some (.inst2rr op reg₁ reg₂)) :
    Simulates lines (execute lines env s (.inst2rr op reg₁ reg₂)) (step env m) := by
  have hreg₁ : reg₁.toNat < 16 :=
    hrun.reg_lt (List.mem_of_getElem? hstmt) (by simp [Statement.tokens])
  have hreg₂ : reg₂.toNat < 16 :=
    hrun.reg_lt (List.mem_of_getElem? hstmt) (by simp [Statement.tokens])
  have harg1 : arg1Of (Statement.encoded lines (.inst2rr op reg₁ reg₂)) = ⟨reg₁.toNat, hreg₁⟩ :=
    arg1Of_inst hreg₁ op.code reg₂ 0
  have harg2 : arg2Of (Statement.encoded lines (.inst2rr op reg₁ reg₂)) = ⟨reg₂.toNat, hreg₂⟩ :=
    arg2Of_inst hreg₂ op.code reg₁ 0
  have hstep := register_simulates hrun hrep env hstmt (rbmlOpcode_code op reg₁ reg₂ 0)
    (.inr (.inl rfl)) List.mem_cons_self
  rw [harg1, harg2] at hstep
  simp only [execute, operand_of_lt hreg₁, operand_of_lt hreg₂]
  exact hstep

theorem inst2nr_simulates {op : Opcode} {text : List Char} {reg : Word}
    (hstmt : (statements lines)[s.position]? = some (.inst2nr op text reg)) :
    Simulates lines (execute lines env s (.inst2nr op text reg)) (step env m) := by
  have hmem := List.mem_of_getElem? hstmt
  have hreg : reg.toNat < 16 := hrun.reg_lt hmem (by simp [Statement.tokens])
  have hfits := hrun.numbers op text reg hmem
  have hvalue := numberValue_toNat hfits
  have hnumber : (numberValue text).toNat < 16 := by
    obtain ⟨hpos, hlt⟩ := hfits
    omega
  have harg1 : arg1Of (Statement.encoded lines (.inst2nr op text reg)) =
      ⟨(numberValue text).toNat, hnumber⟩ := arg1Of_inst hnumber op.code reg 0
  have harg2 : arg2Of (Statement.encoded lines (.inst2nr op text reg)) = ⟨reg.toNat, hreg⟩ :=
    arg2Of_inst hreg op.code (numberValue text) 0
  have hstep := register_simulates hrun hrep env hstmt
    (rbmlOpcode_code op (numberValue text) reg 0) (.inr (.inr rfl)) List.mem_cons_self
  rw [harg1, harg2] at hstep
  simp only [execute, ← hvalue, operand_of_lt hnumber, operand_of_lt hreg]
  exact hstep

theorem inst2ra_simulates {op : Opcode} {reg : Word} {ident : String}
    (hstmt : (statements lines)[s.position]? = some (.inst2ra op reg ident)) :
    Simulates lines (execute lines env s (.inst2ra op reg ident)) (step env m) := by
  obtain ⟨hlt, -⟩ := List.getElem?_eq_some_iff.mp hstmt
  have hmem := List.mem_of_getElem? hstmt
  have htoken : .inst .inst2ra op ∈ (Statement.inst2ra op reg ident).tokens := List.mem_cons_self
  have hallows := hrun.allows hmem htoken
  have hreg : reg.toNat < 16 := hrun.reg_lt hmem (by simp [Statement.tokens])
  obtain ⟨n, hn, hle, haddress⟩ := hrun.label hmem rfl
  have harg1 : arg1Of (Statement.encoded lines (.inst2ra op reg ident)) = ⟨reg.toNat, hreg⟩ :=
    arg1Of_inst hreg op.code 0 _
  have harg3 : arg3Of (Statement.encoded lines (.inst2ra op reg ident)) = ⟨n, haddress⟩ := by
    rw [encoded_of_position rfl hn]
    exact arg3Of_inst haddress op.code reg 0
  rw [step_of_represents hrun hrep hstmt (isWord_eq_false hstmt htoken) (rbmlOpcode_code op reg 0 _)
    env, harg1, harg3]
  simp only [Form.allows, Bool.or_eq_true, decide_eq_true_eq] at hallows
  rcases hallows with rfl | rfl
  · by_cases hword : isWord lines n = true
    · have hexecute : execute lines env s (.inst2ra .sto reg ident) =
          .ok { s.goto (s.position + 1) s.processor with
            cells := Function.update s.cells n (s.processor.reg ⟨reg.toNat, hreg⟩) } := by
        simp only [execute, target_of_position hn, operand_of_lt hreg]
        exact if_pos hword
      rw [hexecute]
      exact sto_simulates hrun hrep.sound hlt hle haddress hword env _ _
    · have hexecute : execute lines env s (.inst2ra .sto reg ident) =
          .error (.store s.position) := by
        simp only [execute, target_of_position hn, operand_of_lt hreg]
        exact if_neg hword
      rw [hexecute]
      exact .free trivial
  · have hexecute : execute lines env s (.inst2ra .lod reg ident) =
        .ok (s.goto (s.position + 1) (s.processor.setReg ⟨reg.toNat, hreg⟩ (s.cells n))) := by
      simp only [execute, target_of_position hn, operand_of_lt hreg]
      rfl
    rw [hexecute]
    exact lod_simulates hrun hrep.sound hlt hle haddress env _ _

/-- The step lemma: one statement is one turn of the loop. -/
theorem interpret_simulates : Simulates lines (interpret lines s env) (step env m) := by
  unfold interpret
  split
  · exact .free trivial
  next stmt hstmt =>
    cases stmt with
    | word text => exact .free trivial
    | inst0 op => exact inst0_simulates hrun hrep env hstmt
    | inst1a op ident => exact inst1a_simulates hrun hrep env hstmt
    | inst1r op reg => exact inst1r_simulates hrun hrep env hstmt
    | inst2rr op reg₁ reg₂ => exact inst2rr_simulates hrun hrep env hstmt
    | inst2ra op reg ident => exact inst2ra_simulates hrun hrep env hstmt
    | inst2nr op text reg => exact inst2nr_simulates hrun hrep env hstmt

end

end

/-! ## Loading and running -/

/-- A program that is loaded represents the interpreter before a run. -/
theorem load_represents {c : Code} (hcompiles : Compiles lines c)
    (hsize : c.text.length < min 65536 N) (programFile : String) (stdin : List UInt8) :
    ∃ m₀ : State N, load programFile (codeWrite c) stdin = .ok m₀ ∧
      Represents lines (start lines stdin) m₀ := by
  have hlength : (codeWrite c).length = 4 * c.text.length := imageOf_length c.text
  have hprogram : sizeT (programSize (codeWrite c)) = 4 * c.text.length := by
    rw [sizeT_programSize (by omega), hlength]
  refine ⟨initialState (loadMemory N (codeWrite c)) stdin, ?_, ?_, 0, ?_⟩
  · have hwhole : ¬ 4 * c.text.length % 4 ≠ 0 := by omega
    simp only [load, hprogram, if_neg hwhole]
  · refine ⟨Nat.zero_le _, ?_, Nat.lt_of_lt_of_le Nat.one_pos (Nat.le_max_left ..),
      fun _ => Nat.lt_of_lt_of_le Nat.one_pos (Nat.le_max_left ..)⟩
    intro k stmt hstmt _
    simp only [start, initialCells, hstmt]
  · have hmemory : loadMemory N (codeWrite c) = fun k : Fin N => initialCells lines k := by
      funext k
      rw [codeWrite, loadMemory_imageOf (by omega) (by omega), hcompiles.text, initialCells,
        List.getD_eq_getElem?_getD, List.getElem?_map]
      cases (statements lines)[(k : Nat)]? <;> rfl
    rw [hmemory]
    rfl

/-- **The emulator simulates the source program.** Take a text that the compiler accepts, with
numbers in 0..15 and fewer words than an address can have and than the memory has. The operations of
its program are those that its mnemonics name, and its file is loaded. From then on every list of
environments takes the emulator and the interpreter from states to states that belong together, or
to ends that do, for as long as the interpreter stores to `WORD` statements only and control stays
on instructions. -/
theorem program_simulates_source (inputFile : String) (text : List Char) (c : Code)
    (h : (compile (rbmlParse text) inputFile).written = some c) :
    ∃ lines, WrittenAs text lines ∧ (∀ lines', WrittenAs text lines' → lines' = lines) ∧
      (∀ stmt ∈ statements lines, ∀ form op, Token.inst form op ∈ stmt.tokens →
        (op.name, form, op) ∈ mnemonics) ∧
      ((∀ op number reg, Statement.inst2nr op number reg ∈ statements lines → NumberFits number) →
        ∀ N, c.text.length < min 65536 N → ∀ (programFile : String) (stdin : List UInt8),
          ∃ m₀ : State N, load programFile (codeWrite c) stdin = .ok m₀ ∧
            ∀ envs : List Env,
              Simulates lines (envs.foldlM (interpret lines) (start lines stdin))
                (envs.foldlM (fun m env => step env m) m₀)) := by
  obtain ⟨lines, hwritten, hcompiles⟩ := program_of_accepted h
  refine ⟨lines, hwritten, fun _ h' => writtenAs_unique h' hwritten, ?_, ?_⟩
  · intro stmt hstmt form op htoken
    obtain ⟨name, hname⟩ := hcompiles.lexical stmt hstmt _ htoken
    have heq : op.name = name := mnemonics_name _ hname
    exact heq ▸ hname
  · intro hnumbers N hsize programFile stdin
    obtain ⟨m₀, hload, hrep⟩ := load_represents hcompiles hsize programFile stdin
    have hlength : c.text.length = (statements lines).length := by
      rw [hcompiles.text, List.length_map]
    have hrun : Runnable lines N :=
      ⟨hcompiles.defined, hcompiles.lexical, hnumbers, hlength ▸ hsize⟩
    refine ⟨m₀, hload, fun envs => ?_⟩
    exact Lockstep.foldlM (fun env _ _ hrep' => interpret_simulates hrun hrep' env) envs hrep

/-- A loop from address 0 that copies numbers from the console -/
def echo : List Char := "top: CRDR 0, r1\nWRIT 0, r1\nBRAN top".toList

def echoLines : List SourceLine :=
  [⟨some "top", some (.inst2nr .crdr ['0'] 1)⟩,
   ⟨none, some (.inst2nr .writ ['0'] 1)⟩,
   ⟨none, some (.inst1a .bran "top")⟩]

theorem echo_accepted :
    (compile (rbmlParse echo) "echo.asm").written.map Code.text =
      some [0xb1010000, 0xb4010000, 0x30000000] := by decide +kernel

theorem echo_writtenAs : WrittenAs echo echoLines :=
  ⟨List.cons_ne_nil _ _, by decide +kernel, by decide +kernel⟩

/-- The emulator and the interpreter run the loop in lockstep, in the default memory and for every
input. -/
theorem echo_simulates_source :
    ∃ c, (compile (rbmlParse echo) "echo.asm").written = some c ∧ ∀ stdin,
      ∃ m₀ : State 1024, load "echo.rbml" (codeWrite c) stdin = .ok m₀ ∧
        ∀ envs : List Env,
          Simulates echoLines (envs.foldlM (interpret echoLines) (start echoLines stdin))
            (envs.foldlM (fun m env => step env m) m₀) := by
  obtain ⟨c, hc, htext⟩ := Option.map_eq_some_iff.mp echo_accepted
  obtain ⟨lines, -, hunique, -, hsimulates⟩ := program_simulates_source "echo.asm" echo c hc
  obtain rfl := hunique _ echo_writtenAs
  refine ⟨c, hc, fun stdin => hsimulates ?_ 1024 (by rw [htext]; decide) "echo.rbml" stdin⟩
  intro op number reg hmem
  have hmember : Statement.inst2nr op number reg = .inst2nr .crdr ['0'] 1 ∨
      Statement.inst2nr op number reg = .inst2nr .writ ['0'] 1 := by
    simpa [statements, echoLines] using hmem
  rcases hmember with heq | heq
  · cases heq
    decide
  · cases heq
    decide

end Rbml.Interpreter
