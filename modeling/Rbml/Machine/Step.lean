import Mathlib.Data.List.Induction
import Rbml.Machine.Handlers

/-!
# Loader, dispatch and the run loop (`rbml.c`)

`main` reads the program file into a memory of zeros and then repeats three steps for ever: fetch,
`evaluateInstruction`, increment. `step` is one turn of that loop. A run is `step` from the initial
state, once for each element of a list of environments, for as long as no turn stops.

The guard of the loop compares the counter, an `int`, with `SIZE_OF_MMEM`, a `size_t`. The counter
is converted first, so that a negative one becomes very large.
-/

namespace Rbml.Machine

variable {N : Nat}

/-- An `int` converted to `size_t` -/
def sizeT (w : Word) : Nat := (w.signExtend 64).toNat

/-! ## Dispatch -/

/-- The second column of `opcode_defs` -/
def handler : Opcode → OpcodeFn N
  | .sto => sto | .stoa => stoa | .stoj => stoj
  | .lod => lod | .loda => loda | .lodj => lodj
  | .mov => mov | .mova => mova | .movj => movj
  | .crdm => crdm | .crdr => crdr | .crda => crda | .crdj => crdj
  | .writ => writ | .wrta => wrta | .wrtj => wrtj
  | .frdm => frdm | .frdr => frdr | .frda => frda | .frdj => frdj
  | .fwrt => fwrt | .fwta => fwta | .fwtj => fwtj | .repo => repo | .pres => pres
  | .open => «open» | .clos => clos
  | .add => add | .adda => adda | .addj => addj
  | .sub => sub | .suba => suba | .subj => subj
  | .div => div_ | .diva => diva | .divj => divj
  | .mult => mult | .mlta => mlta | .mltj => mltj
  | .mod => mod | .moda => moda | .modj => modj
  | .cjnt => cjnt | .cjna => cjna | .cjnj => cjnj
  | .djnt => djnt | .djna => djna | .djnj => djnj
  | .comp => comp | .compa => compa | .compj => compj
  | .lsft => lsft | .lsfa => lsfa | .lsfj => lsfj
  | .rsft => rsft | .rsfa => rsfa | .rsfj => rsfj
  | .cmp => cmp | .cmpa => cmpa | .cmpj => cmpj | .cmpm => cmpm
  | .bran => bran | .brgt => brgt | .brlt => brlt | .breq => breq | .brge => brge | .brle => brle
  | .call => call | .cagt => cagt | .calt => calt | .caeq => caeq | .cage => cage | .cale => cale
  | .end => «end»
  | .halt => halt | .herr => herr

/-- The rows of `opcode_defs`, in order, each by its operation: `Opcode.code` and `handler` are
its columns. -/
def opcodeDefs : List Opcode :=
  [.sto, .stoa, .stoj, .lod, .loda, .lodj, .mov, .mova, .movj,
   .crdm, .crdr, .crda, .crdj, .writ, .wrta, .wrtj,
   .frdm, .frdr, .frda, .frdj, .fwrt, .fwta, .fwtj, .repo, .pres, .open, .clos,
   .add, .adda, .addj, .sub, .suba, .subj, .div, .diva, .divj,
   .mult, .mlta, .mltj, .mod, .moda, .modj,
   .cjnt, .cjna, .cjnj, .djnt, .djna, .djnj, .comp, .compa, .compj,
   .lsft, .lsfa, .lsfj, .rsft, .rsfa, .rsfj,
   .cmp, .cmpa, .cmpj, .cmpm,
   .bran, .brgt, .brlt, .breq, .brge, .brle,
   .call, .cagt, .calt, .caeq, .cage, .cale, .end, .halt, .herr]

/-- `initInstructions`: each row is stored at its opcode. -/
def initInstructions (defs : List Opcode) : Word → Option Opcode :=
  defs.foldl (fun opcodes d => Function.update opcodes d.code (some d)) fun _ => none

/-- `opcodes` -/
def opcodes : Word → Option Opcode := initInstructions opcodeDefs

theorem mem_opcodeDefs (op : Opcode) : op ∈ opcodeDefs := by
  cases op <;> decide

theorem opcodeDefs_codes_nodup : (opcodeDefs.map Opcode.code).Nodup := by decide

theorem initInstructions_concat (defs : List Opcode) (d : Opcode) :
    initInstructions (defs ++ [d]) =
      Function.update (initInstructions defs) d.code (some d) := by
  unfold initInstructions
  rw [List.foldl_append]
  rfl

/-- A table of rows with distinct opcodes finds exactly its rows. -/
theorem initInstructions_eq_some_iff {defs : List Opcode} (hnodup : (defs.map Opcode.code).Nodup)
    (w : Word) (op : Opcode) :
    initInstructions defs w = some op ↔ op ∈ defs ∧ op.code = w := by
  induction defs using List.reverseRecOn with
  | nil => simp [initInstructions]
  | append_singleton defs d ih =>
    have hsplit := hnodup
    rw [List.map_append, List.map_cons, List.map_nil, List.nodup_append] at hsplit
    obtain ⟨hdefs, -, hdisjoint⟩ := hsplit
    have hnew : ∀ x ∈ defs, x.code ≠ d.code := fun x hx =>
      hdisjoint _ (List.mem_map_of_mem hx) _ (List.mem_singleton_self _)
    rw [initInstructions_concat, Function.update_apply]
    split
    next hw =>
      subst hw
      constructor
      · rintro h
        obtain rfl := Option.some.inj h
        simp
      · rintro ⟨hmem, hcode⟩
        rcases List.mem_append.mp hmem with hmem | hmem
        · exact absurd hcode (hnew op hmem)
        · rw [List.mem_singleton.mp hmem]
    next hw =>
      rw [ih hdefs, List.mem_append, List.mem_singleton]
      constructor
      · rintro ⟨hmem, hcode⟩
        exact ⟨.inl hmem, hcode⟩
      · rintro ⟨hmem | rfl, hcode⟩
        · exact ⟨hmem, hcode⟩
        · exact absurd hcode.symm hw

/-- The dispatch table finds an operation at its opcode and nowhere else. -/
theorem opcodes_eq_some_iff (w : Word) (op : Opcode) : opcodes w = some op ↔ op.code = w := by
  rw [opcodes, initInstructions_eq_some_iff opcodeDefs_codes_nodup]
  exact and_iff_right (mem_opcodeDefs op)

@[simp] theorem opcodes_code (op : Opcode) : opcodes op.code = some op :=
  (opcodes_eq_some_iff _ _).mpr rfl

/-- `RBML_ARG1(w)`, as the index of a register or a disk -/
def arg1Of (w : Word) : Fin 16 := ⟨(rbmlArg1 w).toNat, rbmlArg1_lt w⟩

/-- `RBML_ARG2(w)`, as the index of a register -/
def arg2Of (w : Word) : Fin 16 := ⟨(rbmlArg2 w).toNat, rbmlArg2_lt w⟩

/-- `RBML_ARG3(w)`, as an address -/
def arg3Of (w : Word) : Fin 65536 := ⟨(rbmlArg3 w).toNat, rbmlArg3_lt w⟩

/-- `%x` -/
def hexText (w : Word) : String := String.ofList (Nat.toDigits 16 w.toNat)

/-- The line for a word that no row of `opcode_defs` has the opcode of -/
def unknownOpcode (opcode address : Word) : String :=
  s!"Unknown opcode {hexText opcode} at {hexText address}"

/-- `evaluateInstruction` -/
def evaluateInstruction (env : Env) (m : State N) : Except (Stop N) (State N) :=
  let w := m.instructionRegister
  match opcodes (rbmlOpcode w) with
  | none => .ok { m with
      stderr := m.stderr ++ [unknownOpcode (rbmlOpcode w) m.instructionCounter] }
  | some op => handler op env (arg1Of w) (arg2Of w) (arg3Of w) m

/-! ## The run loop -/

/-- `instructionRegister = memory[instructionCounter]` -/
def fetch (m : State N) : Except (Stop N) (State N) :=
  match cIndex N m.instructionCounter.toInt with
  | none => .error (.fault (.fetch m.instructionCounter.toInt))
  | some k => .ok { m with instructionRegister := m.memory k }

/-- The end of a turn: the increment, and the guard of the loop -/
def advance (m : State N) : Except (Stop N) (State N) :=
  let m := { m with instructionCounter := m.instructionCounter + 1 }
  if N ≤ sizeT m.instructionCounter then
    .error (.outOfMemoryRegion
      { m with stderr := m.stderr ++ ["Instruction counter out of memory region"] })
  else .ok m

/-- One turn of the loop of `main` -/
def step (env : Env) (m : State N) : Except (Stop N) (State N) := do
  let m ← fetch m
  let m ← evaluateInstruction env m
  advance m

/-! ## The loader -/

/-- `program_size = sb.st_size` -/
def programSize (file : List UInt8) : Word := BitVec.ofNat 32 file.length

/-- The memory that the `fread` of `main` leaves: what fits of the file, then zeros -/
def loadMemory (N : Nat) (file : List UInt8) : Fin N → Word :=
  let size := sizeT (programSize file)
  let bytes := if size < N * 4 then file.take size else file.take (4 * N)
  fun k => wordAt bytes k

/-- The globals before the loop: everything that is not loaded is 0. -/
def initialState (memory : Fin N → Word) (stdin : List UInt8) : State N where
  accumulator := 0
  jump := 0
  reg := fun _ => 0
  instructionRegister := 0
  instructionCounter := 0
  memory := memory
  callStack := fun _ => 0
  callStackCounter := 0
  less := false
  equal := false
  greater := false
  overflow := false
  ioerr := false
  divzero := false
  disk := fun _ => none
  streams := 0
  stdin := stdin
  stdout := []
  stderr := []

/-- `main` up to the loop, for a program file that exists and can be read -/
def load (name : String) (file : List UInt8) (stdin : List UInt8) : Except (Stop N) (State N) :=
  let m := initialState (loadMemory N file) stdin
  if sizeT (programSize file) % 4 ≠ 0 then
    .error (.exit 1 { initialState (fun _ => 0) stdin with
      stderr := [s!"Corrupted program {name}: Not multiple of RBML word (4 bytes)"] })
  else .ok m

end Rbml.Machine
