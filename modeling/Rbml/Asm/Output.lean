import Rbml.Asm.Program
import Rbml.Lib.Stream

/-!
# The output file (`code_write`, and `main` of `rbmlc.c`)

`code_write` opens the output file, writes the program text with one `fwrite` and looks at the error
indicator of the stream. What `fclose` returns is not looked at, so that an error is seen only where the
device refuses a byte of the buffers that `fwrite` itself hands over. For the bytes of the last buffer,
which `fclose` hands over, the compiler exits with status 0 and leaves an incomplete file
(`completeOutput_iff`).
-/

namespace Rbml.Asm

open Rbml.Lib

/-- What the compiler writes to: the size of the buffers of stdio, whether `fopen` can open the output
file, and how many bytes the device takes -/
structure Output where
  bufferSize : Nat
  pos : 0 < bufferSize
  opens : Bool
  room : Nat

/-- The end of the compiler: its exit status, and the file at the output path, if there is one -/
structure Exit where
  status : Nat
  file : Option (List UInt8)
  deriving DecidableEq, Repr

/-- `fopen(output_file, "w")` -/
def fopenOutput (out : Output) : Stream UInt8 out.bufferSize := ⟨[], out.pos, ⟨[], out.room⟩, false⟩

/-- `code_write`: what it leaves in the file, or the exit where it dies. `old` is the file that was
there before. -/
def codeWriteFile (c : Code) (out : Output) (old : Option (List UInt8)) : Except Exit (List UInt8) :=
  if out.opens then
    let fp := (fopenOutput out).write (codeWrite c)
    -- `fclose`, `unlink` and `die`
    if fp.error then .error ⟨1, none⟩
    else .ok fp.close.device.contents
  else .error ⟨1, old⟩

/-- `main` of `rbmlc.c`, from a source text to an output file -/
def rbmlc (text : List Char) (inputFile : String) (out : Output) (old : Option (List UInt8)) : Exit :=
  let r := compile (rbmlParse text) inputFile
  match r.written with
  | none => ⟨if r.success then 0 else 1, old⟩
  | some c =>
    match codeWriteFile c out old with
    | .error e => e
    | .ok file => ⟨if r.success then 0 else 1, some file⟩

/-- An exit with status 0 means that the file has the words of the program, and where the file was
opened and a byte of them was refused the compiler exits with another status and leaves no file. -/
structure CompleteOutput (text : List Char) (inputFile : String) (out : Output)
    (old : Option (List UInt8)) : Prop where
  complete : (rbmlc text inputFile out old).status = 0 →
    ∃ c, (compile (rbmlParse text) inputFile).written = some c ∧
      (rbmlc text inputFile out old).file = some (imageOf c.text)
  refused : ∀ c, (compile (rbmlParse text) inputFile).written = some c → out.opens = true →
    out.room < (imageOf c.text).length →
      (rbmlc text inputFile out old).status ≠ 0 ∧ (rbmlc text inputFile out old).file = none

/-- The device takes all the bytes, or refuses one that `fwrite` hands over. -/
def RefusedInTime (out : Output) (size : Nat) : Prop :=
  size ≤ out.room ∨ out.room < pushed out.bufferSize size

theorem written_eq_some_iff {parserParse : Session → Session} {inputFile : String} :
    (∃ c, (compile parserParse inputFile).written = some c) ↔
      (compile parserParse inputFile).success = true := by
  simp only [compile]
  split <;> simp [*]

theorem rbmlc_of_rejected {text : List Char} {inputFile : String} {out : Output}
    {old : Option (List UInt8)} (h : (compile (rbmlParse text) inputFile).written = none) :
    rbmlc text inputFile out old = ⟨1, old⟩ := by
  have hsuccess : (compile (rbmlParse text) inputFile).success = false := by
    refine Bool.eq_false_iff.mpr fun hsuccess => ?_
    obtain ⟨c, hc⟩ := written_eq_some_iff.mpr hsuccess
    cases h.symm.trans hc
  simp only [rbmlc, h, hsuccess]
  rfl

section
variable {text : List Char} {inputFile : String} {out : Output} {old : Option (List UInt8)} {c : Code}
  (hc : (compile (rbmlParse text) inputFile).written = some c)

include hc

theorem rbmlc_of_accepted : rbmlc text inputFile out old =
    match codeWriteFile c out old with
    | .error e => e
    | .ok file => ⟨0, some file⟩ := by
  simp only [rbmlc, hc, written_eq_some_iff.mp ⟨c, hc⟩]
  rfl

theorem rbmlc_of_not_opened (hopens : out.opens = false) :
    rbmlc text inputFile out old = ⟨1, old⟩ := by
  rw [rbmlc_of_accepted hc, codeWriteFile, hopens]
  rfl

/-- `fwrite` meets the error. -/
theorem rbmlc_of_error (hopens : out.opens = true)
    (hroom : out.room < pushed out.bufferSize (imageOf c.text).length) :
    rbmlc text inputFile out old = ⟨1, none⟩ := by
  have herror : ((fopenOutput out).write (codeWrite c)).error = true := by
    refine Stream.error_write _ ?_
    rw [Stream.whole]
    exact Nat.lt_of_lt_of_eq hroom (congrArg (pushed _) (Nat.zero_add _).symm)
  rw [rbmlc_of_accepted hc, codeWriteFile, if_pos hopens]
  simp only [herror, if_true]

/-- `fwrite` meets no error: the file has what the device took. -/
theorem rbmlc_of_room (hopens : out.opens = true)
    (hroom : pushed out.bufferSize (imageOf c.text).length ≤ out.room) :
    rbmlc text inputFile out old = ⟨0, some ((imageOf c.text).take out.room)⟩ := by
  obtain ⟨hok, hcontents⟩ := @Stream.write_of_room _ _ (fopenOutput out) rfl (codeWrite c) (by
    rw [Stream.whole]
    exact Nat.le_trans (Nat.le_of_eq (congrArg (pushed _) (Nat.zero_add _))) hroom)
  rw [rbmlc_of_accepted hc, codeWriteFile, if_pos hopens]
  simp only [hok, Bool.false_eq_true, if_false, hcontents]
  rfl

theorem refusedInTime_of_complete (h : CompleteOutput text inputFile out old)
    (hopens : out.opens = true) : RefusedInTime out (4 * c.text.length) := by
  by_contra hlate
  obtain ⟨hshort, hpushed⟩ := not_or.mp hlate
  rw [← imageOf_length] at hshort hpushed
  obtain ⟨hstatus, -⟩ := h.refused c hc hopens (Nat.lt_of_not_le hshort)
  exact hstatus (congrArg Exit.status (rbmlc_of_room hc hopens (Nat.le_of_not_lt hpushed)))

theorem complete_of_refusedInTime
    (h : out.opens = true → RefusedInTime out (4 * c.text.length)) :
    CompleteOutput text inputFile out old := by
  have hc' : ∀ c', (compile (rbmlParse text) inputFile).written = some c' → c' = c :=
    fun c' hc' => Option.some.inj (hc'.symm.trans hc)
  rw [← imageOf_length] at h
  cases hopens : out.opens with
  | false =>
    refine ⟨fun hstatus => ?_, fun c' _ hopens' => ?_⟩
    · rw [rbmlc_of_not_opened hc hopens] at hstatus
      cases hstatus
    · cases hopens.symm.trans hopens'
  | true =>
    rcases h hopens with hall | hrefused
    · have hrun := @rbmlc_of_room _ _ _ old _ hc hopens (Nat.le_trans (pushed_le _ _) hall)
      rw [List.take_of_length_le hall] at hrun
      refine ⟨fun _ => ⟨c, hc, congrArg Exit.file hrun⟩, fun c' hwritten _ hshort => ?_⟩
      rw [hc' c' hwritten] at hshort
      exact absurd hall (Nat.not_le_of_lt hshort)
    · have hrun := @rbmlc_of_error _ _ _ old _ hc hopens hrefused
      refine ⟨fun hstatus => ?_, fun _ _ _ _ => ?_⟩
      · rw [hrun] at hstatus
        cases hstatus
      · rw [hrun]
        exact ⟨Nat.one_ne_zero, rfl⟩

end

/-- The output is complete, or the failure is seen, exactly if the device takes all the bytes or refuses
one that `fwrite` hands over, wherever there is an output file to write. -/
theorem completeOutput_iff (text : List Char) (inputFile : String) (out : Output)
    (old : Option (List UInt8)) :
    CompleteOutput text inputFile out old ↔
      ∀ c, (compile (rbmlParse text) inputFile).written = some c → out.opens = true →
        RefusedInTime out (4 * c.text.length) := by
  constructor
  · intro h c hc hopens
    exact refusedInTime_of_complete hc h hopens
  · intro h
    cases hwritten : (compile (rbmlParse text) inputFile).written with
    | none =>
      refine ⟨fun hstatus => ?_, fun c hc => ?_⟩
      · rw [rbmlc_of_rejected hwritten] at hstatus
        cases hstatus
      · cases hwritten.symm.trans hc
    | some c => exact complete_of_refusedInTime hwritten (h c hwritten)

/-- One word, and a device that takes no byte: the compiler exits with status 0 and leaves an empty
file. -/
theorem not_completeOutput :
    ¬ CompleteOutput ['H', 'A', 'L', 'T'] "" ⟨4096, by decide, true, 0⟩ none := by
  intro h
  have hlex : lex ['H', 'A', 'L', 'T'] = [.token (.inst .inst0 .halt)] := by decide +kernel
  have hc : (compile (rbmlParse ['H', 'A', 'L', 'T']) "").written =
      some (codeEmit codeAlloc (rbmlInst Opcode.halt.code 0 0 0)) := by
    rw [compile, rbmlParse, hlex]
    rfl
  rcases refusedInTime_of_complete hc h rfl with hall | hrefused
  · exact absurd hall (by decide)
  · exact absurd hrefused (Nat.not_lt_of_le (Nat.le_of_eq (pushed_of_lt (by decide))))

end Rbml.Asm
