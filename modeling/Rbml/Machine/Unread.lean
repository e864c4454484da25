import Mathlib.Data.List.Infix
import Rbml.Machine.ConsoleInput
import Rbml.Machine.Options
import Rbml.Machine.Run

/-!
# Unread input

A run depends on the input that it has read, and on no more. `fgets` stops behind the character that
ends a line or fills the word, and `scanf` before the character that ends a number, so where a read has
left something, it would have read the same in front of anything else that might follow
(`readWord_append`). A run takes its input from the front, and so a run that has left input unread goes
the same way when more input comes (`run_feed`): what the emulator has printed at a prompt does not
change with what is typed after it.
-/

namespace Rbml.Machine

open Lib

variable {N : Nat}

/-! ## One read -/

/-- `fgets` that leaves something unread reads the same with more behind it. -/
theorem fgetsChars_append (n : Nat) {stdin : List UInt8} (more : List UInt8)
    (h : (fgetsChars n stdin).2 ≠ []) :
    fgetsChars n (stdin ++ more) = ((fgetsChars n stdin).1, (fgetsChars n stdin).2 ++ more) := by
  induction n generalizing stdin with
  | zero => rfl
  | succ n ih =>
    cases stdin with
    | nil => exact absurd rfl h
    | cons c stdin =>
      simp only [fgetsChars, List.cons_append] at h ⊢
      split
      · rfl
      next hc =>
        rw [if_neg hc] at h
        rw [ih h]

theorem fgetsWord_snd (w : Word) (stdin : List UInt8) :
    (fgetsWord w stdin).2 = (fgetsChars 3 stdin).2 := by
  unfold fgetsWord
  split <;> simp only [*]

/-- `scanf` leaves what is behind the digits. -/
theorem scanfWord_snd (w : Word) (stdin : List UInt8) :
    (scanfWord w stdin).2 = (afterSign stdin).2.dropWhile isDigit := by
  rw [scanfWord_eq, List.span_eq_takeWhile_dropWhile]
  cases (afterSign stdin).2.takeWhile isDigit <;> rfl

/-- The same of the word that `fgets` fills -/
theorem fgetsWord_append {w : Word} {stdin : List UInt8} (more : List UInt8)
    (h : (fgetsWord w stdin).2 ≠ []) :
    fgetsWord w (stdin ++ more) = ((fgetsWord w stdin).1, (fgetsWord w stdin).2 ++ more) := by
  rw [fgetsWord_snd] at h
  unfold fgetsWord
  rw [fgetsChars_append 3 more h]
  rcases fgetsChars 3 stdin with ⟨_ | ⟨c, s⟩, rest⟩ <;> rfl

theorem dropWhile_append_of_ne_nil {p : UInt8 → Bool} {s : List UInt8} (more : List UInt8)
    (h : s.dropWhile p ≠ []) : (s ++ more).dropWhile p = s.dropWhile p ++ more := by
  rw [List.dropWhile_append, if_neg]
  rwa [List.isEmpty_iff]

theorem takeWhile_append_of_ne_nil {p : UInt8 → Bool} {s : List UInt8} (more : List UInt8)
    (h : s.dropWhile p ≠ []) : (s ++ more).takeWhile p = s.takeWhile p := by
  rw [List.takeWhile_append, if_neg]
  intro hlength
  have hall : s.takeWhile p = s := (List.takeWhile_prefix p).eq_of_length hlength
  have hsplit := @List.takeWhile_append_dropWhile _ p s
  rw [hall, List.append_right_eq_self] at hsplit
  exact h hsplit

/-- The same of spaces and a sign -/
theorem afterSign_append {stdin : List UInt8} (more : List UInt8) (h : (afterSign stdin).2 ≠ []) :
    afterSign (stdin ++ more) = ((afterSign stdin).1, (afterSign stdin).2 ++ more) := by
  cases hdrop : stdin.dropWhile isSpace with
  | nil =>
    rw [afterSign, hdrop] at h
    exact absurd rfl h
  | cons c rest =>
    have hne : stdin.dropWhile isSpace ≠ [] := by
      rw [hdrop]
      exact List.cons_ne_nil c rest
    rw [afterSign, afterSign, dropWhile_append_of_ne_nil more hne, hdrop, List.cons_append]
    by_cases hminus : c = 45
    · rw [hminus]
      rfl
    by_cases hplus : c = 43
    · rw [hplus]
      rfl
    · split
      next heq => exact absurd (List.cons.inj heq).1 hminus
      next heq => exact absurd (List.cons.inj heq).1 hplus
      · split
        next heq => exact absurd (List.cons.inj heq).1 hminus
        next heq => exact absurd (List.cons.inj heq).1 hplus
        · rfl

/-- The same of the word that `scanf` fills -/
theorem scanfWord_append {w : Word} {stdin : List UInt8} (more : List UInt8)
    (h : (scanfWord w stdin).2 ≠ []) :
    scanfWord w (stdin ++ more) = ((scanfWord w stdin).1, (scanfWord w stdin).2 ++ more) := by
  rw [scanfWord_snd] at h
  have hsign : (afterSign stdin).2 ≠ [] := by
    intro hnil
    rw [hnil] at h
    exact h rfl
  rw [scanfWord_eq, scanfWord_eq, afterSign_append more hsign, List.span_eq_takeWhile_dropWhile,
    List.span_eq_takeWhile_dropWhile, takeWhile_append_of_ne_nil more h,
    dropWhile_append_of_ne_nil more h]
  cases (afterSign stdin).2.takeWhile isDigit <;> rfl

/-- A read that leaves something would have read the same in front of more. -/
theorem readWord_append {w : Word} {fcontrol : Fin 16} {stdin : List UInt8} (more : List UInt8)
    (h : (readWord w fcontrol stdin).2 ≠ []) :
    readWord w fcontrol (stdin ++ more) =
      ((readWord w fcontrol stdin).1, (readWord w fcontrol stdin).2 ++ more) := by
  unfold readWord at h ⊢
  split at h
  next hcontrol =>
    rw [if_pos hcontrol, if_pos hcontrol]
    exact fgetsWord_append more h
  next hcontrol =>
    rw [if_neg hcontrol, if_neg hcontrol]
    exact scanfWord_append more h

/-! ## The input is taken from the front -/

theorem fgetsChars_suffix (n : Nat) (stdin : List UInt8) : (fgetsChars n stdin).2 <:+ stdin := by
  induction n generalizing stdin with
  | zero => exact List.suffix_refl stdin
  | succ n ih =>
    cases stdin with
    | nil => exact List.suffix_refl []
    | cons c stdin =>
      simp only [fgetsChars]
      split
      · exact List.suffix_cons c stdin
      · exact (ih stdin).trans (List.suffix_cons c stdin)

theorem afterSign_suffix (stdin : List UInt8) : (afterSign stdin).2 <:+ stdin := by
  have hdrop : stdin.dropWhile isSpace <:+ stdin := List.dropWhile_suffix isSpace
  unfold afterSign
  split
  next rest heq =>
    rw [heq] at hdrop
    exact (List.suffix_cons _ rest).trans hdrop
  next rest heq =>
    rw [heq] at hdrop
    exact (List.suffix_cons _ rest).trans hdrop
  · exact hdrop

/-- A read takes some characters from the front of the input. -/
theorem readWord_suffix (w : Word) (fcontrol : Fin 16) (stdin : List UInt8) :
    (readWord w fcontrol stdin).2 <:+ stdin := by
  unfold readWord
  split
  · rw [fgetsWord_snd]
    exact fgetsChars_suffix 3 stdin
  · rw [scanfWord_snd]
    exact (List.dropWhile_suffix isDigit).trans (afterSign_suffix stdin)

/-! ## Runs -/

/-- The state with more input behind the one it has -/
def State.feed (more : List UInt8) (m : State N) : State N := { m with stdin := m.stdin ++ more }

/-- The result with more input behind the one it has -/
def feedResult (more : List UInt8) : Except (Stop N) (State N) → Except (Stop N) (State N)
  | .ok m => .ok (m.feed more)
  | .error (.exit status m) => .error (.exit status (m.feed more))
  | .error (.outOfMemoryRegion m) => .error (.outOfMemoryRegion (m.feed more))
  | .error (.fault f) => .error (.fault f)

/-- The input that a result leaves. A fault leaves none. -/
def unread : Except (Stop N) (State N) → List UInt8
  | .ok m | .error (.exit _ m) | .error (.outOfMemoryRegion m) => m.stdin
  | .error (.fault _) => []

/-- A turn leaves an end of the input. -/
theorem unread_of_together {rest : Fin N → Word} {stdin : List UInt8}
    {x y : Except (Stop N) (State N)}
    (h : Together rest (fun s s' => s' = s ∧ s <:+ stdin) Eq x y) : unread x <:+ stdin := by
  cases h with
  | ok h =>
    obtain ⟨_, _, ⟨-, hsuffix⟩, -⟩ := h
    exact hsuffix
  | error h =>
    cases h with
    | exit status h | outOfMemoryRegion h =>
      obtain ⟨_, _, ⟨-, hsuffix⟩, -⟩ := h
      exact hsuffix
    | fault f => exact List.nil_suffix
  | free h => exact absurd h.1 (Nat.lt_irrefl N)

/-- A run takes its input from the front. -/
theorem unread_run (inputs : List Env) (m : State N) : unread (run false inputs m) <:+ m.stdin := by
  refine @unread_of_together _ m.memory _ _ (run false inputs (m.place m.memory m.stdin m.stderr)) ?_
  apply Lockstep.foldlM
  · rintro env m₁ _ ⟨_, _, ⟨rfl, hsuffix⟩, rfl, rfl⟩
    apply step_together (Nat.le_refl N) ⟨rfl, hsuffix⟩ rfl
    · rintro w fcontrol s _ ⟨rfl, hs⟩
      exact ⟨rfl, rfl, (readWord_suffix w fcontrol _).trans hs⟩
    · rintro s _ line rfl
      rfl
  · exact ⟨_, _, ⟨rfl, List.suffix_refl _⟩, rfl, rfl⟩

/-- Other input is a placement in a memory of the same size. -/
theorem place_feed (rest : Fin N → Word) (stdin : List UInt8) (m : State N) :
    m.place rest stdin m.stderr = { m with stdin } := by
  have hmemory : (m.place rest stdin m.stderr).memory = m.memory := by
    ext1 k
    simp only [State.place, k.isLt, dif_pos]
  rw [State.place] at hmemory ⊢
  simp only at hmemory
  rw [hmemory]

/-- With more input behind it, a turn has the same result with more input in it. -/
theorem eq_feedResult {rest : Fin N → Word} {more : List UInt8} {x y : Except (Stop N) (State N)}
    (h : Together rest (fun s s' => s' = s ++ more) Eq x y) : y = feedResult more x := by
  cases h with
  | ok h =>
    obtain ⟨_, _, rfl, rfl, rfl⟩ := h
    rw [place_feed]
    rfl
  | error h =>
    cases h with
    | exit status h =>
      obtain ⟨_, _, rfl, rfl, rfl⟩ := h
      rw [place_feed]
      rfl
    | outOfMemoryRegion h =>
      obtain ⟨_, _, rfl, rfl, rfl⟩ := h
      rw [place_feed]
      rfl
    | fault f => rfl
  | free h => exact absurd h.1 (Nat.lt_irrefl N)

/-- An instruction that reads leaves what its read leaves. -/
theorem unread_handler {op : Opcode} {env : Env} {arg1 arg2 : Fin 16} {arg3 : Fin 65536}
    {m : State N} (hreads : readsConsole op = true)
    (h : unread (handler op env arg1 arg2 arg3 m) ≠ []) :
    unread (handler op env arg1 arg2 arg3 m) = (readWord env.w arg1 m.stdin).2 := by
  cases op
  case crda | crdj | crdr => rfl
  case crdm =>
    simp only [handler, crdm, cread_eq, State.writeMemory] at h ⊢
    split at h
    · exact absurd rfl h
    · rfl
  all_goals cases hreads

/-- The same of one instruction, where it leaves something unread -/
theorem evaluateInstruction_feed {env : Env} {m : State N} (more : List UInt8)
    (h : unread (evaluateInstruction env m) ≠ []) :
    evaluateInstruction env (m.feed more) = feedResult more (evaluateInstruction env m) := by
  have htogether := @evaluateInstruction_together N N m.memory (fun s s' => s' = s ++ more) Eq
    (m.stdin ++ more) m.stderr m (Nat.le_refl N) env rfl rfl
    (by
      intro op hop hreads
      simp only [evaluateInstruction, hop] at h
      have hread := unread_handler hreads h
      rw [hread] at h
      have happend := readWord_append more h
      exact Prod.ext_iff.mp happend)
    (by rintro s _ line rfl; rfl)
  rw [place_feed] at htogether
  exact eq_feedResult htogether

/-- The guard of the loop does not look at the input. -/
theorem advance_feed (m : State N) (more : List UInt8) :
    advance (m.feed more) = feedResult more (advance m) := by
  have hcounter : (m.feed more).instructionCounter = m.instructionCounter := rfl
  simp only [advance, hcounter]
  split <;> rfl

/-- The guard of the loop does not read. -/
theorem unread_advance (m : State N) : unread (advance m) = m.stdin := by
  simp only [advance]
  split <;> rfl

/-- A turn that leaves input unread goes the same way in front of more. -/
theorem step_feed {env : Env} {m : State N} (more : List UInt8) (h : unread (step env m) ≠ []) :
    step env (m.feed more) = feedResult more (step env m) := by
  cases hw : nextWord m with
  | none =>
    rw [step_of_nextWord_none env hw] at h
    exact absurd rfl h
  | some w =>
    have hw' : nextWord (m.feed more) = some w := hw
    rw [step_of_nextWord env hw] at h ⊢
    rw [step_of_nextWord env hw']
    have hfeed := @evaluateInstruction_feed _ env (fetched m w) more
    have hfetched : fetched (m.feed more) w = (fetched m w).feed more := rfl
    rw [hfetched]
    cases hresult : evaluateInstruction env (fetched m w) with
    | ok m₁ =>
      have hunread : unread (advance m₁) ≠ [] := by
        rw [hresult] at h
        exact h
      rw [hresult] at hfeed
      rw [hfeed (by rwa [unread_advance] at hunread)]
      exact advance_feed m₁ more
    | error e =>
      rw [hresult] at h hfeed
      rw [hfeed h]
      cases e <;> rfl

/-- **Unread input has no influence.** Where a run of the emulator has left input unread, the run with
any more input behind it takes the same turns and ends in the same way: all that differs is the input
that is left. -/
theorem run_feed {inputs : List Env} {m : State N} (more : List UInt8)
    (h : unread (run false inputs m) ≠ []) :
    run false inputs (m.feed more) = feedResult more (run false inputs m) := by
  induction inputs generalizing m with
  | nil => rfl
  | cons env inputs ih =>
    simp only [run, List.foldlM_cons, turn_false] at ih h ⊢
    cases hstep : step env m with
    | ok m' =>
      rw [hstep] at h
      have hunread : unread (step env m) ≠ [] := by
        rw [hstep]
        intro hnil
        have hsuffix := unread_run inputs m'
        rw [show m'.stdin = [] from hnil, List.suffix_nil] at hsuffix
        exact h hsuffix
      rw [step_feed more hunread, hstep]
      exact ih h
    | error e =>
      have hunread : unread (step env m) ≠ [] := by
        rw [hstep] at h ⊢
        exact h
      rw [step_feed more hunread, hstep]
      cases e <;> rfl

/-- `CRDR 0, r1` and `HALT` -/
def readNumber : Fin 2 → Word := fun k => if k = 0 then 0xb1010000 else 0xff000000

/-- A line with a number is typed, and then another one. -/
theorem run_feed_readNumber :
    run false [.silent, .silent] ((initialState readNumber [53, 10]).feed [54, 10]) =
      feedResult [54, 10] (run false [.silent, .silent] (initialState readNumber [53, 10])) := by
  have hunread : unread (run false [.silent, .silent] (initialState readNumber [53, 10])) = [10] := by
    decide +kernel
  apply run_feed
  rw [hunread]
  exact List.cons_ne_nil 10 []

end Rbml.Machine
