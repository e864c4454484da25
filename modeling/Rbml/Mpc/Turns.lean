import Rbml.Mpc.Recursion

/-!
# What a turn does

`mpcSwitch_acts` says once what a parser can do in its turn, for all kinds of parsers: call another one,
or leave with a result and one of five ways to leave the input (`Closing`). It also says that there is
something to do: with the results that a parser of its kind has (`Admits`) and the mark that it has made
(`Kept`), no turn is undefined.

An error that a turn leaves is a new one, about the place where the input is left, or is made from errors
that were there before (`Derived`).
-/

namespace Rbml.Mpc

variable {V : Type} {vals : Values V}

/-! ## Reading -/

/-- Some characters of the input are read. -/
def Advances (i j : MpcInput) : Prop :=
  ∃ cs, cs <+: i.string.drop i.state.pos ∧ j = cs.foldl mpcInputSuccess i

/-- What a parser keeps of the input, and it does not go back. -/
structure Kept (i j : MpcInput) : Prop where
  filename : j.filename = i.filename
  string : j.string = i.string
  backtrack : j.backtrack = i.backtrack
  marks : j.marks = i.marks
  pos : i.state.pos ≤ j.state.pos

theorem Kept.refl (i : MpcInput) : Kept i i := ⟨rfl, rfl, rfl, rfl, Nat.le_refl _⟩

theorem Kept.trans {i j k : MpcInput} (h : Kept i j) (h' : Kept j k) : Kept i k :=
  ⟨h'.filename.trans h.filename, h'.string.trans h.string, h'.backtrack.trans h.backtrack,
    h'.marks.trans h.marks, Nat.le_trans h.pos h'.pos⟩

/-- A character that is read moves the position by one. -/
theorem success_pos (i : MpcInput) (c : Char) : (mpcInputSuccess i c).state.pos = i.state.pos + 1 := by
  simp only [mpcInputSuccess]
  split <;> rfl

/-- Some characters move it by their number. -/
theorem foldl_success_pos (cs : List Char) (i : MpcInput) :
    (cs.foldl mpcInputSuccess i).state.pos = i.state.pos + cs.length := by
  induction cs generalizing i with
  | nil => rfl
  | cons c cs ih =>
    rw [List.foldl_cons, ih, success_pos, List.length_cons]
    omega

theorem kept_success (i : MpcInput) (c : Char) : Kept i (mpcInputSuccess i c) :=
  ⟨rfl, rfl, rfl, rfl, by rw [success_pos]; omega⟩

/-- Reading some characters keeps what a parser must keep. -/
theorem kept_foldl_success (cs : List Char) (i : MpcInput) : Kept i (cs.foldl mpcInputSuccess i) := by
  induction cs generalizing i with
  | nil => exact .refl i
  | cons c cs ih => exact (kept_success i c).trans (ih _)

/-- Reading does not look at the marks. -/
theorem foldl_success_marks (cs : List Char) (i : MpcInput) (marks : List (MpcState × Char)) :
    cs.foldl mpcInputSuccess { i with marks } = { cs.foldl mpcInputSuccess i with marks } := by
  induction cs generalizing i with
  | nil => rfl
  | cons c cs ih => exact ih (mpcInputSuccess i c)

/-- Reading keeps everything but the position. -/
theorem Advances.kept {i j : MpcInput} (h : Advances i j) : Kept i j := by
  obtain ⟨cs, -, rfl⟩ := h
  exact kept_foldl_success cs i

theorem advances_refl (i : MpcInput) : Advances i i := ⟨[], List.nil_prefix, rfl⟩

/-- What is left of the input, where a character is left -/
theorem drop_pos_eq {i : MpcInput} (h : i.state.pos < i.string.length) :
    i.string.drop i.state.pos = mpcInputPeekc i :: i.string.drop (i.state.pos + 1) := by
  rw [List.drop_eq_getElem_cons h, mpcInputPeekc, List.getD, List.getElem?_eq_getElem h]
  rfl

/-! ## Marks -/

@[simp] theorem mark_filename (i : MpcInput) : (mpcInputMark i).filename = i.filename := by
  unfold mpcInputMark
  split <;> rfl

@[simp] theorem mark_string (i : MpcInput) : (mpcInputMark i).string = i.string := by
  unfold mpcInputMark
  split <;> rfl

@[simp] theorem mark_state (i : MpcInput) : (mpcInputMark i).state = i.state := by
  unfold mpcInputMark
  split <;> rfl

@[simp] theorem mark_backtrack (i : MpcInput) : (mpcInputMark i).backtrack = i.backtrack := by
  unfold mpcInputMark
  split <;> rfl

@[simp] theorem mark_last (i : MpcInput) : (mpcInputMark i).last = i.last := by
  unfold mpcInputMark
  split <;> rfl

/-- A parser that may not go back makes no mark. -/
theorem mark_of_lt {i : MpcInput} (h : i.backtrack < 1) : mpcInputMark i = i := if_pos h

/-- What is read behind a mark, without the mark -/
theorem foldl_success_mark (cs : List Char) (i : MpcInput) :
    { cs.foldl mpcInputSuccess (mpcInputMark i) with marks := i.marks } =
      cs.foldl mpcInputSuccess i := by
  by_cases hb : i.backtrack < 1
  · rw [mark_of_lt hb, ← (kept_foldl_success cs i).marks]
  · rw [mpcInputMark, if_neg hb, foldl_success_marks, ← (kept_foldl_success cs i).marks]

/-- A parser that has made a mark goes back to it. -/
theorem rewind_marked {i j : MpcInput} (h : Kept (mpcInputMark i) j) :
    mpcInputRewind j = some (if i.backtrack < 1 then j else i) := by
  obtain ⟨hfilename, hstring, hbacktrack, hmarks, -⟩ := h
  rw [mark_filename] at hfilename
  rw [mark_string] at hstring
  rw [mark_backtrack] at hbacktrack
  by_cases hb : i.backtrack < 1
  · rw [mpcInputRewind, hbacktrack, if_pos hb, if_pos hb]
  · rw [mpcInputMark, if_neg hb] at hmarks
    rw [if_neg hb]
    obtain ⟨_, _, state, backtrack, marks, last⟩ := j
    subst hfilename hstring hbacktrack hmarks
    simp only [mpcInputRewind, mpcInputUnmark, if_neg hb]

/-- A parser that has made a mark takes it off. -/
theorem unmark_marked {i j : MpcInput} (h : Kept (mpcInputMark i) j) :
    mpcInputUnmark j = some { j with marks := i.marks } := by
  obtain ⟨-, -, hbacktrack, hmarks, -⟩ := h
  rw [mark_backtrack] at hbacktrack
  by_cases hb : i.backtrack < 1
  · rw [mpcInputMark, if_pos hb] at hmarks
    rw [← hmarks, mpcInputUnmark, if_pos (by omega)]
  · rw [mpcInputMark, if_neg hb] at hmarks
    rw [mpcInputUnmark, hbacktrack, if_neg hb, hmarks]

/-! ## Primitive parsers -/

/-- A parser that reads one character: the condition on it -/
def MpcParser.condition : MpcParser V → Option (Char → Bool)
  | .any => some fun _ => true
  | .single x => some fun c => c == x
  | .range x y => some fun c => decide (x ≤ c) && decide (c ≤ y)
  | .oneof x => some fun c => x.contains c
  | .noneof x => some fun c => !x.contains c
  | .satisfy f => some f
  | _ => none

/-- The parsers of one character do the same with their conditions. -/
theorem mpcSwitch_condition {p : MpcParser V} {cond : Char → Bool} (h : p.condition = some cond)
    (st : Nat) (results : List (MpcResult V)) (w : Reading) :
    mpcSwitch vals p st results w =
      some (mpcPrimitive vals w results (mpcInputSatisfy w.input cond)) := by
  cases p <;> cases h <;> rfl

/-- At the end of the text there is no character to read. -/
theorem satisfy_nil {i : MpcInput} (h : i.state.pos = i.string.length) (cond : Char → Bool) :
    mpcInputSatisfy i cond = (none, i) := by
  simp only [mpcInputSatisfy, mpcInputTerminated, h, beq_self_eq_true, if_true]

/-- Before it, the next character is read if it meets the condition. -/
theorem satisfy_cons {i : MpcInput} (h : i.state.pos < i.string.length) (cond : Char → Bool) :
    mpcInputSatisfy i cond =
      if cond (mpcInputPeekc i) then (some [mpcInputPeekc i], mpcInputSuccess i (mpcInputPeekc i))
      else (none, i) := by
  have hne : (i.state.pos == i.string.length) = false := beq_false_of_ne (by omega)
  simp only [mpcInputSatisfy, mpcInputTerminated, hne, Bool.false_eq_true, if_false]

/-- What a primitive parser reads. Where it fails and may go back, it has read nothing. -/
structure ReadSpec (i : MpcInput) (read : Option (List Char) × MpcInput) : Prop where
  advances : Advances i read.2
  failed : read.1 = none → 1 ≤ i.backtrack → read.2 = i

/-- The character that is read is the next one. -/
theorem advances_success {i : MpcInput} (h : i.state.pos < i.string.length) :
    Advances i (mpcInputSuccess i (mpcInputPeekc i)) :=
  ⟨[mpcInputPeekc i], by rw [drop_pos_eq h]; exact List.prefix_append [_] _, rfl⟩

/-- What is read first and what is read then is read. -/
theorem Advances.trans {i j k : MpcInput} (h : Advances i j) (h' : Advances j k) : Advances i k := by
  obtain ⟨cs, ⟨rest, hrest⟩, rfl⟩ := h
  obtain ⟨cs', hpre, rfl⟩ := h'
  refine ⟨cs ++ cs', ?_, List.foldl_append.symm⟩
  rw [(kept_foldl_success cs i).string, foldl_success_pos, ← List.drop_drop, ← hrest,
    List.drop_left] at hpre
  rw [← hrest]
  exact (List.prefix_append_right_inj cs).mpr hpre

/-- Reading does not go beyond the end of the text. -/
theorem Advances.pos_le {i j : MpcInput} (h : Advances i j) (hle : i.state.pos ≤ i.string.length) :
    j.state.pos ≤ j.string.length := by
  obtain ⟨cs, hpre, rfl⟩ := h
  have hlength := hpre.length_le
  rw [List.length_drop] at hlength
  rw [foldl_success_pos, (kept_foldl_success cs i).string]
  omega

/-- The parsers of one character read one or nothing. -/
theorem readSpec_satisfy {i : MpcInput} (h : i.state.pos ≤ i.string.length) (cond : Char → Bool) :
    ReadSpec i (mpcInputSatisfy i cond) := by
  rcases Nat.eq_or_lt_of_le h with heq | hlt
  · rw [satisfy_nil heq]
    exact ⟨advances_refl i, fun _ _ => rfl⟩
  · rw [satisfy_cons hlt]
    split
    · exact ⟨advances_success hlt, fun hnone => absurd hnone (Option.some_ne_none _)⟩
    · exact ⟨advances_refl i, fun _ _ => rfl⟩

/-- The loop of `mpc_input_string` reads the text, or a part of it. -/
theorem mpcInputChars_spec (cs : List Char) {i : MpcInput} (h : i.state.pos ≤ i.string.length) :
    (cs <+: i.string.drop i.state.pos ∧ mpcInputChars cs i = (true, cs.foldl mpcInputSuccess i)) ∨
      ¬ cs <+: i.string.drop i.state.pos ∧ ∃ j, Advances i j ∧ mpcInputChars cs i = (false, j) := by
  induction cs generalizing i with
  | nil => exact .inl ⟨List.nil_prefix, rfl⟩
  | cons c cs ih =>
    rcases Nat.eq_or_lt_of_le h with heq | hlt
    · refine .inr ⟨?_, i, advances_refl i, ?_⟩
      · rw [List.drop_of_length_le (Nat.le_of_eq heq.symm)]
        exact fun hpre => List.cons_ne_nil c cs (List.prefix_nil.mp hpre)
      · rw [mpcInputChars, mpcInputChar, satisfy_nil heq]
    · have hadvances := advances_success hlt
      rw [drop_pos_eq hlt]
      by_cases hc : mpcInputPeekc i = c
      · subst hc
        have hchar : mpcInputChar i (mpcInputPeekc i) =
            (some [mpcInputPeekc i], mpcInputSuccess i (mpcInputPeekc i)) := by
          rw [mpcInputChar, satisfy_cons hlt, beq_self_eq_true, if_pos rfl]
        have hrest := ih (hadvances.pos_le h)
        rw [success_pos, (kept_success i _).string] at hrest
        simp only [mpcInputChars, hchar, List.cons_prefix_cons, true_and, List.foldl_cons]
        refine hrest.imp_right ?_
        rintro ⟨hnot, j, hj, hchars⟩
        exact ⟨hnot, j, hadvances.trans hj, hchars⟩
      · have hchar : mpcInputChar i c = (none, i) := by
          rw [mpcInputChar, satisfy_cons hlt, beq_false_of_ne hc]
          rfl
        refine .inr ⟨?_, i, advances_refl i, ?_⟩
        · rw [List.cons_prefix_cons]
          exact fun hpre => hc hpre.1.symm
        · rw [mpcInputChars, hchar]

/-- A string is read as a whole, or nothing of it where the parser may go back. -/
theorem mpcInputString_spec (cs : List Char) {i : MpcInput} (h : i.state.pos ≤ i.string.length) :
    (cs <+: i.string.drop i.state.pos ∧
      mpcInputString i cs = some (some cs, cs.foldl mpcInputSuccess i)) ∨
    ¬ cs <+: i.string.drop i.state.pos ∧
      ∃ j, Advances i j ∧ (1 ≤ i.backtrack → j = i) ∧ mpcInputString i cs = some (none, j) := by
  have hmark : (mpcInputMark i).state.pos ≤ (mpcInputMark i).string.length := by
    rwa [mark_state, mark_string]
  have hchars := mpcInputChars_spec cs hmark
  rw [mark_state, mark_string] at hchars
  rcases hchars with ⟨hpre, heq⟩ | ⟨hnot, j, hj, heq⟩
  · refine .inl ⟨hpre, ?_⟩
    have hkept := kept_foldl_success cs (mpcInputMark i)
    simp only [mpcInputString, heq, unmark_marked hkept, Option.map_some, foldl_success_mark]
  · refine .inr ⟨hnot, if i.backtrack < 1 then j else i, ?_, ?_, ?_⟩
    · split
      next hb =>
        rw [mark_of_lt hb] at hj
        exact hj
      · exact advances_refl i
    · intro hb
      rw [if_neg (by omega)]
    · simp only [mpcInputString, heq, rewind_marked hj.kept, Option.map_some]

theorem readSpec_string (cs : List Char) {i : MpcInput} (h : i.state.pos ≤ i.string.length) :
    ∃ read, mpcInputString i cs = some read ∧ ReadSpec i read := by
  rcases mpcInputString_spec cs h with ⟨hpre, heq⟩ | ⟨-, j, hj, hfailed, heq⟩
  · exact ⟨_, heq, ⟨cs, hpre, rfl⟩, fun hnone => absurd hnone (Option.some_ne_none _)⟩
  · exact ⟨_, heq, hj, fun _ => hfailed⟩

/-! ## Errors -/

/-- An error that is made at the place `i` or from errors that are there already. An error of the engine
itself has `mpc_err_new` or `mpc_err_fail` at its bottom. -/
inductive Derived (i : MpcInput) (there : MpcErr → Prop) : MpcErr → Prop
  | there {e : MpcErr} (h : there e) : Derived i there e
  | new (m : String) : Derived i there (mpcErrNew i.filename i.state m (mpcInputPeekc i))
  | fail (m : String) : Derived i there (mpcErrFail i.filename (some i.state) m)
  | repeated {e : MpcErr} (start : String) (h : Derived i there e) : Derived i there (mpcErrRepeat e start)
  | or {e : MpcErr} {es : List MpcErr} (h : Derived i there e) (hs : ∀ e' ∈ es, Derived i there e') :
    Derived i there (mpcErrOr e es)

/-- The errors of the run, with one more -/
theorem Derived.stackErr {i : MpcInput} {there : MpcErr → Prop} {w : Reading} {e : MpcErr}
    (h : Derived i there w.err) (he : Derived i there e) : Derived i there (mpcStackErr w e).err :=
  .or h fun _ he' => List.mem_singleton.mp he' ▸ he

/-- The errors of the run, with some more -/
theorem Derived.foldlStackErr {i : MpcInput} {there : MpcErr → Prop} {w : Reading} {es : List MpcErr}
    (h : Derived i there w.err) (hs : ∀ e ∈ es, Derived i there e) :
    Derived i there (es.foldl mpcStackErr w).err := by
  induction es generalizing w with
  | nil => exact h
  | cons e es ih =>
    exact ih (h.stackErr (hs e List.mem_cons_self)) fun e' he' => hs e' (List.mem_cons_of_mem _ he')

/-- Errors do not change the input. -/
theorem foldl_stackErr_input (w : Reading) (es : List MpcErr) :
    (es.foldl mpcStackErr w).input = w.input := by
  induction es generalizing w with
  | nil => rfl
  | cons e es ih => exact ih (mpcStackErr w e)

/-! ## The results of a parser -/

/-- The result is an error. -/
def MpcResult.failed : MpcResult V → Bool
  | .output _ => false
  | .error _ => true

/-- The results, with the last one first, that a parser may have when it takes its next turn -/
def Admits (p : MpcParser V) (own : List (MpcResult V)) : Prop :=
  match own with
  | [] => True
  | _ :: own =>
    match p with
    | .expect _ _ | .apply _ _ | .applyTo _ _ _ | .predict _ | .not _ _ | .maybe _ _ => own = []
    | .many _ _ | .many1 _ _ | .count _ _ _ => ∃ xs : List V, own = xs.map .output
    | .or (_ :: xs) => (∃ es : List MpcErr, own = es.map .error) ∧ own.length ≤ xs.length
    | .and _ (_ :: xs) => (∃ ys : List V, own = ys.map .output) ∧ own.length ≤ xs.length
    | _ => False

/-- The outputs of a stack, in the order in which they were put there -/
theorem popOutputs_outputs (xs : List V) :
    popOutputs xs.length (xs.map .output) = some (xs.reverse, []) := by
  induction xs with
  | nil => rfl
  | cons x xs ih =>
    rw [List.map_cons, List.length_cons, popOutputs, ih, List.reverse_cons]
    rfl

/-- The errors of a stack, in the order in which they were put there -/
theorem popErrors_errors (es : List MpcErr) :
    popErrors es.length (es.map (.error (V := V))) = some (es.reverse, []) := by
  induction es with
  | nil => rfl
  | cons e es ih =>
    rw [List.map_cons, List.length_cons, popErrors, ih, List.reverse_cons]
    rfl

section
variable {w : Reading} {j : MpcInput} {x : Ptr} {lf v : V} {e : MpcErr} {f : List V → V}

/-- `mpc_not` fails where its parser does not. -/
theorem mpcSwitch_not_output (h : mpcInputRewind w.input = some j) :
    mpcSwitch vals (.not x lf) 1 [.output v] w =
      some (.mpcFailure (mpcErrNew j.filename j.state "opposite" (mpcInputPeekc j)), [],
        { w with input := j }) := by
  rw [mpcSwitch, h]
  rfl

/-- `mpc_not` succeeds where its parser fails. -/
theorem mpcSwitch_not_error (h : mpcInputUnmark w.input = some j) :
    mpcSwitch vals (.not x lf) 1 [.error e] w =
      some (.mpcSuccess lf, [], mpcStackErr { w with input := j } e) := by
  rw [mpcSwitch, h]
  rfl

/-- `mpc_many` folds its outputs at the first error. -/
theorem mpcSwitch_many_error (xs : List V) :
    mpcSwitch vals (.many f x) (xs.length + 1) (.error e :: xs.map .output) w =
      some (.mpcSuccess (f xs.reverse), [], mpcStackErr w e) := by
  rw [mpcSwitch, popOutputs_outputs]
  rfl

/-- `mpc_many1` folds its outputs at an error behind the first one. -/
theorem mpcSwitch_many1_error (xs : List V) :
    mpcSwitch vals (.many1 f x) (xs.length + 1 + 1) (.error e :: (v :: xs).map .output) w =
      some (.mpcSuccess (f (v :: xs).reverse), [], mpcStackErr w e) := by
  have hpop := popOutputs_outputs (v :: xs)
  rw [List.length_cons] at hpop
  simp only [mpcSwitch, hpop, Option.bind_eq_bind, Option.bind_some]

/-- `mpc_count` fails at an error that comes too early or too late. -/
theorem mpcSwitch_count_few {n : Nat} (xs : List V) (hn : xs.length ≠ n)
    (h : mpcInputRewind w.input = some j) :
    mpcSwitch vals (.count n f x) (xs.length + 1) (.error e :: xs.map .output) w =
      some (.mpcFailure (mpcErrCount e n), [], { w with input := j }) := by
  have hn' : xs.length + 1 ≠ n + 1 := by omega
  simp only [mpcSwitch, popOutputs_outputs, Option.bind_eq_bind, Option.bind_some, if_pos hn', h]

/-- At an error behind exactly so many outputs, `mpc_count` folds them. -/
theorem mpcSwitch_count_all (xs : List V) (h : mpcInputUnmark w.input = some j) :
    mpcSwitch vals (.count xs.length f x) (xs.length + 1) (.error e :: xs.map .output) w =
      some (.mpcSuccess (f xs.reverse), [], mpcStackErr { w with input := j } e) := by
  simp only [mpcSwitch, popOutputs_outputs, Option.bind_eq_bind, Option.bind_some, ne_eq,
    not_true_eq_false, if_false, h]

/-- `mpc_or` succeeds with the first output. -/
theorem mpcSwitch_or_output {xs : List Ptr} (es : List MpcErr) (hle : es.length ≤ xs.length) :
    mpcSwitch vals (.or (x :: xs)) (es.length + 1) (.output v :: es.map .error) w =
      some (.mpcSuccess v, [], es.foldl mpcStackErr w) := by
  simp only [mpcSwitch, if_pos hle, popErrors_errors, Option.bind_eq_bind, Option.bind_some,
    mpcStackPoprErr, List.reverse_reverse]

/-- `mpc_or` tries the next parser after an error. -/
theorem mpcSwitch_or_next {xs : List Ptr} (es : List MpcErr) (hlt : es.length < xs.length) :
    mpcSwitch vals (.or (x :: xs)) (es.length + 1) (.error e :: es.map .error) w =
      some (.mpcContinue (es.length + 2) (xs[es.length]), .error e :: es.map .error, w) := by
  simp only [mpcSwitch, dif_pos hlt]

/-- The errors of all the choices are joined, the first one first. -/
theorem mpcSwitch_or_last {xs : List Ptr} (es : List MpcErr) (heq : es.length = xs.length) {e' : MpcErr}
    {es' : List MpcErr} (hrev : (e :: es).reverse = e' :: es') :
    mpcSwitch vals (.or (x :: xs)) (es.length + 1) (.error e :: es.map .error) w =
      some (.mpcFailure (mpcErrOr e' es'), [], w) := by
  have hpop := popErrors_errors (V := V) (e :: es)
  rw [List.length_cons, List.map_cons, hrev] at hpop
  simp only [mpcSwitch, dif_neg (Nat.not_lt_of_le (Nat.le_of_eq heq.symm)), if_pos heq, hpop,
    Option.bind_eq_bind, Option.bind_some]

/-- `mpc_and` fails with the first error. -/
theorem mpcSwitch_and_error {xs : List Ptr} (ys : List V) (hle : ys.length ≤ xs.length)
    (h : mpcInputRewind w.input = some j) :
    mpcSwitch vals (.and f (x :: xs)) (ys.length + 1) (.error e :: ys.map .output) w =
      some (.mpcFailure e, [], { w with input := j }) := by
  simp only [mpcSwitch, if_pos hle, h, popOutputs_outputs, Option.bind_eq_bind, Option.bind_some]

/-- `mpc_and` runs the next parser after an output. -/
theorem mpcSwitch_and_next {xs : List Ptr} (ys : List V) (hlt : ys.length < xs.length) :
    mpcSwitch vals (.and f (x :: xs)) (ys.length + 1) (.output v :: ys.map .output) w =
      some (.mpcContinue (ys.length + 2) (xs[ys.length]), .output v :: ys.map .output, w) := by
  simp only [mpcSwitch, dif_pos hlt]

/-- `mpc_and` folds the outputs after the last parser. -/
theorem mpcSwitch_and_last {xs : List Ptr} (ys : List V) (heq : ys.length = xs.length)
    (h : mpcInputUnmark w.input = some j) :
    mpcSwitch vals (.and f (x :: xs)) (ys.length + 1) (.output v :: ys.map .output) w =
      some (.mpcSuccess (f (v :: ys).reverse), [], { w with input := j }) := by
  have hpop := popOutputs_outputs (v :: ys)
  rw [List.length_cons, List.map_cons] at hpop
  simp only [mpcSwitch, dif_neg (Nat.not_lt_of_le (Nat.le_of_eq heq.symm)), if_pos heq, h, hpop,
    Option.bind_eq_bind, Option.bind_some]

end

/-! ## Turns -/

/-- What a parser does to the input before it runs another one for the first time -/
def MpcParser.opened (p : MpcParser V) (i : MpcInput) : MpcInput :=
  match p with
  | .predict _ => mpcInputBacktrackDisable i
  | .not _ _ | .count _ _ _ | .and _ (_ :: _) => mpcInputMark i
  | _ => i

/-- The input of a parser that was at `i` when its first turn came, since that turn or before it -/
def entered (p : MpcParser V) (own : List (MpcResult V)) (i : MpcInput) : MpcInput :=
  match own with
  | [] => i
  | _ :: _ => p.opened i

/-- How a parser leaves the input: `i₀` is where it came in, and `i` where it has got to. -/
inductive Closing (p : MpcParser V) (own : List (MpcResult V)) (i₀ i : MpcInput) :
    MpcResult V → MpcInput → Prop
  | stays {r : MpcResult V} (hopened : ∀ i, p.opened i = i)
      (hfailed : r.failed = true → ∀ r' ∈ own, r'.failed = true) : Closing p own i₀ i r i
  | reads {r : MpcResult V} {j : MpcInput} (hown : own = []) (hj : Advances i j)
      (hfailed : r.failed = true → 1 ≤ i.backtrack → j = i) : Closing p own i₀ i r j
  | rewinds {r : MpcResult V} (hown : own ≠ []) (hopened : ∀ i, p.opened i = mpcInputMark i) :
    Closing p own i₀ i r (if i₀.backtrack < 1 then i else i₀)
  | unmarks {x : V} (hown : own ≠ []) (hopened : ∀ i, p.opened i = mpcInputMark i) :
    Closing p own i₀ i (.output x) { i with marks := i₀.marks }
  | enables {r : MpcResult V} {x : Ptr} (hown : own ≠ []) (hpredict : p = .predict x) :
    Closing p own i₀ i r (mpcInputBacktrackEnable i)

/-- A parser leaves with the result `r`. -/
structure Leaving (p : MpcParser V) (own : List (MpcResult V)) (i₀ : MpcInput) (w : Reading)
    (r : MpcResult V) (w' : Reading) : Prop where
  closing : Closing p own i₀ w.input r w'.input
  err : Derived w'.input (fun e => e = w.err ∨ .error e ∈ own) w'.err
  result : ∀ e, r = .error e → Derived w'.input (fun e => .error e ∈ own) e

/-- What a parser can do in its turn -/
inductive Acts (p : MpcParser V) (own : List (MpcResult V)) (i₀ : MpcInput) (w : Reading) :
    Turn V → List (MpcResult V) → Reading → Prop
  | first {x : Ptr} (hown : own = []) (hadmits : ∀ r, Admits p [r]) :
    Acts p own i₀ w (.mpcContinue 1 x) [] { w with input := p.opened w.input }
  | next {st : Nat} {x : Ptr} (hown : own ≠ []) (hadmits : ∀ r, Admits p (r :: own))
      (hst : own.length + 1 = st) : Acts p own i₀ w (.mpcContinue st x) own w
  | success {x : V} {w' : Reading} (h : Leaving p own i₀ w (.output x) w') :
    Acts p own i₀ w (.mpcSuccess x) [] w'
  | failure {e : MpcErr} {w' : Reading} (h : Leaving p own i₀ w (.error e) w') :
    Acts p own i₀ w (.mpcFailure e) [] w'
  | popp {r : MpcResult V} {w' : Reading} (h : Leaving p own i₀ w r w') : Acts p own i₀ w .popp [r] w'

section
variable {p : MpcParser V} {own : List (MpcResult V)} {i₀ : MpcInput} {w : Reading}

theorem output_failed {x : V} {P : Prop} (h : (MpcResult.output x).failed = true) : P :=
  absurd h Bool.false_ne_true

theorem output_ne_error {x : V} {P : MpcErr → Prop} (e : MpcErr)
    (h : MpcResult.output x = .error e) : P e := by
  cases h

/-- A parser that opens nothing leaves the input where it is. -/
theorem Closing.stays_output {x : V} {i : MpcInput} (hopened : ∀ i, p.opened i = i) :
    Closing p own i₀ i (.output x) i :=
  .stays hopened output_failed

/-- Nothing is added to the errors. -/
theorem Leaving.same {r : MpcResult V} {i : MpcInput} (h : Closing p own i₀ w.input r i)
    (hresult : ∀ e, r = .error e → Derived i (fun e => .error e ∈ own) e) :
    Leaving p own i₀ w r { w with input := i } :=
  ⟨h, .there (.inl rfl), hresult⟩

/-- A parser leaves with an output, and with no error more. -/
theorem Leaving.output {x : V} {i : MpcInput} (h : Closing p own i₀ w.input (.output x) i) :
    Leaving p own i₀ w (.output x) { w with input := i } :=
  .same h output_ne_error

/-- An error of the parser is added to the others. -/
theorem Leaving.stackErr {x : V} {i : MpcInput} {e : MpcErr} (h : Closing p own i₀ w.input (.output x) i)
    (he : .error e ∈ own) : Leaving p own i₀ w (.output x) (mpcStackErr { w with input := i } e) :=
  ⟨h, Derived.stackErr (w := { w with input := i }) (.there (.inl rfl)) (.there (.inr he)),
    output_ne_error⟩

/-- A parser that has opened nothing fails where the one that it runs has failed. -/
theorem Leaving.failed {e e' : MpcErr} (hopened : ∀ i, p.opened i = i)
    (he : Derived w.input (fun e' => .error e' ∈ [MpcResult.error (V := V) e]) e') :
    Leaving p [.error e] i₀ w (.error e') w := by
  refine .same (.stays hopened fun _ r' hr' => ?_) ?_
  · rw [List.mem_singleton.mp hr']
    rfl
  · intro e₁ he₁
    cases he₁
    exact he

/-- The turn of a parser with the results `own` is defined, and the parser acts. -/
def Moves (vals : Values V) (p : MpcParser V) (own : List (MpcResult V)) (i₀ : MpcInput) (w : Reading) :
    Prop :=
  ∃ turn own' w', mpcSwitch vals p own.length own w = some (turn, own', w') ∧ Acts p own i₀ w turn own' w'

/-- A primitive parser leaves with what it reads. -/
theorem acts_primitive {read : Option (List Char) × MpcInput} (hown : own = [])
    (hread : ReadSpec w.input read) :
    ∃ turn own' w', some (mpcPrimitive vals w own read) = some (turn, own', w') ∧
      Acts p own i₀ w turn own' w' := by
  subst hown
  obtain ⟨_ | s, i⟩ := read
  · refine ⟨_, _, _, rfl, .failure (.same (.reads rfl hread.advances fun _ => hread.failed rfl) ?_)⟩
    intro e he
    cases he
    exact .fail "Incorrect Input"
  · exact ⟨_, _, _, rfl, .success (.output (.reads rfl hread.advances output_failed))⟩

/-- A parser that reads nothing and runs no other fails with an error of its own. -/
theorem acts_own_error {e : MpcErr} (hopened : ∀ i, p.opened i = i)
    (he : Derived w.input (fun e => .error e ∈ ([] : List (MpcResult V))) e) :
    Acts p [] i₀ w (.mpcFailure e) [] w := by
  refine .failure (.same (.stays hopened fun _ => List.forall_mem_nil _) ?_)
  intro e' he'
  cases he'
  exact he

/-- A parser that opens nothing leaves with an output, and the input where it is. -/
theorem acts_output {x : V} (hopened : ∀ i, p.opened i = i) : Acts p own i₀ w (.mpcSuccess x) [] w :=
  .success (.output (.stays_output hopened))

/-- A repetition with one more output runs its parser again. -/
theorem acts_again {x : Ptr} {v : V} {xs : List V}
    (hadmits : ∀ r, Admits p (r :: .output v :: xs.map .output)) :
    Acts p (.output v :: xs.map .output) i₀ w (.mpcContinue (xs.length + 2) x)
      (.output v :: xs.map .output) w :=
  .next (List.cons_ne_nil _ _) hadmits (by rw [List.length_cons, List.length_map])

/-- `mpc_not` goes back where its parser has read something, and otherwise takes its mark off. -/
theorem not_moves {x : Ptr} {lf : V} (r : MpcResult V) (hkept : Kept (mpcInputMark i₀) w.input) :
    Moves vals (.not x lf) [r] i₀ w := by
  cases r with
  | output v =>
    refine ⟨_, _, _, mpcSwitch_not_output (rewind_marked hkept),
      .failure (.same (.rewinds (List.cons_ne_nil _ _) fun _ => rfl) ?_)⟩
    intro e he
    cases he
    exact .new "opposite"
  | error e =>
    exact ⟨_, _, _, mpcSwitch_not_error (unmark_marked hkept), .success
      (.stackErr (.unmarks (List.cons_ne_nil _ _) fun _ => rfl) List.mem_cons_self)⟩

/-- `mpc_many` leaves with its outputs at the first error. -/
theorem many_moves {f : List V → V} {x : Ptr} (r : MpcResult V) (xs : List V) :
    Moves vals (.many f x) (r :: xs.map .output) i₀ w := by
  rw [Moves, List.length_cons, List.length_map]
  cases r with
  | output v => exact ⟨_, _, _, rfl, acts_again fun _ => ⟨v :: xs, rfl⟩⟩
  | error e =>
    exact ⟨_, _, _, mpcSwitch_many_error xs, .success
      (.stackErr (.stays_output fun _ => rfl) List.mem_cons_self)⟩

/-- `mpc_many1` does the same, and fails where there is no output. -/
theorem many1_moves {f : List V → V} {x : Ptr} (r : MpcResult V) (xs : List V) :
    Moves vals (.many1 f x) (r :: xs.map .output) i₀ w := by
  rw [Moves, List.length_cons, List.length_map]
  cases r with
  | output v => exact ⟨_, _, _, rfl, acts_again fun _ => ⟨v :: xs, rfl⟩⟩
  | error e =>
    cases xs with
    | nil =>
      exact ⟨_, _, _, rfl,
        .failure (.failed (fun _ => rfl) (.repeated _ (.there List.mem_cons_self)))⟩
    | cons v xs =>
      exact ⟨_, _, _, mpcSwitch_many1_error xs, .success
        (.stackErr (.stays_output fun _ => rfl) List.mem_cons_self)⟩

/-- `mpc_count` leaves at the first error too, and goes back where the outputs are not `n`. -/
theorem count_moves {n : Nat} {f : List V → V} {x : Ptr} (r : MpcResult V) (xs : List V)
    (hkept : Kept (mpcInputMark i₀) w.input) : Moves vals (.count n f x) (r :: xs.map .output) i₀ w := by
  rw [Moves, List.length_cons, List.length_map]
  cases r with
  | output v => exact ⟨_, _, _, rfl, acts_again fun _ => ⟨v :: xs, rfl⟩⟩
  | error e =>
    by_cases hn : xs.length = n
    · subst hn
      exact ⟨_, _, _, mpcSwitch_count_all xs (unmark_marked hkept), .success
        (.stackErr (.unmarks (List.cons_ne_nil _ _) fun _ => rfl) List.mem_cons_self)⟩
    · refine ⟨_, _, _, mpcSwitch_count_few xs hn (rewind_marked hkept),
        .failure (.same (.rewinds (List.cons_ne_nil _ _) fun _ => rfl) ?_)⟩
      intro e' he'
      cases he'
      exact .repeated _ (.there List.mem_cons_self)

/-- The error of `mpc_or` is made from those of all its choices. -/
theorem derived_mpcErrOr {i : MpcInput} {e e' : MpcErr} {es es' : List MpcErr}
    (hrev : (e :: es).reverse = e' :: es') :
    Derived i (fun e₁ => .error e₁ ∈ MpcResult.error (V := V) e :: es.map .error) (mpcErrOr e' es') := by
  have hthere : ∀ e₁ ∈ e' :: es', Derived i
      (fun e₁ => .error e₁ ∈ MpcResult.error (V := V) e :: es.map .error) e₁ := by
    intro e₁ he₁
    rw [← hrev, List.mem_reverse] at he₁
    exact .there (List.mem_map_of_mem (f := MpcResult.error (V := V)) he₁)
  exact .or (hthere e' List.mem_cons_self) fun e₁ he₁ => hthere e₁ (List.mem_cons_of_mem _ he₁)

/-- `mpc_or` leaves with the first output, and fails where none of its parsers is left. -/
theorem or_moves {x : Ptr} {xs : List Ptr} (r : MpcResult V) (es : List MpcErr)
    (hlength : es.length ≤ xs.length) : Moves vals (.or (x :: xs)) (r :: es.map .error) i₀ w := by
  rw [Moves, List.length_cons, List.length_map]
  cases r with
  | output v =>
    refine ⟨_, _, _, mpcSwitch_or_output es hlength, .success ⟨?_, ?_, output_ne_error⟩⟩
    · rw [foldl_stackErr_input]
      exact .stays_output fun _ => rfl
    · rw [foldl_stackErr_input]
      refine .foldlStackErr (.there (.inl rfl)) fun e he => .there (.inr ?_)
      exact List.mem_cons_of_mem _ (List.mem_map_of_mem he)
  | error e =>
    rcases Nat.eq_or_lt_of_le hlength with heq | hlt
    · obtain ⟨e', es', hrev⟩ := List.exists_cons_of_ne_nil
        (List.reverse_ne_nil_iff.mpr (List.cons_ne_nil e es))
      refine ⟨_, _, _, mpcSwitch_or_last es heq hrev,
        .failure (.same (.stays (fun _ => rfl) (fun _ => ?_)) ?_)⟩
      · rw [← List.map_cons]
        exact List.forall_mem_map.mpr fun _ _ => rfl
      · intro e₁ he₁
        cases he₁
        exact derived_mpcErrOr hrev
    · refine ⟨_, _, _, mpcSwitch_or_next es hlt, .next (List.cons_ne_nil _ _) ?_ ?_⟩
      · exact fun _ => ⟨⟨e :: es, rfl⟩, by rwa [List.length_cons, List.length_map]⟩
      · rw [List.length_cons, List.length_map]

/-- `mpc_and` goes back at the first error, and leaves with its outputs where none of its parsers is
left. -/
theorem and_moves {f : List V → V} {x : Ptr} {xs : List Ptr} (r : MpcResult V) (ys : List V)
    (hlength : ys.length ≤ xs.length) (hkept : Kept (mpcInputMark i₀) w.input) :
    Moves vals (.and f (x :: xs)) (r :: ys.map .output) i₀ w := by
  rw [Moves, List.length_cons, List.length_map]
  cases r with
  | error e =>
    refine ⟨_, _, _, mpcSwitch_and_error ys hlength (rewind_marked hkept),
      .failure (.same (.rewinds (List.cons_ne_nil _ _) fun _ => rfl) ?_)⟩
    intro e' he'
    cases he'
    exact .there List.mem_cons_self
  | output v =>
    rcases Nat.eq_or_lt_of_le hlength with heq | hlt
    · exact ⟨_, _, _, mpcSwitch_and_last ys heq (unmark_marked hkept),
        .success (.output (.unmarks (List.cons_ne_nil _ _) fun _ => rfl))⟩
    · refine ⟨_, _, _, mpcSwitch_and_next ys hlt, .next (List.cons_ne_nil _ _) ?_ ?_⟩
      · exact fun _ => ⟨⟨v :: ys, rfl⟩, by rwa [List.length_cons, List.length_map]⟩
      · rw [List.length_cons, List.length_map]

/-- **What a turn does.** With the results that its kind admits, and an input where what it has opened is
still open, a parser acts, and never in another way. -/
theorem mpcSwitch_acts (vals : Values V) (hadmits : Admits p own)
    (hkept : Kept (entered p own i₀) w.input)
    (hpos : w.input.state.pos ≤ w.input.string.length) : Moves vals p own i₀ w := by
  cases p with
  -- parsers that run no other
  | any | single x | range x y | oneof x | noneof x | satisfy f =>
    cases own with
    | cons => cases hadmits
    | nil =>
      rw [Moves, mpcSwitch_condition rfl]
      exact acts_primitive rfl (readSpec_satisfy hpos _)
  | string x =>
    cases own with
    | cons => cases hadmits
    | nil =>
      obtain ⟨read, hread, hspec⟩ := readSpec_string x hpos
      rw [Moves, mpcSwitch, hread]
      exact acts_primitive rfl hspec
  | pass | lift x | liftVal x | state =>
    cases own with
    | cons => cases hadmits
    | nil => exact ⟨_, _, _, rfl, acts_output fun _ => rfl⟩
  | undefined | fail m =>
    cases own with
    | cons => cases hadmits
    | nil => exact ⟨_, _, _, rfl, acts_own_error (fun _ => rfl) (.fail _)⟩
  | anchor f =>
    cases own with
    | cons => cases hadmits
    | nil =>
      rw [Moves, mpcSwitch]
      split
      · exact ⟨_, _, _, rfl, acts_output fun _ => rfl⟩
      · exact ⟨_, _, _, rfl, acts_own_error (fun _ => rfl) (.new "anchor")⟩
  -- parsers that run one other, once
  | expect x m =>
    obtain _ | ⟨r, own⟩ := own
    · exact ⟨_, _, _, rfl, .first rfl fun _ => rfl⟩
    · obtain rfl : own = [] := hadmits
      cases r with
      | output v => exact ⟨_, _, _, rfl, acts_output fun _ => rfl⟩
      | error e => exact ⟨_, _, _, rfl, .failure (.failed (fun _ => rfl) (.new m))⟩
  | apply x f | applyTo x f d =>
    obtain _ | ⟨r, own⟩ := own
    · exact ⟨_, _, _, rfl, .first rfl fun _ => rfl⟩
    · obtain rfl : own = [] := hadmits
      cases r with
      | output v => exact ⟨_, _, _, rfl, acts_output fun _ => rfl⟩
      | error e =>
        exact ⟨_, _, _, rfl, .failure (.failed (fun _ => rfl) (.there List.mem_cons_self))⟩
  | maybe x lf =>
    obtain _ | ⟨r, own⟩ := own
    · exact ⟨_, _, _, rfl, .first rfl fun _ => rfl⟩
    · obtain rfl : own = [] := hadmits
      cases r with
      | output v => exact ⟨_, _, _, rfl, acts_output fun _ => rfl⟩
      | error e =>
        exact ⟨_, _, _, rfl, .success (.stackErr (.stays_output fun _ => rfl) List.mem_cons_self)⟩
  | predict x =>
    obtain _ | ⟨r, own⟩ := own
    · exact ⟨_, _, _, rfl, .first rfl fun _ => rfl⟩
    · obtain rfl : own = [] := hadmits
      refine ⟨_, _, _, rfl, .popp (.same (.enables (List.cons_ne_nil _ _) rfl) ?_)⟩
      intro e he
      exact .there (he ▸ List.mem_cons_self)
  | not x lf =>
    obtain _ | ⟨r, own⟩ := own
    · exact ⟨_, _, _, rfl, .first rfl fun _ => rfl⟩
    · obtain rfl : own = [] := hadmits
      exact not_moves r hkept
  -- repetitions
  | many f x =>
    obtain _ | ⟨r, own⟩ := own
    · exact ⟨_, _, _, rfl, .first rfl fun _ => ⟨[], rfl⟩⟩
    · obtain ⟨xs, rfl⟩ := hadmits
      exact many_moves r xs
  | many1 f x =>
    obtain _ | ⟨r, own⟩ := own
    · exact ⟨_, _, _, rfl, .first rfl fun _ => ⟨[], rfl⟩⟩
    · obtain ⟨xs, rfl⟩ := hadmits
      exact many1_moves r xs
  | count n f x =>
    obtain _ | ⟨r, own⟩ := own
    · exact ⟨_, _, _, rfl, .first rfl fun _ => ⟨[], rfl⟩⟩
    · obtain ⟨xs, rfl⟩ := hadmits
      exact count_moves r xs hkept
  -- choices and sequences, which are over at once where they are empty
  | or xs =>
    cases xs with
    | nil =>
      cases own with
      | cons => cases hadmits
      | nil => exact ⟨_, _, _, rfl, acts_output fun _ => rfl⟩
    | cons x xs =>
      obtain _ | ⟨r, own⟩ := own
      · exact ⟨_, _, _, rfl, .first rfl fun _ => ⟨⟨[], rfl⟩, Nat.zero_le _⟩⟩
      · obtain ⟨⟨es, rfl⟩, hlength⟩ := hadmits
        rw [List.length_map] at hlength
        exact or_moves r es hlength
  | and f xs =>
    cases xs with
    | nil =>
      cases own with
      | cons => cases hadmits
      | nil => exact ⟨_, _, _, rfl, acts_output fun _ => rfl⟩
    | cons x xs =>
      obtain _ | ⟨r, own⟩ := own
      · exact ⟨_, _, _, rfl, .first rfl fun _ => ⟨⟨[], rfl⟩, Nat.zero_le _⟩⟩
      · obtain ⟨⟨ys, rfl⟩, hlength⟩ := hadmits
        rw [List.length_map] at hlength
        exact and_moves r ys hlength hkept

end

end Rbml.Mpc
