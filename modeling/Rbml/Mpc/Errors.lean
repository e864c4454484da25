import Rbml.Mpc.Turns

/-!
# The places of errors

Rows and columns are counted while the input is read. `At` says what they are for: the row of a place is
the number of line breaks before it, and the column the number of characters behind the last of them.

An error is sited if its state is that of a place in the text, and what it shows as received is the
character there. The engine's own errors are, and joining errors keeps it so: `mpc_err_or` takes the
place that is furthest in the text, and all that it joins are errors of that place.
-/

namespace Rbml.Mpc

/-! ## Places in a text -/

/-- The line breaks before a place -/
def rowAt (text : List Char) (pos : Nat) : Nat := (text.take pos).count '\n'

/-- The characters between the last line break and a place -/
def colAt (text : List Char) (pos : Nat) : Nat :=
  ((text.take pos).reverse.takeWhile fun c => c != '\n').length

/-- The state is that of a place in the text. -/
structure At (text : List Char) (s : MpcState) : Prop where
  le : s.pos ≤ text.length
  row : s.row = rowAt text s.pos
  col : s.col = colAt text s.pos

/-- A place has one row and one column. -/
theorem At.unique {text : List Char} {s s' : MpcState} (h : At text s) (h' : At text s')
    (hpos : s.pos = s'.pos) : s = s' := by
  obtain ⟨pos, row, col⟩ := s
  obtain ⟨pos', row', col'⟩ := s'
  obtain rfl : pos = pos' := hpos
  obtain rfl : row = row' := h.row.trans h'.row.symm
  obtain rfl : col = col' := h.col.trans h'.col.symm
  rfl

/-- The input is at a place in its text, and `last` is the character before it. -/
structure Located (i : MpcInput) : Prop where
  state : At i.string i.state
  last : i.last = (i.string.take i.state.pos).getLastD '\x00'

/-- At the start the position is the first place. -/
theorem located_newString (filename : String) (string : List Char) :
    Located (mpcInputNewString filename string) :=
  ⟨⟨Nat.zero_le _, rfl, rfl⟩, rfl⟩

/-- The place does not depend on what else is in the input. -/
theorem Located.of_eq {i j : MpcInput} (h : Located i) (hstring : j.string = i.string)
    (hstate : j.state = i.state) (hlast : j.last = i.last) : Located j := by
  refine ⟨?_, ?_⟩
  · rw [hstring, hstate]
    exact h.state
  · rw [hlast, hstring, hstate]
    exact h.last

/-- A character that is read moves the position to the next place. -/
theorem Located.success {i : MpcInput} (h : Located i) {c : Char} {rest : List Char}
    (hrest : i.string.drop i.state.pos = c :: rest) : Located (mpcInputSuccess i c) := by
  have hlt : i.state.pos < i.string.length := by
    refine Nat.lt_of_not_le fun hle => ?_
    rw [List.drop_of_length_le hle] at hrest
    cases hrest
  have htake : i.string.take (i.state.pos + 1) = i.string.take i.state.pos ++ [c] := by
    rw [List.take_add, hrest]
    rfl
  obtain ⟨⟨-, hrow, hcol⟩, -⟩ := h
  have hpos := success_pos i c
  refine ⟨⟨?_, ?_, ?_⟩, ?_⟩
  · rw [hpos]
    exact hlt
  · rw [hpos, (kept_success i c).string, rowAt, htake, List.count_append, ← rowAt, ← hrow]
    by_cases hc : c = '\n'
    · simp only [mpcInputSuccess, hc, if_true, List.count_singleton_self]
    · simp only [mpcInputSuccess, if_neg hc, List.count_singleton, beq_false_of_ne hc,
        Bool.false_eq_true, if_false, Nat.add_zero]
  · rw [hpos, (kept_success i c).string, colAt, htake, List.reverse_append, List.reverse_singleton,
      List.singleton_append, List.takeWhile_cons]
    by_cases hc : c = '\n'
    · simp only [mpcInputSuccess, hc, if_true, bne_self_eq_false, Bool.false_eq_true, if_false,
        List.length_nil]
    · simp only [mpcInputSuccess, if_neg hc, bne_iff_ne.mpr hc, if_true, List.length_cons, hcol,
        colAt]
  · rw [hpos, (kept_success i c).string, htake, List.getLastD_concat]
    rfl

/-- Some characters that are read move the position to a place of the text. -/
theorem Advances.located {i j : MpcInput} (h : Advances i j) (hi : Located i) : Located j := by
  obtain ⟨cs, ⟨rest, hrest⟩, rfl⟩ := h
  induction cs generalizing i with
  | nil => exact hi
  | cons c cs ih =>
    refine ih (hi.success (c := c) hrest.symm) ?_
    rw [(kept_success i c).string, success_pos, ← List.drop_drop, ← hrest]
    rfl

/-! ## Messages -/

/-- What a message is if the buffer has room for it -/
def inBuffer (text : String) : Option String := if text.length < 1024 then some text else none

/-- The message of a failure -/
def failureText (filename failure : String) : String := filename ++ ": error: " ++ failure ++ "\n"

/-- The message of an error that says what is expected at a row and a column, and what is there -/
def expectedText (filename : String) (row col : Nat) (expected : List String) (c : Char) : String :=
  filename ++ ":" ++ toString row ++ ":" ++ toString col ++ ": error: expected " ++
    joinExpected expected ++ " at " ++ mpcErrCharUnescape c ++ "\n"

/-- Two texts in a row are one, with or without room for it. -/
theorem stringCat_bind (buffer s t : String) :
    (mpcErrStringCat buffer s >>= fun buffer => mpcErrStringCat buffer t) =
      mpcErrStringCat buffer (s ++ t) := by
  simp only [mpcErrStringCat, String.length_append]
  by_cases hs : buffer.length + s.length < 1024
  · rw [if_pos hs, Option.bind_eq_bind, Option.bind_some, String.length_append, String.append_assoc,
      Nat.add_assoc]
  · rw [if_neg hs, if_neg (by omega)]
    rfl

/-- The same before the rest of a message -/
theorem stringCat_bind_bind (buffer s t : String) (rest : String → Option String) :
    (mpcErrStringCat buffer s >>= fun buffer => mpcErrStringCat buffer t >>= rest) =
      (mpcErrStringCat buffer (s ++ t) >>= rest) := by
  rw [← stringCat_bind, bind_assoc]

/-- The first text of a message is put into an empty buffer. -/
theorem stringCat_empty (text : String) : mpcErrStringCat "" text = inBuffer text := by
  rw [mpcErrStringCat, inBuffer, String.length_empty, Nat.zero_add, String.empty_append]

/-- Of all characters only `%` is taken for a conversion. -/
theorem vsprintf_unescape (c : Char) :
    vsprintf (mpcErrCharUnescape c) = if c = '%' then none else some (mpcErrCharUnescape c) := by
  have hmem : '%' ∈ (mpcErrCharUnescape c).toList ↔ c = '%' := by
    unfold mpcErrCharUnescape
    split
    all_goals first
      | exact iff_of_false (by decide) (by decide)
      | simp [eq_comm]
  simp only [vsprintf, hmem]

/-- `mpc_err_string` of a failure -/
theorem mpcErrString_failure {e : MpcErr} {failure : String} (h : e.failure = some failure) :
    mpcErrString e = inBuffer (failureText e.filename failure) := by
  rw [mpcErrString, h]
  exact stringCat_empty _

/-- `mpc_err_string` of an error with a place -/
theorem mpcErrString_expected {e : MpcErr} {s : MpcState} {c : Char} (hfailure : e.failure = none)
    (hs : e.state = some s) (hexpected : e.expected ≠ []) (hrecieved : e.recieved = some c) :
    mpcErrString e = if c = '%' then none
      else inBuffer (expectedText e.filename (s.row + 1) (s.col + 1) e.expected c) := by
  simp only [mpcErrString, hfailure, hs, hrecieved, Option.map_some, Option.getD_some, if_neg hexpected,
    vsprintf_unescape]
  by_cases hc : c = '%'
  · simp only [if_pos hc, Option.bind_eq_bind, Option.bind_some, Option.bind_none, Option.bind_fun_none]
  · simp only [if_neg hc, Option.bind_eq_bind, Option.bind_some]
    show (mpcErrStringCat "" _ >>= fun buffer => mpcErrStringCat buffer _ >>= fun buffer =>
      mpcErrStringCat buffer _ >>= fun buffer => mpcErrStringCat buffer _ >>= fun buffer =>
        mpcErrStringCat buffer _) = _
    rw [stringCat_bind_bind, stringCat_bind_bind, stringCat_bind_bind, stringCat_bind, stringCat_empty]
    rfl

example : mpcErrString ⟨"a", some ⟨2, 0, 2⟩, ["label", "end of input"], none, some '+'⟩ =
    some "a:1:3: error: expected label or end of input at '+'\n" := by rfl

example : mpcErrString ⟨"a", some ⟨2, 0, 2⟩, ["label", "end of input"], none, some '%'⟩ = none := by
  rfl

/-- The error is a failure, and its message says which. -/
def Fails (filename : String) (e : MpcErr) : Prop :=
  ∃ failure, e.failure = some failure ∧ mpcErrString e = inBuffer (failureText filename failure)

/-- The error is one at a row and a column where `c` is, and its message says so. It has none exactly where
`c` is a `%`, or it is longer than its buffer. -/
structure Says (filename : String) (row col : Nat) (c : Char) (e : MpcErr) : Prop where
  place : ∃ s, e.state = some s ∧ s.row = row ∧ s.col = col
  failure : e.failure = none
  expected : e.expected ≠ []
  recieved : e.recieved = some c
  message : mpcErrString e =
    if c = '%' then none else inBuffer (expectedText filename (row + 1) (col + 1) e.expected c)

/-- The message of a failure is that of the error. -/
theorem fails_of_failure {e : MpcErr} {failure : String} (h : e.failure = some failure) :
    Fails e.filename e :=
  ⟨failure, h, mpcErrString_failure h⟩

/-- The message of an error with a place says which one. -/
theorem says_of_recieved {e : MpcErr} {s : MpcState} {c : Char} (hs : e.state = some s)
    (hfailure : e.failure = none) (hexpected : e.expected ≠ []) (hrecieved : e.recieved = some c) :
    Says e.filename s.row s.col c e :=
  ⟨⟨s, hs, rfl, rfl⟩, hfailure, hexpected, hrecieved,
    mpcErrString_expected hfailure hs hexpected hrecieved⟩

/-! ## Errors of a place -/

/-- The error is one of a place in the text, where it expects something else than what is there, or says
what is wrong. Only the engine's first error has no place. -/
structure Sited (filename : String) (text : List Char) (e : MpcErr) : Prop where
  filename : e.filename = filename
  invalid : e.state = none → e.failure ≠ none
  place : ∀ s, e.state = some s → At text s
  received : ∀ s, e.state = some s → e.failure = none →
    e.expected ≠ [] ∧ e.recieved = some (text.getD s.pos '\x00')

section
variable {filename : String} {text : List Char}

/-- A failure at the position is an error of the text. -/
theorem sited_fail {i : MpcInput} (h : Located i) (m : String) :
    Sited i.filename i.string (mpcErrFail i.filename (some i.state) m) := by
  refine ⟨rfl, fun hnone => absurd hnone (Option.some_ne_none _), ?_, fun _ _ hnone => ?_⟩
  · intro s hs
    obtain rfl := Option.some.inj hs
    exact h.state
  · exact absurd hnone (Option.some_ne_none _)

/-- An error with what is expected at the position is an error of the text. -/
theorem sited_new {i : MpcInput} (h : Located i) (m : String) :
    Sited i.filename i.string (mpcErrNew i.filename i.state m (mpcInputPeekc i)) := by
  refine ⟨rfl, fun hnone => absurd hnone (Option.some_ne_none _), ?_, ?_⟩
  · intro s hs
    obtain rfl := Option.some.inj hs
    exact h.state
  · intro s hs _
    obtain rfl := Option.some.inj hs
    exact ⟨List.cons_ne_nil _ _, rfl⟩

theorem Sited.repeated {e : MpcErr} (h : Sited filename text e) (start : String) :
    Sited filename text (mpcErrRepeat e start) :=
  ⟨h.filename, h.invalid, h.place, fun s hs hfailure =>
    ⟨List.cons_ne_nil _ _, (h.received s hs hfailure).2⟩⟩

/-- A sited error with a place either says what is wrong, or says what is expected there and what is there
instead. -/
theorem Sited.message {e : MpcErr} (h : Sited filename text e) (hstate : e.state ≠ none) :
    Fails filename e ∨
      ∃ pos ≤ text.length, Says filename (rowAt text pos) (colAt text pos) (text.getD pos '\x00') e := by
  obtain ⟨s, hs⟩ := Option.ne_none_iff_exists'.mp hstate
  have hplace := h.place s hs
  rw [← h.filename]
  rcases Option.eq_none_or_eq_some e.failure with hfailure | ⟨failure, hfailure⟩
  · obtain ⟨hexpected, hrecieved⟩ := h.received s hs hfailure
    refine .inr ⟨s.pos, hplace.le, ?_⟩
    rw [← hplace.row, ← hplace.col]
    exact says_of_recieved hs hfailure hexpected hrecieved
  · exact .inl (fails_of_failure hfailure)

/-! ## Joined errors -/

/-- The state that `mpc_err_or` finds is the furthest of all. -/
theorem furthest_spec (xs : List MpcErr) (s₀ : Option MpcState) :
    let s := xs.foldl (fun s y => if posOf s < posOf y.state then y.state else s) s₀
    (s = s₀ ∨ ∃ y ∈ xs, y.state = s) ∧ posOf s₀ ≤ posOf s ∧ ∀ y ∈ xs, posOf y.state ≤ posOf s := by
  induction xs generalizing s₀ with
  | nil => exact ⟨.inl rfl, Int.le_refl _, List.forall_mem_nil _⟩
  | cons x xs ih =>
    obtain ⟨hfrom, hle, hall⟩ := ih (if posOf s₀ < posOf x.state then x.state else s₀)
    have hstart : posOf s₀ ≤ posOf (if posOf s₀ < posOf x.state then x.state else s₀) ∧
        posOf x.state ≤ posOf (if posOf s₀ < posOf x.state then x.state else s₀) := by
      split <;> omega
    refine ⟨?_, Int.le_trans hstart.1 hle,
      List.forall_mem_cons.mpr ⟨Int.le_trans hstart.2 hle, hall⟩⟩
    rcases hfrom with hfrom | ⟨y, hy, hstate⟩
    · rw [List.foldl_cons, hfrom]
      split
      · exact .inr ⟨x, List.mem_cons_self, rfl⟩
      · exact .inl rfl
    · exact .inr ⟨y, List.mem_cons_of_mem _ hy, hstate⟩

/-- More that is expected changes nothing else. -/
theorem addExpected_keeps (e : MpcErr) (expected : List String) :
    (expected.foldl mpcErrAddExpected e).filename = e.filename ∧
      (expected.foldl mpcErrAddExpected e).state = e.state ∧
      (expected.foldl mpcErrAddExpected e).failure = e.failure ∧
      (expected.foldl mpcErrAddExpected e).recieved = e.recieved := by
  induction expected generalizing e with
  | nil => exact ⟨rfl, rfl, rfl, rfl⟩
  | cons x expected ih =>
    obtain ⟨hfilename, hstate, hfailure, hrecieved⟩ := ih (mpcErrAddExpected e x)
    refine ⟨hfilename.trans ?_, hstate.trans ?_, hfailure.trans ?_, hrecieved.trans ?_⟩
    all_goals
      unfold mpcErrAddExpected
      split <;> rfl

/-- What is expected is collected. -/
theorem addExpected_ne_nil {e : MpcErr} {expected : List String}
    (h : e.expected ≠ [] ∨ expected ≠ []) : (expected.foldl mpcErrAddExpected e).expected ≠ [] := by
  induction expected generalizing e with
  | nil => exact h.resolve_right fun hne => hne rfl
  | cons x expected ih =>
    refine ih (.inl ?_)
    unfold mpcErrAddExpected
    split
    next hmem => exact List.ne_nil_of_mem hmem
    · exact List.append_ne_nil_of_right_ne_nil _ (List.cons_ne_nil _ _)

/-- Joining leaves the file and the place. -/
theorem collect_keeps (e : MpcErr) (xs : List MpcErr) :
    (mpcErrCollect e xs).filename = e.filename ∧ (mpcErrCollect e xs).state = e.state := by
  induction xs generalizing e with
  | nil => exact ⟨rfl, rfl⟩
  | cons x xs ih =>
    rw [mpcErrCollect]
    split
    · exact ih e
    · cases x.failure with
      | some failure => exact ⟨rfl, rfl⟩
      | none =>
        have hkeeps := addExpected_keeps { e with recieved := x.recieved } x.expected
        obtain ⟨hfilename, hstate⟩ :=
          ih (x.expected.foldl mpcErrAddExpected { e with recieved := x.recieved })
        exact ⟨hfilename.trans hkeeps.1, hstate.trans hkeeps.2.1⟩

/-- Where no error of the place is a failure, what is expected and what is received are collected from
those that are. -/
theorem collect_received {e : MpcErr} {xs : List MpcErr} {c : Char}
    (hxs : ∀ y ∈ xs, ¬ posOf y.state < posOf e.state → y.failure = none →
      y.expected ≠ [] ∧ y.recieved = some c)
    (h : (e.expected ≠ [] ∧ e.recieved = some c) ∨ ∃ y ∈ xs, ¬ posOf y.state < posOf e.state)
    (hfailure : (mpcErrCollect e xs).failure = none) :
    (mpcErrCollect e xs).expected ≠ [] ∧ (mpcErrCollect e xs).recieved = some c := by
  induction xs generalizing e with
  | nil =>
    refine h.resolve_right ?_
    rintro ⟨y, hy, -⟩
    cases hy
  | cons x xs ih =>
    have hrest : ∀ y ∈ xs, ¬ posOf y.state < posOf e.state → y.failure = none →
        y.expected ≠ [] ∧ y.recieved = some c := fun y hy => hxs y (List.mem_cons_of_mem _ hy)
    rw [mpcErrCollect] at hfailure ⊢
    by_cases hlt : posOf x.state < posOf e.state
    · rw [if_pos hlt] at hfailure ⊢
      refine ih hrest (h.imp_right ?_) hfailure
      rintro ⟨y, hy, hfar⟩
      rcases List.mem_cons.mp hy with rfl | hy
      · exact absurd hlt hfar
      · exact ⟨y, hy, hfar⟩
    · rw [if_neg hlt] at hfailure ⊢
      cases hx : x.failure with
      | some failure =>
        rw [hx] at hfailure
        cases hfailure
      | none =>
        rw [hx] at hfailure
        obtain ⟨hexpected, hrecieved⟩ := hxs x List.mem_cons_self hlt hx
        have hkeeps := addExpected_keeps { e with recieved := x.recieved } x.expected
        refine ih ?_ (.inl ⟨addExpected_ne_nil (.inr hexpected), hkeeps.2.2.2.trans hrecieved⟩)
          hfailure
        rw [hkeeps.2.1]
        exact hrest

theorem mpcErrOr_eq (x : MpcErr) (xs : List MpcErr) :
    mpcErrOr x xs = mpcErrCollect ⟨x.filename, (mpcErrOr x xs).state, [], none, none⟩ (x :: xs) := by
  have hstate : (mpcErrOr x xs).state = _ := (collect_keeps _ _).2
  rw [hstate]
  rfl

/-- The place of a joined error is the furthest one. -/
theorem mpcErrOr_state (x : MpcErr) (xs : List MpcErr) :
    (∀ y ∈ x :: xs, posOf y.state ≤ posOf (mpcErrOr x xs).state) ∧
      ((mpcErrOr x xs).state = none ∨ ∃ y ∈ x :: xs, y.state = (mpcErrOr x xs).state) := by
  obtain ⟨hfrom, -, hall⟩ := furthest_spec (x :: xs) none
  have hstate : (mpcErrOr x xs).state = _ := (collect_keeps _ _).2
  rw [hstate]
  exact ⟨hall, hfrom⟩

/-- A place that is no further than `mpc_state_invalid` is that one. -/
theorem posOf_eq_none {s : Option MpcState} (h : posOf s ≤ posOf none) : s = none := by
  cases s with
  | none => rfl
  | some s =>
    simp only [posOf] at h
    omega

/-- An error that is joined from errors with a place has one. -/
theorem mpcErrOr_state_ne_none {x y : MpcErr} {xs : List MpcErr} (hy : y ∈ x :: xs)
    (h : y.state ≠ none) : (mpcErrOr x xs).state ≠ none := by
  intro hnone
  have hle := (mpcErrOr_state x xs).1 y hy
  rw [hnone] at hle
  exact h (posOf_eq_none hle)

/-- Joining errors keeps them at a place. -/
theorem Sited.or {x : MpcErr} {xs : List MpcErr} (h : ∀ y ∈ x :: xs, Sited filename text y) :
    Sited filename text (mpcErrOr x xs) := by
  obtain ⟨hall, hfrom⟩ := mpcErrOr_state x xs
  have hx := h x List.mem_cons_self
  refine ⟨(collect_keeps _ _).1.trans hx.filename, ?_, ?_, ?_⟩
  · intro hnone hfailure
    rw [hnone] at hall
    have hstate := posOf_eq_none (hall x List.mem_cons_self)
    -- the first error is one of those that are joined, and it is a failure
    rw [mpcErrOr_eq, hnone, mpcErrCollect, hstate, if_neg (Int.lt_irrefl _)] at hfailure
    cases hx' : x.failure with
    | none => exact hx.invalid hstate hx'
    | some failure =>
      rw [hx'] at hfailure
      cases hfailure
  · intro s hs
    rw [hs] at hfrom
    obtain ⟨y, hy, hstate⟩ := hfrom.resolve_left (Option.some_ne_none s)
    exact (h y hy).place s hstate
  · intro s hs hfailure
    rw [hs] at hall hfrom
    obtain ⟨y, hy, hstate⟩ := hfrom.resolve_left (Option.some_ne_none s)
    rw [mpcErrOr_eq, hs] at hfailure ⊢
    refine collect_received ?_ (.inr ⟨y, hy, ?_⟩) hfailure
    · intro z hz hfar hnone
      have hle := hall z hz
      cases hz' : z.state with
      | none =>
        rw [hz'] at hfar
        simp only [posOf] at hfar
        omega
      | some t =>
        rw [hz'] at hfar hle
        simp only [posOf] at hfar hle
        have hpos : t.pos = s.pos := by omega
        rw [← hpos]
        exact (h z hz).received t hz' hnone
    · rw [hstate]
      exact Int.lt_irrefl _

end

/-! ## Errors of the engine -/

/-- What the engine makes of errors of the text are errors of the text. -/
theorem Derived.sited {i : MpcInput} {there : MpcErr → Prop} (hi : Located i)
    (hthere : ∀ e, there e → Sited i.filename i.string e) {e : MpcErr} (h : Derived i there e) :
    Sited i.filename i.string e := by
  induction h with
  | there h => exact hthere _ h
  | new m => exact sited_new hi m
  | fail m => exact sited_fail hi m
  | repeated start _ ih => exact ih.repeated start
  | or _ _ ih ihs => exact .or (List.forall_mem_cons.mpr ⟨ih, ihs⟩)

/-- What it makes of errors with a place has a place. -/
theorem Derived.state_ne_none {i : MpcInput} {there : MpcErr → Prop}
    (hthere : ∀ e, there e → e.state ≠ none) {e : MpcErr} (h : Derived i there e) : e.state ≠ none := by
  induction h with
  | there h => exact hthere _ h
  | new m => exact Option.some_ne_none _
  | fail m => exact Option.some_ne_none _
  | repeated start _ ih => exact ih
  | or _ _ ih _ => exact mpcErrOr_state_ne_none List.mem_cons_self ih

end Rbml.Mpc
