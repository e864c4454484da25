import Mathlib.Data.Int.Notation
import Rbml.Lib.Loop

/-!
# The parser engine (`mpc.c`)

`mpc_parse_input`, which runs a graph of parsers on a string. It is a loop over two stacks: the parsers
that are under way, each with the state of its turns, and the results that they wait for. A parser that
needs another one is put back with its next state and the other one on top of it; a parser that is done
is taken off, and its result goes to the stack of results. Places in the input that a parser may go back
to are marked, in a stack again.

What reads below the bottom of a stack, takes an error for an output, or falls through to the next case
of the `switch` is undefined here. Input that is a file or a pipe, storage and destructors are left out.
-/

namespace Rbml.Mpc

open Rbml.Lib

/-! ## Errors -/

/-- `mpc_state_t` -/
structure MpcState where
  pos : Nat
  row : Nat
  col : Nat
  deriving DecidableEq, Repr

/-- `mpc_state_new` -/
def mpcStateNew : MpcState := ⟨0, 0, 0⟩

/-- The field `pos` of a state, where `none` is `mpc_state_invalid` -/
def posOf : Option MpcState → Int
  | none => -1
  | some s => s.pos

/-- `mpc_err_t`. `mpc_err_or` leaves `recieved` unset where it finds a `failure`. -/
structure MpcErr where
  filename : String
  state : Option MpcState
  expected : List String
  failure : Option String
  recieved : Option Char
  deriving DecidableEq, Repr

/-- `mpc_err_new` -/
def mpcErrNew (filename : String) (s : MpcState) (expected : String) (recieved : Char) : MpcErr :=
  ⟨filename, some s, [expected], none, some recieved⟩

/-- `mpc_err_fail` -/
def mpcErrFail (filename : String) (s : Option MpcState) (failure : String) : MpcErr :=
  ⟨filename, s, [], some failure, some ' '⟩

/-- `mpc_err_add_expected`, unless `mpc_err_contains_expected` -/
def mpcErrAddExpected (e : MpcErr) (expected : String) : MpcErr :=
  if expected ∈ e.expected then e else { e with expected := e.expected ++ [expected] }

/-- The errors of `mpc_err_or` that are furthest in the input, up to the first failure -/
def mpcErrCollect (e : MpcErr) : List MpcErr → MpcErr
  | [] => e
  | x :: xs =>
    if posOf x.state < posOf e.state then mpcErrCollect e xs
    else
      match x.failure with
      | some failure => { e with failure := some failure }
      | none => mpcErrCollect (x.expected.foldl mpcErrAddExpected { e with recieved := x.recieved }) xs

/-- `mpc_err_or` -/
def mpcErrOr (x : MpcErr) (xs : List MpcErr) : MpcErr :=
  let state := (x :: xs).foldl (fun s y => if posOf s < posOf y.state then y.state else s) none
  mpcErrCollect ⟨x.filename, state, [], none, none⟩ (x :: xs)

/-- The texts of `mpc_err_repeat` in a row -/
def joinExpected : List String → String
  | [] => ""
  | [x] => x
  | [x, y] => x ++ " or " ++ y
  | x :: xs => x ++ ", " ++ joinExpected xs

/-- `mpc_err_repeat` -/
def mpcErrRepeat (x : MpcErr) (start : String) : MpcErr :=
  { x with expected := [start ++ joinExpected x.expected] }

/-- `mpc_err_many1` -/
def mpcErrMany1 (x : MpcErr) : MpcErr := mpcErrRepeat x "one or more of "

/-- `mpc_err_count` -/
def mpcErrCount (x : MpcErr) (n : Nat) : MpcErr := mpcErrRepeat x (toString n ++ " of ")

/-- `mpc_err_char_unescape` -/
def mpcErrCharUnescape (c : Char) : String :=
  match c with
  | '\x07' => "bell"
  | '\x08' => "backspace"
  | '\x0c' => "formfeed"
  | '\r' => "carriage return"
  | '\x0b' => "vertical tab"
  | '\x00' => "end of input"
  | '\n' => "newline"
  | '\t' => "tab"
  | ' ' => "space"
  | c => "'" ++ c.toString ++ "'"

/-- `vsprintf` of a format without arguments, which has no result where there is a conversion in it -/
def vsprintf (fmt : String) : Option String := if '%' ∈ fmt.toList then none else some fmt

/-- `mpc_err_string_cat` of a text to the buffer of 1024 bytes, which has no result where the text and its
null byte are more than there is room for. A character is a byte. -/
def mpcErrStringCat (buffer text : String) : Option String :=
  if buffer.length + text.length < 1024 then some (buffer ++ text) else none

/-- `mpc_err_string`, where what it returns is defined. The row and the column of `mpc_state_invalid` are
-1. -/
def mpcErrString (x : MpcErr) : Option String :=
  match x.failure with
  | some failure => mpcErrStringCat "" (x.filename ++ ": error: " ++ failure ++ "\n")
  | none => do
    let row := (x.state.map fun s => s.row + 1).getD 0
    let col := (x.state.map fun s => s.col + 1).getD 0
    let expected := if x.expected = [] then "ERROR: NOTHING EXPECTED" else joinExpected x.expected
    let recieved ← x.recieved
    let buffer ← mpcErrStringCat ""
      (x.filename ++ ":" ++ toString row ++ ":" ++ toString col ++ ": error: expected ")
    let buffer ← mpcErrStringCat buffer expected
    let buffer ← mpcErrStringCat buffer " at "
    -- the text of the character is itself the format
    let text ← vsprintf (mpcErrCharUnescape recieved)
    let buffer ← mpcErrStringCat buffer text
    mpcErrStringCat buffer "\n"

/-! ## Input -/

/-- `mpc_input_t` of a string. The marks and the characters before them are in one stack. -/
structure MpcInput where
  filename : String
  string : List Char
  state : MpcState
  backtrack : Int
  marks : List (MpcState × Char)
  last : Char
  deriving DecidableEq, Repr

/-- `mpc_input_new_string` -/
def mpcInputNewString (filename : String) (string : List Char) : MpcInput :=
  ⟨filename, string, mpcStateNew, 1, [], '\x00'⟩

/-- `mpc_input_backtrack_disable` -/
def mpcInputBacktrackDisable (i : MpcInput) : MpcInput := { i with backtrack := i.backtrack - 1 }

/-- `mpc_input_backtrack_enable` -/
def mpcInputBacktrackEnable (i : MpcInput) : MpcInput := { i with backtrack := i.backtrack + 1 }

/-- `mpc_input_mark` -/
def mpcInputMark (i : MpcInput) : MpcInput :=
  if i.backtrack < 1 then i else { i with marks := (i.state, i.last) :: i.marks }

/-- `mpc_input_unmark` -/
def mpcInputUnmark (i : MpcInput) : Option MpcInput :=
  if i.backtrack < 1 then some i
  else
    match i.marks with
    | [] => none
    | _ :: marks => some { i with marks }

/-- `mpc_input_rewind` -/
def mpcInputRewind (i : MpcInput) : Option MpcInput :=
  if i.backtrack < 1 then some i
  else
    match i.marks with
    | [] => none
    | (state, last) :: _ => mpcInputUnmark { i with state, last }

/-- `mpc_input_terminated` -/
def mpcInputTerminated (i : MpcInput) : Bool := i.state.pos == i.string.length

/-- `mpc_input_peekc`, and `mpc_input_getc`, which is the same for a string -/
def mpcInputPeekc (i : MpcInput) : Char := i.string.getD i.state.pos '\x00'

/-- `mpc_input_success` -/
def mpcInputSuccess (i : MpcInput) (c : Char) : MpcInput :=
  { i with
    last := c
    state :=
      if c = '\n' then ⟨i.state.pos + 1, i.state.row + 1, 0⟩
      else ⟨i.state.pos + 1, i.state.row, i.state.col + 1⟩ }

/-- `mpc_input_satisfy`: the text of one character -/
def mpcInputSatisfy (i : MpcInput) (cond : Char → Bool) : Option (List Char) × MpcInput :=
  let x := mpcInputPeekc i
  if mpcInputTerminated i then (none, i)
  else if cond x then (some [x], mpcInputSuccess i x)
  else (none, i)

/-- `mpc_input_any` -/
def mpcInputAny (i : MpcInput) : Option (List Char) × MpcInput := mpcInputSatisfy i fun _ => true

/-- `mpc_input_char` -/
def mpcInputChar (i : MpcInput) (c : Char) : Option (List Char) × MpcInput :=
  mpcInputSatisfy i fun x => x == c

/-- `mpc_input_range` -/
def mpcInputRange (i : MpcInput) (c d : Char) : Option (List Char) × MpcInput :=
  mpcInputSatisfy i fun x => decide (c ≤ x) && decide (x ≤ d)

/-- `mpc_input_oneof` -/
def mpcInputOneof (i : MpcInput) (c : List Char) : Option (List Char) × MpcInput :=
  mpcInputSatisfy i fun x => c.contains x

/-- `mpc_input_noneof` -/
def mpcInputNoneof (i : MpcInput) (c : List Char) : Option (List Char) × MpcInput :=
  mpcInputSatisfy i fun x => !c.contains x

/-- The loop of `mpc_input_string` -/
def mpcInputChars : List Char → MpcInput → Bool × MpcInput
  | [], i => (true, i)
  | x :: xs, i =>
    match mpcInputChar i x with
    | (some _, i) => mpcInputChars xs i
    | (none, i) => (false, i)

/-- `mpc_input_string` -/
def mpcInputString (i : MpcInput) (c : List Char) : Option (Option (List Char) × MpcInput) :=
  match mpcInputChars c (mpcInputMark i) with
  | (true, i) => (mpcInputUnmark i).map fun i => (some c, i)
  | (false, i) => (mpcInputRewind i).map fun i => (none, i)

/-- `mpc_input_anchor` -/
def mpcInputAnchor (i : MpcInput) (f : Char → Char → Bool) : Bool := f i.last (mpcInputPeekc i)

/-! ## Parsers -/

abbrev Ptr := Nat

/-- `mpc_parser_t` with the values `V` that it makes. What a constructor function gives stands for the
function. -/
inductive MpcParser (V : Type) where
  | undefined
  | pass
  | fail (m : String)
  | lift (lf : V)
  | liftVal (x : V)
  | expect (x : Ptr) (m : String)
  | anchor (f : Char → Char → Bool)
  | state
  | any
  | single (x : Char)
  | oneof (x : List Char)
  | noneof (x : List Char)
  | range (x y : Char)
  | satisfy (f : Char → Bool)
  | string (x : List Char)
  | apply (x : Ptr) (f : V → V)
  | applyTo (x : Ptr) (f : V → V → V) (d : V)
  | predict (x : Ptr)
  | not (x : Ptr) (lf : V)
  | maybe (x : Ptr) (lf : V)
  | many (f : List V → V) (x : Ptr)
  | many1 (f : List V → V) (x : Ptr)
  | count (n : Nat) (f : List V → V) (x : Ptr)
  | or (xs : List Ptr)
  | and (f : List V → V) (xs : List Ptr)

/-- The values that the engine makes itself: `NULL`, texts, and copies of a state -/
structure Values (V : Type) where
  null : V
  text : List Char → V
  copy : MpcState → V

/-- `mpc_result_t`, with what is in `returns` beside it -/
inductive MpcResult (V : Type) where
  | output (x : V)
  | error (e : MpcErr)

/-- What the parsers work on: the input and the field `err` of the stack -/
structure Reading where
  input : MpcInput
  err : MpcErr

/-- `mpc_stack_err` -/
def mpcStackErr (w : Reading) (e : MpcErr) : Reading := { w with err := mpcErrOr w.err [e] }

/-- How a turn ends: the macro of the same name, or `continue` without one -/
inductive Turn (V : Type) where
  | mpcContinue (st : Nat) (x : Ptr)
  | mpcSuccess (x : V)
  | mpcFailure (e : MpcErr)
  | popp

variable {V : Type}

/-- The outputs on top of the results, from the bottom, as `mpc_stack_merger_out` finds them -/
def popOutputs : Nat → List (MpcResult V) → Option (List V × List (MpcResult V))
  | 0, results => some ([], results)
  | n + 1, .output x :: results => (popOutputs n results).map fun (xs, rest) => (xs ++ [x], rest)
  | _ + 1, _ => none

/-- The errors on top of the results, from the bottom, as `mpc_stack_merger_err` finds them -/
def popErrors : Nat → List (MpcResult V) → Option (List MpcErr × List (MpcResult V))
  | 0, results => some ([], results)
  | n + 1, .error e :: results => (popErrors n results).map fun (es, rest) => (es ++ [e], rest)
  | _ + 1, _ => none

/-- `mpc_stack_popr_err`, which begins with the error on top -/
def mpcStackPoprErr (w : Reading) (es : List MpcErr) : Reading := es.reverse.foldl mpcStackErr w

/-- `MPC_PRIMITIVE` -/
def mpcPrimitive (vals : Values V) (w : Reading) (results : List (MpcResult V))
    (read : Option (List Char) × MpcInput) : Turn V × List (MpcResult V) × Reading :=
  match read with
  | (some s, input) => (.mpcSuccess (vals.text s), results, { w with input })
  | (none, input) =>
    (.mpcFailure (mpcErrFail input.filename (some input.state) "Incorrect Input"), results,
      { w with input })

/-- The `switch` of `mpc_parse_input`, for a parser in the state `st` -/
def mpcSwitch (vals : Values V) (p : MpcParser V) (st : Nat) (results : List (MpcResult V))
    (w : Reading) : Option (Turn V × List (MpcResult V) × Reading) :=
  let i := w.input
  match p with
  | .any => some (mpcPrimitive vals w results (mpcInputAny i))
  | .single x => some (mpcPrimitive vals w results (mpcInputChar i x))
  | .range x y => some (mpcPrimitive vals w results (mpcInputRange i x y))
  | .oneof x => some (mpcPrimitive vals w results (mpcInputOneof i x))
  | .noneof x => some (mpcPrimitive vals w results (mpcInputNoneof i x))
  | .satisfy f => some (mpcPrimitive vals w results (mpcInputSatisfy i f))
  | .string x => (mpcInputString i x).map (mpcPrimitive vals w results)
  | .undefined =>
    some (.mpcFailure (mpcErrFail i.filename (some i.state) "Parser Undefined!"), results, w)
  | .pass => some (.mpcSuccess vals.null, results, w)
  | .fail m => some (.mpcFailure (mpcErrFail i.filename (some i.state) m), results, w)
  | .lift x | .liftVal x => some (.mpcSuccess x, results, w)
  | .state => some (.mpcSuccess (vals.copy i.state), results, w)
  | .anchor f =>
    if mpcInputAnchor i f then some (.mpcSuccess vals.null, results, w)
    else some (.mpcFailure (mpcErrNew i.filename i.state "anchor" (mpcInputPeekc i)), results, w)
  | .expect x m =>
    match st, results with
    | 0, results => some (.mpcContinue 1 x, results, w)
    | 1, .output r :: results => some (.mpcSuccess r, results, w)
    | 1, .error _ :: results =>
      some (.mpcFailure (mpcErrNew i.filename i.state m (mpcInputPeekc i)), results, w)
    | _, _ => none
  | .apply x f =>
    match st, results with
    | 0, results => some (.mpcContinue 1 x, results, w)
    | 1, .output r :: results => some (.mpcSuccess (f r), results, w)
    | 1, .error e :: results => some (.mpcFailure e, results, w)
    | _, _ => none
  | .applyTo x f d =>
    match st, results with
    | 0, results => some (.mpcContinue 1 x, results, w)
    | 1, .output r :: results => some (.mpcSuccess (f r d), results, w)
    | 1, .error e :: results => some (.mpcFailure e, results, w)
    | _, _ => none
  | .predict x =>
    match st with
    | 0 => some (.mpcContinue 1 x, results, { w with input := mpcInputBacktrackDisable i })
    | 1 => some (.popp, results, { w with input := mpcInputBacktrackEnable i })
    | _ => none
  | .not x lf =>
    match st, results with
    | 0, results => some (.mpcContinue 1 x, results, { w with input := mpcInputMark i })
    | 1, .output _ :: results => do
      let i ← mpcInputRewind i
      some (.mpcFailure (mpcErrNew i.filename i.state "opposite" (mpcInputPeekc i)), results,
        { w with input := i })
    | 1, .error e :: results => do
      let i ← mpcInputUnmark i
      some (.mpcSuccess lf, results, mpcStackErr { w with input := i } e)
    | _, _ => none
  | .maybe x lf =>
    match st, results with
    | 0, results => some (.mpcContinue 1 x, results, w)
    | 1, .output r :: results => some (.mpcSuccess r, results, w)
    | 1, .error e :: results => some (.mpcSuccess lf, results, mpcStackErr w e)
    | _, _ => none
  | .many f x =>
    match st, results with
    | 0, results => some (.mpcContinue 1 x, results, w)
    | st + 1, .output r :: results => some (.mpcContinue (st + 2) x, .output r :: results, w)
    | st + 1, .error e :: results => do
      let (xs, results) ← popOutputs st results
      some (.mpcSuccess (f xs), results, mpcStackErr w e)
    | _, _ => none
  | .many1 f x =>
    match st, results with
    | 0, results => some (.mpcContinue 1 x, results, w)
    | st + 1, .output r :: results => some (.mpcContinue (st + 2) x, .output r :: results, w)
    | 1, .error e :: results => some (.mpcFailure (mpcErrMany1 e), results, w)
    | st + 1, .error e :: results => do
      let (xs, results) ← popOutputs st results
      some (.mpcSuccess (f xs), results, mpcStackErr w e)
    | _, _ => none
  | .count n f x =>
    match st, results with
    | 0, results => some (.mpcContinue 1 x, results, { w with input := mpcInputMark i })
    | st + 1, .output r :: results => some (.mpcContinue (st + 2) x, .output r :: results, w)
    | st + 1, .error e :: results => do
      let (xs, results) ← popOutputs st results
      if st + 1 ≠ n + 1 then
        let i ← mpcInputRewind i
        some (.mpcFailure (mpcErrCount e n), results, { w with input := i })
      else
        let i ← mpcInputUnmark i
        some (.mpcSuccess (f xs), results, mpcStackErr { w with input := i } e)
    | _, _ => none
  | .or [] => some (.mpcSuccess vals.null, results, w)
  | .or (x :: xs) =>
    match st, results with
    | 0, results => some (.mpcContinue 1 x, results, w)
    | st + 1, .output r :: results =>
      if st ≤ xs.length then do
        let (es, results) ← popErrors st results
        some (.mpcSuccess r, results, mpcStackPoprErr w es)
      else none
    | st + 1, .error e :: results =>
      if h : st < xs.length then some (.mpcContinue (st + 2) xs[st], .error e :: results, w)
      else if st = xs.length then do
        let (es, results) ← popErrors (st + 1) (.error e :: results)
        match es with
        | [] => none
        | e :: es => some (.mpcFailure (mpcErrOr e es), results, w)
      else none
    | _, _ => none
  | .and f [] => some (.mpcSuccess (f []), results, w)
  | .and f (x :: xs) =>
    match st, results with
    | 0, results => some (.mpcContinue 1 x, results, { w with input := mpcInputMark i })
    | st + 1, .error e :: results =>
      if st ≤ xs.length then do
        let i ← mpcInputRewind i
        let (_, results) ← popOutputs st results
        some (.mpcFailure e, results, { w with input := i })
      else none
    | st + 1, .output r :: results =>
      if h : st < xs.length then some (.mpcContinue (st + 2) xs[st], .output r :: results, w)
      else if st = xs.length then do
        let i ← mpcInputUnmark i
        let (ys, results) ← popOutputs (st + 1) (.output r :: results)
        some (.mpcSuccess (f ys), results, { w with input := i })
      else none
    | _, _ => none

/-! ## The loop -/

/-- `mpc_stack_t`, with the input -/
structure Machine (V : Type) where
  parsers : List (Ptr × Nat)
  results : List (MpcResult V)
  reading : Reading

/-- `mpc_stack_terminate`: the result at the bottom, where an error is joined to the others -/
def mpcStackTerminate (r : MpcResult V) (w : Reading) : MpcResult V :=
  match r with
  | .output x => .output x
  | .error e => .error (mpcStackErr w e).err

/-- A turn of the loop of `mpc_parse_input` -/
def parseTurn (vals : Values V) (nodes : Ptr → MpcParser V) (m : Machine V) :
    Option (Machine V ⊕ (MpcResult V × MpcInput)) :=
  match m.parsers with
  | [] => m.results.getLast?.map fun r => .inr (mpcStackTerminate r m.reading, m.reading.input)
  | (p, st) :: parsers =>
    (mpcSwitch vals (nodes p) st m.results m.reading).map fun (turn, results, w) =>
      .inl <|
        match turn with
        | .mpcContinue st x => ⟨(x, 0) :: (p, st) :: parsers, results, w⟩
        | .mpcSuccess x => ⟨parsers, .output x :: results, w⟩
        | .mpcFailure e => ⟨parsers, .error e :: results, w⟩
        | .popp => ⟨parsers, results, w⟩

/-- `mpc_parse_input`, with the input that it leaves -/
def mpcParseInput (vals : Values V) (nodes : Ptr → MpcParser V) (fuel : Nat) (i : MpcInput)
    (init : Ptr) : Option (MpcResult V × MpcInput) :=
  loop (fun _ => parseTurn vals nodes) fuel
    ⟨[(init, 0)], [], ⟨i, mpcErrFail i.filename none "Unknown Error"⟩⟩

/-- `mpc_parse` -/
def mpcParseString (vals : Values V) (nodes : Ptr → MpcParser V) (fuel : Nat) (filename : String)
    (string : List Char) (p : Ptr) : Option (MpcResult V) :=
  (mpcParseInput vals nodes fuel (mpcInputNewString filename string) p).map Prod.fst

end Rbml.Mpc
