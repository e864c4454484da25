import Rbml.Lib.Routine
import Rbml.Mpc.Engine

/-!
# The engine in recursive form (`mpc.c`)

`mpc_parse_input` was a recursive function once, as its comment says. Here the recursion is found again:
an activation of a parser has a state and the results that it has got itself, and what it does in a turn
depends on no other result (`mpcSwitch_above`). The loop over the two stacks takes the turns of these
activations, so that it settles exactly on what the recursion returns (`mpcParseInput_settles_iff`).
-/

namespace Rbml.Mpc

open Rbml.Lib

variable {V : Type} {vals : Values V} {nodes : Ptr → MpcParser V}

/-! ## Activations -/

/-- A parser that is under way, with the results that it has got -/
structure Activation (V : Type) where
  parser : Ptr
  st : Nat
  results : List (MpcResult V)

/-- A turn of an activation -/
def Activation.turn (vals : Values V) (nodes : Ptr → MpcParser V) (f : Activation V) (w : Reading) :
    Option (Action Ptr (Activation V) (MpcResult V) × Reading) :=
  match mpcSwitch vals (nodes f.parser) f.st f.results w with
  | none => none
  | some (.mpcContinue st x, results, w) => some (.call x ⟨f.parser, st, results⟩, w)
  | some (.mpcSuccess x, _, w) => some (.leave (.output x), w)
  | some (.mpcFailure e, _, w) => some (.leave (.error e), w)
  | some (.popp, results, w) => results.head?.map fun r => (.leave r, w)

/-- The recursive form of `mpc_parse_input` -/
def parserRoutine (vals : Values V) (nodes : Ptr → MpcParser V) :
    Routine Ptr (Activation V) (MpcResult V) Reading where
  enter p := ⟨p, 0, []⟩
  accept f r := { f with results := r :: f.results }
  turn f w := f.turn vals nodes w

/-- The parser `p` reads from `w` and returns `r`, in the recursive form. -/
def Parses (vals : Values V) (nodes : Ptr → MpcParser V) (p : Ptr) (w : Reading) (r : MpcResult V)
    (w' : Reading) : Prop :=
  (parserRoutine vals nodes).Returns ⟨p, 0, []⟩ w r w'

/-! ## Results of other parsers -/

/-- The parser runs others. -/
def MpcParser.calls : MpcParser V → Bool
  | .expect _ _ | .apply _ _ | .applyTo _ _ _ | .predict _ | .not _ _ | .maybe _ _ | .many _ _
  | .many1 _ _ | .count _ _ _ | .or (_ :: _) | .and _ (_ :: _) => true
  | _ => false

/-- What a turn leaves of the parser's own results -/
def Leaves (p : MpcParser V) : Turn V → List (MpcResult V) → Prop
  | .mpcContinue st _, own => own.length + 1 = st ∧ p.calls = true
  | .mpcSuccess _, own | .mpcFailure _, own => own = []
  | .popp, own => own.length = 1

theorem popOutputs_append (own rest : List (MpcResult V)) :
    popOutputs own.length (own ++ rest) =
      (popOutputs own.length own).map fun (xs, own') => (xs, own' ++ rest) := by
  induction own with
  | nil => rfl
  | cons r own ih =>
    cases r with
    | output x =>
      simp only [List.length_cons, List.cons_append, popOutputs, ih, Option.map_map]
      rfl
    | error e => rfl

theorem popErrors_append (own rest : List (MpcResult V)) :
    popErrors own.length (own ++ rest) =
      (popErrors own.length own).map fun (es, own') => (es, own' ++ rest) := by
  induction own with
  | nil => rfl
  | cons r own ih =>
    cases r with
    | output x => rfl
    | error e =>
      simp only [List.length_cons, List.cons_append, popErrors, ih, Option.map_map]
      rfl

theorem popOutputs_length {own own' : List (MpcResult V)} {xs : List V}
    (h : popOutputs own.length own = some (xs, own')) : own' = [] := by
  induction own generalizing xs with
  | nil =>
    cases h
    rfl
  | cons r own ih =>
    cases r with
    | output x =>
      obtain ⟨⟨ys, rest⟩, hys, heq⟩ := Option.map_eq_some_iff.mp h
      cases heq
      exact ih hys
    | error e => cases h

theorem popErrors_length {own own' : List (MpcResult V)} {es : List MpcErr}
    (h : popErrors own.length own = some (es, own')) : own' = [] := by
  induction own generalizing es with
  | nil =>
    cases h
    rfl
  | cons r own ih =>
    cases r with
    | output x => cases h
    | error e =>
      obtain ⟨⟨ys, rest⟩, hys, heq⟩ := Option.map_eq_some_iff.mp h
      cases heq
      exact ih hys

theorem mpcPrimitive_above (read : Option (List Char) × MpcInput) (w : Reading)
    (own rest : List (MpcResult V)) :
    mpcPrimitive vals w (own ++ rest) read =
      ((mpcPrimitive vals w own read).1, (mpcPrimitive vals w own read).2.1 ++ rest,
        (mpcPrimitive vals w own read).2.2) := by
  obtain ⟨_ | s, input⟩ := read <;> rfl

/-- A turn does not depend on the results below those of the parser, and leaves them as they are. -/
theorem mpcSwitch_above (vals : Values V) (p : MpcParser V) (w : Reading) (own rest : List (MpcResult V)) :
    mpcSwitch vals p own.length (own ++ rest) w =
      (mpcSwitch vals p own.length own w).map fun (turn, own', w') => (turn, own' ++ rest, w') := by
  cases p with
  | any | single x | range x y | oneof x | noneof x | satisfy f =>
    exact congrArg some (mpcPrimitive_above _ w own rest)
  | string x =>
    rw [mpcSwitch, mpcSwitch]
    cases mpcInputString w.input x with
    | none => rfl
    | some read => exact congrArg some (mpcPrimitive_above read w own rest)
  | undefined | pass | fail m | lift x | liftVal x | state => rfl
  | anchor f =>
    rw [mpcSwitch, mpcSwitch]
    split <;> rfl
  | expect x m | apply x f | applyTo x f d | maybe x lf =>
    cases own with
    | nil => rfl
    | cons r own => cases r <;> cases own <;> rfl
  | predict x => obtain _ | ⟨_, _ | ⟨_, own⟩⟩ := own <;> rfl
  | not x lf =>
    obtain _ | ⟨r, _ | ⟨_, own⟩⟩ := own
    · rfl
    · cases r with
      | output v =>
        simp only [mpcSwitch, List.length_cons, List.length_nil, List.cons_append, List.nil_append]
        cases mpcInputRewind w.input <;> rfl
      | error e =>
        simp only [mpcSwitch, List.length_cons, List.length_nil, List.cons_append, List.nil_append]
        cases mpcInputUnmark w.input <;> rfl
    · cases r <;> rfl
  | many f x =>
    cases own with
    | nil => rfl
    | cons r own =>
      cases r with
      | output v => rfl
      | error e =>
        simp only [mpcSwitch, List.length_cons, List.cons_append, popOutputs_append]
        cases popOutputs own.length own <;> rfl
  | many1 f x =>
    obtain _ | ⟨r, _ | ⟨r', own⟩⟩ := own
    · rfl
    · cases r <;> rfl
    · cases r with
      | output v => rfl
      | error e =>
        have hpop := popOutputs_append (r' :: own) rest
        rw [List.cons_append, List.length_cons] at hpop
        simp only [mpcSwitch, List.length_cons, List.cons_append, hpop]
        cases popOutputs (own.length + 1) (r' :: own) <;> rfl
  | count n f x =>
    cases own with
    | nil => rfl
    | cons r own =>
      cases r with
      | output v => rfl
      | error e =>
        simp only [mpcSwitch, List.length_cons, List.cons_append, popOutputs_append]
        cases popOutputs own.length own with
        | none => rfl
        | some popped =>
          simp only [Option.map_some, Option.bind_eq_bind, Option.bind_some]
          split
          · cases mpcInputRewind w.input <;> rfl
          · cases mpcInputUnmark w.input <;> rfl
  | or xs =>
    cases xs with
    | nil => rfl
    | cons x xs =>
      cases own with
      | nil => rfl
      | cons r own =>
        cases r with
        | output v =>
          simp only [mpcSwitch, List.length_cons, List.cons_append, popErrors_append]
          split
          · cases popErrors own.length own <;> rfl
          · rfl
        | error e =>
          have hpop := popErrors_append (.error e :: own) rest
          rw [List.cons_append, List.length_cons] at hpop
          simp only [mpcSwitch, List.length_cons, List.cons_append, hpop]
          split
          · rfl
          · split
            · rcases popErrors (own.length + 1) (.error e :: own) with _ | ⟨_ | ⟨e', es⟩, own'⟩ <;> rfl
            · rfl
  | and f xs =>
    cases xs with
    | nil => rfl
    | cons x xs =>
      cases own with
      | nil => rfl
      | cons r own =>
        cases r with
        | error e =>
          simp only [mpcSwitch, List.length_cons, List.cons_append, popOutputs_append]
          split
          · cases mpcInputRewind w.input with
            | none => rfl
            | some i => cases popOutputs own.length own <;> rfl
          · rfl
        | output v =>
          have hpop := popOutputs_append (.output v :: own) rest
          rw [List.cons_append, List.length_cons] at hpop
          simp only [mpcSwitch, List.length_cons, List.cons_append, hpop]
          split
          · rfl
          · split
            · cases mpcInputUnmark w.input with
              | none => rfl
              | some i => cases popOutputs (own.length + 1) (.output v :: own) <;> rfl
            · rfl

theorem leaves_primitive {p : MpcParser V} {read : Option (List Char) × MpcInput} {w w' : Reading}
    {turn : Turn V} {own' : List (MpcResult V)}
    (h : mpcPrimitive vals w [] read = (turn, own', w')) : Leaves p turn own' := by
  obtain ⟨_ | s, input⟩ := read <;> cases h <;> rfl

/-- A turn uses up the results of the parser, or it waits for one more. -/
theorem leaves_mpcSwitch {p : MpcParser V} {own own' : List (MpcResult V)} {w w' : Reading}
    {turn : Turn V} (hcalls : own = [] ∨ p.calls = true)
    (h : mpcSwitch vals p own.length own w = some (turn, own', w')) : Leaves p turn own' := by
  cases p with
  | any | single x | range x y | oneof x | noneof x | satisfy f =>
    obtain rfl := hcalls.resolve_right Bool.false_ne_true
    exact leaves_primitive (Option.some.inj h)
  | string x =>
    obtain rfl := hcalls.resolve_right Bool.false_ne_true
    obtain ⟨read, -, hread⟩ := Option.map_eq_some_iff.mp h
    exact leaves_primitive hread
  | undefined | pass | fail m | lift x | liftVal x | state =>
    obtain rfl := hcalls.resolve_right Bool.false_ne_true
    cases h
    rfl
  | anchor f =>
    obtain rfl := hcalls.resolve_right Bool.false_ne_true
    rw [mpcSwitch] at h
    split at h <;> cases h <;> rfl
  | expect x m | apply x f | applyTo x f d | maybe x lf =>
    obtain _ | ⟨_ | _, _ | ⟨_, own⟩⟩ := own <;> cases h <;> first | rfl | exact ⟨rfl, rfl⟩
  | predict x => obtain _ | ⟨_, _ | ⟨_, own⟩⟩ := own <;> cases h <;> first | rfl | exact ⟨rfl, rfl⟩
  | not x lf =>
    obtain _ | ⟨_ | _, _ | ⟨_, own⟩⟩ := own
    · cases h
      exact ⟨rfl, rfl⟩
    · obtain ⟨i, -, h⟩ := Option.bind_eq_some_iff.mp h
      cases h
      rfl
    · cases h
    · obtain ⟨i, -, h⟩ := Option.bind_eq_some_iff.mp h
      cases h
      rfl
    · cases h
  | many f x =>
    obtain _ | ⟨_ | _, own⟩ := own
    · cases h
      exact ⟨rfl, rfl⟩
    · cases h
      exact ⟨rfl, rfl⟩
    · obtain ⟨⟨xs, left⟩, hpop, h⟩ := Option.bind_eq_some_iff.mp h
      cases h
      exact popOutputs_length hpop
  | many1 f x =>
    obtain _ | ⟨_ | _, own⟩ := own
    · cases h
      exact ⟨rfl, rfl⟩
    · cases h
      exact ⟨rfl, rfl⟩
    · cases own with
      | nil =>
        cases h
        rfl
      | cons r own =>
        obtain ⟨⟨xs, left⟩, hpop, h⟩ := Option.bind_eq_some_iff.mp h
        cases h
        exact popOutputs_length hpop
  | count n f x =>
    obtain _ | ⟨_ | _, own⟩ := own
    · cases h
      exact ⟨rfl, rfl⟩
    · cases h
      exact ⟨rfl, rfl⟩
    · obtain ⟨⟨xs, left⟩, hpop, h⟩ := Option.bind_eq_some_iff.mp h
      obtain rfl := popOutputs_length hpop
      simp only at h
      split at h
      · obtain ⟨i, -, h⟩ := Option.bind_eq_some_iff.mp h
        cases h
        rfl
      · obtain ⟨i, -, h⟩ := Option.bind_eq_some_iff.mp h
        cases h
        rfl
  | or xs =>
    cases xs with
    | nil =>
      obtain rfl := hcalls.resolve_right Bool.false_ne_true
      cases h
      rfl
    | cons x xs =>
      obtain _ | ⟨_ | e, own⟩ := own
      · cases h
        exact ⟨rfl, rfl⟩
      · simp only [mpcSwitch, List.length_cons] at h
        split at h
        · obtain ⟨⟨es, left⟩, hpop, h⟩ := Option.bind_eq_some_iff.mp h
          cases h
          exact popErrors_length hpop
        · cases h
      · simp only [mpcSwitch, List.length_cons] at h
        split at h
        · cases h
          exact ⟨rfl, rfl⟩
        · split at h
          · obtain ⟨⟨es, left⟩, hpop, h⟩ := Option.bind_eq_some_iff.mp h
            rw [← List.length_cons (a := .error e)] at hpop
            obtain rfl := popErrors_length hpop
            cases es <;> cases h
            rfl
          · cases h
  | and f xs =>
    cases xs with
    | nil =>
      obtain rfl := hcalls.resolve_right Bool.false_ne_true
      cases h
      rfl
    | cons x xs =>
      obtain _ | ⟨v | e, own⟩ := own
      · cases h
        exact ⟨rfl, rfl⟩
      · simp only [mpcSwitch, List.length_cons] at h
        split at h
        · cases h
          exact ⟨rfl, rfl⟩
        · split at h
          · obtain ⟨i, -, h⟩ := Option.bind_eq_some_iff.mp h
            obtain ⟨⟨xs, left⟩, hpop, h⟩ := Option.bind_eq_some_iff.mp h
            cases h
            rw [← List.length_cons (a := .output v)] at hpop
            exact popOutputs_length hpop
          · cases h
      · simp only [mpcSwitch, List.length_cons] at h
        split at h
        · obtain ⟨i, -, h⟩ := Option.bind_eq_some_iff.mp h
          obtain ⟨⟨xs, left⟩, hpop, h⟩ := Option.bind_eq_some_iff.mp h
          cases h
          exact popOutputs_length hpop
        · cases h

/-! ## The two stacks -/

/-- An activation that takes the next turn has a result for each state before. -/
def Ready (nodes : Ptr → MpcParser V) (f : Activation V) : Prop :=
  f.results.length = f.st ∧ (f.results = [] ∨ (nodes f.parser).calls = true)

/-- One that waits for another parser is one result short. -/
def Waiting (nodes : Ptr → MpcParser V) (f : Activation V) : Prop :=
  f.results.length + 1 = f.st ∧ (nodes f.parser).calls = true

/-- The parsers of some activations, with their states -/
def parsersOf (fs : List (Activation V)) : List (Ptr × Nat) := fs.map fun f => (f.parser, f.st)

def resultsOf (fs : List (Activation V)) : List (MpcResult V) := fs.flatMap Activation.results

/-- The two stacks are those of the activations. -/
structure Stacks (nodes : Ptr → MpcParser V) (m : Machine V)
    (s : Activation V × List (Activation V) × Reading) : Prop where
  parsers : m.parsers = parsersOf (s.1 :: s.2.1)
  results : m.results = resultsOf (s.1 :: s.2.1)
  reading : m.reading = s.2.2
  ready : Ready nodes s.1
  waiting : ∀ f ∈ s.2.1, Waiting nodes f

/-- What the loop ends with, where a parser has returned -/
def terminated (out : MpcResult V × Reading) : MpcResult V × MpcInput :=
  (mpcStackTerminate out.1 out.2, out.2.input)

theorem Waiting.accept {f : Activation V} (h : Waiting nodes f) (r : MpcResult V) :
    Ready nodes { f with results := r :: f.results } :=
  ⟨h.1, .inr h.2⟩

/-- An activation leaves its result on the stack, where the one below it finds it. -/
theorem sameTurn_leave {m : Machine V} {f : Activation V} {stack : List (Activation V)} {w w' : Reading}
    {r : MpcResult V} (hwaiting : ∀ g ∈ stack, Waiting nodes g)
    (hturn : f.turn vals nodes w = some (.leave r, w'))
    (hmachine : parseTurn vals nodes m = some (.inl ⟨parsersOf stack, r :: resultsOf stack, w'⟩)) :
    SameTurn (parseTurn vals nodes) (parserRoutine vals nodes).stackTurn (Stacks nodes) terminated m
      (f, stack, w) := by
  change (parserRoutine vals nodes).turn f w = some (.leave r, w') at hturn
  cases stack with
  | nil => exact .last (b := (r, w')) hmachine rfl (by simp only [Routine.stackTurn, hturn])
  | cons g stack =>
    have hstack : (parserRoutine vals nodes).stackTurn (f, g :: stack, w) =
        some (.inl ({ g with results := r :: g.results }, stack, w')) := by
      simp only [Routine.stackTurn, hturn]
      rfl
    refine .more hmachine hstack ⟨rfl, rfl, rfl, ?_, ?_⟩
    · exact (hwaiting g List.mem_cons_self).accept r
    · exact fun g' hg' => hwaiting g' (List.mem_cons_of_mem _ hg')

/-- A turn of the loop is one of the activation on top. -/
theorem sameTurn_of_stacks {m : Machine V} {s : Activation V × List (Activation V) × Reading}
    (h : Stacks nodes m s) :
    SameTurn (parseTurn vals nodes) (parserRoutine vals nodes).stackTurn (Stacks nodes) terminated m
      s := by
  obtain ⟨f, stack, w⟩ := s
  obtain ⟨parsers, results, reading⟩ := m
  obtain ⟨hparsers, hresults, hreading, ⟨hlength, hcalls⟩, hwaiting⟩ := h
  obtain rfl : parsers = (f.parser, f.st) :: parsersOf stack := hparsers
  obtain rfl : results = f.results ++ resultsOf stack := hresults
  obtain rfl : reading = w := hreading
  have habove := mpcSwitch_above vals (nodes f.parser) reading f.results (resultsOf stack)
  rw [hlength] at habove
  cases hswitch : mpcSwitch vals (nodes f.parser) f.st f.results reading with
  | none =>
    rw [hswitch] at habove
    have hturn : (parserRoutine vals nodes).turn f reading = none := by
      simp only [parserRoutine, Activation.turn, hswitch]
    refine .stuck ?_ (by simp only [Routine.stackTurn, hturn])
    simp only [parseTurn, habove, Option.map_none]
  | some next =>
    obtain ⟨turn, own', w'⟩ := next
    rw [hswitch] at habove
    have hleaves := leaves_mpcSwitch hcalls (hlength ▸ hswitch)
    cases turn with
    | mpcContinue st x =>
      have hturn : (parserRoutine vals nodes).turn f reading =
          some (.call x ⟨f.parser, st, own'⟩, w') := by
        simp only [parserRoutine, Activation.turn, hswitch]
      have hmachine : parseTurn vals nodes
          ⟨(f.parser, f.st) :: parsersOf stack, f.results ++ resultsOf stack, reading⟩ =
            some (.inl ⟨(x, 0) :: (f.parser, st) :: parsersOf stack, own' ++ resultsOf stack, w'⟩) := by
        simp only [parseTurn, habove, Option.map_some]
      have hstack : (parserRoutine vals nodes).stackTurn (f, stack, reading) =
          some (.inl (⟨x, 0, []⟩, ⟨f.parser, st, own'⟩ :: stack, w')) := by
        simp only [Routine.stackTurn, hturn]
        rfl
      refine .more hmachine hstack ⟨rfl, rfl, rfl, ⟨rfl, .inl rfl⟩, ?_⟩
      intro g hg
      rcases List.mem_cons.mp hg with rfl | hg
      · exact hleaves
      · exact hwaiting g hg
    | mpcSuccess x =>
      obtain rfl : own' = [] := hleaves
      have hturn : f.turn vals nodes reading = some (.leave (.output x), w') := by
        simp only [Activation.turn, hswitch]
      refine sameTurn_leave hwaiting hturn ?_
      simp only [parseTurn, habove, Option.map_some, List.nil_append]
    | mpcFailure e =>
      obtain rfl : own' = [] := hleaves
      have hturn : f.turn vals nodes reading = some (.leave (.error e), w') := by
        simp only [Activation.turn, hswitch]
      refine sameTurn_leave hwaiting hturn ?_
      simp only [parseTurn, habove, Option.map_some, List.nil_append]
    | popp =>
      obtain ⟨r, rfl⟩ := List.length_eq_one_iff.mp hleaves
      have hturn : f.turn vals nodes reading = some (.leave r, w') := by
        simp only [Activation.turn, hswitch, List.head?_cons, Option.map_some]
      refine sameTurn_leave hwaiting hturn ?_
      simp only [parseTurn, habove, Option.map_some, List.singleton_append]

/-- What `mpc_parse_input` begins with -/
def mpcReading (i : MpcInput) : Reading := ⟨i, mpcErrFail i.filename none "Unknown Error"⟩

theorem stacks_start (i : MpcInput) (p : Ptr) :
    Stacks nodes ⟨[(p, 0)], [], mpcReading i⟩ (⟨p, 0, []⟩, [], mpcReading i) :=
  ⟨rfl, rfl, rfl, ⟨rfl, .inl rfl⟩, List.forall_mem_nil _⟩

/-- `mpc_parse_input` ends with a result exactly where the parser returns it in the recursive form. -/
theorem mpcParseInput_settles_iff (i : MpcInput) (p : Ptr) (out : MpcResult V × MpcInput) :
    Settles (fun fuel => mpcParseInput vals nodes fuel i p) out ↔
      ∃ r w, Parses vals nodes p (mpcReading i) r w ∧ out = (mpcStackTerminate r w, w.input) := by
  have hsame := settles_sameTurns (fun _ _ => @sameTurn_of_stacks V vals nodes _ _) (stacks_start i p)
    (a := out)
  refine hsame.trans ⟨?_, ?_⟩
  · rintro ⟨⟨r, w⟩, hsettles, rfl⟩
    exact ⟨r, w, Routine.settles_iff.mp hsettles, rfl⟩
  · rintro ⟨r, w, hparses, rfl⟩
    exact ⟨(r, w), Routine.settles_iff.mpr hparses, rfl⟩

theorem mpcParseString_settles (filename : String) (string : List Char) (p : Ptr)
    {out : MpcResult V} :
    Settles (fun fuel => mpcParseString vals nodes fuel filename string p) out ↔
      ∃ r w, Parses vals nodes p (mpcReading (mpcInputNewString filename string)) r w ∧
        out = mpcStackTerminate r w := by
  constructor
  · intro ⟨fuel, h⟩
    obtain ⟨⟨out', i⟩, hrun, rfl⟩ := Option.map_eq_some_iff.mp h
    obtain ⟨r, w, hparses, heq⟩ := (mpcParseInput_settles_iff _ p _).mp ⟨fuel, hrun⟩
    exact ⟨r, w, hparses, congrArg Prod.fst heq⟩
  · rintro ⟨r, w, hparses, rfl⟩
    obtain ⟨fuel, h⟩ := (mpcParseInput_settles_iff _ p _).mpr ⟨r, w, hparses, rfl⟩
    exact ⟨fuel, Option.map_eq_some_iff.mpr ⟨_, h, rfl⟩⟩

/-- **The loop is the recursion.** For any graph of parsers and any text, `mpc_parse` ends with a result
exactly where the recursive form returns one: an output is the output of the recursion, and an error is
its error, joined to those that were collected on the way. -/
theorem mpcParseString_settles_iff (vals : Values V) (nodes : Ptr → MpcParser V) (filename : String)
    (string : List Char) (p : Ptr) (out : MpcResult V) :
    Settles (fun fuel => mpcParseString vals nodes fuel filename string p) out ↔
      (∃ x w, Parses vals nodes p (mpcReading (mpcInputNewString filename string)) (.output x) w ∧
        out = .output x) ∨
      ∃ e w, Parses vals nodes p (mpcReading (mpcInputNewString filename string)) (.error e) w ∧
        out = .error (mpcErrOr w.err [e]) := by
  rw [mpcParseString_settles]
  constructor
  · intro ⟨r, w, hparses, hout⟩
    cases r with
    | output x => exact .inl ⟨x, w, hparses, hout⟩
    | error e => exact .inr ⟨e, w, hparses, hout⟩
  · rintro (⟨x, w, hparses, hout⟩ | ⟨e, w, hparses, hout⟩)
    · exact ⟨_, w, hparses, hout⟩
    · exact ⟨_, w, hparses, hout⟩

end Rbml.Mpc
