import Rbml.Mpc.Errors

/-!
# Backtracking

What the engine keeps, as a contract of the recursive form (`parser_contract`): a parser that is run on
an input that is at a place of its text, leaves it at such a place, with the marks and the permission to
backtrack that it found, and never before where it came in. A parser that fails leaves the input as it
was, unless backtracking is disabled. All errors are sited.

From the contract it follows that the loop never gets stuck, in any state of any run, and what holds of
its result.
-/

namespace Rbml.Mpc

open Rbml.Lib

variable {V : Type} {vals : Values V} {nodes : Ptr → MpcParser V}

/-- What holds of the input and of the errors wherever a parser is run -/
structure Sound (w : Reading) : Prop where
  located : Located w.input
  sited : Sited w.input.filename w.input.string w.err

/-- No parser of the graph disables backtracking. -/
def Backtracks (nodes : Ptr → MpcParser V) : Prop := ∀ p x, nodes p ≠ .predict x

/-- What a parser that came in at `w₀` has kept when its next turn comes -/
structure UnderWay (nodes : Ptr → MpcParser V) (f : Activation V) (w₀ w : Reading) : Prop where
  start : Sound w₀
  states : f.results.length = f.st
  admits : Admits (nodes f.parser) f.results
  fresh : f.results = [] → w.input = w₀.input
  kept : Kept (entered (nodes f.parser) f.results w₀.input) w.input
  failed : Backtracks nodes → 1 ≤ w₀.input.backtrack → (∀ r ∈ f.results, r.failed = true) →
    w.input = entered (nodes f.parser) f.results w₀.input
  sound : Sound w
  results : ∀ e, .error e ∈ f.results →
    Sited w.input.filename w.input.string e ∧ e.state ≠ none

/-- What a parser that came in at `w₀` has done when it leaves -/
structure Returned (nodes : Ptr → MpcParser V) (w₀ : Reading) (r : MpcResult V) (w : Reading) : Prop where
  kept : Kept w₀.input w.input
  failed : Backtracks nodes → 1 ≤ w₀.input.backtrack → r.failed = true → w.input = w₀.input
  sound : Sound w
  result : ∀ e, r = .error e → Sited w.input.filename w.input.string e ∧ e.state ≠ none

/-! ## The input of a parser -/

theorem MpcParser.opened_keeps (p : MpcParser V) (i : MpcInput) :
    (p.opened i).filename = i.filename ∧ (p.opened i).string = i.string ∧
      (p.opened i).state = i.state ∧ (p.opened i).last = i.last := by
  unfold MpcParser.opened
  split
  · exact ⟨rfl, rfl, rfl, rfl⟩
  · exact ⟨mark_filename i, mark_string i, mark_state i, mark_last i⟩
  · exact ⟨mark_filename i, mark_string i, mark_state i, mark_last i⟩
  · exact ⟨mark_filename i, mark_string i, mark_state i, mark_last i⟩
  · exact ⟨rfl, rfl, rfl, rfl⟩

theorem MpcParser.opened_backtrack {p : MpcParser V} (h : ∀ x, p ≠ .predict x) (i : MpcInput) :
    (p.opened i).backtrack = i.backtrack := by
  unfold MpcParser.opened
  split
  · exact absurd rfl (h _)
  · exact mark_backtrack i
  · exact mark_backtrack i
  · exact mark_backtrack i
  · rfl

theorem entered_of_ne_nil {p : MpcParser V} {own : List (MpcResult V)} (h : own ≠ []) (i : MpcInput) :
    entered p own i = p.opened i := by
  cases own with
  | nil => exact absurd rfl h
  | cons => rfl

/-- What is opened does not change the place. -/
theorem Sound.opened {w : Reading} (h : Sound w) (p : MpcParser V) :
    Sound { w with input := p.opened w.input } := by
  obtain ⟨hfilename, hstring, hstate, hlast⟩ := p.opened_keeps w.input
  refine ⟨h.located.of_eq hstring hstate hlast, ?_⟩
  simp only [hfilename, hstring]
  exact h.sited

/-- The results that a parser has are still sited when the next one comes. -/
theorem Sited.kept {i j : MpcInput} {e : MpcErr} (h : Sited i.filename i.string e) (hkept : Kept i j) :
    Sited j.filename j.string e := by
  rw [hkept.filename, hkept.string]
  exact h

theorem UnderWay.enter {p : Ptr} {w : Reading} (h : Sound w) : UnderWay nodes ⟨p, 0, []⟩ w w where
  start := h
  states := rfl
  admits := trivial
  fresh _ := rfl
  kept := .refl _
  failed _ _ _ := rfl
  sound := h
  results _ he := by cases he

/-! ## Leaving -/

section
variable {f : Activation V} {w₀ w w' : Reading} {r : MpcResult V}

theorem UnderWay.closing_kept (h : UnderWay nodes f w₀ w) {j : MpcInput}
    (hclosing : Closing (nodes f.parser) f.results w₀.input w.input r j) : Kept w₀.input j := by
  have hkept := h.kept
  cases hclosing with
  | stays hopened _ =>
    unfold entered at hkept
    split at hkept
    · exact hkept
    · rwa [hopened] at hkept
  | reads hown hj _ =>
    rw [h.fresh hown] at hj
    exact hj.kept
  | rewinds hown hopened =>
    split
    next hb =>
      rw [entered_of_ne_nil hown, hopened, mark_of_lt hb] at hkept
      exact hkept
    · exact .refl _
  | unmarks hown hopened =>
    rw [entered_of_ne_nil hown, hopened] at hkept
    obtain ⟨hfilename, hstring, hbacktrack, -, hpos⟩ := hkept
    rw [mark_filename] at hfilename
    rw [mark_string] at hstring
    rw [mark_backtrack] at hbacktrack
    rw [mark_state] at hpos
    exact ⟨hfilename, hstring, hbacktrack, rfl, hpos⟩
  | enables hown hpredict =>
    rw [entered_of_ne_nil hown, hpredict] at hkept
    refine ⟨hkept.filename, hkept.string, ?_, hkept.marks, hkept.pos⟩
    change w.input.backtrack + 1 = w₀.input.backtrack
    rw [hkept.backtrack]
    exact Int.sub_add_cancel _ 1

theorem UnderWay.closing_failed (h : UnderWay nodes f w₀ w) {j : MpcInput}
    (hclosing : Closing (nodes f.parser) f.results w₀.input w.input r j) (hnodes : Backtracks nodes)
    (hbacktrack : 1 ≤ w₀.input.backtrack) (hr : r.failed = true) : j = w₀.input := by
  cases hclosing with
  | stays hopened hfailed =>
    rw [h.failed hnodes hbacktrack (hfailed hr)]
    unfold entered
    split
    · rfl
    · exact hopened _
  | reads hown _ hfailed =>
    rw [h.fresh hown] at hfailed
    exact hfailed hr hbacktrack
  | rewinds _ _ => exact if_neg (by omega)
  | unmarks _ _ => exact output_failed hr
  | enables _ hpredict => exact absurd hpredict (hnodes _ _)

theorem UnderWay.closing_located (h : UnderWay nodes f w₀ w) {j : MpcInput}
    (hclosing : Closing (nodes f.parser) f.results w₀.input w.input r j) : Located j := by
  cases hclosing with
  | stays _ _ => exact h.sound.located
  | reads _ hj _ => exact hj.located h.sound.located
  | rewinds _ _ =>
    split
    · exact h.sound.located
    · exact h.start.located
  | unmarks _ _ => exact h.sound.located.of_eq rfl rfl rfl
  | enables _ _ => exact h.sound.located.of_eq rfl rfl rfl

/-- The input is still the one that the parser was run on. -/
theorem UnderWay.same_text (h : UnderWay nodes f w₀ w) :
    w.input.filename = w₀.input.filename ∧ w.input.string = w₀.input.string := by
  have hkept := h.kept
  unfold entered at hkept
  split at hkept
  · exact ⟨hkept.filename, hkept.string⟩
  · obtain ⟨hfilename, hstring, -, -⟩ := (nodes f.parser).opened_keeps w₀.input
    exact ⟨hkept.filename.trans hfilename, hkept.string.trans hstring⟩

theorem UnderWay.returned (h : UnderWay nodes f w₀ w)
    (hleaving : Leaving (nodes f.parser) f.results w₀.input w r w') : Returned nodes w₀ r w' := by
  obtain ⟨hclosing, herr, hresult⟩ := hleaving
  have hkept := h.closing_kept hclosing
  have hlocated := h.closing_located hclosing
  -- the errors that are there are of the same text
  have hsited : ∀ e, Sited w.input.filename w.input.string e →
      Sited w'.input.filename w'.input.string e := by
    intro e he
    rw [h.same_text.1, h.same_text.2] at he
    exact he.kept hkept
  refine ⟨hkept, h.closing_failed hclosing, ⟨hlocated, herr.sited hlocated ?_⟩, fun e he => ⟨?_, ?_⟩⟩
  · rintro e (rfl | he)
    · exact hsited _ h.sound.sited
    · exact hsited _ (h.results e he).1
  · exact (hresult e he).sited hlocated fun e' he' => hsited _ (h.results e' he').1
  · exact (hresult e he).state_ne_none fun e' he' => (h.results e' he').2

/-! ## Turns -/

/-- A parser that is under way can take a turn. -/
theorem UnderWay.turn_cases (vals : Values V) (h : UnderWay nodes f w₀ w) :
    (∃ x st own w₁,
      (parserRoutine vals nodes).turn f w = some (.call x ⟨f.parser, st, own⟩, w₁) ∧
      Acts (nodes f.parser) f.results w₀.input w (.mpcContinue st x) own w₁) ∨
    ∃ r w', (parserRoutine vals nodes).turn f w = some (.leave r, w') ∧
      Leaving (nodes f.parser) f.results w₀.input w r w' := by
  obtain ⟨turn, own, w', hswitch, hacts⟩ :=
    mpcSwitch_acts vals h.admits h.kept h.sound.located.state.le
  rw [h.states] at hswitch
  simp only [parserRoutine, Activation.turn, hswitch]
  cases turn with
  | mpcContinue st x => exact .inl ⟨x, st, own, w', rfl, hacts⟩
  | mpcSuccess x =>
    cases hacts with
    | success hleaving => exact .inr ⟨_, _, rfl, hleaving⟩
  | mpcFailure e =>
    cases hacts with
    | failure hleaving => exact .inr ⟨_, _, rfl, hleaving⟩
  | popp =>
    cases hacts with
    | popp hleaving => exact .inr ⟨_, _, rfl, hleaving⟩

/-- A parser runs another one, and is under way again when that has returned. -/
theorem UnderWay.accept {x : Ptr} {st : Nat} {own : List (MpcResult V)} {w₁ : Reading}
    (h : UnderWay nodes f w₀ w)
    (hacts : Acts (nodes f.parser) f.results w₀.input w (.mpcContinue st x) own w₁) :
    Sound w₁ ∧ ∀ {r : MpcResult V} {w₂ : Reading}, Returned nodes w₁ r w₂ →
      UnderWay nodes ⟨f.parser, st, r :: own⟩ w₀ w₂ := by
  cases hacts with
  | first hown hadmits =>
    refine ⟨h.sound.opened _, fun {r w₂} hreturned => ?_⟩
    have hentered : entered (nodes f.parser) [r] w₀.input = (nodes f.parser).opened w.input := by
      rw [h.fresh hown]
      rfl
    refine ⟨h.start, rfl, hadmits r, fun hnil => absurd hnil (List.cons_ne_nil _ _), ?_, ?_,
      hreturned.sound, fun e he => hreturned.result e (List.mem_singleton.mp he).symm⟩
    · rw [hentered]
      exact hreturned.kept
    · intro hnodes hbacktrack hfailed
      rw [hentered]
      refine hreturned.failed hnodes ?_ (hfailed r List.mem_cons_self)
      rwa [MpcParser.opened_backtrack (hnodes _), h.fresh hown]
  | next hown hadmits hst =>
    refine ⟨h.sound, fun {r w₂} hreturned => ?_⟩
    have hentered : entered (nodes f.parser) (r :: f.results) w₀.input =
        entered (nodes f.parser) f.results w₀.input := (entered_of_ne_nil hown _).symm
    refine ⟨h.start, hst, hadmits r, fun hnil => absurd hnil (List.cons_ne_nil _ _), ?_, ?_,
      hreturned.sound, fun e he => ?_⟩
    · rw [hentered]
      exact h.kept.trans hreturned.kept
    · intro hnodes hbacktrack hfailed
      have hall := List.forall_mem_cons.mp hfailed
      rw [hentered, ← h.failed hnodes hbacktrack hall.2]
      refine hreturned.failed hnodes ?_ hall.1
      rwa [h.kept.backtrack, entered_of_ne_nil hown, MpcParser.opened_backtrack (hnodes _)]
    · rcases List.mem_cons.mp he with he | he
      · exact hreturned.result e he.symm
      · obtain ⟨hsited, hstate⟩ := h.results e he
        exact ⟨hsited.kept hreturned.kept, hstate⟩

end

/-- **The contract of the engine.** -/
theorem parser_contract (vals : Values V) (nodes : Ptr → MpcParser V) :
    (parserRoutine vals nodes).Contract Sound (UnderWay nodes) (Returned nodes) where
  enter hw := .enter hw
  call h hturn := by
    rcases h.turn_cases vals with ⟨x, st, own, w₁, heq, hacts⟩ | ⟨r, w', heq, -⟩
    · cases heq.symm.trans hturn
      exact h.accept hacts
    · cases heq.symm.trans hturn
  leave h hturn := by
    rcases h.turn_cases vals with ⟨x, st, own, w₁, heq, -⟩ | ⟨r, w', heq, hleaving⟩
    · cases heq.symm.trans hturn
    · cases heq.symm.trans hturn
      exact h.returned hleaving

/-! ## Runs -/

theorem Sound.start {i : MpcInput} (h : Located i) : Sound (mpcReading i) where
  located := h
  sited := ⟨rfl, fun _ => Option.some_ne_none _, (by intro _ hs; cases hs), (by intro _ hs; cases hs)⟩

theorem UnderWay.turn_ne_none {f : Activation V} {w₀ w : Reading} (h : UnderWay nodes f w₀ w) :
    (parserRoutine vals nodes).turn f w ≠ none := by
  rcases h.turn_cases vals with ⟨x, st, own, w₁, heq, -⟩ | ⟨r, w', heq, -⟩
  · rw [heq]
    exact Option.some_ne_none _
  · rw [heq]
    exact Option.some_ne_none _

/-- A parser on top of the stacks that is under way takes its turn there. -/
theorem parseTurn_of_underWay {m : Machine V} {s : Activation V × List (Activation V) × Reading}
    (hstacks : Stacks nodes m s) {w₀ : Reading} (h : UnderWay nodes s.1 w₀ s.2.2) :
    parseTurn vals nodes m ≠ none := by
  obtain ⟨f, stack, w⟩ := s
  have hsame : SameTurn (parseTurn vals nodes) (parserRoutine vals nodes).stackTurn (Stacks nodes)
      terminated m (f, stack, w) := sameTurn_of_stacks hstacks
  rcases hsame with ⟨-, hstuck⟩ | ⟨hturn, -, -⟩ | ⟨hturn, -, -⟩
  · have hnone : (parserRoutine vals nodes).turn f w ≠ none := h.turn_ne_none
    rw [Routine.stackTurn] at hstuck
    rcases hnext : (parserRoutine vals nodes).turn f w with _ | ⟨_ | r, w₁⟩ <;>
      simp only [hnext] at hstuck
    · exact absurd hnext hnone
    · cases hstuck
    · cases stack <;> cases hstuck
  · rw [hturn]
    exact Option.some_ne_none _
  · rw [hturn]
    exact Option.some_ne_none _

/-- The input that the loop ends with is the one that it has. -/
theorem parseTurn_inr {m : Machine V} {out : MpcResult V × MpcInput}
    (h : parseTurn vals nodes m = some (.inr out)) : out.2 = m.reading.input := by
  unfold parseTurn at h
  split at h
  · obtain ⟨r, -, heq⟩ := Option.map_eq_some_iff.mp h
    cases heq
    rfl
  · obtain ⟨_, -, heq⟩ := Option.map_eq_some_iff.mp h
    cases heq

/-- In every state of a run there is a next turn or the end, and the input is at a place of its text. -/
theorem parseTurn_sound {i : MpcInput} (hi : Located i) {p : Ptr} {k : Nat} {m : Machine V}
    (h : Turns (parseTurn vals nodes) k ⟨[(p, 0)], [], mpcReading i⟩ m) :
    parseTurn vals nodes m ≠ none ∧ Located m.reading.input := by
  have hcontract := parser_contract vals nodes
  rcases h.sameTurn (fun _ _ => sameTurn_of_stacks) (stacks_start i p) with
    ⟨s, hturns, hstacks⟩ | ⟨k', s, ⟨r, w'⟩, hturns, hend, hlast⟩
  · obtain ⟨w₀, hunderway, -⟩ := hcontract.running (Sound.start hi) hturns
    refine ⟨parseTurn_of_underWay hstacks hunderway, ?_⟩
    rw [hstacks.reading]
    exact hunderway.sound.located
  · obtain ⟨w₀, hreturned⟩ := hcontract.running_end (hcontract.running (Sound.start hi) hturns) hend
    refine ⟨hlast ▸ Option.some_ne_none _, ?_⟩
    rw [← parseTurn_inr hlast]
    exact hreturned.sound.located

/-- **The engine never gets stuck.** In every state of a run of `mpc_parse`, for any graph of parsers,
there is a next turn or the end: no turn reads below the bottom of a stack or takes an error for an
output, no mark is missing, no case of the `switch` is fallen through, and the text is never read behind
its end. So a run ends, or has no last turn. -/
theorem mpcParseString_never_stuck (vals : Values V) (nodes : Ptr → MpcParser V) (filename : String)
    (string : List Char) (p : Ptr) :
    (∀ k m, Turns (parseTurn vals nodes) k
      ⟨[(p, 0)], [], mpcReading (mpcInputNewString filename string)⟩ m →
        parseTurn vals nodes m ≠ none ∧ Located m.reading.input) ∧
    ((∃ out, Settles (fun fuel => mpcParseString vals nodes fuel filename string p) out) ↔
      ∃ n, ∀ k m, Turns (parseTurn vals nodes) k
        ⟨[(p, 0)], [], mpcReading (mpcInputNewString filename string)⟩ m → k ≤ n) := by
  have hsound : ∀ k m, Turns (parseTurn vals nodes) k
      ⟨[(p, 0)], [], mpcReading (mpcInputNewString filename string)⟩ m →
        parseTurn vals nodes m ≠ none ∧ Located m.reading.input :=
    fun k m h => parseTurn_sound (located_newString filename string) h
  refine ⟨hsound, ?_⟩
  refine Iff.trans ?_ (settles_loop_iff.trans (and_iff_right fun k m h => (hsound k m h).1))
  constructor
  · intro ⟨out, fuel, h⟩
    obtain ⟨out', hrun, -⟩ := Option.map_eq_some_iff.mp h
    exact ⟨out', fuel, hrun⟩
  · intro ⟨out, fuel, h⟩
    exact ⟨out.1, fuel, Option.map_eq_some_iff.mpr ⟨out, h, rfl⟩⟩

/-! ## Results -/

/-- What a parser has done to the input when `mpc_parse_input` ends, and its errors -/
theorem returned_of_settles {i i' : MpcInput} (hi : Located i) {p : Ptr} {out : MpcResult V}
    (h : Settles (fun fuel => mpcParseInput vals nodes fuel i p) (out, i')) :
    ∃ r w, Returned nodes (mpcReading i) r w ∧ out = mpcStackTerminate r w ∧ i' = w.input := by
  obtain ⟨r, w, hparses, heq⟩ := (mpcParseInput_settles_iff i p _).mp h
  cases heq
  exact ⟨r, w, (parser_contract vals nodes).returns (.enter (Sound.start hi)) hparses, rfl, rfl⟩

/-- **Backtracking.** When `mpc_parse_input` has ended, for any graph of parsers, all marks are taken off
again and backtracking is allowed as before, and the input is at a place of its text that is not before
the one where it was. Where no parser of the graph disables backtracking, a failure has left the input
exactly as it was. -/
theorem mpcParseInput_backtracks (vals : Values V) (nodes : Ptr → MpcParser V) {i i' : MpcInput}
    (hi : Located i) (p : Ptr) {out : MpcResult V}
    (h : Settles (fun fuel => mpcParseInput vals nodes fuel i p) (out, i')) :
    Kept i i' ∧ Located i' ∧
      (Backtracks nodes → 1 ≤ i.backtrack → ∀ e, out = .error e → i' = i) := by
  obtain ⟨r, w, hreturned, rfl, rfl⟩ := returned_of_settles hi h
  refine ⟨hreturned.kept, hreturned.sound.located, fun hnodes hbacktrack e he => ?_⟩
  refine hreturned.failed hnodes hbacktrack ?_
  cases r with
  | output x => cases he
  | error e => rfl

/-- A graph of three parsers: one for the text `ab`, and one for each of its characters -/
def pairNodes : Ptr → MpcParser (List Char)
  | 0 => .and List.flatten [1, 2]
  | 1 => .expect 3 "'a'"
  | 2 => .expect 4 "'b'"
  | 3 => .single 'a'
  | _ => .single 'b'

def pairValues : Values (List Char) := ⟨[], id, fun _ => []⟩

/-- The first parser has read its character when the second one fails. -/
theorem mpcParseInput_backtracks_pair :
    Kept (mpcInputNewString "input" ['a', 'c']) (mpcInputNewString "input" ['a', 'c']) ∧
      Located (mpcInputNewString "input" ['a', 'c']) ∧
      (Backtracks pairNodes → 1 ≤ (mpcInputNewString "input" ['a', 'c']).backtrack →
        ∀ e, MpcResult.error (V := List Char) ⟨"input", some ⟨1, 0, 1⟩, ["'b'"], none, some 'c'⟩ =
          .error e → mpcInputNewString "input" ['a', 'c'] = mpcInputNewString "input" ['a', 'c']) :=
  mpcParseInput_backtracks pairValues pairNodes (located_newString "input" ['a', 'c']) 0 ⟨20, rfl⟩

/-- The error that `mpc_parse` ends with is one of a place in the text. -/
theorem sited_of_settles {filename : String} {string : List Char} {p : Ptr} {e : MpcErr}
    (h : Settles (fun fuel => mpcParseString vals nodes fuel filename string p) (.error e)) :
    Sited filename string e ∧ e.state ≠ none := by
  obtain ⟨fuel, h⟩ := h
  obtain ⟨⟨out, i⟩, hrun, rfl⟩ := Option.map_eq_some_iff.mp h
  obtain ⟨r, w, hreturned, hout, -⟩ :=
    returned_of_settles (located_newString filename string) ⟨fuel, hrun⟩
  have hfilename : w.input.filename = filename := hreturned.kept.filename
  have hstring : w.input.string = string := hreturned.kept.string
  cases r with
  | output x => cases hout
  | error e₀ =>
    obtain ⟨hsited, hstate⟩ := hreturned.result e₀ rfl
    have herr := hreturned.sound.sited
    rw [hfilename, hstring] at hsited herr
    cases hout
    constructor
    · exact .or (List.forall_mem_cons.mpr ⟨herr, List.forall_mem_singleton.mpr hsited⟩)
    · exact mpcErrOr_state_ne_none (List.mem_cons_of_mem _ (List.mem_singleton_self _)) hstate

end Rbml.Mpc
