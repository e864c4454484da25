import Rbml.Mpc.Parser
import Rbml.Mpc.Turns

/-!
# Combinators on the engine

The combinators of `Rbml.Mpc.Parser` are functions of what is left of the input. Here they are what the
engine computes: `Realizes p q enc` says that the parser `p` of a graph, run on any input, returns an
output exactly where `q` has a result, one that stands for it, and leaves the input that `q` leaves.

`Makes` of `Rbml.Mpc.Constructors` is how a graph is made of the constructor functions, with one rule for
each. The nodes of an anchor, a text or a set of characters may be wrapped in expectations, which change no
result.

Texts do not contain `\0`, which ends a string of C.
-/

namespace Rbml.Mpc

open Rbml.Lib

variable {V : Type} {vals : Values V} {nodes : Ptr → MpcParser V} {α β γ : Type}

/-! ## The input -/

/-- The input as the combinators see it -/
def MpcInput.abs (i : MpcInput) : Input := ⟨i.last == '\x00', i.string.drop i.state.pos⟩

/-- An input that parsers are run on, where they may go back -/
structure Proper (i : MpcInput) : Prop where
  backtrack : 1 ≤ i.backtrack
  pos : i.state.pos ≤ i.string.length
  text : '\x00' ∉ i.string

/-- Reading leaves the input proper, since it stays inside the text. -/
theorem Proper.advances {i j : MpcInput} (hi : Proper i) (h : Advances i j) : Proper j := by
  have hkept := h.kept
  refine ⟨?_, h.pos_le hi.pos, ?_⟩
  · rw [hkept.backtrack]
    exact hi.backtrack
  · rw [hkept.string]
    exact hi.text

theorem Proper.mark {i : MpcInput} (hi : Proper i) : Proper (mpcInputMark i) := by
  refine ⟨?_, ?_, ?_⟩
  · rw [mark_backtrack]
    exact hi.backtrack
  · rw [mark_state, mark_string]
    exact hi.pos
  · rw [mark_string]
    exact hi.text

/-- The combinators do not see the marks. -/
@[simp] theorem abs_mark (i : MpcInput) : (mpcInputMark i).abs = i.abs := by
  simp only [MpcInput.abs, mark_last, mark_string, mark_state]

@[simp] theorem Input.after_nil (i : Input) : i.after [] = i := by
  simp only [Input.after, List.isEmpty_nil, Bool.and_true, List.length_nil, List.drop_zero]

/-- What is read in two parts is read. -/
theorem Input.after_append (i : Input) (m m' : List Char) :
    (i.after m).after m' = i.after (m ++ m') := by
  have hempty : (m ++ m').isEmpty = (m.isEmpty && m'.isEmpty) := by cases m <;> rfl
  simp only [Input.after, hempty, Bool.and_assoc, List.drop_drop, List.length_append]

/-- What the combinators see first is the character that the engine peeks at. -/
theorem Proper.peekc {i : MpcInput} (hi : Proper i) {c : Char} {rest : List Char}
    (hrest : i.abs.rest = c :: rest) :
    i.state.pos < i.string.length ∧ mpcInputPeekc i = c ∧ c ≠ '\x00' := by
  have hlt : i.state.pos < i.string.length := by
    refine Nat.lt_of_not_le fun hle => ?_
    rw [MpcInput.abs, List.drop_of_length_le hle] at hrest
    cases hrest
  have heq := drop_pos_eq hlt
  rw [show i.string.drop i.state.pos = c :: rest from hrest] at heq
  refine ⟨hlt, (List.cons.inj heq).1.symm, fun hc => hi.text ?_⟩
  refine List.mem_of_mem_drop (i := i.state.pos) ?_
  rw [show i.string.drop i.state.pos = c :: rest from hrest, hc]
  exact List.mem_cons_self

/-- A character is read on both sides. -/
theorem abs_success {c : Char} (hc : c ≠ '\x00') (i : MpcInput) :
    (mpcInputSuccess i c).abs = i.abs.after [c] := by
  have hdrop : i.string.drop (i.state.pos + 1) = i.abs.rest.drop 1 := by
    rw [MpcInput.abs, List.drop_drop]
  have hlast : ((mpcInputSuccess i c).last == '\x00') = false := beq_false_of_ne hc
  simp only [MpcInput.abs, Input.after, success_pos, (kept_success i c).string, hdrop, hlast,
    List.isEmpty_cons, Bool.and_false, List.length_cons, List.length_nil, Nat.zero_add]

/-- Reading moves what the combinators see. -/
theorem Proper.abs_foldl {i : MpcInput} (hi : Proper i) {cs : List Char} (hpre : cs <+: i.abs.rest) :
    (cs.foldl mpcInputSuccess i).abs = i.abs.after cs := by
  induction cs generalizing i with
  | nil => exact (Input.after_nil _).symm
  | cons c cs ih =>
    obtain ⟨rest, hrest⟩ := hpre
    obtain ⟨hlt, hpeekc, hc⟩ := hi.peekc hrest.symm
    have habs := abs_success hc i
    have hadvances : Advances i (mpcInputSuccess i c) := hpeekc ▸ advances_success hlt
    rw [List.foldl_cons, ih (hi.advances hadvances), habs, Input.after_append]
    · rfl
    · rw [habs]
      refine ⟨rest, ?_⟩
      rw [Input.after, ← hrest]
      rfl

/-! ## Turns of the recursive form -/

section
variable {p x : Ptr} {st st' : Nat} {own own' : List (MpcResult V)} {w w₁ w₂ w' : Reading}
  {r r' : MpcResult V}

/-- A turn that calls another parser: the call, and what comes after it -/
theorem returns_continue
    (hswitch : mpcSwitch vals (nodes p) st own w = some (.mpcContinue st' x, own', w₁))
    (hcallee : Parses vals nodes x w₁ r w₂)
    (hnext : (parserRoutine vals nodes).Returns ⟨p, st', r :: own'⟩ w₂ r' w') :
    (parserRoutine vals nodes).Returns ⟨p, st, own⟩ w r' w' := by
  have hturn : (parserRoutine vals nodes).turn ⟨p, st, own⟩ w =
      some (.call x ⟨p, st', own'⟩, w₁) := by
    simp only [parserRoutine, Activation.turn, hswitch]
  exact .call hturn hcallee hnext

/-- A turn that ends the activation with an output -/
theorem returns_success {v : V}
    (hswitch : mpcSwitch vals (nodes p) st own w = some (.mpcSuccess v, own', w')) :
    (parserRoutine vals nodes).Returns ⟨p, st, own⟩ w (.output v) w' :=
  .leave (by simp only [parserRoutine, Activation.turn, hswitch])

/-- A turn that ends the activation with an error -/
theorem returns_failure {e : MpcErr}
    (hswitch : mpcSwitch vals (nodes p) st own w = some (.mpcFailure e, own', w')) :
    (parserRoutine vals nodes).Returns ⟨p, st, own⟩ w (.error e) w' :=
  .leave (by simp only [parserRoutine, Activation.turn, hswitch])

/-- A parser that runs another one and is done -/
theorem parses_once_success {v : V}
    (hfirst : mpcSwitch vals (nodes p) 0 [] w = some (.mpcContinue 1 x, [], w₁))
    (hcallee : Parses vals nodes x w₁ r w₂)
    (hlast : mpcSwitch vals (nodes p) 1 [r] w₂ = some (.mpcSuccess v, [], w')) :
    Parses vals nodes p w (.output v) w' :=
  returns_continue hfirst hcallee (returns_success hlast)

/-- A parser that runs one other, once, and fails -/
theorem parses_once_failure {e : MpcErr}
    (hfirst : mpcSwitch vals (nodes p) 0 [] w = some (.mpcContinue 1 x, [], w₁))
    (hcallee : Parses vals nodes x w₁ r w₂)
    (hlast : mpcSwitch vals (nodes p) 1 [r] w₂ = some (.mpcFailure e, [], w')) :
    Parses vals nodes p w (.error e) w' :=
  returns_continue hfirst hcallee (returns_failure hlast)

end

/-! ## Realization -/

/-- The parser `p` computes `q`: an output `v` with `enc x v` stands for the result `x`, and where `q` has
no result, `p` fails and leaves the input as it was. -/
structure Realizes (vals : Values V) (nodes : Ptr → MpcParser V) (p : Ptr) (q : Parser α)
    (enc : α → V → Prop) : Prop where
  output : ∀ {w : Reading} {x : α} {i : Input}, Proper w.input → q w.input.abs = some (x, i) →
    ∃ v w', Parses vals nodes p w (.output v) w' ∧ enc x v ∧ Advances w.input w'.input ∧
      w'.input.abs = i
  error : ∀ {w : Reading}, Proper w.input → q w.input.abs = none →
    ∃ e w', Parses vals nodes p w (.error e) w' ∧ w'.input = w.input

/-- `mpc_soi_anchor` -/
def mpcSoiAnchor (prev _next : Char) : Bool := prev == '\x00'

/-- `mpc_eoi_anchor` -/
def mpcEoiAnchor (_prev next : Char) : Bool := next == '\x00'

section
variable {p a b : Ptr} {q q' : Parser α} {q₂ : Parser β} {enc : α → V → Prop} {enc₂ : β → V → Prop}
  {enc₃ : γ → V → Prop}

/-- A parser that returns a value at once -/
theorem realizes_constant {x : α}
    (hswitch : ∀ w, ∃ v, enc x v ∧ mpcSwitch vals (nodes p) 0 [] w = some (.mpcSuccess v, [], w)) :
    Realizes vals nodes p (mpcLift x) enc where
  output := by
    intro w y i _ hq
    cases hq
    obtain ⟨v, hv, hswitch⟩ := hswitch w
    exact ⟨v, w, returns_success hswitch, hv, advances_refl _, rfl⟩
  error := by
    intro w _ hq
    cases hq

theorem mpcOneof_nil {cond : Char → Bool} {i : Input} (h : i.rest = []) : mpcOneof cond i = none := by
  rw [mpcOneof, h]

theorem mpcOneof_cons {cond : Char → Bool} {i : Input} {c : Char} {rest : List Char}
    (h : i.rest = c :: rest) : mpcOneof cond i = if cond c then some ([c], i.after [c]) else none := by
  rw [mpcOneof, h]

/-- The parsers of one character are the combinator of their condition. -/
theorem realizes_oneof {cond : Char → Bool} (hp : (nodes p).condition = some cond) :
    Realizes vals nodes p (mpcOneof cond) fun s v => v = vals.text s where
  output := by
    intro w s i hw hq
    have hswitch : mpcSwitch vals (nodes p) 0 [] w =
        some (mpcPrimitive vals w [] (mpcInputSatisfy w.input cond)) := mpcSwitch_condition hp 0 [] w
    rcases hrest : w.input.abs.rest with _ | ⟨c, rest⟩
    · rw [mpcOneof_nil hrest] at hq
      cases hq
    · obtain ⟨hlt, hpeekc, hne⟩ := hw.peekc hrest
      rw [mpcOneof_cons hrest] at hq
      rw [satisfy_cons hlt, hpeekc] at hswitch
      by_cases hc : cond c = true
      · rw [if_pos hc] at hq hswitch
        cases hq
        exact ⟨_, _, returns_success hswitch, rfl, hpeekc ▸ advances_success hlt, abs_success hne _⟩
      · rw [if_neg hc] at hq
        cases hq
  error := by
    intro w hw hq
    have hswitch : mpcSwitch vals (nodes p) 0 [] w =
        some (mpcPrimitive vals w [] (mpcInputSatisfy w.input cond)) := mpcSwitch_condition hp 0 [] w
    rcases hrest : w.input.abs.rest with _ | ⟨c, rest⟩
    · have hpos : w.input.state.pos = w.input.string.length :=
        Nat.le_antisymm hw.pos (List.drop_eq_nil_iff.mp hrest)
      rw [satisfy_nil hpos] at hswitch
      exact ⟨_, _, returns_failure hswitch, rfl⟩
    · obtain ⟨hlt, hpeekc, -⟩ := hw.peekc hrest
      rw [mpcOneof_cons hrest] at hq
      rw [satisfy_cons hlt, hpeekc] at hswitch
      by_cases hc : cond c = true
      · rw [if_pos hc] at hq
        cases hq
      · rw [if_neg hc] at hswitch
        exact ⟨_, _, returns_failure hswitch, rfl⟩

/-- A string is the combinator of the same name. -/
theorem realizes_string {s : List Char} (hp : nodes p = .string s) :
    Realizes vals nodes p (mpcString s) fun s v => v = vals.text s where
  output := by
    intro w s' i hw hq
    unfold mpcString at hq
    split at hq
    next hpre =>
      cases hq
      rcases mpcInputString_spec s hw.pos with ⟨hpre', heq⟩ | ⟨hnot, -⟩
      · have hswitch : mpcSwitch vals (nodes p) 0 [] w =
            some (.mpcSuccess (vals.text s), [],
              { w with input := s.foldl mpcInputSuccess w.input }) := by
          rw [hp, mpcSwitch, heq]
          rfl
        exact ⟨_, _, returns_success hswitch, rfl, ⟨s, hpre', rfl⟩, hw.abs_foldl hpre'⟩
      · exact absurd (List.isPrefixOf_iff_prefix.mp hpre) hnot
    · cases hq
  error := by
    intro w hw hq
    unfold mpcString at hq
    split at hq
    · cases hq
    next hnot =>
      rcases mpcInputString_spec s hw.pos with ⟨hpre, -⟩ | ⟨-, j, -, hj, heq⟩
      · exact absurd (List.isPrefixOf_iff_prefix.mpr hpre) hnot
      · have hswitch : mpcSwitch vals (nodes p) 0 [] w =
            some (.mpcFailure (mpcErrFail j.filename (some j.state) "Incorrect Input"), [],
              { w with input := j }) := by
          rw [hp, mpcSwitch, heq]
          rfl
        exact ⟨_, _, returns_failure hswitch, hj hw.backtrack⟩

/-- An anchor looks at what is before and behind the place. -/
theorem realizes_anchor {f : Char → Char → Bool} {q : Parser Unit} (hp : nodes p = .anchor f)
    (hq : ∀ i, Proper i → q i.abs = if mpcInputAnchor i f then some ((), i.abs) else none) :
    Realizes vals nodes p q fun _ v => v = vals.null where
  output := by
    intro w x i hw hsome
    rw [hq _ hw] at hsome
    split at hsome
    next hf =>
      cases hsome
      have hswitch : mpcSwitch vals (nodes p) 0 [] w = some (.mpcSuccess vals.null, [], w) := by
        rw [hp, mpcSwitch, if_pos hf]
      exact ⟨_, _, returns_success hswitch, rfl, advances_refl _, rfl⟩
    · cases hsome
  error := by
    intro w hw hnone
    rw [hq _ hw] at hnone
    split at hnone
    · cases hnone
    next hf =>
      exact ⟨_, _, returns_failure (by rw [hp, mpcSwitch, if_neg hf]), rfl⟩

/-- The anchor of the start, of the combinator of the same name -/
theorem realizes_soi (hp : nodes p = .anchor mpcSoiAnchor) :
    Realizes vals nodes p mpcSoi fun _ v => v = vals.null :=
  realizes_anchor hp fun _ _ => rfl

/-- The anchor of the end: a text has no null byte, so that one comes next only there. -/
theorem realizes_eoi (hp : nodes p = .anchor mpcEoiAnchor) :
    Realizes vals nodes p mpcEoi fun _ v => v = vals.null := by
  refine realizes_anchor hp fun i hi => ?_
  have hiff : i.abs.rest = [] ↔ mpcInputAnchor i mpcEoiAnchor = true := by
    rcases hrest : i.abs.rest with _ | ⟨c, rest⟩
    · have hpos : i.string.length ≤ i.state.pos := List.drop_eq_nil_iff.mp hrest
      have hpeekc : mpcInputPeekc i = '\x00' := by
        rw [mpcInputPeekc, List.getD, List.getElem?_eq_none hpos]
        rfl
      simp only [mpcInputAnchor, mpcEoiAnchor, hpeekc, beq_self_eq_true]
    · obtain ⟨-, hpeekc, hne⟩ := hi.peekc hrest
      simp only [mpcInputAnchor, mpcEoiAnchor, hpeekc, beq_false_of_ne hne, Bool.false_eq_true,
        reduceCtorEq]
  simp only [mpcEoi, hiff]

/-! ### Parsers that run others -/

/-- An expectation changes only errors. -/
theorem realizes_expect {m : String} (hp : nodes p = .expect a m) (ha : Realizes vals nodes a q enc) :
    Realizes vals nodes p q enc where
  output := by
    intro w x i hw hq
    obtain ⟨v, w₁, hparses, henc, hadvances, habs⟩ := ha.output hw hq
    exact ⟨v, w₁, parses_once_success (by rw [hp]; rfl) hparses (by rw [hp]; rfl), henc, hadvances, habs⟩
  error := by
    intro w hw hq
    obtain ⟨e, w₁, hparses, hinput⟩ := ha.error hw hq
    have hlast : mpcSwitch vals (nodes p) 1 [.error e] w₁ = some (.mpcFailure
        (mpcErrNew w₁.input.filename w₁.input.state m (mpcInputPeekc w₁.input)), [], w₁) := by
      rw [hp]
      rfl
    exact ⟨_, w₁, parses_once_failure (by rw [hp]; rfl) hparses hlast, hinput⟩

/-- A parser that applies a function to what another one returns -/
theorem realizes_map {f : V → V} {g : α → β} (ha : Realizes vals nodes a q enc)
    (hfirst : ∀ w, mpcSwitch vals (nodes p) 0 [] w = some (.mpcContinue 1 a, [], w))
    (houtput : ∀ v w, mpcSwitch vals (nodes p) 1 [.output v] w = some (.mpcSuccess (f v), [], w))
    (herror : ∀ e w, mpcSwitch vals (nodes p) 1 [.error e] w = some (.mpcFailure e, [], w))
    (hf : ∀ x v, enc x v → enc₂ (g x) (f v)) : Realizes vals nodes p (mpcApply g q) enc₂ where
  output := by
    intro w y i hw hq
    obtain ⟨⟨x, i'⟩, hx, hq⟩ := Option.bind_eq_some_iff.mp hq
    cases hq
    obtain ⟨v, w₁, hparses, henc, hadvances, habs⟩ := ha.output hw hx
    exact ⟨f v, w₁, parses_once_success (hfirst w) hparses (houtput v w₁), hf x v henc, hadvances,
      habs⟩
  error := by
    intro w hw hq
    have hx : q w.input.abs = none := by
      cases hx : q w.input.abs with
      | some x =>
        rw [mpcApply, hx] at hq
        cases hq
      | none => rfl
    obtain ⟨e, w₁, hparses, hinput⟩ := ha.error hw hx
    exact ⟨e, w₁, parses_once_failure (hfirst w) hparses (herror e w₁), hinput⟩

/-- A function of the values does what `g` does to the results that they stand for. -/
theorem realizes_apply {f : V → V} {g : α → β} (hp : nodes p = .apply a f)
    (ha : Realizes vals nodes a q enc) (hf : ∀ x v, enc x v → enc₂ (g x) (f v)) :
    Realizes vals nodes p (mpcApply g q) enc₂ := by
  refine realizes_map ha (fun w => ?_) (fun v w => ?_) (fun e w => ?_) hf
  all_goals
    rw [hp]
    rfl

theorem realizes_applyTo {f : V → V → V} {d : V} {g : α → β} (hp : nodes p = .applyTo a f d)
    (ha : Realizes vals nodes a q enc) (hf : ∀ x v, enc x v → enc₂ (g x) (f v d)) :
    Realizes vals nodes p (mpcApply g q) enc₂ := by
  refine realizes_map ha (fun w => ?_) (fun v w => ?_) (fun e w => ?_) hf
  all_goals
    rw [hp]
    rfl

/-- Where the other parser fails, the value is the one that is given. -/
theorem realizes_maybe {x : α} {v : V} (hp : nodes p = .maybe a v) (ha : Realizes vals nodes a q enc)
    (hv : enc x v) : Realizes vals nodes p (mpcMaybeLift x q) enc where
  output := by
    intro w y i hw hq
    unfold mpcMaybeLift at hq
    split at hq
    next r hr =>
      cases hq
      obtain ⟨v', w₁, hparses, henc, hadvances, habs⟩ := ha.output hw hr
      exact ⟨v', w₁, parses_once_success (by rw [hp]; rfl) hparses (by rw [hp]; rfl), henc, hadvances,
        habs⟩
    next hr =>
      cases hq
      obtain ⟨e, w₁, hparses, hinput⟩ := ha.error hw hr
      refine ⟨v, mpcStackErr w₁ e, parses_once_success (by rw [hp]; rfl) hparses (by rw [hp]; rfl), hv,
        ?_, congrArg MpcInput.abs hinput⟩
      change Advances w.input w₁.input
      rw [hinput]
      exact advances_refl _
  error := by
    intro w _ hq
    unfold mpcMaybeLift at hq
    split at hq <;> cases hq

/-- What is read behind a mark is read when the mark is taken off. -/
theorem Advances.unmark {i j : MpcInput} (h : Advances (mpcInputMark i) j) :
    Advances i { j with marks := i.marks } := by
  obtain ⟨cs, hpre, rfl⟩ := h
  rw [mark_string, mark_state] at hpre
  exact ⟨cs, hpre, foldl_success_mark cs i⟩

/-- The first of two parsers, behind the mark -/
theorem and_first {f : List V → V} (hp : nodes p = .and f [a, b]) (w : Reading) :
    mpcSwitch vals (nodes p) 0 [] w =
      some (.mpcContinue 1 a, [], { w with input := mpcInputMark w.input }) := by
  rw [hp]
  rfl

/-- After the first of two parsers, `mpc_and` runs the second. -/
theorem and_second {f : List V → V} (hp : nodes p = .and f [a, b]) (v : V) (w : Reading) :
    mpcSwitch vals (nodes p) 1 [.output v] w = some (.mpcContinue 2 b, [.output v], w) := by
  have hlt : ([] : List V).length < [b].length := Nat.one_pos
  rw [hp]
  exact mpcSwitch_and_next [] hlt

/-- Where the first of two parsers has failed, `mpc_or` runs the second. -/
theorem or_second (hp : nodes p = .or [a, b]) (e : MpcErr) (w : Reading) :
    mpcSwitch vals (nodes p) 1 [.error e] w = some (.mpcContinue 2 b, [.error e], w) := by
  have hlt : ([] : List MpcErr).length < [b].length := Nat.one_pos
  rw [hp]
  exact mpcSwitch_or_next [] hlt

/-- The second of two parsers goes on where the first one has got to. If one of them fails, the input is
the one at the mark again. -/
theorem realizes_and {f : List V → V} {g : α → β → γ} {q₂ : Parser β} (hp : nodes p = .and f [a, b])
    (ha : Realizes vals nodes a q enc) (hb : Realizes vals nodes b q₂ enc₂)
    (hf : ∀ x y v v', enc x v → enc₂ y v' → enc₃ (g x y) (f [v, v'])) :
    Realizes vals nodes p (mpcAnd g q q₂) enc₃ where
  output := by
    intro w z i hw hq
    obtain ⟨⟨x, i₁⟩, hx, hq⟩ := Option.bind_eq_some_iff.mp hq
    obtain ⟨⟨y, i₂⟩, hy, hq⟩ := Option.bind_eq_some_iff.mp hq
    cases hq
    rw [← abs_mark] at hx
    obtain ⟨v, w₁, hparses₁, henc₁, hadvances₁, rfl⟩ :=
      ha.output (w := { w with input := mpcInputMark w.input }) hw.mark hx
    obtain ⟨v', w₂, hparses₂, henc₂, hadvances₂, habs₂⟩ :=
      hb.output (hw.mark.advances hadvances₁) hy
    have hadvances := hadvances₁.trans hadvances₂
    have hlast : mpcSwitch vals (nodes p) 2 [.output v', .output v] w₂ =
        some (.mpcSuccess (f [v, v']), [],
          { w₂ with input := { w₂.input with marks := w.input.marks } }) := by
      rw [hp]
      exact mpcSwitch_and_last [v] rfl (unmark_marked hadvances.kept)
    exact ⟨_, _, returns_continue (and_first hp w) hparses₁
      (returns_continue (and_second hp v w₁) hparses₂ (returns_success hlast)), hf x y v v' henc₁ henc₂,
      hadvances.unmark, habs₂⟩
  error := by
    intro w hw hq
    have hmark : ¬ w.input.backtrack < 1 := Int.not_lt.mpr hw.backtrack
    cases hx : q w.input.abs with
    | none =>
      rw [← abs_mark] at hx
      obtain ⟨e, w₁, hparses, hinput⟩ :=
        ha.error (w := { w with input := mpcInputMark w.input }) hw.mark hx
      have hkept : Kept (mpcInputMark w.input) w₁.input := by
        rw [hinput]
        exact .refl _
      have hlast : mpcSwitch vals (nodes p) 1 [.error e] w₁ =
          some (.mpcFailure e, [], { w₁ with input := w.input }) := by
        rw [hp]
        exact mpcSwitch_and_error [] (Nat.zero_le _) ((rewind_marked hkept).trans (by rw [if_neg hmark]))
      exact ⟨e, _, parses_once_failure (and_first hp w) hparses hlast, rfl⟩
    | some xi =>
      obtain ⟨x, i₁⟩ := xi
      have hy : q₂ i₁ = none := by
        cases hy : q₂ i₁ with
        | none => rfl
        | some y =>
          simp only [mpcAnd, hx, hy, Option.bind_eq_bind, Option.bind_some, reduceCtorEq] at hq
      rw [← abs_mark] at hx
      obtain ⟨v, w₁, hparses₁, -, hadvances₁, rfl⟩ :=
        ha.output (w := { w with input := mpcInputMark w.input }) hw.mark hx
      obtain ⟨e, w₂, hparses₂, hinput⟩ := hb.error (hw.mark.advances hadvances₁) hy
      have hkept : Kept (mpcInputMark w.input) w₂.input := by
        rw [hinput]
        exact hadvances₁.kept
      have hlast : mpcSwitch vals (nodes p) 2 [.error e, .output v] w₂ =
          some (.mpcFailure e, [], { w₂ with input := w.input }) := by
        rw [hp]
        exact mpcSwitch_and_error [v] (Nat.le_refl 1)
          ((rewind_marked hkept).trans (by rw [if_neg hmark]))
      exact ⟨e, _, returns_continue (and_first hp w) hparses₁
        (returns_continue (and_second hp v w₁) hparses₂ (returns_failure hlast)), rfl⟩

/-- The second choice is tried where the first one fails. -/
theorem realizes_or (hp : nodes p = .or [a, b]) (ha : Realizes vals nodes a q enc)
    (hb : Realizes vals nodes b q' enc) : Realizes vals nodes p (mpcOr q q') enc where
  output := by
    intro w x i hw hq
    unfold mpcOr at hq
    split at hq
    next r hr =>
      cases hq
      obtain ⟨v, w₁, hparses, henc, hadvances, habs⟩ := ha.output hw hr
      have hlast : mpcSwitch vals (nodes p) 1 [.output v] w₁ = some (.mpcSuccess v, [], w₁) := by
        rw [hp]
        exact mpcSwitch_or_output [] (Nat.zero_le _)
      exact ⟨v, w₁, parses_once_success (by rw [hp]; rfl) hparses hlast, henc, hadvances, habs⟩
    next hr =>
      obtain ⟨e, w₁, hparses₁, hinput₁⟩ := ha.error hw hr
      rw [← hinput₁] at hw hq
      obtain ⟨v, w₂, hparses₂, henc, hadvances, habs⟩ := hb.output hw hq
      rw [hinput₁] at hadvances
      have hlast : mpcSwitch vals (nodes p) 2 [.output v, .error e] w₂ =
          some (.mpcSuccess v, [], mpcStackErr w₂ e) := by
        rw [hp]
        exact mpcSwitch_or_output [e] (Nat.le_refl 1)
      exact ⟨v, _, returns_continue (by rw [hp]; rfl) hparses₁
        (returns_continue (or_second hp e w₁) hparses₂ (returns_success hlast)), henc, hadvances, habs⟩
  error := by
    intro w hw hq
    unfold mpcOr at hq
    split at hq
    · cases hq
    next hr =>
      obtain ⟨e, w₁, hparses₁, hinput₁⟩ := ha.error hw hr
      rw [← hinput₁] at hw hq
      obtain ⟨e', w₂, hparses₂, hinput₂⟩ := hb.error hw hq
      have hlast : mpcSwitch vals (nodes p) 2 [.error e', .error e] w₂ =
          some (.mpcFailure (mpcErrOr e [e']), [], w₂) := by
        rw [hp]
        exact mpcSwitch_or_last [e] rfl rfl
      exact ⟨_, w₂, returns_continue (by rw [hp]; rfl) hparses₁
        (returns_continue (or_second hp e w₁) hparses₂ (returns_failure hlast)), hinput₂.trans hinput₁⟩

/-! ### Repetition -/

/-- The first character of a run of characters is one of those that are left. -/
theorem takeWhile_eq_cons {cond : Char → Bool} {l cs : List Char} {c : Char}
    (h : l.takeWhile cond = c :: cs) :
    ∃ rest, l = c :: rest ∧ cond c = true ∧ rest.takeWhile cond = cs := by
  cases l with
  | nil => cases h
  | cons d rest =>
    by_cases hd : cond d = true
    · rw [List.takeWhile_cons_of_pos hd] at h
      obtain ⟨rfl, rfl⟩ := List.cons.inj h
      exact ⟨rest, rfl, hd, rfl⟩
    · rw [List.takeWhile_cons_of_neg hd] at h
      cases h

/-- A repetition ends where no character meets the condition. -/
theorem mpcOneof_of_takeWhile {cond : Char → Bool} {i : Input} (h : i.rest.takeWhile cond = []) :
    mpcOneof cond i = none := by
  rcases hrest : i.rest with _ | ⟨c, rest⟩
  · exact mpcOneof_nil hrest
  · rw [mpcOneof_cons hrest]
    refine if_neg fun hc => ?_
    rw [hrest, List.takeWhile_cons_of_pos hc] at h
    cases h

/-- A parser that is run again and again, from where it has been run for the outputs `vs`: it reads all the
characters that it can read, and at least `n` outputs are enough. -/
theorem returns_repeat {n : Nat} {f : List V → V} {cond : Char → Bool} {enc : List Char → V → Prop}
    (ha : Realizes vals nodes a (mpcOneof cond) enc)
    (hmore : ∀ v (vs : List V) w, mpcSwitch vals (nodes p) (vs.length + 1) (.output v :: vs.map .output) w =
      some (.mpcContinue (vs.length + 2) a, .output v :: vs.map .output, w))
    (hlast : ∀ e (vs : List V) w, n ≤ vs.length →
      mpcSwitch vals (nodes p) (vs.length + 1) (.error e :: vs.map .output) w =
        some (.mpcSuccess (f vs.reverse), [], mpcStackErr w e))
    (cs : List Char) (vs : List V) {w : Reading} (hw : Proper w.input)
    (hcs : w.input.abs.rest.takeWhile cond = cs) (hn : n ≤ cs.length + vs.length) :
    ∃ r w₁ vs' w', Parses vals nodes a w r w₁ ∧
      (parserRoutine vals nodes).Returns ⟨p, vs.length + 1, r :: vs.map .output⟩ w₁
        (.output (f (vs.reverse ++ vs'))) w' ∧
      List.Forall₂ (fun c v => enc [c] v) cs vs' ∧ Advances w.input w'.input ∧
      w'.input.abs = w.input.abs.after cs := by
  induction cs generalizing vs w with
  | nil =>
    obtain ⟨e, w₁, hparses, hinput⟩ := ha.error hw (mpcOneof_of_takeWhile hcs)
    rw [List.length_nil, Nat.zero_add] at hn
    refine ⟨_, w₁, [], mpcStackErr w₁ e, hparses, ?_, .nil, ?_, ?_⟩
    · rw [List.append_nil]
      exact returns_success (hlast e vs w₁ hn)
    · change Advances w.input w₁.input
      rw [hinput]
      exact advances_refl _
    · rw [Input.after_nil]
      exact congrArg MpcInput.abs hinput
  | cons c cs ih =>
    obtain ⟨rest, hrest, hc, hcs⟩ := takeWhile_eq_cons hcs
    have hone : mpcOneof cond w.input.abs = some ([c], w.input.abs.after [c]) := by
      rw [mpcOneof_cons hrest, if_pos hc]
    obtain ⟨v, w₁, hparses₁, henc, hadvances₁, habs₁⟩ := ha.output hw hone
    have hcs₁ : w₁.input.abs.rest.takeWhile cond = cs := by
      rw [habs₁, Input.after, hrest]
      exact hcs
    have hn₁ : n ≤ cs.length + (v :: vs).length := by
      rw [List.length_cons] at hn ⊢
      omega
    obtain ⟨r, w₂, vs', w', hparses₂, hreturns, hall, hadvances₂, habs₂⟩ :=
      ih (v :: vs) (hw.advances hadvances₁) hcs₁ hn₁
    rw [List.reverse_cons, List.append_assoc] at hreturns
    refine ⟨_, w₁, v :: vs', w', hparses₁, returns_continue (hmore v vs w₁) hparses₂ hreturns,
      .cons henc hall, hadvances₁.trans hadvances₂, ?_⟩
    rw [habs₂, habs₁, Input.after_append]
    rfl

/-- `mpc_many` of a character class is the combinator, by induction on what it can read. -/
theorem realizes_many {f : List V → V} {cond : Char → Bool} {enc enc' : List Char → V → Prop}
    (hp : nodes p = .many f a) (ha : Realizes vals nodes a (mpcOneof cond) enc)
    (hf : ∀ cs vs, List.Forall₂ (fun c v => enc [c] v) cs vs → enc' cs (f vs)) :
    Realizes vals nodes p (mpcMany cond) enc' where
  output := by
    intro w s i hw hq
    cases hq
    have hmore : ∀ v (vs : List V) w, mpcSwitch vals (nodes p) (vs.length + 1)
        (.output v :: vs.map .output) w =
          some (.mpcContinue (vs.length + 2) a, .output v :: vs.map .output, w) := by
      intro v vs w
      rw [hp]
      rfl
    have hlast : ∀ e (vs : List V) w, 0 ≤ vs.length →
        mpcSwitch vals (nodes p) (vs.length + 1) (.error e :: vs.map .output) w =
          some (.mpcSuccess (f vs.reverse), [], mpcStackErr w e) := by
      intro e vs w _
      rw [hp]
      exact mpcSwitch_many_error vs
    obtain ⟨r, w₁, vs, w', hparses, hreturns, hall, hadvances, habs⟩ :=
      returns_repeat ha hmore hlast _ [] hw rfl (Nat.zero_le _)
    exact ⟨_, w', returns_continue (by rw [hp]; rfl) hparses hreturns, hf _ _ hall, hadvances, habs⟩
  error := by
    intro w _ hq
    cases hq

/-- `mpc_many1` of a character class is the combinator too. -/
theorem realizes_many1 {f : List V → V} {cond : Char → Bool} {enc enc' : List Char → V → Prop}
    (hp : nodes p = .many1 f a) (ha : Realizes vals nodes a (mpcOneof cond) enc)
    (hf : ∀ cs vs, List.Forall₂ (fun c v => enc [c] v) cs vs → enc' cs (f vs)) :
    Realizes vals nodes p (mpcMany1 cond) enc' where
  output := by
    intro w s i hw hq
    simp only [mpcMany1] at hq
    split at hq
    · cases hq
    next hne =>
      cases hq
      have hmore : ∀ v (vs : List V) w, mpcSwitch vals (nodes p) (vs.length + 1)
          (.output v :: vs.map .output) w =
            some (.mpcContinue (vs.length + 2) a, .output v :: vs.map .output, w) := by
        intro v vs w
        rw [hp]
        rfl
      have hlast : ∀ e (vs : List V) w, 1 ≤ vs.length →
          mpcSwitch vals (nodes p) (vs.length + 1) (.error e :: vs.map .output) w =
            some (.mpcSuccess (f vs.reverse), [], mpcStackErr w e) := by
        intro e vs w hvs
        cases vs with
        | nil => cases hvs
        | cons v vs =>
          rw [hp]
          exact mpcSwitch_many1_error vs
      obtain ⟨r, w₁, vs, w', hparses, hreturns, hall, hadvances, habs⟩ :=
        returns_repeat ha hmore hlast _ [] hw rfl (List.length_pos_iff.mpr hne)
      exact ⟨_, w', returns_continue (by rw [hp]; rfl) hparses hreturns, hf _ _ hall, hadvances, habs⟩
  error := by
    intro w hw hq
    simp only [mpcMany1] at hq
    split at hq
    next hnil =>
      obtain ⟨e, w₁, hparses, hinput⟩ := ha.error hw (mpcOneof_of_takeWhile hnil)
      have hlast : mpcSwitch vals (nodes p) 1 [.error e] w₁ =
          some (.mpcFailure (mpcErrMany1 e), [], w₁) := by
        rw [hp]
        rfl
      exact ⟨_, w₁, parses_once_failure (by rw [hp]; rfl) hparses hlast, hinput⟩
    · cases hq

end

/-! ## Whole texts -/

/-- What a realized parser does, `mpc_parse` does with it on a text without `\0`. -/
theorem Realizes.settles {p : Ptr} {q : Parser α} {enc : α → V → Prop}
    (h : Realizes vals nodes p q enc) (filename : String) {s : List Char} (hs : '\x00' ∉ s) :
    (∀ x, mpcParse q s = some x → ∃ v, enc x v ∧
      Settles (fun fuel => mpcParseString vals nodes fuel filename s p) (.output v)) ∧
    (mpcParse q s = none →
      ∃ e, Settles (fun fuel => mpcParseString vals nodes fuel filename s p) (.error e)) := by
  have hproper : Proper (mpcReading (mpcInputNewString filename s)).input :=
    ⟨Int.le_refl 1, Nat.zero_le _, hs⟩
  have habs : (mpcReading (mpcInputNewString filename s)).input.abs = ⟨true, s⟩ := rfl
  constructor
  · intro x hx
    obtain ⟨⟨x', i⟩, hq, rfl⟩ := Option.map_eq_some_iff.mp hx
    obtain ⟨v, w, hparses, henc, -, -⟩ := h.output hproper (habs ▸ hq)
    exact ⟨v, henc, (mpcParseString_settles filename s p).mpr ⟨_, w, hparses, rfl⟩⟩
  · intro hnone
    obtain ⟨e, w, hparses, -⟩ := h.error hproper (habs ▸ Option.map_eq_none_iff.mp hnone)
    exact ⟨_, (mpcParseString_settles filename s p).mpr ⟨_, w, hparses, rfl⟩⟩

/-! ## Parsers with the same data -/

/-- An activation of another parser, with the same state and the same results -/
def Activation.become (f : Activation V) (p : Ptr) : Activation V := { f with parser := p }

/-- An action of a parser, as one of the parser `p` -/
def Action.become (p : Ptr) :
    Action Ptr (Activation V) (MpcResult V) → Action Ptr (Activation V) (MpcResult V)
  | .call x next => .call x (next.become p)
  | .leave r => .leave r

/-- A turn depends on the data of the parser and not on its address. -/
theorem turn_become {f : Activation V} {p : Ptr} (hnodes : nodes p = nodes f.parser) (w : Reading) :
    (parserRoutine vals nodes).turn (f.become p) w =
      ((parserRoutine vals nodes).turn f w).map fun (action, w') => (Action.become p action, w') := by
  simp only [parserRoutine, Activation.turn, Activation.become, hnodes]
  rcases mpcSwitch vals (nodes f.parser) f.st f.results w with
    _ | ⟨⟨_⟩ | ⟨_⟩ | ⟨_⟩ | ⟨_⟩, _ | ⟨_, _⟩, _⟩ <;> rfl

/-- An activation stays one of the same parser. -/
theorem parser_of_call {f next : Activation V} {x : Ptr} {w w' : Reading}
    (h : (parserRoutine vals nodes).turn f w = some (.call x next, w')) : next.parser = f.parser := by
  simp only [parserRoutine, Activation.turn] at h
  split at h
  · cases h
  · cases h
    rfl
  · cases h
  · cases h
  · obtain ⟨r, -, hr⟩ := Option.map_eq_some_iff.mp h
    cases hr

/-- Two parsers with the same data return the same. -/
theorem returns_become {f : Activation V} {p : Ptr} {w w' : Reading} {r : MpcResult V}
    (h : (parserRoutine vals nodes).Returns f w r w') (hnodes : nodes p = nodes f.parser) :
    (parserRoutine vals nodes).Returns (f.become p) w r w' := by
  induction h with
  | leave h =>
    refine .leave ?_
    rw [turn_become hnodes, h]
    rfl
  | @call f next w w₁ w₂ w' x r r' h hcallee _ _ ihnext =>
    have hturn : (parserRoutine vals nodes).turn (f.become p) w =
        some (.call x (next.become p), w₁) := by
      rw [turn_become hnodes, h]
      rfl
    refine .call hturn hcallee (ihnext ?_)
    rw [hnodes, ← parser_of_call h]
    rfl

/-- Parsers with the same type and the same data do the same. -/
theorem Realizes.congr {p p' : Ptr} {q : Parser α} {enc : α → V → Prop}
    (h : Realizes vals nodes p q enc) (hnodes : nodes p' = nodes p) : Realizes vals nodes p' q enc where
  output := by
    intro w x i hw hq
    obtain ⟨v, w', hparses, hrest⟩ := h.output hw hq
    exact ⟨v, w', returns_become hparses hnodes, hrest⟩
  error := by
    intro w hw hq
    obtain ⟨e, w', hparses, hinput⟩ := h.error hw hq
    exact ⟨e, w', returns_become hparses hnodes, hinput⟩

end Rbml.Mpc
