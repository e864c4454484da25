import Mathlib.Data.List.TakeWhile
import Mathlib.Tactic.Common

/-!
# Parsers (`mpc.c`)

`mpc_parse_input` for the kinds of parsers that a grammar string is made of. A parser reads a part of
the input and has a result, or fails and leaves the input as it was: the choices of `mpc_or` are tried
in order, and none is taken back. The errors that `mpc` collects on the way are left out, and so are
the positions in the input, of which only its start matters.

`Reads p R` says what a successful run of `p` has read, and relates it to the result and to what is
left. There is one rule for each kind of parser.
-/

namespace Rbml.Mpc

/-- `mpc_input_t` of a string: what is left of it, and whether it is still at the start, where `last`
is `\0` -/
structure Input where
  atStart : Bool
  rest : List Char
  deriving DecidableEq, Repr

/-- The input after `m` was read from it -/
def Input.after (i : Input) (m : List Char) : Input :=
  ⟨i.atStart && m.isEmpty, i.rest.drop m.length⟩

/-- `mpc_parser_t`: its result and the input that it leaves -/
abbrev Parser (α : Type) := Input → Option (α × Input)

variable {α β γ : Type}

/-! ## Kinds of parsers -/

/-- `mpc_pass` -/
def mpcPass : Parser (Option α) := fun i => some (none, i)

/-- `mpc_lift` -/
def mpcLift (x : α) : Parser α := fun i => some (x, i)

/-- `mpc_soi` -/
def mpcSoi : Parser Unit := fun i => if i.atStart then some ((), i) else none

/-- `mpc_eoi` -/
def mpcEoi : Parser Unit := fun i => if i.rest = [] then some ((), i) else none

/-- `mpc_oneof`, and `mpc_char` -/
def mpcOneof (p : Char → Bool) : Parser (List Char) := fun i =>
  match i.rest with
  | [] => none
  | c :: _ => if p c then some ([c], i.after [c]) else none

def mpcChar (c : Char) : Parser (List Char) := mpcOneof (· == c)

/-- `mpc_string` -/
def mpcString (s : List Char) : Parser (List Char) := fun i =>
  if s.isPrefixOf i.rest then some (s, i.after s) else none

/-- `mpc_many(mpcf_strfold, mpc_oneof(p))` -/
def mpcMany (p : Char → Bool) : Parser (List Char) := fun i =>
  let m := i.rest.takeWhile p
  some (m, i.after m)

/-- `mpc_many1(mpcf_strfold, mpc_oneof(p))` -/
def mpcMany1 (p : Char → Bool) : Parser (List Char) := fun i =>
  let m := i.rest.takeWhile p
  if m = [] then none else some (m, i.after m)

/-- `mpc_maybe_lift` -/
def mpcMaybeLift (lf : α) (p : Parser α) : Parser α := fun i =>
  match p i with
  | some r => some r
  | none => some (lf, i)

/-- `mpc_maybe`, where `none` is `NULL` -/
def mpcMaybe (p : Parser (Option α)) : Parser (Option α) := mpcMaybeLift none p

/-- `mpc_apply` -/
def mpcApply (f : α → β) (p : Parser α) : Parser β := fun i => do
  let (x, i) ← p i
  some (f x, i)

/-- `mpc_and` of two parsers -/
def mpcAnd (f : α → β → γ) (p : Parser α) (q : Parser β) : Parser γ := fun i => do
  let (x, i) ← p i
  let (y, i) ← q i
  some (f x y, i)

/-- `mpc_or` of two parsers -/
def mpcOr (p q : Parser α) : Parser α := fun i =>
  match p i with
  | some r => some r
  | none => q i

/-- `mpcf_re_and` -/
def mpcReAnd (ps : List (Parser (List Char))) : Parser (List Char) :=
  ps.foldl (mpcAnd (· ++ ·)) (mpcLift [])

/-- `mpc_whitespace` -/
def isWhitespace (c : Char) : Bool :=
  c == ' ' || c == '\x0c' || c == '\n' || c == '\r' || c == '\t' || c == '\x0b'

/-- `mpc_tok`: `mpc_blank` reads what is white after it. -/
def mpcTok (p : Parser α) : Parser α := mpcAnd (fun x _ => x) p (mpcMany isWhitespace)

/-- `mpc_parse` on a string -/
def mpcParse (p : Parser α) (s : List Char) : Option α := (p ⟨true, s⟩).map Prod.fst

/-! ## What a parser reads -/

/-- A success has read some `m` from the input, and `R` holds of `m`, the result and the rest. -/
def Reads (p : Parser α) (R : List Char → α → List Char → Prop) : Prop :=
  ∀ i x i', p i = some (x, i') → ∃ m, i.rest = m ++ i'.rest ∧ R m x i'.rest

section
variable {p p' : Parser α} {q : Parser β} {R R' : List Char → α → List Char → Prop}
  {S : List Char → β → List Char → Prop}

theorem Reads.mono (h : Reads p R) (hR : ∀ m x rest, R m x rest → R' m x rest) : Reads p R' := by
  intro i x i' hrun
  obtain ⟨m, hm, hx⟩ := h i x i' hrun
  exact ⟨m, hm, hR _ _ _ hx⟩

theorem Reads.both (h : Reads p R) (h' : Reads p R') :
    Reads p fun m x rest => R m x rest ∧ R' m x rest := by
  intro i x i' hrun
  obtain ⟨m, hm, hx⟩ := h i x i' hrun
  obtain ⟨m', hm', hx'⟩ := h' i x i' hrun
  obtain rfl : m = m' := List.append_cancel_right (hm.symm.trans hm')
  exact ⟨m, hm, hx, hx'⟩

theorem reads_pass : Reads (mpcPass : Parser (Option α)) fun m x _ => m = [] ∧ x = none := by
  intro i x i' h
  cases h
  exact ⟨[], rfl, rfl, rfl⟩

theorem reads_soi : Reads mpcSoi fun m _ _ => m = [] := by
  intro i x i' h
  unfold mpcSoi at h
  split at h
  · cases h
    exact ⟨[], rfl, rfl⟩
  · cases h

theorem reads_eoi : Reads mpcEoi fun m _ rest => m = [] ∧ rest = [] := by
  intro i x i' h
  unfold mpcEoi at h
  split at h
  next hrest =>
    cases h
    exact ⟨[], rfl, rfl, hrest⟩
  · cases h

theorem reads_oneof (p : Char → Bool) :
    Reads (mpcOneof p) fun m x _ => x = m ∧ ∃ c, m = [c] ∧ p c = true := by
  intro i x i' h
  unfold mpcOneof at h
  split at h
  · cases h
  next c rest hrest =>
    split at h
    next hc =>
      cases h
      exact ⟨[c], by simp [Input.after, hrest], rfl, c, rfl, hc⟩
    · cases h

theorem reads_string (s : List Char) : Reads (mpcString s) fun m x _ => x = m ∧ m = s := by
  intro i x i' h
  unfold mpcString at h
  split at h
  next hs =>
    cases h
    obtain ⟨rest, hrest⟩ := List.isPrefixOf_iff_prefix.mp hs
    exact ⟨s, by simp [Input.after, ← hrest], rfl, rfl⟩
  · cases h

theorem rest_after_takeWhile (p : Char → Bool) (i : Input) :
    i.rest = i.rest.takeWhile p ++ (i.after (i.rest.takeWhile p)).rest := by
  obtain ⟨rest, hrest⟩ := List.takeWhile_prefix (l := i.rest) p
  have hdrop : i.rest.drop (i.rest.takeWhile p).length = rest := by
    conv_lhs => rw [← hrest]
    exact List.drop_left' (by rw [hrest])
  show i.rest = i.rest.takeWhile p ++ i.rest.drop (i.rest.takeWhile p).length
  rw [hdrop, hrest]

theorem reads_many (p : Char → Bool) :
    Reads (mpcMany p) fun m x _ => x = m ∧ ∀ c ∈ m, p c = true := by
  intro i x i' h
  cases h
  exact ⟨_, rest_after_takeWhile p i, rfl, fun c hc => List.mem_takeWhile_imp hc⟩

theorem reads_many1 (p : Char → Bool) :
    Reads (mpcMany1 p) fun m x _ => x = m ∧ m ≠ [] ∧ ∀ c ∈ m, p c = true := by
  intro i x i' h
  simp only [mpcMany1] at h
  split at h
  · cases h
  next hne =>
    cases h
    exact ⟨_, rest_after_takeWhile p i, rfl, hne, fun c hc => List.mem_takeWhile_imp hc⟩

theorem Reads.maybeLift (h : Reads p R) (lf : α) :
    Reads (mpcMaybeLift lf p) fun m x rest => R m x rest ∨ (m = [] ∧ x = lf) := by
  intro i x i' hrun
  unfold mpcMaybeLift at hrun
  split at hrun
  next r hr =>
    cases hrun
    obtain ⟨m, hm, hx⟩ := h i x i' hr
    exact ⟨m, hm, .inl hx⟩
  · cases hrun
    exact ⟨[], rfl, .inr ⟨rfl, rfl⟩⟩

theorem Reads.apply (h : Reads p R) (f : α → β) :
    Reads (mpcApply f p) fun m y rest => ∃ x, R m x rest ∧ y = f x := by
  intro i y i' hrun
  obtain ⟨⟨x, i₁⟩, hx, hrun⟩ := Option.bind_eq_some_iff.mp hrun
  cases hrun
  obtain ⟨m, hm, hR⟩ := h i x i' hx
  exact ⟨m, hm, x, hR, rfl⟩

theorem Reads.and (hp : Reads p R) (hq : Reads q S) (f : α → β → γ) :
    Reads (mpcAnd f p q) fun m z rest => ∃ m₁ m₂ x y, m = m₁ ++ m₂ ∧ R m₁ x (m₂ ++ rest) ∧
      S m₂ y rest ∧ z = f x y := by
  intro i z i' hrun
  obtain ⟨⟨x, i₁⟩, hx, hrun⟩ := Option.bind_eq_some_iff.mp hrun
  obtain ⟨⟨y, i₂⟩, hy, hrun⟩ := Option.bind_eq_some_iff.mp hrun
  cases hrun
  obtain ⟨m₁, hm₁, hR⟩ := hp i x i₁ hx
  obtain ⟨m₂, hm₂, hS⟩ := hq i₁ y i' hy
  refine ⟨m₁ ++ m₂, ?_, m₁, m₂, x, y, rfl, hm₂ ▸ hR, hS, rfl⟩
  rw [hm₁, hm₂, List.append_assoc]

/-- A sequence of a regular expression reads what its parts read, in a row. -/
theorem reads_reAnd {ps : List (Parser (List Char))} {Ls : List (List Char → Prop)}
    (h : List.Forall₂ (fun p L => Reads p fun m x _ => x = m ∧ L m) ps Ls) :
    Reads (mpcReAnd ps) fun m x _ => x = m ∧ ∃ ms, List.Forall₂ (fun L m => L m) Ls ms ∧
      m = ms.flatten := by
  suffices ∀ (q : Parser (List Char)) (K : List Char → Prop), Reads q (fun m x _ => x = m ∧ K m) →
      Reads (ps.foldl (mpcAnd (· ++ ·)) q) fun m x _ => x = m ∧ ∃ m₀ ms, K m₀ ∧
        List.Forall₂ (fun L m => L m) Ls ms ∧ m = m₀ ++ ms.flatten by
    have hlift : Reads (mpcLift ([] : List Char)) fun m x _ => x = m ∧ m = [] := by
      intro i x i' hrun
      cases hrun
      exact ⟨[], rfl, rfl, rfl⟩
    refine (this _ _ hlift).mono ?_
    intro m x _ ⟨hx, m₀, ms, h₀, hms, hm⟩
    exact ⟨hx, ms, hms, by rw [hm, h₀, List.nil_append]⟩
  induction h with
  | nil =>
    intro q K hq
    refine hq.mono ?_
    intro m x _ ⟨hx, hm⟩
    exact ⟨hx, m, [], hm, .nil, (List.append_nil m).symm⟩
  | @cons p L ps Ls hp _ ih =>
    intro q K hq
    have hand := hq.and hp (· ++ ·)
    refine (ih _ (fun m => ∃ m₁ m₂, m = m₁ ++ m₂ ∧ K m₁ ∧ L m₂) (hand.mono ?_)).mono ?_
    · intro m z _ ⟨m₁, m₂, x, y, hm, ⟨hx, h₁⟩, ⟨hy, h₂⟩, hz⟩
      exact ⟨by rw [hz, hx, hy, hm], m₁, m₂, hm, h₁, h₂⟩
    · intro m x _ ⟨hx, m₀, ms, ⟨m₁, m₂, hm₀, h₁, h₂⟩, hms, hm⟩
      exact ⟨hx, m₁, m₂ :: ms, h₁, .cons h₂ hms, by rw [hm, hm₀, List.flatten_cons, List.append_assoc]⟩

theorem Reads.or (hp : Reads p R) (hp' : Reads p' R') :
    Reads (mpcOr p p') fun m x rest => R m x rest ∨ R' m x rest := by
  intro i x i' hrun
  unfold mpcOr at hrun
  split at hrun
  next r hr =>
    cases hrun
    obtain ⟨m, hm, hx⟩ := hp i x i' hr
    exact ⟨m, hm, .inl hx⟩
  · obtain ⟨m, hm, hx⟩ := hp' i x i' hrun
    exact ⟨m, hm, .inr hx⟩

theorem Reads.tok (h : Reads p R) :
    Reads (mpcTok p) fun m x rest => ∃ t w, m = t ++ w ∧ R t x (w ++ rest) ∧
      ∀ c ∈ w, isWhitespace c = true := by
  refine (h.and (reads_many isWhitespace) _).mono ?_
  intro m x rest ⟨t, w, y, _, hm, hR, ⟨_, hw⟩, hx⟩
  exact ⟨t, w, hm, hx ▸ hR, hw⟩

/-- A parser that reads the whole of a string -/
theorem Reads.parse (h : Reads p R) {s : List Char} {x : α} (hrun : mpcParse p s = some x) :
    ∃ m rest, s = m ++ rest ∧ R m x rest := by
  obtain ⟨⟨x', i'⟩, hx, rfl⟩ := Option.map_eq_some_iff.mp hrun
  obtain ⟨m, hm, hR⟩ := h _ _ _ hx
  exact ⟨m, i'.rest, hm, hR⟩

end

end Rbml.Mpc
