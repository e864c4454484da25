import Mathlib.Data.Nat.Notation
import Mathlib.Tactic.Common

/-!
# Loops with fuel

A loop that need not end is a function of its fuel, the number of turns it may take, and has no result
where the fuel runs out. A body may contain loops of its own and gets the fuel that is left.

More fuel does not change a result (`Steady`), so that the result a loop settles on is unique. Three
rules follow the turns of a loop: a first turn can be taken off (`settles_loop_inl`), a loop with an
invariant that excludes the exit does not settle (`not_settles_loop`), and what each turn keeps holds
of the result (`loop_result`).

`Turns` follows a loop whose body has no loops of its own without fuel. Such a loop settles exactly if
every turn that it takes has a result and it takes finitely many (`settles_loop_iff`).
-/

namespace Rbml.Lib

universe u

variable {σ : Type*} {α β : Type u}

/-- More fuel does not change a result. -/
def Steady (f : Nat → Option α) : Prop := ∀ n a, f n = some a → f (n + 1) = some a

/-- With enough fuel the result is `a`. -/
def Settles (f : Nat → Option α) (a : α) : Prop := ∃ n, f n = some a

theorem steady_const (x : Option α) : Steady fun _ => x := fun _ _ h => h

theorem Steady.bind {f : Nat → Option α} {g : α → Nat → Option β} (hf : Steady f)
    (hg : ∀ a, Steady (g a)) : Steady fun n => f n >>= fun a => g a n := by
  intro n b h
  obtain ⟨a, ha, hb⟩ := Option.bind_eq_some_iff.mp h
  exact Option.bind_eq_some_iff.mpr ⟨a, hf n a ha, hg a n b hb⟩

theorem Steady.le {f : Nat → Option α} (hf : Steady f) {n k : Nat} {a : α} (hnk : n ≤ k)
    (h : f n = some a) : f k = some a := by
  induction hnk with
  | refl => exact h
  | step _ ih => exact hf _ _ ih

theorem Steady.unique {f : Nat → Option α} (hf : Steady f) {a b : α} (ha : Settles f a)
    (hb : Settles f b) : a = b := by
  obtain ⟨n, hn⟩ := ha
  obtain ⟨k, hk⟩ := hb
  have hna := hf.le (Nat.le_max_left n k) hn
  have hkb := hf.le (Nat.le_max_right n k) hk
  exact Option.some.inj (hna.symm.trans hkb)

/-- Two computations that agree from some fuel on, up to a shift, settle on the same results. -/
theorem Steady.settles_congr {f g : Nat → Option α} (hf : Steady f) (hg : Steady g) (n₀ j : Nat)
    (h : ∀ n, n₀ ≤ n → f (n + j) = g n) {a : α} : Settles f a ↔ Settles g a := by
  constructor
  · rintro ⟨n, hn⟩
    refine ⟨max n n₀, ?_⟩
    rw [← h _ (Nat.le_max_right n n₀)]
    exact hf.le (by omega) hn
  · rintro ⟨n, hn⟩
    refine ⟨max n n₀ + j, ?_⟩
    rw [h _ (Nat.le_max_right n n₀)]
    exact hg.le (Nat.le_max_left n n₀) hn

/-- A computation whose first part has settled -/
theorem Steady.settles_bind {f : Nat → Option α} {g : α → Nat → Option β} (hf : Steady f)
    (hg : ∀ a, Steady (g a)) {a : α} (ha : Settles f a) {b : β} :
    Settles (fun n => f n >>= fun a => g a n) b ↔ Settles (g a) b := by
  obtain ⟨n₀, hn₀⟩ := ha
  refine (hf.bind hg).settles_congr (hg a) n₀ 0 fun n hn => ?_
  show f n >>= (fun a => g a n) = g a n
  rw [hf.le hn hn₀]
  rfl

/-! ## Loops -/

/-- A loop whose body gives the state of the next turn or the result -/
def loop (body : Nat → σ → Option (σ ⊕ α)) : Nat → σ → Option α
  | 0, _ => none
  | n + 1, s =>
    match body n s with
    | none => none
    | some (.inl s') => loop body n s'
    | some (.inr a) => some a

variable {body : Nat → σ → Option (σ ⊕ α)} {s s' : σ} {a : α} {n n₀ : Nat}

theorem loop_inl (h : body n s = some (.inl s')) : loop body (n + 1) s = loop body n s' := by
  rw [loop, h]

theorem loop_inr (h : body n s = some (.inr a)) : loop body (n + 1) s = some a := by
  rw [loop, h]

/-- The first turn of a loop that has a result is the last one, or the loop goes on from it. -/
theorem loop_cases (h : loop body (n + 1) s = some a) :
    body n s = some (.inr a) ∨ ∃ s', body n s = some (.inl s') ∧ loop body n s' = some a := by
  cases hturn : body n s with
  | none =>
    rw [loop, hturn] at h
    cases h
  | some next =>
    cases next with
    | inl s' =>
      rw [loop_inl hturn] at h
      exact .inr ⟨s', rfl, h⟩
    | inr b =>
      rw [loop_inr hturn] at h
      cases h
      exact .inl rfl

theorem loop_mono (hbody : ∀ s, Steady fun n => body n s) (h : loop body n s = some a) :
    loop body (n + 1) s = some a := by
  induction n generalizing s with
  | zero => cases h
  | succ n ih =>
    rcases loop_cases h with hturn | ⟨s', hturn, hrest⟩
    · exact loop_inr (hbody s n _ hturn)
    · rw [loop_inl (hbody s n _ hturn)]
      exact ih hrest

theorem steady_loop (hbody : ∀ s, Steady fun n => body n s) (s : σ) :
    Steady fun n => loop body n s :=
  fun _ _ h => loop_mono hbody h

/-- A first turn that goes on can be taken off. -/
theorem settles_loop_inl (hbody : ∀ s, Steady fun n => body n s)
    (h : ∀ n, n₀ ≤ n → body n s = some (.inl s')) :
    Settles (fun n => loop body n s) a ↔ Settles (fun n => loop body n s') a :=
  (steady_loop hbody s).settles_congr (steady_loop hbody s') n₀ 1
    fun n hn => loop_inl (h n hn)

/-! A body without loops of its own -/

theorem steady_loop_turn (turn : σ → Option (σ ⊕ α)) (s : σ) :
    Steady fun n => loop (fun _ => turn) n s :=
  steady_loop (fun s => steady_const (turn s)) s

theorem settles_loop_turn {turn : σ → Option (σ ⊕ α)} (h : turn s = some (.inl s')) :
    Settles (fun n => loop (fun _ => turn) n s) a ↔ Settles (fun n => loop (fun _ => turn) n s') a :=
  (steady_loop_turn turn s).settles_congr (steady_loop_turn turn s') 0 1 fun _ _ => loop_inl h

theorem settles_loop_inr (h : body n s = some (.inr a)) :
    Settles (fun n => loop body n s) a :=
  ⟨n + 1, loop_inr h⟩

/-- What each turn keeps holds when the loop exits. -/
theorem loop_result {P : σ → Prop} {Q : α → Prop}
    (hinl : ∀ n s s', P s → body n s = some (.inl s') → P s')
    (hinr : ∀ n s a, P s → body n s = some (.inr a) → Q a) (hP : P s)
    (h : loop body n s = some a) : Q a := by
  induction n generalizing s with
  | zero => cases h
  | succ n ih =>
    rcases loop_cases h with hturn | ⟨s', hturn, hrest⟩
    · exact hinr n s a hP hturn
    · exact ih (hinl n s s' hP hturn) hrest

/-- A loop with an invariant under which it never exits does not settle. -/
theorem not_settles_loop {P : σ → Prop}
    (hbody : ∀ n s next, P s → body n s = some next → ∃ s', next = .inl s' ∧ P s')
    (hP : P s) : ¬ Settles (fun n => loop body n s) a := by
  rintro ⟨n, h⟩
  refine loop_result (P := P) (Q := fun _ => False) ?_ ?_ hP h
  · intro n s s' hs hturn
    obtain ⟨t, ht, hPt⟩ := hbody n s _ hs hturn
    cases ht
    exact hPt
  · intro n s b hs hturn
    obtain ⟨t, ht, -⟩ := hbody n s _ hs hturn
    cases ht

/-! ## The turns of a loop -/

/-- After `k` turns that go on the loop is at a state. -/
inductive Turns (turn : σ → Option (σ ⊕ α)) : Nat → σ → σ → Prop
  | none (s : σ) : Turns turn 0 s s
  | more {k : Nat} {s s₁ s' : σ} (hturn : turn s = some (.inl s₁)) (hturns : Turns turn k s₁ s') :
    Turns turn (k + 1) s s'

variable {turn : σ → Option (σ ⊕ α)}

/-- What holds at every state that a loop gets to, by its first turn -/
theorem forall_turns {P : Nat → σ → Prop} :
    (∀ k s', Turns turn k s s' → P k s') ↔
      P 0 s ∧ ∀ s₁, turn s = some (.inl s₁) → ∀ k s', Turns turn k s₁ s' → P (k + 1) s' := by
  constructor
  · intro h
    exact ⟨h 0 s (.none s), fun s₁ hturn k s' hturns => h (k + 1) s' (.more hturn hturns)⟩
  · intro ⟨hfirst, hmore⟩ k s' hturns
    cases hturns with
    | none => exact hfirst
    | more hturn hturns => exact hmore _ hturn _ s' hturns

/-- The same where the first turn goes on -/
theorem forall_turns_inl {P : Nat → σ → Prop} (h : turn s = some (.inl s')) :
    (∀ k t, Turns turn k s t → P k t) ↔ P 0 s ∧ ∀ k t, Turns turn k s' t → P (k + 1) t := by
  refine forall_turns.trans (and_congr_right fun _ => ⟨fun hmore => hmore s' h, ?_⟩)
  intro hmore s₁ hturn
  rw [h] at hturn
  cases hturn
  exact hmore

/-- The same where there is no turn that goes on -/
theorem forall_turns_end {P : Nat → σ → Prop} (h : ∀ s₁, turn s ≠ some (.inl s₁)) :
    (∀ k t, Turns turn k s t → P k t) ↔ P 0 s :=
  forall_turns.trans (and_iff_left fun s₁ hturn => absurd hturn (h s₁))

/-- A loop that settles takes finitely many turns, and each of them has a result. -/
theorem turns_of_loop (h : loop (fun _ => turn) n s = some a) :
    (∀ k s', Turns turn k s s' → turn s' ≠ none) ∧ ∀ k s', Turns turn k s s' → k ≤ n := by
  induction n generalizing s with
  | zero => cases h
  | succ n ih =>
    rcases loop_cases h with hturn | ⟨s₁, hturn, hrest⟩
    · have hresult : turn s ≠ none := hturn ▸ Option.some_ne_none _
      have hend : ∀ s₁, turn s ≠ some (.inl s₁) := fun s₁ hinl => by
        rw [hturn] at hinl
        cases hinl
      exact ⟨(forall_turns_end hend).mpr hresult, (forall_turns_end hend).mpr (Nat.zero_le _)⟩
    · have hresult : turn s ≠ none := hturn ▸ Option.some_ne_none _
      obtain ⟨hreturns, hbound⟩ := ih hrest
      refine ⟨(forall_turns_inl hturn).mpr ⟨hresult, hreturns⟩, ?_⟩
      exact (forall_turns_inl hturn).mpr
        ⟨Nat.zero_le _, fun k s' hturns => Nat.succ_le_succ (hbound k s' hturns)⟩

/-- Where each turn has a result and there are finitely many, the loop settles. -/
theorem settles_of_turns (hreturns : ∀ k s', Turns turn k s s' → turn s' ≠ none)
    (hbound : ∀ k s', Turns turn k s s' → k < n) :
    ∃ a, Settles (fun n => loop (fun _ => turn) n s) a := by
  induction n generalizing s with
  | zero => exact absurd (hbound 0 s (.none s)) (Nat.not_lt_zero 0)
  | succ n ih =>
    cases hturn : turn s with
    | none => exact absurd hturn (hreturns 0 s (.none s))
    | some next =>
      cases next with
      | inr a => exact ⟨a, 1, loop_inr hturn⟩
      | inl s₁ =>
        obtain ⟨a, ha⟩ := ih ((forall_turns_inl hturn).mp hreturns).2 fun k s' hturns =>
          Nat.lt_of_succ_lt_succ (hbound (k + 1) s' (.more hturn hturns))
        exact ⟨a, (settles_loop_turn hturn).mpr ha⟩

/-- A loop settles exactly if each turn has a result and there are finitely many of them. -/
theorem settles_loop_iff :
    (∃ a, Settles (fun n => loop (fun _ => turn) n s) a) ↔
      (∀ k s', Turns turn k s s' → turn s' ≠ none) ∧ ∃ n, ∀ k s', Turns turn k s s' → k ≤ n := by
  constructor
  · intro ⟨a, n, h⟩
    exact ⟨(turns_of_loop h).1, n, (turns_of_loop h).2⟩
  · intro ⟨hreturns, n, hbound⟩
    exact settles_of_turns hreturns fun k s' hturns => Nat.lt_succ_of_le (hbound k s' hturns)

/-! ## Loops that take the same turns -/

variable {τ : Type*}

/-- The turns of two loops at two states are the same: both are undefined, both go on, or the second loop
ends and the first one ends a turn later. -/
inductive SameTurn (turn : σ → Option (σ ⊕ α)) (turn' : τ → Option (τ ⊕ β)) (R : σ → τ → Prop)
    (g : β → α) (s : σ) (t : τ) : Prop
  | stuck (h : turn s = none) (h' : turn' t = none)
  | more {s' : σ} {t' : τ} (h : turn s = some (.inl s')) (h' : turn' t = some (.inl t')) (hR : R s' t')
  | last {s' : σ} {b : β} (h : turn s = some (.inl s')) (hend : turn s' = some (.inr (g b)))
    (h' : turn' t = some (.inr b))

/-- Loops that take the same turns settle on the same results, as `g` gives them. -/
theorem settles_sameTurns {turn : σ → Option (σ ⊕ α)} {turn' : τ → Option (τ ⊕ β)} {R : σ → τ → Prop}
    {g : β → α} (hR : ∀ s t, R s t → SameTurn turn turn' R g s t) {s : σ} {t : τ} (h : R s t) {a : α} :
    Settles (fun n => loop (fun _ => turn) n s) a ↔
      ∃ b, Settles (fun n => loop (fun _ => turn') n t) b ∧ g b = a := by
  constructor
  · intro ⟨n, hn⟩
    change loop (fun _ => turn) n s = some a at hn
    induction n generalizing s t with
    | zero => cases hn
    | succ n ih =>
      cases hR s t h with
      | stuck hturn _ =>
        rw [loop, hturn] at hn
        cases hn
      | more hturn hturn' hnext =>
        obtain ⟨b, hb, hg⟩ := ih hnext ((loop_inl hturn).symm.trans hn)
        exact ⟨b, (settles_loop_turn hturn').mpr hb, hg⟩
      | @last s' b hturn hend hturn' =>
        refine ⟨b, ⟨1, loop_inr hturn'⟩, ?_⟩
        cases n with
        | zero =>
          rw [loop_inl hturn] at hn
          cases hn
        | succ n =>
          rw [loop_inl hturn, loop_inr hend] at hn
          exact Option.some.inj hn
  · rintro ⟨b, ⟨n, hn⟩, rfl⟩
    change loop (fun _ => turn') n t = some b at hn
    induction n generalizing s t with
    | zero => cases hn
    | succ n ih =>
      cases hR s t h with
      | stuck _ hturn' =>
        rw [loop, hturn'] at hn
        cases hn
      | more hturn hturn' hnext =>
        exact (settles_loop_turn hturn).mpr (ih hnext ((loop_inl hturn').symm.trans hn))
      | last hturn hend hturn' =>
        rw [loop_inr hturn'] at hn
        obtain rfl := Option.some.inj hn
        exact ⟨2, (loop_inl hturn).trans (loop_inr hend)⟩

/-- A state that the first loop gets to is like one of the second, or the last before its end. -/
theorem Turns.sameTurn {turn : σ → Option (σ ⊕ α)} {turn' : τ → Option (τ ⊕ β)} {R : σ → τ → Prop}
    {g : β → α} (hR : ∀ s t, R s t → SameTurn turn turn' R g s t) {k : Nat} {s s' : σ} {t : τ}
    (h : R s t) (hturns : Turns turn k s s') :
    (∃ t', Turns turn' k t t' ∧ R s' t') ∨
      ∃ k' t' b, Turns turn' k' t t' ∧ turn' t' = some (.inr b) ∧ turn s' = some (.inr (g b)) := by
  induction hturns generalizing t with
  | none s => exact .inl ⟨t, .none t, h⟩
  | @more k s s₁ s' hturn hturns ih =>
    cases hR s t h with
    | stuck hturn₂ _ => cases hturn.symm.trans hturn₂
    | more hturn₂ hturn' hnext =>
      cases hturn.symm.trans hturn₂
      rcases ih hnext with ⟨t', ht', hR'⟩ | ⟨k', t', b, ht', hb, hend⟩
      · exact .inl ⟨t', .more hturn' ht', hR'⟩
      · exact .inr ⟨k' + 1, t', b, .more hturn' ht', hb, hend⟩
    | @last s₂ b hturn₂ hend hturn' =>
      cases hturn.symm.trans hturn₂
      cases hturns with
      | none => exact .inr ⟨0, t, b, .none t, hturn', hend⟩
      | more hturn₃ _ => cases hend.symm.trans hturn₃

end Rbml.Lib
