import Mathlib.Data.List.Basic

/-!
# Paths of a labelled step relation

A path lists the labels of its steps. What a run keeps is proved once here: an invariant may speak
about the state alone, or about the state and a summary of the labels so far, which is the left
fold of a function `track`. A condition on the order of the labels is a condition on each label and
on the summary of the ones before it (`Along`).
-/

namespace Rbml.Lib

universe u v

variable {σ α γ : Type*}

/-! ## Failure -/

theorem bind_eq_ok {ε : Type u} {α β : Type v} {x : Except ε α} {f : α → Except ε β} {b : β} :
    x >>= f = .ok b ↔ ∃ a, x = .ok a ∧ f a = .ok b := by
  cases x with
  | error e => simp [bind, Except.bind]
  | ok a => simp [bind, Except.bind]

theorem bind_eq_error {ε : Type u} {α β : Type v} {x : Except ε α} {f : α → Except ε β} {e : ε} :
    x >>= f = .error e ↔ x = .error e ∨ ∃ a, x = .ok a ∧ f a = .error e := by
  cases x with
  | error e => simp [bind, Except.bind]
  | ok a => simp [bind, Except.bind]

/-- A computation followed by a total function fails as it does alone. -/
theorem bind_ok_eq_error {ε : Type u} {α β : Type v} {x : Except ε α} {f : α → β} {e : ε} :
    (x >>= fun a => .ok (f a)) = .error e ↔ x = .error e := by
  rw [bind_eq_error]
  constructor
  · rintro (h | ⟨a, -, h⟩)
    · exact h
    · cases h
  · exact .inl

/-! ## Conditions on a list of labels -/

/-- Each label meets `ok`, given the summary of the labels before it. -/
def Along (track : γ → α → γ) (ok : γ → α → Prop) : γ → List α → Prop
  | _, [] => True
  | x, a :: as => ok x a ∧ Along track ok (track x a) as

@[simp] theorem along_nil (track : γ → α → γ) (ok : γ → α → Prop) (x : γ) :
    Along track ok x [] := trivial

@[simp] theorem along_cons {track : γ → α → γ} {ok : γ → α → Prop} {x : γ} {a : α} {as : List α} :
    Along track ok x (a :: as) ↔ ok x a ∧ Along track ok (track x a) as := Iff.rfl

instance Along.decidable {track : γ → α → γ} {ok : γ → α → Prop} [∀ x a, Decidable (ok x a)] :
    (x : γ) → (as : List α) → Decidable (Along track ok x as)
  | _, [] => .isTrue trivial
  | x, a :: as =>
    have := @Along.decidable track ok _ (track x a) as
    inferInstanceAs (Decidable (_ ∧ _))

theorem along_append {track : γ → α → γ} {ok : γ → α → Prop} {x : γ} {as bs : List α} :
    Along track ok x (as ++ bs) ↔
      Along track ok x as ∧ Along track ok (as.foldl track x) bs := by
  induction as generalizing x with
  | nil => simp
  | cons a as ih =>
    rw [List.cons_append, along_cons, along_cons, ih, List.foldl_cons, and_assoc]

theorem Along.and {track : γ → α → γ} {ok₁ ok₂ : γ → α → Prop} {x : γ} {as : List α}
    (h₁ : Along track ok₁ x as) (h₂ : Along track ok₂ x as) :
    Along track (fun x a => ok₁ x a ∧ ok₂ x a) x as := by
  induction as generalizing x with
  | nil => trivial
  | cons a as ih => exact ⟨⟨h₁.1, h₂.1⟩, ih h₁.2 h₂.2⟩

/-! ## Paths -/

/-- A path of `step`, with the labels of its steps in order -/
inductive Path (step : σ → α → σ → Prop) : σ → List α → σ → Prop
  | nil (s : σ) : Path step s [] s
  | cons {s t u : σ} {a : α} {as : List α} :
      step s a t → Path step t as u → Path step s (a :: as) u

variable {step : σ → α → σ → Prop} {s t u : σ} {a : α} {as bs : List α}

theorem Path.single (h : step s a t) : Path step s [a] t :=
  .cons h (.nil t)

theorem Path.append (h₁ : Path step s as t) (h₂ : Path step t bs u) :
    Path step s (as ++ bs) u := by
  induction h₁ with
  | nil => exact h₂
  | cons hstep _ ih => exact .cons hstep (ih h₂)

/-- A path splits where its list of labels does. -/
theorem Path.split (h : Path step s (as ++ bs) u) :
    ∃ t, Path step s as t ∧ Path step t bs u := by
  induction as generalizing s with
  | nil => exact ⟨s, .nil s, h⟩
  | cons a as ih =>
    cases h with
    | cons hstep h =>
      obtain ⟨t, h₁, h₂⟩ := ih h
      exact ⟨t, .cons hstep h₁, h₂⟩

/-- A simulation of single steps, by a function of the state, is one of paths. -/
theorem Path.map {τ : Type*} {step' : τ → α → τ → Prop} (f : σ → τ)
    (hstep : ∀ s a t, step s a t → step' (f s) a (f t)) (h : Path step s as t) :
    Path step' (f s) as (f t) := by
  induction h with
  | nil => exact .nil _
  | cons hs _ ih => exact .cons (hstep _ _ _ hs) ih

/-- The run rule: what each step keeps of the state and the summary, a path keeps. -/
theorem Path.foldl {track : γ → α → γ} {ok : γ → α → Prop} {R : γ → σ → Prop}
    (hstep : ∀ x s a t, ok x a → R x s → step s a t → R (track x a) t) {x : γ}
    (h : Path step s as t) (hok : Along track ok x as) (hR : R x s) :
    R (as.foldl track x) t := by
  induction h generalizing x with
  | nil => exact hR
  | cons hs _ ih => exact ih hok.2 (hstep _ _ _ _ hok.1 hR hs)

/-- The run rule for a path of any labels -/
theorem Path.summary {track : γ → α → γ} {R : γ → σ → Prop}
    (hstep : ∀ x s a t, R x s → step s a t → R (track x a) t) {x : γ} (h : Path step s as t)
    (hR : R x s) : R (as.foldl track x) t := by
  induction h generalizing x with
  | nil => exact hR
  | cons hs _ ih => exact ih (hstep _ _ _ _ hR hs)

/-- The run rule without a summary, for a path whose labels meet `ok` -/
theorem Path.invariant_of_labels {ok : α → Prop} {P : σ → Prop}
    (hstep : ∀ s a t, ok a → P s → step s a t → P t)
    (h : Path step s as t) (hok : ∀ a ∈ as, ok a) (hP : P s) : P t := by
  induction h with
  | nil => exact hP
  | cons hs _ ih =>
    refine ih (fun b hb => hok b (List.mem_cons_of_mem _ hb)) ?_
    exact hstep _ _ _ (hok _ List.mem_cons_self) hP hs

/-- The run rule without a summary -/
theorem Path.invariant {P : σ → Prop} (hstep : ∀ s a t, P s → step s a t → P t)
    (h : Path step s as t) (hP : P s) : P t := by
  induction h with
  | nil => exact hP
  | cons hs _ ih => exact ih (hstep _ _ _ hP hs)

end Rbml.Lib
