import Rbml.Lib.Loop

/-!
# Recursion as a loop

A recursive routine can be run by a loop that keeps its activations on a stack. An activation is resumed,
and either calls another one and waits for it on the stack, or returns a result to the one below it. The
world is what the activations work on: it is passed along and never undone.

`Routine.Returns` is the recursion itself, where a call has returned before its caller goes on. The loop
returns exactly what the recursion does (`Routine.settles_iff`), so that what holds of the recursion, by
induction on its calls, holds of the loop.
-/

namespace Rbml.Lib

universe u

/-- What an activation does: it calls another one, to go on as `next` when that has returned, or leaves
with a result. -/
inductive Action (κ φ ρ : Type*) where
  | call (callee : κ) (next : φ)
  | leave (result : ρ)

/-- A routine for callees `κ`, with activations `φ`, results `ρ` and a world `ω`. A turn that is not
defined has no result. -/
structure Routine (κ φ ρ ω : Type u) where
  enter : κ → φ
  accept : φ → ρ → φ
  turn : φ → ω → Option (Action κ φ ρ × ω)

variable {κ φ ρ ω : Type u} {R : Routine κ φ ρ ω}

/-! ## The recursion -/

/-- The activation returns a result, in the recursive form. -/
inductive Routine.Returns (R : Routine κ φ ρ ω) : φ → ω → ρ → ω → Prop
  | leave {f : φ} {w w' : ω} {r : ρ} (h : R.turn f w = some (.leave r, w')) : R.Returns f w r w'
  | call {f next : φ} {w w₁ w₂ w' : ω} {c : κ} {r r' : ρ}
      (h : R.turn f w = some (.call c next, w₁)) (hcallee : R.Returns (R.enter c) w₁ r w₂)
      (hnext : R.Returns (R.accept next r) w₂ r' w') : R.Returns f w r' w'

theorem Routine.Returns.unique {f : φ} {w w₁ w₂ : ω} {r₁ r₂ : ρ} (h₁ : R.Returns f w r₁ w₁)
    (h₂ : R.Returns f w r₂ w₂) : r₁ = r₂ ∧ w₁ = w₂ := by
  induction h₁ generalizing r₂ w₂ with
  | leave h =>
    cases h₂ with
    | leave h' =>
      cases h.symm.trans h'
      exact ⟨rfl, rfl⟩
    | call h' _ _ => cases h.symm.trans h'
  | call h _ _ ihcallee ihnext =>
    cases h₂ with
    | leave h' => cases h.symm.trans h'
    | call h' hcallee' hnext' =>
      cases h.symm.trans h'
      obtain ⟨rfl, rfl⟩ := ihcallee hcallee'
      exact ihnext hnext'

/-- A contract of a routine: what holds of the world at each call, what an activation that was called at
`w₀` keeps up to its next turn at `w`, and what holds of a call and its return. Each clause is about one
turn; the callee is known by its contract only. -/
structure Routine.Contract (R : Routine κ φ ρ ω) (W : ω → Prop) (I : φ → ω → ω → Prop)
    (Q : ω → ρ → ω → Prop) : Prop where
  enter : ∀ {c w}, W w → I (R.enter c) w w
  call : ∀ {f w₀ w c next w₁}, I f w₀ w → R.turn f w = some (.call c next, w₁) →
    W w₁ ∧ ∀ {r w₂}, Q w₁ r w₂ → I (R.accept next r) w₀ w₂
  leave : ∀ {f w₀ w r w'}, I f w₀ w → R.turn f w = some (.leave r, w') → Q w₀ r w'

section
variable {W : ω → Prop} {I : φ → ω → ω → Prop} {Q : ω → ρ → ω → Prop}

/-- An activation that returns meets its contract. -/
theorem Routine.Contract.returns (hR : R.Contract W I Q) {f : φ} {w₀ w w' : ω} {r : ρ}
    (hI : I f w₀ w) (h : R.Returns f w r w') : Q w₀ r w' := by
  induction h generalizing w₀ with
  | leave h => exact hR.leave hI h
  | call h _ _ ihcallee ihnext =>
    obtain ⟨hW, hnext⟩ := hR.call hI h
    exact ihnext (hnext (ihcallee (hR.enter hW)))

end

/-! ## The loop -/

/-- A turn of the loop, for the activation on top of a stack -/
def Routine.stackTurn (R : Routine κ φ ρ ω) :
    φ × List φ × ω → Option ((φ × List φ × ω) ⊕ (ρ × ω))
  | (f, stack, w) =>
    match R.turn f w with
    | none => none
    | some (.call c next, w) => some (.inl (R.enter c, next :: stack, w))
    | some (.leave r, w) =>
      match stack with
      | [] => some (.inr (r, w))
      | caller :: stack => some (.inl (R.accept caller r, stack, w))

/-- Behind the return of an activation the loop gets to `out`: it goes on with the caller, or ends. -/
def Routine.Resumes (R : Routine κ φ ρ ω) (fuel : Nat) (stack : List φ) (r : ρ) (w : ω)
    (out : ρ × ω) : Prop :=
  match stack with
  | [] => out = (r, w)
  | caller :: stack => loop (fun _ => R.stackTurn) fuel (R.accept caller r, stack, w) = some out

/-- The loop takes the turns of the recursion. -/
theorem Routine.Returns.settles {f : φ} {w w' : ω} {r : ρ} (h : R.Returns f w r w') {stack : List φ}
    {out : ρ × ω} {fuel : Nat} (hresumes : R.Resumes fuel stack r w' out) :
    Settles (fun n => loop (fun _ => R.stackTurn) n (f, stack, w)) out := by
  induction h generalizing stack out fuel with
  | @leave f w w' r h =>
    cases stack with
    | nil =>
      obtain rfl := hresumes
      exact ⟨1, loop_inr (by simp only [Routine.stackTurn, h])⟩
    | cons caller stack => exact ⟨fuel + 1, (loop_inl (by simp only [Routine.stackTurn, h])).trans hresumes⟩
  | @call f next w w₁ w₂ w' c r r' h _ _ ihcallee ihnext =>
    obtain ⟨n, hn⟩ := ihnext hresumes
    have hcaller : R.Resumes n (next :: stack) _ w₂ out := hn
    obtain ⟨k, hk⟩ := ihcallee hcaller
    exact ⟨k + 1, (loop_inl (by simp only [Routine.stackTurn, h])).trans hk⟩

/-- A loop that ends has returned from the activation on top of its stack before. -/
theorem Routine.returns_of_loop {fuel : Nat} {f : φ} {stack : List φ} {w : ω} {out : ρ × ω}
    (h : loop (fun _ => R.stackTurn) fuel (f, stack, w) = some out) :
    ∃ r w' fuel', fuel' < fuel ∧ R.Returns f w r w' ∧ R.Resumes fuel' stack r w' out := by
  -- the loop that is left behind a call has less fuel, which carries the induction to the caller
  induction fuel using Nat.strongRecOn generalizing f stack w with
  | ind fuel ih =>
    cases fuel with
    | zero => cases h
    | succ fuel =>
      cases hturn : R.turn f w with
      | none =>
        rw [loop, Routine.stackTurn, hturn] at h
        cases h
      | some next =>
        obtain ⟨action, w₁⟩ := next
        cases action with
        | leave r =>
          refine ⟨r, w₁, fuel, Nat.lt_succ_self fuel, .leave hturn, ?_⟩
          rw [loop, Routine.stackTurn, hturn] at h
          cases stack with
          | nil => exact (Option.some.inj h).symm
          | cons caller stack => exact h
        | call c next =>
          rw [loop, Routine.stackTurn, hturn] at h
          obtain ⟨r, w₂, fuel₁, hfuel₁, hcallee, hresumes⟩ := ih fuel (Nat.lt_succ_self fuel) h
          obtain ⟨r', w', fuel₂, hfuel₂, hnext, hresumes'⟩ :=
            ih fuel₁ (Nat.lt_succ_of_lt hfuel₁) hresumes
          exact ⟨r', w', fuel₂, by omega, .call hturn hcallee hnext, hresumes'⟩

/-- **The loop is the recursion.** The loop that starts with one activation settles on exactly the result
that the activation returns. -/
theorem Routine.settles_iff {f : φ} {w w' : ω} {r : ρ} :
    Settles (fun n => loop (fun _ => R.stackTurn) n (f, [], w)) (r, w') ↔ R.Returns f w r w' := by
  constructor
  · rintro ⟨fuel, h⟩
    obtain ⟨r', w₁, _, _, hreturns, hresumes⟩ := R.returns_of_loop h
    cases hresumes
    exact hreturns
  · intro h
    have hresumes : R.Resumes 0 [] r w' (r, w') := rfl
    exact h.settles hresumes

/-! ## Contracts, while the loop is running -/

section
variable {W : ω → Prop} {I : φ → ω → ω → Prop} {Q : ω → ρ → ω → Prop}

/-- The activations of a stack wait for one that was called at a world: each of them has kept its part up
to the turn in which it called the one above it. -/
inductive Routine.Awaits (R : Routine κ φ ρ ω) (I : φ → ω → ω → Prop) : List φ → ω → Prop
  | nil (w : ω) : R.Awaits I [] w
  | cons {f next : φ} {stack : List φ} {c : κ} {w₀ w w₁ : ω} (hI : I f w₀ w)
      (h : R.turn f w = some (.call c next, w₁)) (hrest : R.Awaits I stack w₀) :
      R.Awaits I (next :: stack) w₁

/-- The activation on top has kept its part, and those below it wait. -/
def Routine.Running (R : Routine κ φ ρ ω) (I : φ → ω → ω → Prop) (s : φ × List φ × ω) : Prop :=
  ∃ w₀, I s.1 w₀ s.2.2 ∧ R.Awaits I s.2.1 w₀

theorem Routine.Contract.running_turn (hR : R.Contract W I Q) {s s' : φ × List φ × ω}
    (h : R.Running I s) (hturn : R.stackTurn s = some (.inl s')) : R.Running I s' := by
  obtain ⟨f, stack, w⟩ := s
  obtain ⟨w₀, hI, hawaits⟩ := h
  rw [Routine.stackTurn] at hturn
  rcases hnext : R.turn f w with _ | ⟨⟨c, next⟩ | r, w₁⟩ <;> simp only [hnext] at hturn
  · cases hturn
  · cases hturn
    exact ⟨w₁, hR.enter (hR.call hI hnext).1, .cons hI hnext hawaits⟩
  · cases hawaits with
    | nil => cases hturn
    | cons hI' hcall hrest =>
      cases hturn
      exact ⟨_, (hR.call hI' hcall).2 (hR.leave hI hnext), hrest⟩

/-- Where the loop ends, a contract was met. -/
theorem Routine.Contract.running_end (hR : R.Contract W I Q) {s : φ × List φ × ω} (h : R.Running I s)
    {r : ρ} {w' : ω} (hend : R.stackTurn s = some (.inr (r, w'))) : ∃ w₀, Q w₀ r w' := by
  obtain ⟨f, stack, w⟩ := s
  obtain ⟨w₀, hI, -⟩ := h
  rw [Routine.stackTurn] at hend
  rcases hnext : R.turn f w with _ | ⟨⟨c, next⟩ | r', w₁⟩ <;> simp only [hnext] at hend
  · cases hend
  · cases hend
  · cases stack <;> cases hend
    exact ⟨w₀, hR.leave hI hnext⟩

/-- What holds of the activation on top holds at every state that the loop gets to. -/
theorem Routine.Contract.running (hR : R.Contract W I Q) {c : κ} {w : ω} (hW : W w) {k : Nat}
    {s : φ × List φ × ω} (hturns : Turns R.stackTurn k (R.enter c, [], w) s) : R.Running I s := by
  have hstart : R.Running I (R.enter c, [], w) := ⟨w, hR.enter hW, .nil w⟩
  generalize (R.enter c, ([] : List φ), w) = s₀ at hturns hstart
  induction hturns with
  | none => exact hstart
  | more hturn _ ih => exact ih (hR.running_turn hstart hturn)

end

end Rbml.Lib
