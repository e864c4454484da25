import Mathlib.Data.List.Basic

/-!
# Two machines in lockstep

A machine is a step that returns the next state or the end of the run. Two machines run in lockstep
when each pair of steps leads from related states to related states, or ends both runs with related
ends. An end of the first machine can also be `Free`: it leaves the second machine unconstrained,
which is how a simulation under a condition on the first run is stated.

The rules are those of the monad: a state that both machines have reached, a step behind two related
computations, and a whole list of steps.
-/

namespace Rbml.Lib

variable {σ σ' τ τ' ε δ ι : Type}

/-- The results of two machines belong together. -/
inductive Lockstep (R : σ → τ → Prop) (E : ε → δ → Prop) (Free : ε → Prop) :
    Except ε σ → Except δ τ → Prop
  | ok {s : σ} {t : τ} (h : R s t) : Lockstep R E Free (.ok s) (.ok t)
  | error {e : ε} {d : δ} (h : E e d) : Lockstep R E Free (.error e) (.error d)
  | free {e : ε} {y : Except δ τ} (h : Free e) : Lockstep R E Free (.error e) y

variable {R : σ → τ → Prop} {R' : σ' → τ' → Prop} {E : ε → δ → Prop} {Free : ε → Prop}

/-- A step behind results that belong together -/
theorem Lockstep.bind {x : Except ε σ} {y : Except δ τ} {f : σ → Except ε σ'}
    {g : τ → Except δ τ'} (h : Lockstep R E Free x y)
    (hstep : ∀ s t, R s t → Lockstep R' E Free (f s) (g t)) :
    Lockstep R' E Free (x >>= f) (y >>= g) := by
  cases h with
  | ok h => exact hstep _ _ h
  | error h => exact .error h
  | free h => exact .free h

/-- A function behind results that belong together -/
theorem Lockstep.map {x : Except ε σ} {y : Except δ τ} {f : σ → σ'} {g : τ → τ'}
    (h : Lockstep R E Free x y) (hmap : ∀ s t, R s t → R' (f s) (g t)) :
    Lockstep R' E Free (x >>= fun s => .ok (f s)) (y >>= fun t => .ok (g t)) :=
  h.bind fun s t hst => .ok (hmap s t hst)

/-- Machines that go step by step together run together. -/
theorem Lockstep.foldlM {f : σ → ι → Except ε σ} {g : τ → ι → Except δ τ}
    (hstep : ∀ i s t, R s t → Lockstep R E Free (f s i) (g t i)) (inputs : List ι) {s : σ} {t : τ}
    (h : R s t) : Lockstep R E Free (inputs.foldlM f s) (inputs.foldlM g t) := by
  induction inputs generalizing s t with
  | nil => exact .ok h
  | cons i inputs ih =>
    rw [List.foldlM_cons, List.foldlM_cons]
    exact (hstep i s t h).bind fun _ _ h' => ih h'

end Rbml.Lib
