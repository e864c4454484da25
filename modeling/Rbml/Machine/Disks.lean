import Mathlib.Data.Set.Insert
import Rbml.Lib.Path
import Rbml.Machine.Step

/-!
# The handles of the disks

`OPEN` and `CLOS` look at nothing before they act: `OPEN` puts what `fopen` returns in the slot of the
disk whatever is in it, and `CLOS` passes the slot to `fclose` whatever it is. A run of the two uses its
streams correctly exactly if it opens disks that are closed and closes disks that are open
(`usesStreams_iff`), which is a condition on the order of the instructions and on what the calls of
`fopen` came to. The flag `ioerr` is right in every run.

The streams that are open are counted apart from the slots, from the calls of `fopen` and `fclose`.
-/

namespace Rbml.Machine

open Lib

variable {N : Nat}

/-- An `OPEN` with the outcome of its `fopen`, or a `CLOS` -/
inductive DiskAction where
  | «open» (disk : Fin 16) (succeeds : Bool)
  | clos (disk : Fin 16)
  deriving DecidableEq, Repr

/-- The instruction -/
def DiskAction.run : DiskAction → State N → Except (Stop N) (State N)
  | .open disk succeeds => handler .open ⟨0, fun _ => succeeds⟩ disk 0 0
  | .clos disk => handler .clos ⟨0, fun _ => false⟩ disk 0 0

/-! ## What C asks of the streams -/

/-- The streams that were opened and not yet closed, after an instruction in state `m` -/
def liveAfter (m : State N) (live : Set Nat) : DiskAction → Set Nat
  | .open _ succeeds => if succeeds then insert m.streams live else live
  | .clos disk => {k ∈ live | m.disk disk ≠ some k}

/-- The last `OPEN` failed, after an instruction. -/
def failedAfter (failed : Bool) : DiskAction → Bool
  | .open _ succeeds => !succeeds
  | .clos _ => failed

/-- `fclose` is called on a stream that was opened and not yet closed. -/
def ClosesLive (m : State N) (live : Set Nat) : DiskAction → Prop
  | .open _ _ => True
  | .clos disk => ∃ k ∈ live, m.disk disk = some k

/-- A run that starts in state `m`, with these streams open, uses its streams correctly: it closes no
stream that is not open, every stream that is open stays in a slot, and `ioerr` is set exactly if the
last `OPEN` failed. -/
def UsesStreams (m : State N) (live : Set Nat) (failed : Bool) : List DiskAction → Prop
  | [] => True
  | a :: as => ClosesLive m live a ∧ ∀ m', a.run m = .ok m' →
    (∀ k ∈ liveAfter m live a, ∃ disk, m'.disk disk = some k) ∧
      m'.ioerr = failedAfter failed a ∧ UsesStreams m' (liveAfter m live a) (failedAfter failed a) as

/-! ## Which disks are open -/

/-- The disks that are open, after an instruction -/
def openAfter (isOpen : Fin 16 → Bool) : DiskAction → Fin 16 → Bool
  | .open disk succeeds => Function.update isOpen disk succeeds
  | .clos disk => Function.update isOpen disk false

/-- An instruction opens a disk that is closed, or closes one that is open. -/
def InTurn (isOpen : Fin 16 → Bool) : DiskAction → Prop
  | .open disk _ => isOpen disk = false
  | .clos disk => isOpen disk = true

/-- What the slots hold: one stream for each disk that is open, all different, and they are the streams
that are open. -/
structure Slots (disk : Fin 16 → Option Nat) (streams : Nat) (live : Set Nat) (isOpen : Fin 16 → Bool) :
    Prop where
  isOpen : ∀ d, isOpen d = (disk d).isSome
  held : ∀ k, k ∈ live ↔ ∃ d, disk d = some k
  distinct : ∀ d d' k, disk d = some k → disk d' = some k → d = d'
  below : ∀ d k, disk d = some k → k < streams

theorem slots_none : Slots (fun _ => none) 0 ∅ fun _ => false where
  isOpen _ := rfl
  held k := iff_of_false (Set.notMem_empty k) fun ⟨_, h⟩ => nomatch h
  distinct _ _ _ h := nomatch h
  below _ _ h := nomatch h

section
variable {disk : Fin 16 → Option Nat} {streams : Nat} {live : Set Nat} {isOpen : Fin 16 → Bool}

/-- A disk that is closed takes a new stream. -/
theorem Slots.open (h : Slots disk streams live isOpen) {d : Fin 16} (hclosed : isOpen d = false) :
    Slots (Function.update disk d (some streams)) (streams + 1) (insert streams live)
      (Function.update isOpen d true) where
  isOpen d' := by
    rw [Function.update_apply, Function.update_apply]
    split
    · rfl
    · exact h.isOpen d'
  held k := by
    have hnone : disk d = none := by
      rw [h.isOpen d] at hclosed
      simpa using hclosed
    rw [Set.mem_insert_iff, h.held]
    constructor
    · rintro (rfl | ⟨d', hd'⟩)
      · exact ⟨d, Function.update_self ..⟩
      · refine ⟨d', ?_⟩
        rw [Function.update_of_ne]
        · exact hd'
        · rintro rfl
          cases hnone.symm.trans hd'
    · intro ⟨d', hd'⟩
      rw [Function.update_apply] at hd'
      split at hd'
      · exact .inl (Option.some.inj hd').symm
      · exact .inr ⟨d', hd'⟩
  distinct d₁ d₂ k h₁ h₂ := by
    rw [Function.update_apply] at h₁ h₂
    split at h₁ <;> split at h₂
    next heq₁ heq₂ => rw [heq₁, heq₂]
    next heq₁ heq₂ =>
      cases h₁
      exact absurd (h.below d₂ _ h₂) (Nat.lt_irrefl _)
    next heq₁ heq₂ =>
      cases h₂
      exact absurd (h.below d₁ _ h₁) (Nat.lt_irrefl _)
    · exact h.distinct d₁ d₂ k h₁ h₂
  below d' k hd' := by
    rw [Function.update_apply] at hd'
    split at hd'
    · cases hd'
      exact Nat.lt_succ_self _
    · exact Nat.lt_succ_of_lt (h.below d' k hd')

/-- A slot is emptied: its stream, if there was one, is no longer open. -/
theorem Slots.clear (h : Slots disk streams live isOpen) (d : Fin 16) :
    Slots (Function.update disk d none) streams {k ∈ live | disk d ≠ some k}
      (Function.update isOpen d false) where
  isOpen d' := by
    rw [Function.update_apply, Function.update_apply]
    split
    · rfl
    · exact h.isOpen d'
  held k := by
    rw [Set.mem_sep_iff, h.held]
    constructor
    · intro ⟨⟨d', hd'⟩, hne⟩
      refine ⟨d', ?_⟩
      rw [Function.update_of_ne]
      · exact hd'
      · rintro rfl
        exact hne hd'
    · intro ⟨d', hd'⟩
      rw [Function.update_apply] at hd'
      split at hd'
      · cases hd'
      next hne => exact ⟨⟨d', hd'⟩, fun hd => hne (h.distinct d' d k hd' hd)⟩
  distinct d₁ d₂ k h₁ h₂ := by
    rw [Function.update_apply] at h₁ h₂
    split at h₁
    · cases h₁
    · split at h₂
      · cases h₂
      · exact h.distinct d₁ d₂ k h₁ h₂
  below d' k hd' := by
    rw [Function.update_apply] at hd'
    split at hd'
    · cases hd'
    · exact h.below d' k hd'

/-- The stream of a slot that takes something else is in no slot. -/
theorem Slots.gone (h : Slots disk streams live isOpen) {d : Fin 16} {k : Nat} (hk : disk d = some k)
    {stream : Option Nat} (hne : stream ≠ some k) (d' : Fin 16) :
    Function.update disk d stream d' ≠ some k := by
  intro hd'
  rw [Function.update_apply] at hd'
  split at hd'
  · exact hne hd'
  next hne' => exact hne' (h.distinct d' d k hd' hk)

end

/-! ## One instruction -/

/-- What a successful `OPEN` leaves -/
theorem run_open_true (disk : Fin 16) (m : State N) :
    (DiskAction.open disk true).run m = .ok { m with
      ioerr := false, disk := Function.update m.disk disk (some m.streams), streams := m.streams + 1 } :=
  rfl

/-- What a failed `OPEN` leaves -/
theorem run_open_false (disk : Fin 16) (m : State N) :
    (DiskAction.open disk false).run m = .ok { m with
      disk := Function.update m.disk disk none, ioerr := true } := rfl

/-- What `CLOS` leaves where there is a stream -/
theorem run_clos {disk : Fin 16} {m : State N} {k : Nat} (h : m.disk disk = some k) :
    (DiskAction.clos disk).run m = .ok { m with disk := Function.update m.disk disk none } := by
  show clos ⟨0, fun _ => false⟩ disk 0 0 m = _
  rw [clos, h]

/-- An instruction in its turn succeeds, and keeps the slots. -/
theorem slots_run {m : State N} {live : Set Nat} {isOpen : Fin 16 → Bool}
    (h : Slots m.disk m.streams live isOpen) {a : DiskAction} (hturn : InTurn isOpen a) :
    ∃ m', a.run m = .ok m' ∧ Slots m'.disk m'.streams (liveAfter m live a) (openAfter isOpen a) := by
  cases a with
  | «open» disk succeeds =>
    cases succeeds with
    | true => exact ⟨_, run_open_true disk m, h.open hturn⟩
    | false =>
      have hnone : m.disk disk = none := by
        have hclosed := (h.isOpen disk).symm.trans hturn
        simpa using hclosed
      have hlive : {k ∈ live | m.disk disk ≠ some k} = live := by simp [hnone]
      have hclear := h.clear disk
      rw [hlive] at hclear
      exact ⟨_, run_open_false disk m, hclear⟩
  | clos disk =>
    obtain ⟨k, hk⟩ := Option.isSome_iff_exists.mp ((h.isOpen disk).symm.trans hturn)
    exact ⟨_, run_clos hk, h.clear disk⟩

/-- `ioerr` is set by a failed `OPEN`, cleared by another one, and kept by `CLOS`. -/
theorem ioerr_run {m m' : State N} {a : DiskAction} (h : a.run m = .ok m') :
    m'.ioerr = failedAfter m.ioerr a := by
  cases a with
  | «open» disk succeeds =>
    cases succeeds with
    | true =>
      rw [run_open_true] at h
      cases h
      rfl
    | false =>
      rw [run_open_false] at h
      cases h
      rfl
  | clos disk =>
    cases hdisk : m.disk disk with
    | none =>
      change clos ⟨0, fun _ => false⟩ disk 0 0 m = _ at h
      rw [clos, hdisk] at h
      cases h
    | some k =>
      rw [run_clos hdisk] at h
      cases h
      rfl

theorem closesLive_of_inTurn {m : State N} {live : Set Nat} {isOpen : Fin 16 → Bool}
    (h : Slots m.disk m.streams live isOpen) {a : DiskAction} (hturn : InTurn isOpen a) :
    ClosesLive m live a := by
  cases a with
  | «open» disk succeeds => trivial
  | clos disk =>
    obtain ⟨k, hk⟩ := Option.isSome_iff_exists.mp ((h.isOpen disk).symm.trans hturn)
    exact ⟨k, (h.held k).mpr ⟨disk, hk⟩, hk⟩

/-- Where an instruction leaves every open stream in a slot and closes an open stream only, it was its
turn. -/
theorem inTurn_of_uses {m : State N} {live : Set Nat} {isOpen : Fin 16 → Bool}
    (h : Slots m.disk m.streams live isOpen) {a : DiskAction} {failed : Bool} {as : List DiskAction}
    (huses : UsesStreams m live failed (a :: as)) : InTurn isOpen a := by
  obtain ⟨hcloses, hnext⟩ := huses
  cases a with
  | clos disk =>
    obtain ⟨k, -, hk⟩ := hcloses
    rw [InTurn, h.isOpen, hk]
    rfl
  | «open» disk succeeds =>
    rw [InTurn, h.isOpen]
    by_contra hopen
    rw [Bool.not_eq_false, Option.isSome_iff_exists] at hopen
    obtain ⟨k, hk⟩ := hopen
    have hlive : k ∈ live := (h.held k).mpr ⟨disk, hk⟩
    cases succeeds with
    | true =>
      obtain ⟨hkept, -⟩ := hnext _ (run_open_true disk m)
      obtain ⟨d, hd⟩ := hkept k (Set.mem_insert_of_mem _ hlive)
      refine h.gone hk (fun heq => ?_) d hd
      exact Nat.ne_of_gt (h.below disk k hk) (Option.some.inj heq)
    | false =>
      obtain ⟨hkept, -⟩ := hnext _ (run_open_false disk m)
      obtain ⟨d, hd⟩ := hkept k hlive
      exact h.gone hk (Option.some_ne_none k).symm d hd

/-! ## Runs -/

/-- A run from any state with its streams in slots -/
theorem usesStreams_of_slots {m : State N} {live : Set Nat} {isOpen : Fin 16 → Bool}
    (h : Slots m.disk m.streams live isOpen) (as : List DiskAction) :
    UsesStreams m live m.ioerr as ↔ Along openAfter InTurn isOpen as := by
  induction as generalizing m live isOpen with
  | nil => exact Iff.rfl
  | cons a as ih =>
    constructor
    · intro huses
      have hturn := inTurn_of_uses h huses
      obtain ⟨m', hrun, hslots⟩ := slots_run h hturn
      obtain ⟨-, -, hrest⟩ := huses.2 m' hrun
      rw [← ioerr_run hrun] at hrest
      exact ⟨hturn, (ih hslots).mp hrest⟩
    · intro ⟨hturn, hrest⟩
      obtain ⟨m', hrun, hslots⟩ := slots_run h hturn
      refine ⟨closesLive_of_inTurn h hturn, fun m'' hrun' => ?_⟩
      obtain rfl := Except.ok.inj (hrun.symm.trans hrun')
      refine ⟨fun k hk => (hslots.held k).mp hk, ioerr_run hrun, ?_⟩
      rw [← ioerr_run hrun]
      exact (ih hslots).mpr hrest

/-- A run uses its streams correctly exactly if every `OPEN` is of a disk that is closed and every `CLOS`
is of a disk that is open. -/
theorem usesStreams_iff (memory : Fin N → Word) (stdin : List UInt8) (as : List DiskAction) :
    UsesStreams (initialState memory stdin) ∅ false as ↔
      Along openAfter InTurn (fun _ => false) as :=
  @usesStreams_of_slots _ (initialState memory stdin) _ _ slots_none as

/-- `CLOS` of a disk that was never opened, and two successful `OPEN` of one disk -/
theorem not_usesStreams :
    ¬ UsesStreams (@initialState 0 (fun _ => 0) []) ∅ false [.clos 0] ∧
      ¬ UsesStreams (@initialState 0 (fun _ => 0) []) ∅ false [.open 0 true, .open 0 true] := by
  have hslots := @usesStreams_of_slots 0 (initialState (fun _ => 0) []) ∅ (fun _ => false) slots_none
  refine ⟨fun h => ?_, fun h => ?_⟩
  · exact Bool.false_ne_true ((hslots _).mp h).1
  · exact Bool.false_ne_true ((hslots _).mp h).2.1.symm

end Rbml.Machine
