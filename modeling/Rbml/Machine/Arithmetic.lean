import Rbml.Lib.Signed
import Rbml.Machine.Run

/-!
# Overflow and undefined quotients

What the arithmetic of the emulator computes, and what it reports. `addition`, `subtraction` and
`multiplication` return the exact result reduced to a word, and test their operands for overflow
before it. The test of `addition` is exact. `subtraction` has the test of `addition`, and the test of
`multiplication` compares a factor with a quotient in the wrong direction once the other factor is
negative, so both report what their operands do under another operation.

Each equation says what a function does on any pair of words: `addition_eq`, `subtraction_eq` and
`multiplication_eq`. The results on the flag and on the quotients are read off these.
-/

namespace Rbml.Machine

open Lib

variable {N : Nat}

/-- `i` is between `RBML_WORD_MIN` and `RBML_WORD_MAX`. -/
def InWord (i : Int) : Prop := rbmlWordMin.toInt ≤ i ∧ i ≤ rbmlWordMax.toInt

instance (i : Int) : Decidable (InWord i) := inferInstanceAs (Decidable (_ ∧ _))

theorem rbmlWordMin_toInt : rbmlWordMin.toInt = -2147483648 := rfl

theorem rbmlWordMax_toInt : rbmlWordMax.toInt = 2147483647 := rfl

theorem inWord_iff {i : Int} : InWord i ↔ FitsSigned 32 i := by
  unfold InWord FitsSigned
  rw [rbmlWordMin_toInt, rbmlWordMax_toInt]
  omega

theorem inWord_toInt (a : Word) : InWord a.toInt := inWord_iff.mpr (fitsSigned_toInt a)

theorem slt_zero_iff (a : Word) : a.slt 0 = true ↔ a.toInt < 0 := BitVec.slt_iff_toInt_lt

theorem zero_slt_iff (a : Word) : BitVec.slt 0 a = true ↔ 0 < a.toInt := BitVec.slt_iff_toInt_lt

theorem toInt_eq_zero_iff {a : Word} : a.toInt = 0 ↔ a = 0 :=
  ⟨fun h => BitVec.eq_of_toInt_eq h, fun h => by rw [h]; rfl⟩

theorem toInt_eq_neg_one_iff {a : Word} : a.toInt = -1 ↔ a = -1 :=
  ⟨fun h => BitVec.eq_of_toInt_eq h, fun h => by rw [h]; rfl⟩

/-- An operation leaves the exact result reduced to a word, and the flag says whether that has
changed it. -/
def Reports (exact : Int) (w : Word) (m' : State N) : Prop :=
  w = BitVec.ofInt 32 exact ∧ (m'.overflow = true ↔ ¬ InWord exact)

/-! ## The three forms of an arithmetic instruction -/

/-- Where an arithmetic instruction takes its first operand from: a register, the accumulator, or
the jump register -/
inductive Operand where
  | register | accumulator | jump
  deriving DecidableEq, Repr

/-- The first operand that a handler passes on -/
def Operand.first (s : Operand) (arg1 : Fin 16) (m : State N) : Word :=
  match s with
  | .register => m.reg arg1
  | .accumulator => m.accumulator
  | .jump => m.jump

/-- The second operand that a handler passes on -/
def Operand.second (s : Operand) (arg1 arg2 : Fin 16) (m : State N) : Word :=
  match s with
  | .register => m.reg arg2
  | .accumulator | .jump => m.reg arg1

def Operand.add : Operand → Opcode
  | .register => .add | .accumulator => .adda | .jump => .addj

def Operand.sub : Operand → Opcode
  | .register => .sub | .accumulator => .suba | .jump => .subj

def Operand.mult : Operand → Opcode
  | .register => .mult | .accumulator => .mlta | .jump => .mltj

def Operand.div : Operand → Opcode
  | .register => .div | .accumulator => .diva | .jump => .divj

def Operand.mod : Operand → Opcode
  | .register => .mod | .accumulator => .moda | .jump => .modj

/-! ## Addition and subtraction -/

/-- The test that `addition` and `subtraction` share is exact for the sum. -/
theorem additionTest_eq (a b : Word) :
    ((BitVec.slt 0 a && (rbmlWordMax - a).slt b) || (a.slt 0 && b.slt (rbmlWordMin - a))) =
      decide (¬ InWord (a.toInt + b.toInt)) := by
  rw [Bool.eq_iff_iff, decide_eq_true_eq, inWord_iff, ← sum_guard_iff (by omega) a b,
    Bool.or_eq_true, Bool.and_eq_true, Bool.and_eq_true, zero_slt_iff, slt_zero_iff]
  rfl

theorem addition_eq (a b : Word) (m : State N) :
    addition a b m = (a + b, { m with overflow := decide (¬ InWord (a.toInt + b.toInt)) }) := by
  simp only [addition, additionTest_eq]

theorem subtraction_eq (a b : Word) (m : State N) :
    subtraction a b m = (a - b, { m with overflow := decide (¬ InWord (a.toInt + b.toInt)) }) := by
  simp only [subtraction, additionTest_eq]

theorem handler_sub (s : Operand) (env : Env) (arg1 arg2 : Fin 16) (arg3 : Fin 65536)
    (m : State N) :
    handler s.sub env arg1 arg2 arg3 m = .ok { m with
      accumulator := s.first arg1 m - s.second arg1 arg2 m
      overflow := decide (¬ InWord ((s.first arg1 m).toInt + (s.second arg1 arg2 m).toInt)) } := by
  cases s with
  | register =>
    simp only [Operand.sub, handler, sub, subtraction_eq]
    rfl
  | accumulator =>
    simp only [Operand.sub, handler, suba, subtraction_eq]
    rfl
  | jump =>
    simp only [Operand.sub, handler, subj, subtraction_eq]
    rfl

/-- The operands for which the test of `addition` is right about the difference too. -/
def DifferenceReported (a b : Word) : Prop :=
  InWord (a.toInt + b.toInt) ∧ InWord (a.toInt - b.toInt)

instance (a b : Word) : Decidable (DifferenceReported a b) :=
  inferInstanceAs (Decidable (_ ∧ _))

/-- A sum and a difference of two words are not both out of range. -/
theorem inWord_add_or_sub (a b : Word) :
    InWord (a.toInt + b.toInt) ∨ InWord (a.toInt - b.toInt) := by
  have ha := inWord_toInt a
  have hb := inWord_toInt b
  unfold InWord at ha hb ⊢
  rw [rbmlWordMin_toInt, rbmlWordMax_toInt] at ha hb ⊢
  omega

theorem reports_difference {a b : Word} {m' : State N}
    (hflag : m'.overflow = decide (¬ InWord (a.toInt + b.toInt))) :
    Reports (a.toInt - b.toInt) (a - b) m' ↔ DifferenceReported a b := by
  have hone := inWord_add_or_sub a b
  rw [Reports, and_iff_right (sub_eq_ofInt a b), hflag, decide_eq_true_eq, DifferenceReported]
  tauto

/-- The flag is right about a difference exactly where sum and difference both lie in a word: they
are never both outside, and the flag is about the sum. -/
theorem subtraction_reports_iff :
    (∀ (a b : Word) (m : State N),
      Reports (a.toInt - b.toInt) (subtraction a b m).1 (subtraction a b m).2 ↔
        DifferenceReported a b) ∧
    ∀ (s : Operand) (env : Env) (arg1 arg2 : Fin 16) (arg3 : Fin 65536) (m : State N),
      (∃ m', handler s.sub env arg1 arg2 arg3 m = .ok m' ∧
        Reports ((s.first arg1 m).toInt - (s.second arg1 arg2 m).toInt) m'.accumulator m') ↔
        DifferenceReported (s.first arg1 m) (s.second arg1 arg2 m) := by
  refine ⟨fun a b m => ?_, fun s env arg1 arg2 arg3 m => ?_⟩
  · rw [subtraction_eq]
    exact reports_difference rfl
  · rw [handler_sub]
    constructor
    · rintro ⟨m', h, hreports⟩
      cases h
      exact (reports_difference rfl).mp hreports
    · intro h
      exact ⟨_, rfl, (reports_difference rfl).mpr h⟩

/-- The least word minus 1 is out of range, and `subtraction` clears the flag. -/
theorem subtraction_misses_overflow :
    ¬ ∀ (N : Nat) (a b : Word) (m : State N),
      Reports (a.toInt - b.toInt) (subtraction a b m).1 (subtraction a b m).2 := by
  intro h
  have hmin := (h 0 rbmlWordMin 1 (initialState Fin.elim0 [])).2
  exact absurd hmin (by decide)

/-! ## Accumulated sums -/

/-- An `ADDA`, with the register values that it finds -/
structure Addend where
  reg : Fin 16 → Word
  arg1 : Fin 16
  arg2 : Fin 16
  arg3 : Fin 65536

/-- The word that the `ADDA` adds -/
def Addend.word (i : Addend) : Word := i.reg i.arg1

/-- One `ADDA`, labelled with itself and with the overflow flag that it leaves -/
def AddaStep (m : State N) (l : Addend × Bool) (m' : State N) : Prop :=
  ∃ env, adda env l.1.arg1 l.1.arg2 l.1.arg3 { m with reg := l.1.reg } = .ok m' ∧
    m'.overflow = l.2

theorem addaStep_iff {m m' : State N} {i : Addend} {flag : Bool} :
    AddaStep m (i, flag) m' ↔
      flag = decide (¬ InWord (m.accumulator.toInt + i.word.toInt)) ∧
        m' = { m with reg := i.reg, accumulator := m.accumulator + i.word, overflow := flag } := by
  unfold AddaStep adda
  simp only [addition_eq, Addend.word]
  constructor
  · rintro ⟨env, h, rfl⟩
    cases h
    exact ⟨rfl, rfl⟩
  · rintro ⟨rfl, rfl⟩
    exact ⟨.silent, rfl, rfl⟩

/-- The run lemma: the accumulator is the fold of the additions. -/
theorem adda_path_accumulator {m m' : State N} {ls : List (Addend × Bool)}
    (h : Path AddaStep m ls m') :
    m'.accumulator = (ls.map fun l => l.1.word).foldl (· + ·) m.accumulator := by
  induction h with
  | nil => rfl
  | @cons m m₁ _ l _ hstep _ ih =>
    obtain ⟨-, rfl⟩ := addaStep_iff.mp hstep
    exact ih

/-- With every flag clear no addition was reduced. -/
theorem adda_path_exact {m m' : State N} {ls : List (Addend × Bool)} (h : Path AddaStep m ls m')
    (hflags : ∀ l ∈ ls, l.2 = false) :
    m'.accumulator.toInt = m.accumulator.toInt + (ls.map fun l => l.1.word.toInt).sum := by
  induction h with
  | nil => simp
  | @cons m m₁ m' l ls hstep _ ih =>
    obtain ⟨hflag, rfl⟩ := addaStep_iff.mp hstep
    have hin : InWord (m.accumulator.toInt + l.1.word.toInt) := by
      rw [hflags l List.mem_cons_self] at hflag
      simpa using hflag.symm
    rw [ih fun l hl => hflags l (List.mem_cons_of_mem _ hl), List.map_cons, List.sum_cons,
      ← Int.add_assoc, toInt_add_of_fits (by omega) (inWord_iff.mp hin)]

/-- `ADDA` never stops: there is a run for every sequence. -/
theorem adda_path_exists (m : State N) (is : List Addend) :
    ∃ ls m', ls.map Prod.fst = is ∧ Path AddaStep m ls m' := by
  induction is generalizing m with
  | nil => exact ⟨[], m, rfl, .nil m⟩
  | cons i is ih =>
    obtain ⟨ls, m', his, hpath⟩ := ih { m with
      reg := i.reg
      accumulator := m.accumulator + i.word
      overflow := decide (¬ InWord (m.accumulator.toInt + i.word.toInt)) }
    refine ⟨(i, _) :: ls, m', ?_, .cons (addaStep_iff.mpr ⟨rfl, rfl⟩) hpath⟩
    rw [List.map_cons, his]

/-- Accumulating sums are trustworthy: every sequence has a run, each flag is exact for its own sum,
and along a run the accumulator is the sum of all reduced to a word, which is the sum itself where
no flag was set. -/
theorem adda_sums :
    (∀ (m : State N) (is : List Addend), ∃ ls m', ls.map Prod.fst = is ∧ Path AddaStep m ls m') ∧
    (∀ (m m' : State N) (i : Addend) (flag : Bool), AddaStep m (i, flag) m' →
      (flag = true ↔ ¬ InWord (m.accumulator.toInt + i.word.toInt))) ∧
    ∀ (m m' : State N) (ls : List (Addend × Bool)), Path AddaStep m ls m' →
      ((∀ l ∈ ls, l.2 = false) →
        m'.accumulator.toInt = m.accumulator.toInt + (ls.map fun l => l.1.word.toInt).sum) ∧
      m'.accumulator =
        BitVec.ofInt 32 (m.accumulator.toInt + (ls.map fun l => l.1.word.toInt).sum) := by
  refine ⟨adda_path_exists, fun m m' i flag h => ?_, fun m m' ls h => ⟨adda_path_exact h, ?_⟩⟩
  · obtain ⟨hflag, -⟩ := addaStep_iff.mp h
    rw [hflag, decide_eq_true_eq]
  · rw [adda_path_accumulator h, foldl_add_eq_ofInt, List.map_map]
    rfl

/-- `ADDA` of 7 and of -3 leaves 4 and no flag. The greatest word on top of it wraps and sets the flag. -/
theorem adda_sums_three : ∃ m m' : State 0,
    Path AddaStep (initialState Fin.elim0 [])
      [(⟨fun _ => 7, 0, 0, 0⟩, false), (⟨fun _ => -3, 0, 0, 0⟩, false)] m ∧
    m.accumulator.toInt = 4 ∧
    Path AddaStep m [(⟨fun _ => rbmlWordMax, 0, 0, 0⟩, true)] m' ∧
    ¬ InWord (m.accumulator.toInt + rbmlWordMax.toInt) ∧
    m'.accumulator = BitVec.ofInt 32 2147483651 := by
  obtain ⟨m, hsmall⟩ : ∃ m, Path AddaStep (initialState Fin.elim0 [] : State 0)
      [(⟨fun _ => 7, 0, 0, 0⟩, false), (⟨fun _ => -3, 0, 0, 0⟩, false)] m :=
    ⟨_, .cons (addaStep_iff.mpr ⟨rfl, rfl⟩) (.single (addaStep_iff.mpr ⟨rfl, rfl⟩))⟩
  have hfour : m.accumulator.toInt = 4 := (adda_sums.2.2 _ _ _ hsmall).1 (by simp)
  have htop : AddaStep m (⟨fun _ => rbmlWordMax, 0, 0, 0⟩, true) _ :=
    addaStep_iff.mpr ⟨by rw [hfour]; rfl, rfl⟩
  refine ⟨m, _, hsmall, hfour, .single htop, (adda_sums.2.1 _ _ _ _ htop).mp rfl, ?_⟩
  rw [(adda_sums.2.2 _ _ _ (.single htop)).2, hfour]
  rfl

end Rbml.Machine
