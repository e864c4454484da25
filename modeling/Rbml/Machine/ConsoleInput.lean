import Mathlib.Data.List.TakeDrop
import Mathlib.Data.List.TakeWhile
import Rbml.Machine.Step

/-!
# What the console reads give

`cread` reads into a local word that has no content of its own. What it returns is determined by the
console where `fgets` fills all four bytes of the word, with three characters and a NUL, or where
`scanf` finds a number, and by the previous content of the word everywhere else (`inputDetermines_iff`).

A word holds three characters of the input, in memory order, and `cwrite` prints four bytes from the
last one on, so that what is read in character mode does not come out again as it went in. Only the
empty input is echoed (`echoes_iff`).
-/

namespace Rbml.Machine

variable {N : Nat}

/-! ## Bytes of a word -/

theorem bytesOfWord_wordOfBytes (b₀ b₁ b₂ b₃ : UInt8) :
    bytesOfWord (wordOfBytes b₀ b₁ b₂ b₃) = [b₀, b₁, b₂, b₃] := by
  simp only [bytesOfWord, wordOfBytes, List.cons.injEq, and_true]
  refine ⟨?_, ?_, ?_, ?_⟩
  all_goals
    refine UInt8.eq_of_toBitVec_eq ?_
    ext i hi
    simp only [BitVec.getElem_extractLsb', BitVec.getLsbD_append]
  · rw [Nat.zero_add, if_pos hi, BitVec.getLsbD_eq_getElem hi]
  · rw [if_neg (by omega), Nat.add_sub_cancel_left, if_pos hi, BitVec.getLsbD_eq_getElem hi]
  · have hindex : 16 + i - 8 - 8 = i := by omega
    rw [if_neg (by omega), if_neg (by omega), hindex, if_pos hi, BitVec.getLsbD_eq_getElem hi]
  · have hindex : 24 + i - 8 - 8 - 8 = i := by omega
    rw [if_neg (by omega), if_neg (by omega), if_neg (by omega), hindex,
      BitVec.getLsbD_eq_getElem hi]

/-- Fewer than four bytes leave the last one of the word. -/
theorem overwriteWord_last {new : List UInt8} (h : new.length < 4) (w : Word) :
    (bytesOfWord (overwriteWord new w))[3]? = (bytesOfWord w)[3]? := by
  match new, h with
  | [], _ =>
    show (bytesOfWord (wordOfBytes _ _ _ _))[3]? = _
    rw [bytesOfWord_wordOfBytes]
    rfl
  | [b₀], _ =>
    show (bytesOfWord (wordOfBytes b₀ _ _ _))[3]? = _
    rw [bytesOfWord_wordOfBytes]
    rfl
  | [b₀, b₁], _ =>
    show (bytesOfWord (wordOfBytes b₀ b₁ _ _))[3]? = _
    rw [bytesOfWord_wordOfBytes]
    rfl
  | [b₀, b₁, b₂], _ =>
    show (bytesOfWord (wordOfBytes b₀ b₁ b₂ _))[3]? = _
    rw [bytesOfWord_wordOfBytes]
    rfl

/-! ## What determines a read -/

/-- The input has three characters for `fgets`, which stops after a newline. -/
def HasThreeChars (stdin : List UInt8) : Prop :=
  ∃ a b c rest, stdin = a :: b :: c :: rest ∧ a ≠ newline ∧ b ≠ newline

/-- The input has a number for `scanf`: a digit after white space and a sign. -/
def HasNumber (stdin : List UInt8) : Prop :=
  ∃ spaces signs digit rest, stdin = spaces ++ (signs ++ digit :: rest) ∧
    (∀ c ∈ spaces, isSpace c = true) ∧ signs ∈ [[], [43], [45]] ∧ isDigit digit = true

/-- Two runs that differ only in the previous content of the local word return the same word, and the
four console reads leave the same state. -/
def InputDetermines (fcontrol : Fin 16) (stdin : List UInt8) : Prop :=
  ∀ (N : Nat) (m : State N), m.stdin = stdin →
    (∀ w w', (cread w fcontrol m).1 = (cread w' fcontrol m).1) ∧
      ∀ op ∈ [Opcode.crdm, .crdr, .crda, .crdj], ∀ (env env' : Env) (arg2 : Fin 16)
        (arg3 : Fin 65536), env.fopen = env'.fopen →
          handler op env fcontrol arg2 arg3 m = handler op env' fcontrol arg2 arg3 m

/-- What `fgets` reads: three characters, or fewer up to a newline or the end of the input -/
theorem fgetsChars_three (stdin : List UInt8) :
    HasThreeChars stdin ∨ (fgetsChars 3 stdin).1.length < 3 := by
  match stdin with
  | [] => exact .inr (by decide)
  | [a] =>
    right
    simp only [fgetsChars]
    split <;> simp
  | [a, b] =>
    right
    simp only [fgetsChars]
    split <;> (try split) <;> simp
  | a :: b :: c :: rest =>
    by_cases ha : a = newline
    · right
      simp [fgetsChars, ha]
    · by_cases hb : b = newline
      · right
        simp [fgetsChars, ha, hb]
      · exact .inl ⟨a, b, c, rest, rfl, ha, hb⟩

theorem fgetsWord_three {a b : UInt8} (ha : a ≠ newline) (hb : b ≠ newline) (c : UInt8)
    (rest : List UInt8) (w : Word) :
    fgetsWord w (a :: b :: c :: rest) = (wordOfBytes a b c 0, rest) := by
  have hchars : fgetsChars 3 (a :: b :: c :: rest) = ([a, b, c], rest) := by
    simp only [fgetsChars, if_neg ha, if_neg hb]
    split <;> rfl
  rw [fgetsWord, hchars]
  rfl

/-- Fewer than three characters leave the last byte of the word. -/
theorem fgetsWord_last {stdin : List UInt8} (h : (fgetsChars 3 stdin).1.length < 3) (w : Word) :
    (bytesOfWord (fgetsWord w stdin).1)[3]? = (bytesOfWord w)[3]? := by
  rw [fgetsWord]
  split
  · rfl
  next s rest hchars =>
    rw [hchars] at h
    refine overwriteWord_last ?_ w
    rw [List.length_append, List.length_singleton]
    exact Nat.succ_lt_succ h

/-- What comes after the white space and the sign that `scanf` passes over, and whether the sign is
negative -/
def afterSign (stdin : List UInt8) : Bool × List UInt8 :=
  match stdin.dropWhile isSpace with
  | 45 :: rest => (true, rest)
  | 43 :: rest => (false, rest)
  | _ => (false, stdin.dropWhile isSpace)

theorem scanfWord_eq (w : Word) (stdin : List UInt8) :
    scanfWord w stdin =
      match (afterSign stdin).2.span isDigit with
      | ([], rest) => (w, rest)
      | (digits, rest) =>
        let n : Int := digitsValue digits
        (BitVec.ofInt 32 (clampLong (if (afterSign stdin).1 then -n else n)), rest) := rfl

theorem isSpace_of_isDigit {c : UInt8} (hdigit : isDigit c = true) : isSpace c = false := by
  simp only [isDigit, Bool.and_eq_true, decide_eq_true_eq, UInt8.le_iff_toNat_le] at hdigit
  simp only [isSpace, Bool.or_eq_false_iff, beq_eq_false_iff_ne, Bool.and_eq_false_iff,
    decide_eq_false_iff_not, UInt8.le_iff_toNat_le, ne_eq, ← UInt8.toNat_inj]
  change 48 ≤ _ ∧ _ ≤ 57 at hdigit
  show ¬ _ = 32 ∧ (¬ 9 ≤ _ ∨ ¬ _ ≤ 13)
  omega

/-- What `scanf` reads as a number begins with a digit. -/
theorem hasNumber_iff (stdin : List UInt8) :
    HasNumber stdin ↔ ∃ digit rest, (afterSign stdin).2 = digit :: rest ∧ isDigit digit = true := by
  have hspaces : ∀ c ∈ stdin.takeWhile isSpace, isSpace c = true := fun c hc =>
    List.mem_takeWhile_imp hc
  have hsplit : stdin = stdin.takeWhile isSpace ++ stdin.dropWhile isSpace :=
    List.takeWhile_append_dropWhile.symm
  constructor
  · intro ⟨spaces, signs, digit, rest, heq, hall, hsigns, hdigit⟩
    have hnot := isSpace_of_isDigit hdigit
    have hdrop : stdin.dropWhile isSpace = signs ++ digit :: rest := by
      rw [heq, List.dropWhile_append_of_pos hall]
      simp only [List.mem_cons, List.not_mem_nil, or_false] at hsigns
      rcases hsigns with rfl | rfl | rfl
      · exact List.dropWhile_cons_of_neg (by simp [hnot])
      · rfl
      · rfl
    refine ⟨digit, rest, ?_, hdigit⟩
    simp only [List.mem_cons, List.not_mem_nil, or_false] at hsigns
    rw [afterSign, hdrop]
    rcases hsigns with rfl | rfl | rfl
    · split
      next heq =>
        obtain rfl := (List.cons.inj heq).1
        cases hdigit
      next heq =>
        obtain rfl := (List.cons.inj heq).1
        cases hdigit
      · rfl
    · rfl
    · rfl
  · intro ⟨digit, rest, heq, hdigit⟩
    rw [afterSign] at heq
    split at heq
    next rest' hdrop =>
      rw [hdrop] at hsplit
      subst heq
      exact ⟨_, [45], digit, rest, hsplit, hspaces, by simp, hdigit⟩
    next rest' hdrop =>
      rw [hdrop] at hsplit
      subst heq
      exact ⟨_, [43], digit, rest, hsplit, hspaces, by simp, hdigit⟩
    · exact ⟨_, [], digit, rest, heq ▸ hsplit, hspaces, by simp, hdigit⟩

theorem scanfWord_number {stdin : List UInt8} (h : HasNumber stdin) (w w' : Word) :
    scanfWord w stdin = scanfWord w' stdin := by
  obtain ⟨digit, rest, heq, hdigit⟩ := (hasNumber_iff stdin).mp h
  rw [scanfWord_eq, scanfWord_eq, List.span_eq_takeWhile_dropWhile, heq,
    List.takeWhile_cons_of_pos hdigit]

/-- Without a number the word keeps its content. -/
theorem scanfWord_none {stdin : List UInt8} (h : ¬ HasNumber stdin) (w : Word) :
    (scanfWord w stdin).1 = w := by
  have hnone : (afterSign stdin).2.takeWhile isDigit = [] := by
    cases hrest : (afterSign stdin).2 with
    | nil => rfl
    | cons digit rest =>
      refine List.takeWhile_cons_of_neg fun hdigit => h ?_
      exact (hasNumber_iff stdin).mpr ⟨digit, rest, hrest, hdigit⟩
  rw [scanfWord_eq, List.span_eq_takeWhile_dropWhile, hnone]

/-- The reads of the console leave what `cread` returns. -/
theorem handler_of_cread {fcontrol : Fin 16} {m : State N} {env env' : Env}
    (h : cread env.w fcontrol m = cread env'.w fcontrol m) (arg2 : Fin 16) (arg3 : Fin 65536) :
    ∀ op ∈ [Opcode.crdm, .crdr, .crda, .crdj],
      handler op env fcontrol arg2 arg3 m = handler op env' fcontrol arg2 arg3 m := by
  intro op hop
  simp only [List.mem_cons, List.not_mem_nil, or_false] at hop
  rcases hop with rfl | rfl | rfl | rfl
  · show crdm env fcontrol arg2 arg3 m = crdm env' fcontrol arg2 arg3 m
    rw [crdm, crdm, h]
  · show crdr env fcontrol arg2 arg3 m = crdr env' fcontrol arg2 arg3 m
    rw [crdr, crdr, h]
  · show crda env fcontrol arg2 arg3 m = crda env' fcontrol arg2 arg3 m
    rw [crda, crda, h]
  · show crdj env fcontrol arg2 arg3 m = crdj env' fcontrol arg2 arg3 m
    rw [crdj, crdj, h]

/-- What the input has to have for a read in this mode -/
def Determining (fcontrol : Fin 16) (stdin : List UInt8) : Prop :=
  if fcontrol ≠ 0 then HasThreeChars stdin else HasNumber stdin

/-- Otherwise two contents with different last bytes give different words. -/
theorem not_inputDetermines {fcontrol : Fin 16} {stdin : List UInt8}
    (h : ¬ Determining fcontrol stdin) : ¬ InputDetermines fcontrol stdin := by
  intro hinput
  obtain ⟨hsame, -⟩ := hinput 0 (initialState (fun _ => 0) stdin) rfl
  have hread : (cread 0 fcontrol (@initialState 0 (fun _ => 0) stdin)).1 =
      (cread (-1) fcontrol (@initialState 0 (fun _ => 0) stdin)).1 := hsame 0 (-1)
  rw [Determining] at h
  by_cases hmode : fcontrol ≠ 0
  · rw [if_pos hmode] at h
    have hshort := (fgetsChars_three stdin).resolve_left h
    have hlast := congrArg (fun w => (bytesOfWord w)[3]?) hread
    simp only [cread, if_pos hmode] at hlast
    rw [show (@initialState 0 (fun _ => 0) stdin).stdin = stdin from rfl] at hlast
    rw [fgetsWord_last hshort, fgetsWord_last hshort] at hlast
    exact absurd hlast (by decide)
  · rw [if_neg hmode] at h
    simp only [cread, if_neg hmode] at hread
    rw [show (@initialState 0 (fun _ => 0) stdin).stdin = stdin from rfl] at hread
    rw [scanfWord_none h, scanfWord_none h] at hread
    exact absurd hread (by decide)

/-- What a console read gives is determined by the input exactly if, in character mode, the input has
three characters of which the first two are no newlines, and in numeric mode it has a number. -/
theorem inputDetermines_iff (fcontrol : Fin 16) (stdin : List UInt8) :
    InputDetermines fcontrol stdin ↔ Determining fcontrol stdin := by
  constructor
  · intro h
    by_contra hnot
    exact not_inputDetermines hnot h
  · intro h N m hstdin
    have hsame : ∀ w w', cread w fcontrol m = cread w' fcontrol m := by
      intro w w'
      rw [Determining] at h
      rw [cread, cread, hstdin]
      by_cases hmode : fcontrol ≠ 0
      · rw [if_pos hmode] at h
        obtain ⟨a, b, c, rest, rfl, ha, hb⟩ := h
        simp only [if_pos hmode, fgetsWord_three ha hb]
      · rw [if_neg hmode] at h
        simp only [if_neg hmode, scanfWord_number h w w']
    refine ⟨fun w w' => congrArg Prod.fst (hsame w w'), fun op hop env env' arg2 arg3 _ => ?_⟩
    exact handler_of_cread (hsame env.w env'.w) arg2 arg3 op hop

/-- At the end of the input both modes return what the word had. -/
theorem empty_input_undetermined : ¬ InputDetermines 1 [] ∧ ¬ InputDetermines 0 [] := by
  refine ⟨not_inputDetermines ?_, not_inputDetermines ?_⟩
  · rintro ⟨a, b, c, rest, heq, -⟩
    cases heq
  · intro h
    obtain ⟨digit, rest, heq, -⟩ := (hasNumber_iff []).mp h
    cases heq

/-! ## Echo -/

/-- Read a word in character mode and write it in character mode: `CRDR 1, r` and `WRIT 1, r` -/
def echoOnce (r : Fin 16) (env : Env) (m : State N) : Except (Stop N) (State N) := do
  let m ← crdr env 1 r 0 m
  writ env 1 r 0 m

/-- The same once for each environment -/
def echo (r : Fin 16) (envs : List Env) (m : State N) : Except (Stop N) (State N) :=
  envs.foldlM (fun m env => echoOnce r env m) m

/-- Characters that are neither NUL nor newline, a multiple of four of them -/
structure EchoInput (s : List UInt8) : Prop where
  chars : ∀ c ∈ s, c ≠ 0 ∧ c ≠ newline
  words : 4 ∣ s.length

/-- From any state with this input, reading and writing once per four characters adds exactly the input
to the output. -/
def Echoes (s : List UInt8) : Prop :=
  ∀ (N : Nat) (m : State N) (r : Fin 16) (envs : List Env), m.stdin = s →
    s.length = 4 * envs.length →
      ∃ m', echo r envs m = .ok m' ∧ m'.stdout = m.stdout ++ s

/-- One turn writes the bytes of the word that was read, the last one first. -/
theorem echoOnce_eq (r : Fin 16) (env : Env) (m : State N) :
    ∃ m', echoOnce r env m = .ok m' ∧ m'.stdin = (fgetsWord env.w m.stdin).2 ∧
      m'.stdout = m.stdout ++ (bytesOfWord (fgetsWord env.w m.stdin).1).reverse := by
  refine ⟨_, rfl, rfl, ?_⟩
  show m.stdout ++ (bytesOfWord (Function.update m.reg r _ r)).reverse = _
  rw [Function.update_self]
  rfl

/-- A run of turns only adds to the output. -/
theorem echo_stdout (r : Fin 16) (envs : List Env) (m : State N) :
    ∃ m', echo r envs m = .ok m' ∧ ∃ out, m'.stdout = m.stdout ++ out := by
  induction envs generalizing m with
  | nil => exact ⟨m, rfl, [], (List.append_nil _).symm⟩
  | cons env envs ih =>
    obtain ⟨m₁, hturn, -, hstdout₁⟩ := echoOnce_eq r env m
    obtain ⟨m', hrun, out, hstdout⟩ := ih m₁
    refine ⟨m', ?_, (bytesOfWord (fgetsWord env.w m.stdin).1).reverse ++ out, ?_⟩
    · rw [echo, List.foldlM_cons, hturn]
      exact hrun
    · rw [hstdout, hstdout₁, List.append_assoc]

/-- The first byte that is written is the NUL that `fgets` put behind three characters. -/
theorem echo_first {s : List UInt8} (hs : EchoInput s) (hne : s ≠ []) {m : State N}
    (hstdin : m.stdin = s) (r : Fin 16) {envs : List Env} (hlength : s.length = 4 * envs.length)
    {m' : State N} (hrun : echo r envs m = .ok m') : ∃ out, m'.stdout = m.stdout ++ 0 :: out := by
  have hpos := List.length_pos_iff.mpr hne
  cases envs with
  | nil =>
    rw [hlength] at hpos
    cases hpos
  | cons env envs =>
    match s, hs with
    | a :: b :: c :: d :: rest, hs =>
      obtain ⟨ha, hb⟩ : a ≠ newline ∧ b ≠ newline :=
        ⟨(hs.chars a (by simp)).2, (hs.chars b (by simp)).2⟩
      obtain ⟨m₁, hturn, -, hstdout₁⟩ := echoOnce_eq r env m
      rw [hstdin, fgetsWord_three ha hb, bytesOfWord_wordOfBytes] at hstdout₁
      obtain ⟨m₂, hrun₂, out, hstdout⟩ := echo_stdout r envs m₁
      rw [echo, List.foldlM_cons, hturn] at hrun
      obtain rfl : m₂ = m' := Except.ok.inj (hrun₂.symm.trans hrun)
      exact ⟨[c, b, a] ++ out, by rw [hstdout, hstdout₁, List.append_assoc]; rfl⟩
    | [_], _ | [_, _], _ | [_, _, _], _ =>
      simp only [List.length_cons, List.length_nil] at hlength
      omega

theorem not_echoes {s : List UInt8} (hs : EchoInput s) (hne : s ≠ []) : ¬ Echoes s := by
  intro h
  obtain ⟨k, hk⟩ := hs.words
  have hlength : s.length = 4 * (List.replicate k (⟨0, fun _ => false⟩ : Env)).length := by
    rw [List.length_replicate, hk]
  obtain ⟨m', hrun, hstdout⟩ := h 0 (initialState (fun _ => 0) s) 0 _ rfl hlength
  obtain ⟨out, hfirst⟩ := echo_first hs hne rfl 0 hlength hrun
  have hs' : s = 0 :: out := List.append_cancel_left (hstdout.symm.trans hfirst)
  exact (hs.chars 0 (hs' ▸ List.mem_cons_self)).1 rfl

/-- Only the empty input is echoed. -/
theorem echoes_iff {s : List UInt8} (hs : EchoInput s) : Echoes s ↔ s = [] := by
  constructor
  · intro h
    by_contra hne
    exact not_echoes hs hne h
  · rintro rfl N m r envs hstdin hlength
    obtain rfl : envs = [] := by simpa using hlength
    exact ⟨m, rfl, (List.append_nil _).symm⟩

theorem echoInput_abcd : EchoInput [97, 98, 99, 100] := ⟨by simp [newline], 1, rfl⟩

theorem echoes_iff_abcd : Echoes [97, 98, 99, 100] ↔ [97, 98, 99, 100] = ([] : List UInt8) :=
  echoes_iff echoInput_abcd

/-- `abcd` comes out as a NUL and `cba`. -/
theorem abcd_not_echoed : ¬ Echoes [97, 98, 99, 100] := not_echoes echoInput_abcd (List.cons_ne_nil _ _)

end Rbml.Machine
