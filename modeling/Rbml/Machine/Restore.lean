import Rbml.Machine.Calls

/-!
# What a call and its `END` leave

A call pushes on the return stack and the `END` that closes it pops, so that the call state should be
as before. It is, for a call that is made with something in the jump register. A call that finds the
jump register 0 pushes nothing. When it is closed with nothing on the call stack, `END` reads
`callStack[0]` in place of the empty marker, and there the first call of the body has left its
address. `callState_restored_iff` says exactly when the call state is restored, for a body in which
no call is taken directly inside a call made from address 0.
-/

namespace Rbml.Machine

open Lib

variable {N : Nat}

/-- The events between a call and the `END` that closes it -/
def Balanced (body : List Event) : Prop :=
  Along track WellNested [] body ∧ body.foldl track [] = []

/-- No call is taken. -/
def NoCalls (body : List Event) : Prop := ∀ e ∈ body, ∀ site, e ≠ .call site

theorem track_append {opened base : List Word} {e : Event} (h : WellNested opened e) :
    track (opened ++ base) e = track opened e ++ base := by
  cases e with
  | «end» =>
    cases opened with
    | nil => exact absurd rfl h
    | cons x opened => rfl
  | call | jumpWrite | compare | other => rfl

theorem foldl_track_append {opened : List Word} (base : List Word) {body : List Event}
    (h : Along track WellNested opened body) :
    body.foldl track (opened ++ base) = body.foldl track opened ++ base := by
  induction body generalizing opened with
  | nil => rfl
  | cons e body ih =>
    rw [List.foldl_cons, track_append h.1]
    exact ih h.2

/-- In a run without jump-register writes, `callStack[0]` is 0 when the jump register and the counter
are, and is not 0 when it is live. -/
def SlotInvariant (c : CallState) : Prop :=
  (0 < c.callStackCounter → c.callStack 0 ≠ 0) ∧
    (c.callStackCounter = 0 → c.jump = 0 → c.callStack 0 = 0)

theorem slotInvariant_step {c c' : CallState} {e : Event} (hclean : e ≠ .jumpWrite)
    (hc : c.Bounded ∧ SlotInvariant c) (h : CallStep c e c') : c'.Bounded ∧ SlotInvariant c' := by
  obtain ⟨hbounded, hlive, hempty⟩ := hc
  refine ⟨h.bounded hbounded, ?_⟩
  cases h with
  | callEmpty site hjump => exact ⟨hlive, fun hcounter _ => hempty hcounter hjump⟩
  | @callPush _ hjump k hk =>
    have hindex := cIndex_eq_some_iff.mp hk
    constructor
    · intro _
      simp only
      by_cases hk0 : k = 0
      · rw [hk0, Function.update_self]
        exact hjump
      · rw [Function.update_of_ne (Ne.symm hk0)]
        apply hlive
        have hpos : 0 < k.val := Fin.pos_iff_ne_zero.mpr hk0
        omega
    · intro hzero
      simp only at hzero
      omega
  | endEmpty hcounter =>
    constructor
    · intro hpos
      exact absurd hcounter (Int.ne_of_gt hpos)
    · intro _ _
      exact Function.update_self 0 0 c.callStack
  | @endPop hcounter k hk =>
    have hindex := cIndex_eq_some_iff.mp hk
    have hslot : c.callStack 0 ≠ 0 := hlive (by omega)
    refine ⟨fun _ => hslot, fun hzero hjump => ?_⟩
    have hk0 : k = 0 := Fin.ext (by simp only at hzero; simp only [Fin.val_zero]; omega)
    rw [hk0] at hjump
    exact absurd hjump hslot
  | jumpWrite => exact absurd rfl hclean
  | compare | other => exact ⟨hlive, hempty⟩

theorem slotInvariant_run (memory : Fin N → Word) (stdin : List UInt8) {events : List Event}
    {m : State N} (hrun : Path Turn (initialState memory stdin) events m)
    (hclean : ∀ e ∈ events, e ≠ .jumpWrite) : m.callState.Bounded ∧ SlotInvariant m.callState := by
  refine Path.invariant_of_labels (P := fun c => c.Bounded ∧ SlotInvariant c) ?_
    (callState_path hrun) hclean ?_
  · intro c e c' hok hc hstep
    exact slotInvariant_step hok hc hstep
  · exact ⟨initialState_bounded memory stdin, fun hpos => (Int.lt_irrefl 0 hpos).elim, fun _ _ => rfl⟩

/-- A balanced body keeps the return stack that its call has made. -/
theorem body_step {base opened : List Word} {c c' : CallState} {e : Event} (hbase : base ≠ [])
    (hnest : WellNested opened e) (hzero : OutsideZero (opened ++ base) e)
    (hc : c.Bounded ∧ c.returnStack = opened ++ base) (h : CallStep c e c') :
    c'.Bounded ∧ c'.returnStack = track opened e ++ base := by
  obtain ⟨hbounded, hstack⟩ := hc
  refine ⟨h.bounded hbounded, ?_⟩
  cases e with
  | call site =>
    have hjump : c.jump ≠ 0 := by
      intro hjump
      apply hzero
      rw [← hstack, CallState.returnStack, List.head?_cons, hjump]
    rw [h.returnStack_call hjump, hstack]
    rfl
  | «end» =>
    cases opened with
    | nil => exact absurd rfl hnest
    | cons x opened =>
      have hlive : c.live = opened ++ base := (List.cons.inj hstack).2
      have hcounter : c.callStackCounter ≠ 0 := by
        intro hcounter
        have hempty := hlive.symm.trans ((CallState.live_eq_nil_iff hbounded).mpr hcounter)
        exact hbase (List.append_eq_nil_iff.mp hempty).2
      rw [(h.returnStack_end hcounter).1, hlive]
      rfl
  | jumpWrite => exact hnest.elim
  | compare a b =>
    cases h
    exact hstack
  | other =>
    cases h
    exact hstack

theorem along_outsideZero {site : Word} {outer opened : List Word} {body : List Event}
    (hnest : Along track WellNested opened body)
    (hzero : Along track OutsideZero (opened ++ [site]) body) :
    Along track (fun opened e => OutsideZero (opened ++ site :: outer) e) opened body := by
  induction body generalizing opened with
  | nil => trivial
  | cons e body ih =>
    obtain ⟨hhead, htail⟩ := hzero
    rw [track_append hnest.1] at htail
    refine ⟨?_, ih hnest.2 htail⟩
    cases e with
    | call x => cases opened <;> exact hhead
    | «end» | jumpWrite | compare | other => trivial

/-- The run lemma of a body that its call has pushed `site` for -/
theorem body_run {site : Word} {outer : List Word} {body : List Event} {c c' : CallState}
    (h : Path CallStep c body c') (hnest : Along track WellNested [] body)
    (hzero : Along track OutsideZero [site] body) (hbounded : c.Bounded)
    (hstack : c.returnStack = site :: outer) :
    c'.Bounded ∧ c'.returnStack = body.foldl track [] ++ site :: outer := by
  have hinside : Along track (fun opened e => OutsideZero (opened ++ site :: outer) e) [] body :=
    along_outsideZero hnest hzero
  refine Path.foldl (R := fun opened c => c.Bounded ∧ c.returnStack = opened ++ site :: outer) ?_ h
    (hnest.and hinside) ⟨hbounded, hstack⟩
  intro opened c e c' hok hc hstep
  exact body_step (List.cons_ne_nil _ _) hok.1 hok.2 hc hstep

/-- The last live entry is `callStack[0]`. -/
theorem slot_of_live {c : CallState} {l : List Word} {w : Word} (hlive : c.live = l ++ [w]) :
    c.callStack 0 = w := by
  cases hcounter : c.callStackCounter.toNat with
  | zero =>
    rw [CallState.live, hcounter] at hlive
    exact absurd hlive.symm (List.append_ne_nil_of_right_ne_nil _ (List.cons_ne_nil _ _))
  | succ n =>
    have hlast := entriesBelow_getLast c.callStack n
    rw [CallState.live, hcounter] at hlive
    rw [hlive, List.getLast?_concat] at hlast
    exact (Option.some.inj hlast).symm

/-- Over a body of an outermost call, `callStack[0]` keeps the address of the call once it is
there. -/
theorem body_slot {site : Word} {opened : List Word} {body : List Event} {c c' : CallState}
    (h : Path CallStep c body c') (hnest : Along track WellNested opened body)
    (hzero : Along track OutsideZero (opened ++ [site]) body) (hbounded : c.Bounded)
    (hstack : c.returnStack = opened ++ [site]) (hslot : c.callStack 0 = site) :
    c'.callStack 0 = site := by
  have hinside : Along track (fun opened e => OutsideZero (opened ++ [site]) e) opened body :=
    along_outsideZero hnest hzero
  refine (Path.foldl (R := fun opened c => (c.Bounded ∧ c.returnStack = opened ++ [site]) ∧
    c.callStack 0 = site) ?_ h (hnest.and hinside) ⟨⟨hbounded, hstack⟩, hslot⟩).2
  intro opened c e c' hok hc hstep
  have hnext := body_step (List.cons_ne_nil _ _) hok.1 hok.2 hc.1 hstep
  refine ⟨hnext, ?_⟩
  cases e with
  | call x => exact slot_of_live (List.cons.inj hnext.2).2
  | «end» =>
    cases opened with
    | nil => exact absurd rfl hok.1
    | cons x opened =>
      have hlive : c.live = opened ++ [site] := (List.cons.inj hc.1.2).2
      have hcounter : c.callStackCounter ≠ 0 := by
        intro hzero
        have hempty := hlive.symm.trans ((CallState.live_eq_nil_iff hc.1.1).mpr hzero)
        exact List.cons_ne_nil _ _ (List.append_eq_nil_iff.mp hempty).2
      rw [(hstep.returnStack_end hcounter).2]
      exact hc.2
  | jumpWrite => exact hok.1.elim
  | compare | other =>
    cases hstep
    exact hc.2

/-- Without calls, a balanced body has no events of the call state at all. -/
theorem quiet_of_noCalls {body : List Event} (hnest : Along track WellNested [] body)
    (hcalls : NoCalls body) : body.foldl track [] = [] ∧
      ∀ c c' : CallState, Path CallStep c body c' → c' = c := by
  induction body with
  | nil =>
    refine ⟨rfl, fun c c' h => ?_⟩
    cases h
    rfl
  | cons e body ih =>
    have hrest : NoCalls body := fun e he => hcalls e (List.mem_cons_of_mem _ he)
    have hquiet : track [] e = [] ∧ ∀ c c' : CallState, CallStep c e c' → c' = c := by
      cases e with
      | call site => exact absurd rfl (hcalls _ List.mem_cons_self site)
      | «end» => exact absurd rfl hnest.1
      | jumpWrite => exact hnest.1.elim
      | compare | other =>
        refine ⟨rfl, fun c c' h => ?_⟩
        cases h
        rfl
    have htail := hnest.2
    rw [hquiet.1] at htail
    obtain ⟨hfold, hpath⟩ := ih htail hrest
    refine ⟨?_, fun c c' h => ?_⟩
    · rw [List.foldl_cons, hquiet.1, hfold]
    · cases h with
      | cons hstep h => rw [hpath _ _ h, hquiet.2 _ _ hstep]

/-- A body that takes a call takes a first one. -/
theorem exists_first_call {body : List Event} (h : ¬ NoCalls body) :
    ∃ before site after, body = before ++ .call site :: after ∧ NoCalls before := by
  induction body with
  | nil =>
    refine absurd (fun e he => ?_) h
    cases he
  | cons e body ih =>
    by_cases he : ∃ site, e = .call site
    · obtain ⟨site, rfl⟩ := he
      refine ⟨[], site, body, rfl, fun e he => ?_⟩
      cases he
    · have hrest : ¬ NoCalls body := by
        intro hrest
        apply h
        intro x hx site heq
        rcases List.mem_cons.mp hx with rfl | hx
        · exact he ⟨site, heq⟩
        · exact hrest x hx site heq
      obtain ⟨before, site, after, rfl, hbefore⟩ := ih hrest
      refine ⟨e :: before, site, after, rfl, fun x hx y heq => ?_⟩
      rcases List.mem_cons.mp hx with rfl | hx
      · exact he ⟨y, heq⟩
      · exact hbefore x hx y heq

/-- The body of an outermost call leaves the address of the call in `callStack[0]` exactly if it
takes a call. -/
theorem body_slot_of_call {site : Word} {body : List Event} {c c' : CallState}
    (h : Path CallStep c body c') (hnest : Along track WellNested [] body)
    (hzero : Along track OutsideZero [site] body) (hbounded : c.Bounded)
    (hstack : c.returnStack = [site]) (hcalls : ¬ NoCalls body) :
    site ≠ 0 ∧ c'.callStack 0 = site := by
  obtain ⟨before, x, after, rfl, hbefore⟩ := exists_first_call hcalls
  obtain ⟨hnestBefore, -, hnestAfter⟩ := along_append.mp hnest
  obtain ⟨hzeroBefore, hzeroCall, hzeroAfter⟩ := along_append.mp hzero
  obtain ⟨hfold, hsame⟩ := quiet_of_noCalls hnestBefore hbefore
  obtain ⟨c₁, hpath, hcall⟩ := h.split
  obtain rfl := hsame _ _ hpath
  have hfold' : before.foldl track [site] = [site] := by
    have happend := foldl_track_append [site] hnestBefore
    rwa [hfold] at happend
  rw [hfold] at hnestAfter
  rw [hfold'] at hzeroCall hzeroAfter
  have hsite : site ≠ 0 := by
    rintro rfl
    exact hzeroCall rfl
  refine ⟨hsite, ?_⟩
  cases hcall with
  | cons hstep hafter =>
    have hjump : c₁.jump = site := (List.cons.inj hstack).1
    have hpushed := hstep.returnStack_call (by rwa [hjump])
    rw [hstack] at hpushed
    have hslot := slot_of_live (l := []) (List.cons.inj hpushed).2
    exact @body_slot site [x] _ _ _ hafter hnestAfter hzeroAfter (hstep.bounded hbounded) hpushed hslot

/-! A call, its body and its `END`, on the call state -/

section

variable {site : Word} {body : List Event} {c c₁ c₂ c' : CallState}

/-- A call from an address that is not 0 is undone by its `END`. -/
theorem restored_of_jump_ne (hcall : CallStep c (.call site) c₁) (hbody : Path CallStep c₁ body c₂)
    (hend : CallStep c₂ .end c') (hbounded : c.Bounded) (hbalanced : Balanced body)
    (hzero : Along track OutsideZero [site] body) (hjump : c.jump ≠ 0) :
    c'.jump = c.jump ∧ c'.callStackCounter = c.callStackCounter ∧ c'.live = c.live := by
  obtain ⟨hnest, hfold⟩ := hbalanced
  have hstack₁ := hcall.returnStack_call hjump
  obtain ⟨hbounded₂, hstack₂⟩ := body_run hbody hnest hzero (hcall.bounded hbounded) hstack₁
  rw [hfold] at hstack₂
  have hlive₂ : c₂.live = c.returnStack := (List.cons.inj hstack₂).2
  have hcounter₂ : c₂.callStackCounter ≠ 0 := by
    intro hcounter
    have hnone := hlive₂.symm.trans ((CallState.live_eq_nil_iff hbounded₂).mpr hcounter)
    exact List.cons_ne_nil _ _ hnone
  have hstack₃ : c'.returnStack = c.returnStack :=
    (hend.returnStack_end hcounter₂).1.trans hlive₂
  obtain ⟨hjump₃, hlive₃⟩ := List.cons.inj hstack₃
  refine ⟨hjump₃, ?_, hlive₃⟩
  rw [← CallState.live_length (hend.bounded hbounded₂), ← CallState.live_length hbounded, hlive₃]

/-- A call from address 0 with nothing on the stack: its `END` reads `callStack[0]`. -/
theorem restored_outermost_iff (hcall : CallStep c (.call site) c₁)
    (hbody : Path CallStep c₁ body c₂) (hend : CallStep c₂ .end c')
    (hc : c.Bounded ∧ SlotInvariant c) (hbalanced : Balanced body)
    (hzero : Along track OutsideZero [site] body) (hjump : c.jump = 0)
    (hcounter : c.callStackCounter = 0) :
    (c'.jump = c.jump ∧ c'.callStackCounter = c.callStackCounter ∧ c'.live = c.live) ↔
      NoCalls body := by
  obtain ⟨hbounded, -, hempty⟩ := hc
  obtain ⟨hnest, hfold⟩ := hbalanced
  have hbounded₁ := hcall.bounded hbounded
  have hstack₁ := hcall.returnStack_call_empty hjump
  obtain ⟨hbounded₂, hstack₂⟩ := body_run hbody hnest hzero hbounded₁ hstack₁
  rw [hfold] at hstack₂
  have hlive₂ : c₂.live = c.live := (List.cons.inj hstack₂).2
  have hnone : c.live = [] := (CallState.live_eq_nil_iff hbounded).mpr hcounter
  have hcounter₂ : c₂.callStackCounter = 0 :=
    (CallState.live_eq_nil_iff hbounded₂).mp (hlive₂.trans hnone)
  obtain ⟨hjump₃, hlive₃⟩ := List.cons.inj (hend.returnStack_end_empty hcounter₂).1
  have hcounter₃ : c'.callStackCounter = 0 :=
    (CallState.live_eq_nil_iff (hend.bounded hbounded₂)).mp hlive₃
  by_cases hcalls : NoCalls body
  · have hsame : c₂ = c₁ := (quiet_of_noCalls hnest hcalls).2 _ _ hbody
    have hslot : c₁.callStack = c.callStack := by
      cases hcall with
      | callEmpty => rfl
      | callPush _ hne => exact absurd hjump hne
    refine iff_of_true ⟨?_, ?_, ?_⟩ hcalls
    · rw [hjump₃, hsame, hslot, hempty hcounter hjump, hjump]
    · rw [hcounter₃, hcounter]
    · rw [hlive₃, hnone]
  · rw [hnone] at hstack₁
    obtain ⟨hsite, hslot⟩ := body_slot_of_call hbody hnest hzero hbounded₁ hstack₁ hcalls
    refine iff_of_false (fun ⟨hrestored, _, _⟩ => hsite ?_) hcalls
    rw [← hslot, ← hjump₃, hrestored, hjump]

/-- Deeper down, a call from address 0 takes the top of the stack for no call, and its `END` pops one
entry too many. -/
theorem not_restored_inside (hcall : CallStep c (.call site) c₁) (hbody : Path CallStep c₁ body c₂)
    (hend : CallStep c₂ .end c') (hbounded : c.Bounded) (hbalanced : Balanced body)
    (hzero : Along track OutsideZero [site] body) (hjump : c.jump = 0)
    (hcounter : c.callStackCounter ≠ 0) : c'.live ≠ c.live := by
  obtain ⟨hnest, hfold⟩ := hbalanced
  have hstack₁ := hcall.returnStack_call_empty hjump
  obtain ⟨hbounded₂, hstack₂⟩ := body_run hbody hnest hzero (hcall.bounded hbounded) hstack₁
  rw [hfold] at hstack₂
  have hlive₂ : c₂.live = c.live := (List.cons.inj hstack₂).2
  have hcounter₂ : c₂.callStackCounter ≠ 0 := by
    intro hzero₂
    apply hcounter
    rw [← CallState.live_eq_nil_iff hbounded, ← hlive₂]
    exact (CallState.live_eq_nil_iff hbounded₂).mpr hzero₂
  have hstack₃ := (hend.returnStack_end hcounter₂).1.trans hlive₂
  intro hrestored
  have hlength := congrArg List.length hstack₃
  rw [CallState.returnStack, List.length_cons, hrestored] at hlength
  exact Nat.succ_ne_self _ hlength

end

/-- The law of a call, its body and its `END`, on the call state -/
theorem callState_restored_iff {site : Word} {body : List Event} {c c' : CallState}
    (h : Path CallStep c (.call site :: body ++ [.end]) c') (hc : c.Bounded ∧ SlotInvariant c)
    (hbalanced : Balanced body) (hzero : Along track OutsideZero [site] body) :
    (c'.jump = c.jump ∧ c'.callStackCounter = c.callStackCounter ∧ c'.live = c.live) ↔
      c.jump ≠ 0 ∨ c.callStackCounter = 0 ∧ NoCalls body := by
  cases h with
  | @cons _ c₁ _ _ _ hcall h =>
  obtain ⟨c₂, hbody, hlast⟩ := h.split
  cases hlast with
  | @cons _ c₃ _ _ _ hend hnil =>
  cases hnil
  by_cases hjump : c.jump = 0
  · rw [or_iff_right (not_not.mpr hjump)]
    by_cases hcounter : c.callStackCounter = 0
    · rw [and_iff_right hcounter]
      exact restored_outermost_iff hcall hbody hend hc hbalanced hzero hjump hcounter
    · refine iff_of_false (fun hrestored => ?_) fun h => hcounter h.1
      exact not_restored_inside hcall hbody hend hc.1 hbalanced hzero hjump hcounter hrestored.2.2
  · exact iff_of_true (restored_of_jump_ne hcall hbody hend hc.1 hbalanced hzero hjump) (.inl hjump)

/-- After a run without jump-register writes, take a call, a balanced body in which no call is taken
directly inside a call made from address 0 (the first call included), and the `END` of the first
call. The call state is what it was exactly if the jump register was not 0, or nothing was on the
call stack and the body takes no call. -/
theorem call_end_restores_iff (memory : Fin N → Word) (stdin : List UInt8) {past : List Event}
    {m m' : State N} (hrun : Path Turn (initialState memory stdin) past m)
    (hclean : ∀ e ∈ past, e ≠ .jumpWrite) {site : Word} {body : List Event}
    (hsegment : Path Turn m (.call site :: body ++ [.end]) m') (hbalanced : Balanced body)
    (hzero : Along track OutsideZero [site] body) :
    (m'.jump = m.jump ∧ m'.callStackCounter = m.callStackCounter ∧
        m'.callState.live = m.callState.live) ↔
      m.jump ≠ 0 ∨ m.callStackCounter = 0 ∧ NoCalls body :=
  callState_restored_iff (callState_path hsegment) (slotInvariant_run memory stdin hrun hclean)
    hbalanced hzero

/-- `0: BRAN 1`, `1: CALL 3`, `2: HALT`, `3: CALL 6`, `4: ADD r0, r0`, `5: END`, `6: CALL 8`, `7: END`,
`8: END` -/
def deepCalls : Fin 9 → Word := fun k =>
  [rbmlInst Opcode.bran.code 0 0 1, rbmlInst Opcode.call.code 0 0 3,
   rbmlInst Opcode.halt.code 0 0 0, rbmlInst Opcode.call.code 0 0 6,
   rbmlInst Opcode.add.code 0 0 0, rbmlInst Opcode.end.code 0 0 0,
   rbmlInst Opcode.call.code 0 0 8, rbmlInst Opcode.end.code 0 0 0,
   rbmlInst Opcode.end.code 0 0 0].getD k 0

/-- The middle call of `deepCalls`, with a call in its body, gives back the call state. -/
theorem deepCalls_middle_restored : ∃ past m m', Path Turn (initialState deepCalls []) past m ∧
    Path Turn m [.call 3, .call 6, .end, .end] m' ∧ m'.jump = m.jump ∧
      m'.callStackCounter = m.callStackCounter ∧ m'.callState.live = m.callState.live := by
  obtain ⟨past, m, hrun, hm⟩ := @exists_path_of_turns 9 _ .silent 2 (initialState deepCalls [])
    (fun events m => (events, m.jump, (turns .silent 4 m).toOption.map Prod.fst))
    ([.other, .call 1], 1, some [.call 3, .call 6, .end, .end]) (by decide +kernel)
  obtain ⟨rfl, hjump, hturns⟩ : past = [.other, .call 1] ∧ m.jump = 1 ∧
      (turns .silent 4 m).toOption.map Prod.fst = some [.call 3, .call 6, .end, .end] := by
    simpa only [Prod.mk.injEq] using hm
  obtain ⟨events, m', hsegment, rfl⟩ :=
    @exists_path_of_turns 9 _ .silent 4 m (fun events _ => events) _ hturns
  refine ⟨_, m, m', hrun, hsegment, ?_⟩
  refine (@call_end_restores_iff 9 deepCalls [] _ m m' hrun (by decide) 3 [.call 6, .end] hsegment
    ⟨by decide, rfl⟩ (by decide)).mpr (.inl ?_)
  rw [hjump]
  decide

/-- The outermost call of `nestedCalls` leaves its address in the jump register. -/
theorem nestedCalls_not_restored :
    ¬ ∀ (N : Nat) (memory : Fin N → Word) (stdin : List UInt8) (past : List Event)
        (m m' : State N) (site : Word) (body : List Event),
      Path Turn (initialState memory stdin) past m → (∀ e ∈ past, e ≠ .jumpWrite) →
      Path Turn m (.call site :: body ++ [.end]) m' → Balanced body →
      m'.jump = m.jump ∧ m'.callStackCounter = m.callStackCounter ∧
        m'.callState.live = m.callState.live := by
  intro h
  obtain ⟨events, m', hrun, hm⟩ := @exists_path_of_turns 6 _ .silent 5
    (initialState nestedCalls []) (fun events m => (events, m.jump))
    ([.other, .call 1, .call 3, .end, .end], 1) (by decide +kernel)
  obtain ⟨rfl, hjump⟩ := Prod.mk.inj hm
  have hparts : Path Turn (initialState nestedCalls [])
      ([.other] ++ [.call 1, .call 3, .end, .end]) m' := hrun
  obtain ⟨m, hpast, hsegment⟩ := hparts.split
  have hquiet : NoCalls [.other] := by
    intro e he site heq
    rw [List.mem_singleton.mp he] at heq
    cases heq
  have hstart : m.jump = 0 := by
    have hsame := (quiet_of_noCalls (by decide) hquiet).2 _ _ (callState_path hpast)
    exact congrArg CallState.jump hsame
  obtain ⟨hrestored, -, -⟩ := h 6 nestedCalls [] [.other] m m' 1 [.call 3, .end] hpast (by decide)
    hsegment ⟨by decide, rfl⟩
  rw [hjump, hstart] at hrestored
  exact absurd hrestored (by decide)

end Rbml.Machine
