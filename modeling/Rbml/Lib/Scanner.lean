import Mathlib.Data.List.Basic

/-!
# Scanning by longest match

A scanner is a list of rules. Each rule knows how much of the input it matches and what it makes of
it. At every point of the input the rule with the longest match is applied, and of several the first
in the list. Where no rule matches, one symbol of the input is passed over.
-/

namespace Rbml.Lib

variable {α τ : Type*}

/-- A rule of a scanner: the length of its longest match at the head of the input, 0 if there is
none, and its action on what it matched -/
structure Rule (α τ : Type*) where
  length : List α → Nat
  action : List α → τ

/-- The rule to apply: one with the longest match, and the first of them -/
def selectRule (input : List α) : List (Rule α τ) → Option (Rule α τ)
  | [] => none
  | r :: rules =>
    match selectRule input rules with
    | none => if 0 < r.length input then some r else none
    | some s => if s.length input ≤ r.length input then some r else some s

/-- What the rules make of the input, in at most `fuel` matches -/
def scanFrom (rules : List (Rule α τ)) : Nat → List α → List τ
  | 0, _ => []
  | _, [] => []
  | fuel + 1, a :: input =>
    match selectRule (a :: input) rules with
    | none => scanFrom rules fuel input
    | some r =>
      let n := r.length (a :: input)
      r.action ((a :: input).take n) :: scanFrom rules fuel ((a :: input).drop n)

/-- What the rules make of the whole input: a match takes at least one symbol. -/
def scan (rules : List (Rule α τ)) (input : List α) : List τ := scanFrom rules input.length input

theorem selectRule_eq_some {input : List α} {rules : List (Rule α τ)} {r : Rule α τ}
    (h : selectRule input rules = some r) : r ∈ rules ∧ 0 < r.length input := by
  induction rules generalizing r with
  | nil => cases h
  | cons s rules ih =>
    rw [selectRule] at h
    cases hrest : selectRule input rules with
    | none =>
      rw [hrest] at h
      simp only at h
      split at h
      next hpos =>
        cases h
        exact ⟨List.mem_cons_self, hpos⟩
      · cases h
    | some t =>
      obtain ⟨hmem, hpos⟩ := ih hrest
      rw [hrest] at h
      simp only at h
      split at h
      next hle =>
        cases h
        exact ⟨List.mem_cons_self, Nat.lt_of_lt_of_le hpos hle⟩
      · cases h
        exact ⟨List.mem_cons_of_mem _ hmem, hpos⟩

theorem exists_selectRule {input : List α} {rules : List (Rule α τ)} {r : Rule α τ} (hr : r ∈ rules)
    (hpos : 0 < r.length input) :
    ∃ s, selectRule input rules = some s ∧ r.length input ≤ s.length input := by
  induction rules with
  | nil => cases hr
  | cons t rules ih =>
    rw [selectRule]
    cases hrest : selectRule input rules with
    | none =>
      rcases List.mem_cons.mp hr with rfl | hr
      · exact ⟨r, if_pos hpos, Nat.le_refl _⟩
      · obtain ⟨s, hs, -⟩ := ih hr
        cases hrest.symm.trans hs
    | some s =>
      show ∃ s', (if s.length input ≤ t.length input then some t else some s) = some s' ∧ _
      by_cases hle : s.length input ≤ t.length input
      · refine ⟨t, if_pos hle, ?_⟩
        rcases List.mem_cons.mp hr with rfl | hr
        · exact Nat.le_refl _
        · obtain ⟨s', hs', hlong⟩ := ih hr
          cases hrest.symm.trans hs'
          exact Nat.le_trans hlong hle
      · refine ⟨s, if_neg hle, ?_⟩
        rcases List.mem_cons.mp hr with rfl | hr
        · exact Nat.le_of_not_le hle
        · obtain ⟨s', hs', hlong⟩ := ih hr
          cases hrest.symm.trans hs'
          exact hlong

theorem selectRule_congr {input input' : List α} {rules : List (Rule α τ)}
    (h : ∀ r ∈ rules, r.length input = r.length input') :
    selectRule input rules = selectRule input' rules := by
  induction rules with
  | nil => rfl
  | cons t rules ih =>
    rw [selectRule, selectRule, ih fun r hr => h r (List.mem_cons_of_mem _ hr),
      h t List.mem_cons_self]
    cases hrest : selectRule input' rules with
    | none => rfl
    | some s => simp only [h s (List.mem_cons_of_mem _ (selectRule_eq_some hrest).1)]

/-- The rule to apply, from the matches of the rules before and after it -/
theorem selectRule_append {input : List α} {pre post : List (Rule α τ)} {r : Rule α τ}
    (hpos : 0 < r.length input) (hpre : ∀ s ∈ pre, s.length input < r.length input)
    (hpost : ∀ s ∈ post, s.length input ≤ r.length input) :
    selectRule input (pre ++ r :: post) = some r := by
  induction pre with
  | nil =>
    rw [List.nil_append, selectRule]
    cases hrest : selectRule input post with
    | none => exact if_pos hpos
    | some t => exact if_pos (hpost t (selectRule_eq_some hrest).1)
  | cons s pre ih =>
    rw [List.cons_append, selectRule, ih fun t ht => hpre t (List.mem_cons_of_mem _ ht)]
    exact if_neg (Nat.not_le_of_lt (hpre s List.mem_cons_self))

/-- What comes before and after the rule that is applied -/
theorem selectRule_split {input : List α} {rules : List (Rule α τ)} {r : Rule α τ}
    (h : selectRule input rules = some r) :
    ∃ pre post, rules = pre ++ r :: post ∧ (∀ s ∈ pre, s.length input < r.length input) ∧
      ∀ s ∈ post, s.length input ≤ r.length input := by
  induction rules with
  | nil => cases h
  | cons t rules ih =>
    rw [selectRule] at h
    cases hrest : selectRule input rules with
    | none =>
      rw [hrest] at h
      simp only at h
      split at h
      · cases h
        refine ⟨[], rules, rfl, List.forall_mem_nil _, fun s hs => ?_⟩
        by_contra hlong
        obtain ⟨s', hs', -⟩ := exists_selectRule hs (Nat.lt_of_le_of_lt (Nat.zero_le _)
          (Nat.lt_of_not_le hlong))
        cases hrest.symm.trans hs'
      · cases h
    | some s =>
      rw [hrest] at h
      simp only at h
      split at h
      next hle =>
        cases h
        refine ⟨[], rules, rfl, List.forall_mem_nil _, fun s' hs' => ?_⟩
        rcases Nat.eq_zero_or_pos (s'.length input) with hzero | hpos
        · rw [hzero]
          exact Nat.zero_le _
        · obtain ⟨s'', hs'', hlong⟩ := exists_selectRule hs' hpos
          cases hrest.symm.trans hs''
          exact Nat.le_trans hlong hle
      next hlt =>
        cases h
        obtain ⟨pre, post, hsplit, hpre, hpost⟩ := ih hrest
        refine ⟨t :: pre, post, by rw [hsplit, List.cons_append], ?_, hpost⟩
        intro s' hs'
        rcases List.mem_cons.mp hs' with rfl | hs'
        · exact Nat.lt_of_not_le hlt
        · exact hpre s' hs'

/-- Rules at the front that do not match make no difference. -/
theorem selectRule_append_of_zero {input : List α} {pre rules : List (Rule α τ)}
    (hpre : ∀ s ∈ pre, s.length input = 0) :
    selectRule input (pre ++ rules) = selectRule input rules := by
  induction pre with
  | nil => rfl
  | cons s pre ih =>
    rw [List.cons_append, selectRule, ih fun t ht => hpre t (List.mem_cons_of_mem _ ht),
      hpre s List.mem_cons_self]
    cases hrest : selectRule input rules with
    | none => exact if_neg (Nat.lt_irrefl 0)
    | some t => exact if_neg (Nat.not_le_of_lt (selectRule_eq_some hrest).2)

/-- Rules at the end that match no more than one before them make no difference. -/
theorem selectRule_append_of_le {input : List α} {front post : List (Rule α τ)} {r : Rule α τ}
    (hr : r ∈ front) (hpos : 0 < r.length input)
    (hpost : ∀ s ∈ post, s.length input ≤ r.length input) :
    selectRule input (front ++ post) = selectRule input front := by
  obtain ⟨s, hs, hlong⟩ := exists_selectRule hr hpos
  obtain ⟨before, after, hsplit, hbefore, hafter⟩ := selectRule_split hs
  rw [hs, hsplit, List.append_assoc, List.cons_append]
  refine selectRule_append (Nat.lt_of_lt_of_le hpos hlong) hbefore ?_
  intro t ht
  rcases List.mem_append.mp ht with ht | ht
  · exact hafter t ht
  · exact Nat.le_trans (hpost t ht) hlong

/-- More fuel than symbols makes no difference. -/
theorem scanFrom_eq_scan (rules : List (Rule α τ)) {fuel : Nat} {input : List α}
    (h : input.length ≤ fuel) : scanFrom rules fuel input = scan rules input := by
  induction fuel using Nat.strongRecOn generalizing input with
  | ind fuel ih =>
    cases input with
    | nil => cases fuel <;> rfl
    | cons a input =>
      obtain ⟨fuel, rfl⟩ := Nat.exists_eq_add_of_le' (Nat.le_trans (Nat.le_add_left 1 _) h)
      have hfuel : input.length ≤ fuel := Nat.le_of_succ_le_succ h
      have hshort : ∀ rest : List α, rest.length ≤ input.length →
          scanFrom rules fuel rest = scanFrom rules input.length rest := by
        intro rest hrest
        rw [ih fuel (Nat.lt_succ_self fuel) (Nat.le_trans hrest hfuel)]
        rcases Nat.eq_or_lt_of_le hfuel with heq | hlt
        · rw [heq, ih fuel (Nat.lt_succ_self fuel) (heq ▸ hrest)]
        · exact (ih input.length (Nat.lt_succ_of_lt hlt) hrest).symm
      rw [scan, List.length_cons, scanFrom, scanFrom]
      cases hrule : selectRule (a :: input) rules with
      | none => exact hshort input (Nat.le_refl _)
      | some r =>
        have hpos := (selectRule_eq_some hrule).2
        have hdrop : ((a :: input).drop (r.length (a :: input))).length ≤ input.length := by
          rw [List.length_drop, List.length_cons]
          omega
        show _ :: scanFrom rules fuel _ = _ :: scanFrom rules input.length _
        rw [hshort _ hdrop]

/-- One match of a rule, and the scan of the rest -/
theorem scan_eq_cons {rules : List (Rule α τ)} {r : Rule α τ} {input : List α} (hne : input ≠ [])
    (hrule : selectRule input rules = some r) :
    scan rules input =
      r.action (input.take (r.length input)) :: scan rules (input.drop (r.length input)) := by
  have hpos := (selectRule_eq_some hrule).2
  obtain ⟨a, t, rfl⟩ := List.exists_cons_of_ne_nil hne
  rw [scan, List.length_cons, scanFrom, hrule]
  show _ :: scanFrom rules _ _ = _
  rw [scanFrom_eq_scan rules (by rw [List.length_drop, List.length_cons]; omega)]

theorem scan_append {rules : List (Rule α τ)} {r : Rule α τ} {m rest : List α}
    (hrule : selectRule (m ++ rest) rules = some r) (hlength : r.length (m ++ rest) = m.length) :
    scan rules (m ++ rest) = r.action m :: scan rules rest := by
  have hne : m ++ rest ≠ [] := by
    intro hnil
    have hpos := (selectRule_eq_some hrule).2
    rw [hlength, (List.append_eq_nil_iff.mp hnil).1] at hpos
    exact Nat.lt_irrefl 0 hpos
  rw [scan_eq_cons hne hrule, hlength, List.take_left, List.drop_left]

/-- An input that is one match -/
theorem scan_eq_singleton {rules : List (Rule α τ)} {r : Rule α τ} {m : List α}
    (hrule : selectRule m rules = some r) (hlength : r.length m = m.length) :
    scan rules m = [r.action m] := by
  rw [← List.append_nil m] at hrule hlength
  have hscan := scan_append hrule (by rw [hlength, List.append_nil])
  rw [List.append_nil] at hscan
  exact hscan

/-- Where no match goes past `m`, `m` is scanned by itself. -/
theorem scan_split {rules : List (Rule α τ)} {m rest : List α}
    (hlocal : ∀ s, s <:+ m → s ≠ [] → ∀ r ∈ rules, r.length (s ++ rest) = r.length s)
    (hbound : ∀ s, s <:+ m → ∀ r ∈ rules, r.length s ≤ s.length) :
    scan rules (m ++ rest) = scan rules m ++ scan rules rest := by
  induction hn : m.length using Nat.strongRecOn generalizing m with
  | ind n ih =>
    cases m with
    | nil => rfl
    | cons a t =>
      have hrule : selectRule (a :: t ++ rest) rules = selectRule (a :: t) rules :=
        selectRule_congr (hlocal (a :: t) List.suffix_rfl (List.cons_ne_nil a t))
      have hsuffix : ∀ s, s <:+ a :: t → s.length < n →
          scan rules (s ++ rest) = scan rules s ++ scan rules rest := by
        intro s hs hlt
        exact ih s.length hlt (fun s' hs' => hlocal s' (hs'.trans hs))
          (fun s' hs' => hbound s' (hs'.trans hs)) rfl
      cases hselect : selectRule (a :: t) rules with
      | none =>
        have hone : ∀ u : List α, selectRule (a :: u) rules = none →
            scan rules (a :: u) = scan rules u := by
          intro u hu
          rw [scan, List.length_cons, scanFrom, hu]
          rfl
        show scan rules (a :: (t ++ rest)) = _
        rw [hone (t ++ rest) (hrule.trans hselect), hone t hselect]
        refine hsuffix t (List.suffix_cons a t) ?_
        rw [← hn]
        exact Nat.lt_succ_self _
      | some r =>
        obtain ⟨hr, hpos⟩ := selectRule_eq_some hselect
        have hle := hbound (a :: t) List.suffix_rfl r hr
        have hlength := hlocal (a :: t) List.suffix_rfl (List.cons_ne_nil a t) r hr
        have hshort : ((a :: t).drop (r.length (a :: t))).length < n := by
          rw [← hn, List.length_drop, List.length_cons]
          omega
        have hne : a :: t ++ rest ≠ [] := List.append_ne_nil_of_left_ne_nil (List.cons_ne_nil a t) rest
        rw [scan_eq_cons hne (hrule.trans hselect), hlength,
          scan_eq_cons (List.cons_ne_nil a t) hselect, List.take_append_of_le_length hle,
          List.drop_append_of_le_length hle, hsuffix _ (List.drop_suffix _ _) hshort,
          List.cons_append]

/-- Everything that a scanner gives is some rule's action on a match of that rule, somewhere in the
input. -/
theorem scan_forall {rules : List (Rule α τ)} {P : τ → Prop} {input : List α}
    (hrules : ∀ r ∈ rules, ∀ s, s <:+ input → 0 < r.length s → P (r.action (s.take (r.length s)))) :
    ∀ x ∈ scan rules input, P x := by
  unfold scan
  generalize input.length = fuel
  induction fuel generalizing input with
  | zero =>
    intro x hx
    cases hx
  | succ fuel ih =>
    intro x hx
    cases input with
    | nil => cases hx
    | cons a input =>
      rw [scanFrom] at hx
      split at hx
      · exact ih (fun r hr s hs => hrules r hr s (hs.trans (List.suffix_cons a input))) x hx
      next r hr =>
        obtain ⟨hmem, hpos⟩ := selectRule_eq_some hr
        rcases List.mem_cons.mp hx with rfl | hx
        · exact hrules r hmem _ List.suffix_rfl hpos
        · exact ih (fun r hr s hs => hrules r hr s (hs.trans (List.drop_suffix _ _))) x hx

end Rbml.Lib
